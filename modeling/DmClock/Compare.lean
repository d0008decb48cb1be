import DmClock.ClientRec
import Mathlib.Data.Prod.Lex
import Mathlib.Order.WithBot
import Mathlib.Data.Fintype.Order
import Mathlib.Order.CompletePartialOrder

/- The orderings of client records: `PriorityQueueBase::ClientCompare` (one template
   instance per heap) and `ClientCompareAtOnce` (the three comparisons the indirect vector
   makes in one sweep).

   Each of the three views compares records by a key in a linear order (`resvKey`,
   `readyKey`, `limitKey`): a record without a request comes after every record with one;
   the ready view puts ready fronts first and then compares `proportion + prop_delta`; the
   limit view puts fronts that are not ready first and then compares `limit`. Every instance
   of the template is `<` on one key of its parameters (`clientCompare_iff` over
   `compareKey`), and each view's key orders as that one. So the combined comparator is
   the three heap comparators (`clientCompareAtOnce_eq_heapCompares`), each is a strict weak
   order (`isStrictWeakOrder_of_key`), and a change of a record is a move later (or earlier)
   in a view exactly as its key grows (or shrinks): `movesLater_of_le`, `movesEarlier_of_le`.

   The order on `Bool` in the ready and limit keys is taken, as with all of Mathlib, through
   `Bool.completeAtomicBooleanAlgebra` (`Mathlib.Data.Fintype.Order`), so the keys' orders
   elaborate to the same instances whichever part of Mathlib a later module imports.
-/

namespace DmClock

/-- `ReadyOption`: how the `ready` flag takes part in a comparison. -/
inductive ReadyOption
  | ignore
  | lowers
  | raises
  deriving DecidableEq, Repr

/-- `ClientCompare<tag_field, ready_opt, use_prop_delta>`: whether `n1` must precede `n2`. -/
def clientCompare (tagField : RequestTag → Tag) (readyOpt : ReadyOption) (usePropDelta : Bool)
    (n1 n2 : ClientRec) : Bool :=
  match n1.requests, n2.requests with
  | q1 :: _, q2 :: _ =>
    if readyOpt = .ignore ∨ q1.tag.ready = q2.tag.ready then
      if usePropDelta then
        decide (tagField q1.tag + n1.propDelta < tagField q2.tag + n2.propDelta)
      else decide (tagField q1.tag < tagField q2.tag)
    else if readyOpt = .raises then q1.tag.ready
    else q2.tag.ready
  | _ :: _, [] => true
  | [], _ :: _ => false
  | [], [] => false

/-- The comparator of `resv_heap`. -/
def resvCompare : ClientRec → ClientRec → Bool :=
  clientCompare RequestTag.reservation .ignore false

/-- The comparator of `limit_heap`. -/
def limitCompare : ClientRec → ClientRec → Bool :=
  clientCompare RequestTag.limit .lowers false

/-- The comparator of `ready_heap`. -/
def readyCompare : ClientRec → ClientRec → Bool :=
  clientCompare RequestTag.proportion .raises true

namespace ClientCompareAtOnce

/-- The reservation block of `ClientCompareAtOnce`: `*resv_flag` for `n1` against `n2`. -/
def resvFlag (n1 n2 : ClientRec) : Bool :=
  match n1.requests, n2.requests with
  | q1 :: _, q2 :: _ => decide (q1.tag.reservation < q2.tag.reservation)
  | _ :: _, [] => true
  | [], _ :: _ => false
  | [], [] => false

/-- The proportion block: `*ready_flag` for `n1` against `n3`. -/
def readyFlag (n1 n3 : ClientRec) : Bool :=
  match n1.requests, n3.requests with
  | q1 :: _, q3 :: _ =>
    if q1.tag.ready = q3.tag.ready then
      decide (q1.tag.proportion + n1.propDelta < q3.tag.proportion + n3.propDelta)
    else q1.tag.ready
  | _ :: _, [] => true
  | [], _ :: _ => false
  | [], [] => false

/-- The limit block: `*limit_flag` for `n1` against `n4`. -/
def limitFlag (n1 n4 : ClientRec) : Bool :=
  match n1.requests, n4.requests with
  | q1 :: _, q4 :: _ =>
    if q1.tag.ready = q4.tag.ready then decide (q1.tag.limit < q4.tag.limit)
    else q4.tag.ready
  | _ :: _, [] => true
  | [], _ :: _ => false
  | [], [] => false

end ClientCompareAtOnce

/-- `ClientCompareAtOnce::operator()` with all three flags asked for. -/
def clientCompareAtOnce (n1 n2 n3 n4 : ClientRec) : Bool × Bool × Bool :=
  (ClientCompareAtOnce.resvFlag n1 n2, ClientCompareAtOnce.readyFlag n1 n3,
    ClientCompareAtOnce.limitFlag n1 n4)

/-! ## The keys of the three views -/

/-- How a view orders fronts by `ready`, as a rank compared before the tag (`false` first):
`ignore` ranks every front alike, `lowers` puts fronts that are not ready first, `raises`
puts ready fronts first. -/
def ReadyOption.rank : ReadyOption → Bool → Bool
  | .ignore, _ => false
  | .lowers, b => b
  | .raises, b => !b

/-- The key `ClientCompare<tag_field, ready_opt, use_prop_delta>` orders records by: the rank
of the front's `ready`, then its tag (plus `prop_delta` when asked); `⊤` without a request. -/
def compareKey (tagField : RequestTag → Tag) (readyOpt : ReadyOption) (usePropDelta : Bool)
    (n : ClientRec) : WithTop (Bool ×ₗ Tag) :=
  match n.requests with
  | q :: _ => ((toLex (readyOpt.rank q.tag.ready,
      if usePropDelta then tagField q.tag + n.propDelta else tagField q.tag) : Bool ×ₗ Tag) :
      WithTop (Bool ×ₗ Tag))
  | [] => ⊤

/-- The reservation view's key: the front's reservation tag; `⊤` without a request. -/
def resvKey (n : ClientRec) : WithTop Tag :=
  match n.requests with
  | q :: _ => (q.tag.reservation : WithTop Tag)
  | [] => ⊤

/-- The ready view's key: ready fronts first, then `proportion + prop_delta`. -/
def readyKey (n : ClientRec) : WithTop (Bool ×ₗ Tag) :=
  match n.requests with
  | q :: _ => ((toLex (!q.tag.ready, q.tag.proportion + n.propDelta) : Bool ×ₗ Tag) :
      WithTop (Bool ×ₗ Tag))
  | [] => ⊤

/-- The limit view's key: fronts that are not ready first, then `limit`. -/
def limitKey (n : ClientRec) : WithTop (Bool ×ₗ Tag) :=
  match n.requests with
  | q :: _ => ((toLex (q.tag.ready, q.tag.limit) : Bool ×ₗ Tag) : WithTop (Bool ×ₗ Tag))
  | [] => ⊤

section Keys
variable (n1 n2 : ClientRec)

/-- Every instance of `ClientCompare` is `<` on its `compareKey`. -/
theorem clientCompare_iff (tagField : RequestTag → Tag) (readyOpt : ReadyOption)
    (usePropDelta : Bool) :
    clientCompare tagField readyOpt usePropDelta n1 n2 = true ↔
      compareKey tagField readyOpt usePropDelta n1 < compareKey tagField readyOpt usePropDelta n2 := by
  unfold clientCompare compareKey
  cases n1.requests with
  | nil => cases n2.requests <;> simp
  | cons q1 _ =>
    cases n2.requests with
    | nil => simp [WithTop.coe_lt_top]
    | cons q2 _ =>
      cases readyOpt <;> cases usePropDelta <;> cases h1 : q1.tag.ready <;>
        cases h2 : q2.tag.ready <;> simp [h1, h2, ReadyOption.rank, Prod.Lex.lt_iff]

theorem readyKey_eq_compareKey : readyKey n1 = compareKey RequestTag.proportion .raises true n1 := by
  unfold readyKey compareKey; cases n1.requests <;> rfl

theorem limitKey_eq_compareKey : limitKey n1 = compareKey RequestTag.limit .lowers false n1 := by
  unfold limitKey compareKey; cases n1.requests <;> rfl

/-- The reservation view ranks every front alike, so its key drops the rank. -/
theorem resvKey_lt_iff :
    resvKey n1 < resvKey n2 ↔
      compareKey RequestTag.reservation .ignore false n1 <
        compareKey RequestTag.reservation .ignore false n2 := by
  unfold resvKey compareKey
  cases n1.requests <;> cases n2.requests <;> simp [ReadyOption.rank, Prod.Lex.lt_iff, WithTop.coe_lt_top]

theorem resvCompare_iff : resvCompare n1 n2 = true ↔ resvKey n1 < resvKey n2 :=
  (clientCompare_iff n1 n2 _ _ _).trans (resvKey_lt_iff n1 n2).symm

theorem readyCompare_iff : readyCompare n1 n2 = true ↔ readyKey n1 < readyKey n2 := by
  rw [readyKey_eq_compareKey, readyKey_eq_compareKey]; exact clientCompare_iff n1 n2 _ _ _

theorem limitCompare_iff : limitCompare n1 n2 = true ↔ limitKey n1 < limitKey n2 := by
  rw [limitKey_eq_compareKey, limitKey_eq_compareKey]; exact clientCompare_iff n1 n2 _ _ _

/-! Each block of `ClientCompareAtOnce` is the heap comparator it stands for. -/

theorem resvFlag_eq : ClientCompareAtOnce.resvFlag n1 n2 = resvCompare n1 n2 := by
  unfold ClientCompareAtOnce.resvFlag resvCompare clientCompare
  cases n1.requests <;> cases n2.requests <;> simp

theorem readyFlag_eq : ClientCompareAtOnce.readyFlag n1 n2 = readyCompare n1 n2 := by
  unfold ClientCompareAtOnce.readyFlag readyCompare clientCompare
  cases n1.requests <;> cases n2.requests <;> simp

theorem limitFlag_eq : ClientCompareAtOnce.limitFlag n1 n2 = limitCompare n1 n2 := by
  unfold ClientCompareAtOnce.limitFlag limitCompare clientCompare
  cases n1.requests <;> cases n2.requests <;> simp

theorem resvFlag_iff : ClientCompareAtOnce.resvFlag n1 n2 = true ↔ resvKey n1 < resvKey n2 := by
  rw [resvFlag_eq]; exact resvCompare_iff n1 n2

theorem readyFlag_iff :
    ClientCompareAtOnce.readyFlag n1 n2 = true ↔ readyKey n1 < readyKey n2 := by
  rw [readyFlag_eq]; exact readyCompare_iff n1 n2

theorem limitFlag_iff :
    ClientCompareAtOnce.limitFlag n1 n2 = true ↔ limitKey n1 < limitKey n2 := by
  rw [limitFlag_eq]; exact limitCompare_iff n1 n2

end Keys

/-- `ClientCompareAtOnce` computes the three heaps' comparators: its reservation flag for
`n1` against `n2` is `resv_heap`'s, its ready flag against `n3` is `ready_heap`'s, and its
limit flag against `n4` is `limit_heap`'s. Each pair is `<` on the same key. -/
theorem clientCompareAtOnce_eq_heapCompares (n1 n2 n3 n4 : ClientRec) :
    clientCompareAtOnce n1 n2 n3 n4 = (resvCompare n1 n2, readyCompare n1 n3, limitCompare n1 n4) := by
  simp only [clientCompareAtOnce, resvFlag_eq, readyFlag_eq, limitFlag_eq]

/-! ## Comparators on a key: order and moves -/

/-- Under `prec`, the record `x` became `x'` and moved later: whatever strictly preceded
`x` strictly precedes `x'`, and `x'` strictly precedes nothing `x` did not. -/
def MovesLater (prec : ClientRec → ClientRec → Bool) (x x' : ClientRec) : Prop :=
  ∀ z, (prec z x = true → prec z x' = true) ∧ (prec x' z = true → prec x z = true)

/-- The mirror of `MovesLater`: `x'` strictly precedes all `x` did, and nothing that did
not strictly precede `x` strictly precedes `x'`. -/
def MovesEarlier (prec : ClientRec → ClientRec → Bool) (x x' : ClientRec) : Prop :=
  ∀ z, (prec x z = true → prec x' z = true) ∧ (prec z x' = true → prec z x = true)

section Moves
variable {κ : Type} [LinearOrder κ] {prec : ClientRec → ClientRec → Bool} {key : ClientRec → κ}

/-- A comparator that is `<` on a key into a linear order is a strict weak order: records
are incomparable exactly when their keys are equal. -/
theorem isStrictWeakOrder_of_key (hk : ∀ a b, prec a b = true ↔ key a < key b) :
    IsStrictWeakOrder ClientRec (fun a b => prec a b = true) where
  irrefl a h := lt_irrefl _ ((hk a a).mp h)
  trans a b c hab hbc := (hk a c).mpr (((hk a b).mp hab).trans ((hk b c).mp hbc))
  incomp_trans a b c hab hbc := by
    simp only [hk, not_lt] at hab hbc ⊢
    exact ⟨hbc.1.trans hab.1, hab.2.trans hbc.2⟩

/-- For a comparator that is `<` on a key, a record whose key grew moved later. -/
theorem movesLater_of_le (hk : ∀ a b, prec a b = true ↔ key a < key b) {x x' : ClientRec}
    (h : key x ≤ key x') : MovesLater prec x x' := fun _ =>
  ⟨fun hz => (hk _ _).mpr (lt_of_lt_of_le ((hk _ _).mp hz) h),
    fun hz => (hk _ _).mpr (lt_of_le_of_lt h ((hk _ _).mp hz))⟩

/-- For a comparator that is `<` on a key, a record whose key shrank moved earlier. -/
theorem movesEarlier_of_le (hk : ∀ a b, prec a b = true ↔ key a < key b) {x x' : ClientRec}
    (h : key x' ≤ key x) : MovesEarlier prec x x' := fun _ =>
  ⟨fun hz => (hk _ _).mpr (lt_of_le_of_lt h ((hk _ _).mp hz)),
    fun hz => (hk _ _).mpr (lt_of_lt_of_le ((hk _ _).mp hz) h)⟩

end Moves

end DmClock
