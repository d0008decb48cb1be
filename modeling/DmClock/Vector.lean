import DmClock.Compare
import Mathlib.Order.Bounds.Defs

/- `PriorityQueueBase::IndIntruVector`, the flat selection structure of vector mode
   (spec §4.3, `use_heap = false`).

   The vector holds shared pointers to client records. A pointer is modelled as an index
   into the store of records (`List ClientRec`) that the queue owns; a record never moves
   in the store, so two pointers are the same record exactly when they are equal. The
   vector keeps `count` and three cursors `resv`, `ready`, `limit`, one per view, which
   the sweeps `adjust`, `adjust_resv` and `adjust_ready_limit` recompute.

   What is proved here is the sweep itself: one pass over slots `1 .. count - 1` that
   moves a cursor to slot `i` whenever slot `i` strictly precedes the cursor's slot ends
   on the first slot of least key (`sweep_spec`), so on the least slot that no slot
   strictly precedes (`sweep_isLeast`); and the three-cursor sweep of `adjust` is the three
   one-cursor sweeps run side by side (`adjust_resv` and its siblings), which is what
   `adjust_resv` and `adjust_ready_limit` compute (`adjust_leaves_least_cursors`).
-/

namespace DmClock

/-- The record a pointer designates in the store. -/
def deref (store : List ClientRec) (p : Nat) : ClientRec := store.getD p default

theorem deref_set_self {s : List ClientRec} {p : Nat} (hp : p < s.length) (c : ClientRec) :
    deref (s.set p c) p = c := by
  simp [deref, List.getD_eq_getElem?_getD, hp]

theorem deref_set_ne {s : List ClientRec} {p p' : Nat} (h : p ≠ p') (c : ClientRec) :
    deref (s.set p c) p' = deref s p' := by
  simp [deref, List.getD_eq_getElem?_getD, List.getElem?_set_ne h]

/-- A pointer past the store designates the default record, which has no request. -/
theorem deref_of_le {s : List ClientRec} {p : Nat} (hp : s.length ≤ p) :
    deref s p = Inhabited.default := by
  simp [deref, List.getD_eq_getElem?_getD, List.getElem?_eq_none hp]

/-- `IndIntruVector`: the vector of record pointers, `count`, and the three cursors. -/
structure IndIntruVector where
  data : List Nat
  count : Nat
  resv : Nat
  ready : Nat
  limit : Nat
  deriving DecidableEq, Repr

namespace IndIntruVector

/-- The vector `IndIntruVector()` builds. -/
def empty : IndIntruVector := ⟨[], 0, 0, 0, 0⟩

/-- The record in slot `i`: `*data[i]`. -/
def slot (store : List ClientRec) (v : IndIntruVector) (i : Nat) : ClientRec :=
  deref store (v.data.getD i 0)

/-- `adjust`: one sweep that recomputes all three cursors. -/
def adjust (store : List ClientRec) (v : IndIntruVector) : IndIntruVector :=
  let c := (List.range' 1 (v.count - 1)).foldl
    (fun (c : Nat × Nat × Nat) i =>
      let f := clientCompareAtOnce (v.slot store i) (v.slot store c.1) (v.slot store c.2.1)
        (v.slot store c.2.2)
      (if f.1 then i else c.1, if f.2.1 then i else c.2.1, if f.2.2 then i else c.2.2))
    (0, 0, 0)
  { v with resv := c.1, ready := c.2.1, limit := c.2.2 }

/-- `adjust_resv`: the sweep of the reservation cursor alone. -/
def adjustResv (store : List ClientRec) (v : IndIntruVector) : IndIntruVector :=
  let r := (List.range' 1 (v.count - 1)).foldl
    (fun r i => if ClientCompareAtOnce.resvFlag (v.slot store i) (v.slot store r) then i else r) 0
  { v with resv := r }

/-- `adjust_ready_limit`: the sweep of the ready and limit cursors. -/
def adjustReadyLimit (store : List ClientRec) (v : IndIntruVector) : IndIntruVector :=
  let c := (List.range' 1 (v.count - 1)).foldl
    (fun (c : Nat × Nat) i =>
      (if ClientCompareAtOnce.readyFlag (v.slot store i) (v.slot store c.1) then i else c.1,
       if ClientCompareAtOnce.limitFlag (v.slot store i) (v.slot store c.2) then i else c.2))
    (0, 0)
  { v with ready := c.1, limit := c.2 }

/-- `push`: the pointer goes to slot `count`, the record learns its slot, and `adjust`. -/
def push (store : List ClientRec) (v : IndIntruVector) (p : Nat) :
    List ClientRec × IndIntruVector :=
  let i := v.count
  let store := store.set p { deref store p with lookupVectorData := i }
  (store, adjust store { v with count := i + 1, data := v.data ++ [p] })

end IndIntruVector

/-! ## The sweep -/

/-- The one-cursor sweep over slots `1 .. count - 1`: the cursor moves to slot `i` when
`prec i cursor`. -/
def sweep (prec : Nat → Nat → Bool) (count : Nat) : Nat :=
  (List.range' 1 (count - 1)).foldl (fun c i => if prec i c then i else c) 0

section Sweep
variable {κ : Type} [LinearOrder κ] {prec : Nat → Nat → Bool} {key : Nat → κ}

/-- The sweep after slot `m`: its cursor is the first slot of least key among `0 .. m`. -/
theorem sweep_upto (hk : ∀ i c, prec i c = true ↔ key i < key c) (m : Nat) :
    let c := (List.range' 1 m).foldl (fun c i => if prec i c then i else c) 0
    c ≤ m ∧ (∀ i ≤ m, key c ≤ key i) ∧ (∀ i < c, key c < key i) := by
  induction m with
  | zero => simp
  | succ m ih =>
    obtain ⟨hcm, hle, hlt⟩ := ih
    simp only [List.range'_1_concat, List.foldl_append, List.foldl_cons, List.foldl_nil]
    generalize (List.range' 1 m).foldl (fun c i => if prec i c then i else c) 0 = c at hcm hle hlt
    rw [Nat.add_comm 1 m]
    by_cases h : key (m + 1) < key c
    · simp only [(hk _ _).mpr h, if_true]
      refine ⟨le_rfl, fun i hi => ?_, fun i hi => ?_⟩
      · rcases Nat.lt_or_eq_of_le hi with hi | rfl
        · exact h.le.trans (hle i (by omega))
        · exact le_rfl
      · exact lt_of_lt_of_le h (hle i (by omega))
    · have hf : prec (m + 1) c = false := by rw [← Bool.not_eq_true, hk]; exact h
      simp only [hf, Bool.false_eq_true, if_false]
      refine ⟨by omega, fun i hi => ?_, hlt⟩
      rcases Nat.lt_or_eq_of_le hi with hi | rfl
      · exact hle i (by omega)
      · exact not_lt.mp h

/-- The sweep ends on the first slot of least key among slots `0 .. count - 1`. -/
theorem sweep_spec (hk : ∀ i c, prec i c = true ↔ key i < key c) (count : Nat) :
    (0 < count → sweep prec count < count) ∧ (∀ i < count, key (sweep prec count) ≤ key i) ∧
      ∀ i < sweep prec count, key (sweep prec count) < key i := by
  obtain ⟨hcm, hle, hlt⟩ := sweep_upto hk (count - 1)
  exact ⟨fun h => by unfold sweep; omega, fun i hi => hle i (by omega), hlt⟩

/-- On a nonempty range the sweep's cursor is the least slot that no slot of the range
strictly precedes. -/
theorem sweep_isLeast (hk : ∀ i c, prec i c = true ↔ key i < key c) {count : Nat}
    (hc : 0 < count) :
    IsLeast {i | i < count ∧ ∀ j < count, prec j i = false} (sweep prec count) := by
  obtain ⟨hlt, hle, hfirst⟩ := sweep_spec hk count
  have hnot : ∀ i c, prec i c = false ↔ key c ≤ key i := fun i c => by
    rw [← Bool.not_eq_true, hk, not_lt]
  refine ⟨⟨hlt hc, fun j hj => (hnot _ _).mpr (hle j hj)⟩, fun i ⟨_, hmin⟩ => not_lt.mp fun hi => ?_⟩
  exact not_le.mpr (hfirst i hi) ((hnot _ _).mp (hmin _ (hlt hc)))

/-- On an empty range the sweep does not move its cursor from slot 0. -/
theorem sweep_zero : sweep prec 0 = 0 := rfl

end Sweep

namespace IndIntruVector
variable (store : List ClientRec) (v : IndIntruVector)

/-- The sweep the reservation cursor makes. -/
def resvSweep : Nat :=
  sweep (fun i c => ClientCompareAtOnce.resvFlag (v.slot store i) (v.slot store c)) v.count

/-- The sweep the ready cursor makes. -/
def readySweep : Nat :=
  sweep (fun i c => ClientCompareAtOnce.readyFlag (v.slot store i) (v.slot store c)) v.count

/-- The sweep the limit cursor makes. -/
def limitSweep : Nat :=
  sweep (fun i c => ClientCompareAtOnce.limitFlag (v.slot store i) (v.slot store c)) v.count

/-- A component of a fold's state that each step computes from that component alone is a
fold of its own. -/
theorem foldl_proj {α σ : Type} (l : List α) (F : σ → α → σ) (π : σ → Nat)
    (f : Nat → α → Nat) (hF : ∀ x i, π (F x i) = f (π x) i) (x : σ) :
    π (l.foldl F x) = l.foldl f (π x) := by
  induction l generalizing x with
  | nil => rfl
  | cons i l ih => simp only [List.foldl_cons, ih, hF]

@[simp] theorem adjust_resv : (adjust store v).resv = resvSweep store v :=
  foldl_proj _ _ (fun c : Nat × Nat × Nat => c.1) _ (fun _ _ => rfl) _

@[simp] theorem adjust_ready : (adjust store v).ready = readySweep store v :=
  foldl_proj _ _ (fun c : Nat × Nat × Nat => c.2.1) _ (fun _ _ => rfl) _

@[simp] theorem adjust_limit : (adjust store v).limit = limitSweep store v :=
  foldl_proj _ _ (fun c : Nat × Nat × Nat => c.2.2) _ (fun _ _ => rfl) _

@[simp] theorem adjust_data : (adjust store v).data = v.data := rfl
@[simp] theorem adjust_count : (adjust store v).count = v.count := rfl

@[simp] theorem adjustResv_resv : (adjustResv store v).resv = resvSweep store v := rfl
@[simp] theorem adjustResv_ready : (adjustResv store v).ready = v.ready := rfl
@[simp] theorem adjustResv_limit : (adjustResv store v).limit = v.limit := rfl
@[simp] theorem adjustResv_data : (adjustResv store v).data = v.data := rfl
@[simp] theorem adjustResv_count : (adjustResv store v).count = v.count := rfl

@[simp] theorem adjustReadyLimit_ready :
    (adjustReadyLimit store v).ready = readySweep store v :=
  foldl_proj _ _ (fun c : Nat × Nat => c.1) _ (fun _ _ => rfl) _

@[simp] theorem adjustReadyLimit_limit :
    (adjustReadyLimit store v).limit = limitSweep store v :=
  foldl_proj _ _ (fun c : Nat × Nat => c.2) _ (fun _ _ => rfl) _

@[simp] theorem adjustReadyLimit_resv : (adjustReadyLimit store v).resv = v.resv := rfl
@[simp] theorem adjustReadyLimit_data : (adjustReadyLimit store v).data = v.data := rfl
@[simp] theorem adjustReadyLimit_count : (adjustReadyLimit store v).count = v.count := rfl

/-- The reservation sweep ends on the first slot of least reservation key. -/
theorem resvSweep_spec :
    (0 < v.count → resvSweep store v < v.count) ∧
      (∀ i < v.count, resvKey (v.slot store (resvSweep store v)) ≤ resvKey (v.slot store i)) ∧
      ∀ i < resvSweep store v, resvKey (v.slot store (resvSweep store v)) < resvKey (v.slot store i) :=
  @sweep_spec _ _ _ (fun i => resvKey (v.slot store i)) (fun _ _ => resvFlag_iff _ _) _

theorem readySweep_spec :
    (0 < v.count → readySweep store v < v.count) ∧
      (∀ i < v.count, readyKey (v.slot store (readySweep store v)) ≤ readyKey (v.slot store i)) ∧
      ∀ i < readySweep store v,
        readyKey (v.slot store (readySweep store v)) < readyKey (v.slot store i) :=
  @sweep_spec _ _ _ (fun i => readyKey (v.slot store i)) (fun _ _ => readyFlag_iff _ _) _

theorem limitSweep_spec :
    (0 < v.count → limitSweep store v < v.count) ∧
      (∀ i < v.count, limitKey (v.slot store (limitSweep store v)) ≤ limitKey (v.slot store i)) ∧
      ∀ i < limitSweep store v,
        limitKey (v.slot store (limitSweep store v)) < limitKey (v.slot store i) :=
  @sweep_spec _ _ _ (fun i => limitKey (v.slot store i)) (fun _ _ => limitFlag_iff _ _) _

/-- The slots below `count` whose record no record of slots `0 .. count - 1` strictly
precedes under `prec`. -/
def unpreceded (prec : ClientRec → ClientRec → Bool) : Set Nat :=
  {i | i < v.count ∧ ∀ j < v.count, prec (v.slot store j) (v.slot store i) = false}

/-- The three relations of `ClientCompareAtOnce` are strict weak orders. On a nonempty vector
`adjust()` leaves each cursor at the least slot that no slot strictly precedes in its view, and
on an empty one at slot 0; `adjust_resv()` and `adjust_ready_limit()` leave their cursors
where `adjust()` would. -/
theorem adjust_leaves_least_cursors :
    IsStrictWeakOrder ClientRec (fun a b => ClientCompareAtOnce.resvFlag a b = true) ∧
    IsStrictWeakOrder ClientRec (fun a b => ClientCompareAtOnce.readyFlag a b = true) ∧
    IsStrictWeakOrder ClientRec (fun a b => ClientCompareAtOnce.limitFlag a b = true) ∧
    (0 < v.count →
      IsLeast (v.unpreceded store ClientCompareAtOnce.resvFlag) (v.adjust store).resv ∧
      IsLeast (v.unpreceded store ClientCompareAtOnce.readyFlag) (v.adjust store).ready ∧
      IsLeast (v.unpreceded store ClientCompareAtOnce.limitFlag) (v.adjust store).limit) ∧
    (v.count = 0 →
      (v.adjust store).resv = 0 ∧ (v.adjust store).ready = 0 ∧ (v.adjust store).limit = 0) ∧
    (v.adjustResv store).resv = (v.adjust store).resv ∧
    (v.adjustReadyLimit store).ready = (v.adjust store).ready ∧
    (v.adjustReadyLimit store).limit = (v.adjust store).limit := by
  refine ⟨isStrictWeakOrder_of_key resvFlag_iff, isStrictWeakOrder_of_key readyFlag_iff,
    isStrictWeakOrder_of_key limitFlag_iff, fun hc => ?_, fun hc => ?_, by simp, by simp, by simp⟩
  · simp only [adjust_resv, adjust_ready, adjust_limit]
    exact ⟨@sweep_isLeast _ _ _ (fun i => resvKey (v.slot store i)) (fun _ _ => resvFlag_iff _ _) _ hc,
      @sweep_isLeast _ _ _ (fun i => readyKey (v.slot store i)) (fun _ _ => readyFlag_iff _ _) _ hc,
      @sweep_isLeast _ _ _ (fun i => limitKey (v.slot store i)) (fun _ _ => limitFlag_iff _ _) _ hc⟩
  · simp only [adjust_resv, adjust_ready, adjust_limit, resvSweep, readySweep, limitSweep, hc,
      sweep_zero, and_self]

/-- Two clients with one request each, the second with the earlier reservation tag: `adjust()`
moves the reservation cursor to slot 1, the least slot no slot strictly precedes. -/
theorem adjust_leaves_least_cursors_two_clients :
    let store := [(ClientRec.make 1 default 0).addRequest ⟨(2 : ℚ), (0 : ℚ), (0 : ℚ), false⟩ 1 0,
      (ClientRec.make 2 default 0).addRequest ⟨(1 : ℚ), (0 : ℚ), (0 : ℚ), false⟩ 2 0]
    let v : IndIntruVector := ⟨[0, 1], 2, 0, 0, 0⟩
    0 < v.count ∧ (v.adjust store).resv = 1 ∧
      IsLeast (v.unpreceded store ClientCompareAtOnce.resvFlag) (v.adjust store).resv := by
  intro store v
  exact ⟨by decide, by with_unfolding_all rfl,
    ((adjust_leaves_least_cursors store v).2.2.2.1 (by decide)).1⟩

section Slots
variable (store : List ClientRec) (v : IndIntruVector)

end Slots

end IndIntruVector

end DmClock
