import Mathlib.Algebra.Order.Monoid.WithTop
import Mathlib.Algebra.Order.Ring.Rat
import Mathlib.Data.Nat.Cast.Order.Ring

/- Tags and the tag arithmetic of `dmclock_server.h` (spec §4.1).

   A tag or a time is a `double` in the source. Here it is a rational, or one of the two
   sentinels the spec names: `min_tag` is `TagMin = −∞` and `max_tag` is `TagMax = +∞`
   (spec §6), so `Tag = WithTop (WithBot ℚ)`. Request times and the `now` of a scheduling
   decision are finite (`ℚ`); a tag or a wake-up time may be a sentinel.

   Where the model and the `double`s part, and so where its results stop:
   - No rounding. Sums, products and quotients of finite values are exact here; the code
     rounds each one, so two tags the model orders may tie in the code, and identities such
     as `t + (l - t) = l` hold here and not always there.
   - The sentinels are finite in the code: `max_tag` is `numeric_limits<double>::max()` and
     `min_tag` is `lowest()`. Here they absorb every addition (`⊤ + x = ⊤`, and `⊥ + x = ⊥`
     for `x ≠ ⊤`). In the code, `max_tag` plus a value small next to it rounds back to
     `max_tag`, but `max_tag + max_tag` is `+inf` and `max_tag + min_tag` is `0`. The code
     makes such a sum in `proportion + prop_delta` (the ready comparator and
     `lowest_prop_tag`) once a reactivation has set `prop_delta = max_tag - time`: the code
     then orders `+inf` after a `proportion` of `max_tag`, and the model ties the two.

   `ClientInfo` carries the spec's data model (§3): its three rates are nonnegative, and
   the inverses are computed from them as the constructor computes them.

   Correspondence (C++ ↔ Lean):
     `max_tag`, `min_tag`, `TimeMax`, `TimeZero` ↔ `maxTag`, `minTag`, `timeMax`, `timeZero`
     `ClientInfo`, `ReqParams`, `RequestTag`   ↔ the structures of the same names
     `RequestTag::tag_calc`                    ↔ `tagCalc`
     `RequestTag(prev_tag, client, ...)`       ↔ `requestTag` (its `assert` is an `Except`)
-/

namespace DmClock

/-- A tag or a time: a rational, `min_tag` below every rational, `max_tag` above. -/
abbrev Tag := WithTop (WithBot ℚ)

/-- A finite tag or time. -/
@[coe] def Tag.ofRat (q : ℚ) : Tag := ((q : WithBot ℚ) : WithTop (WithBot ℚ))

instance : Coe ℚ Tag := ⟨Tag.ofRat⟩

/-- `max_tag`, and `TimeMax`: the spec's `+∞`. -/
def maxTag : Tag := ⊤

/-- `min_tag`: the spec's `−∞`. -/
def minTag : Tag := ((⊥ : WithBot ℚ) : WithTop (WithBot ℚ))

/-- `TimeMax`, the wake-up time that means "never". -/
def timeMax : Tag := maxTag

/-- `TimeZero`, the time that means "unset". -/
def timeZero : Tag := ((0 : ℚ) : Tag)

namespace Tag

@[simp, norm_cast] theorem ofRat_le_ofRat {a b : ℚ} : (a : Tag) ≤ b ↔ a ≤ b := by
  simp [ofRat]

@[simp, norm_cast] theorem ofRat_lt_ofRat {a b : ℚ} : (a : Tag) < b ↔ a < b := by
  simp [ofRat]

@[simp, norm_cast] theorem ofRat_inj {a b : ℚ} : (a : Tag) = b ↔ a = b := by
  simp [ofRat]

@[simp, norm_cast] theorem ofRat_add (a b : ℚ) : ((a + b : ℚ) : Tag) = a + b := rfl

@[simp, norm_cast] theorem ofRat_zero : ((0 : ℚ) : Tag) = 0 := rfl

@[simp] theorem ofRat_lt_maxTag (a : ℚ) : (a : Tag) < maxTag := WithTop.coe_lt_top _

@[simp] theorem minTag_lt_ofRat (a : ℚ) : minTag < a :=
  WithTop.coe_lt_coe.mpr (WithBot.bot_lt_coe a)

@[simp] theorem minTag_lt_maxTag : minTag < maxTag := WithTop.coe_lt_top _

@[simp] theorem le_maxTag (x : Tag) : x ≤ maxTag := le_top

@[simp] theorem minTag_le (x : Tag) : minTag ≤ x := by
  rcases x with _ | _ | q
  · exact le_top
  · exact le_rfl
  · exact WithTop.coe_le_coe.mpr bot_le

@[simp] theorem add_maxTag (x : Tag) : x + maxTag = maxTag := WithTop.add_top x

@[simp] theorem maxTag_add (x : Tag) : maxTag + x = maxTag := WithTop.top_add x

@[simp] theorem not_maxTag_lt (x : Tag) : ¬ maxTag < x := not_top_lt

end Tag

/-- `ClientInfo`: the reservation (minimum), weight (proportional share) and limit
(maximum) rates of a client, nonnegative as the spec's data model has them (§3). -/
structure ClientInfo where
  reservation : ℚ
  weight : ℚ
  limit : ℚ
  reservation_nonneg : 0 ≤ reservation
  weight_nonneg : 0 ≤ weight
  limit_nonneg : 0 ≤ limit

namespace ClientInfo

/-- The constructor's `0.0 == x ? 0.0 : 1.0 / x`. -/
def inv (x : ℚ) : ℚ := if 0 = x then 0 else 1 / x

def reservationInv (c : ClientInfo) : ℚ := inv c.reservation
def weightInv (c : ClientInfo) : ℚ := inv c.weight
def limitInv (c : ClientInfo) : ℚ := inv c.limit

theorem inv_nonneg {x : ℚ} (h : 0 ≤ x) : 0 ≤ inv x := by
  unfold inv; split
  · exact le_rfl
  · exact one_div_nonneg.mpr h

theorem reservationInv_nonneg (c : ClientInfo) : 0 ≤ c.reservationInv :=
  inv_nonneg c.reservation_nonneg
theorem weightInv_nonneg (c : ClientInfo) : 0 ≤ c.weightInv := inv_nonneg c.weight_nonneg
theorem limitInv_nonneg (c : ClientInfo) : 0 ≤ c.limitInv := inv_nonneg c.limit_nonneg

end ClientInfo

/-- A `ClientInfo` with whole-number rates. -/
def ClientInfo.ofNat (r w l : ℕ) : ClientInfo :=
  ⟨r, w, l, Nat.cast_nonneg _, Nat.cast_nonneg _, Nat.cast_nonneg _⟩

instance : Inhabited ClientInfo := ⟨ClientInfo.ofNat 0 0 0⟩

/-- `ReqParams`: the distributed-completion hints, both `u32` and `0` by default (§6). -/
structure ReqParams where
  delta : UInt32 := 0
  rho : UInt32 := 0
  deriving DecidableEq, Repr

/-- `RequestTag`: the three tags of a request and its `ready` flag. -/
structure RequestTag where
  reservation : Tag
  proportion : Tag
  limit : Tag
  ready : Bool
  deriving DecidableEq, Repr

/-- `RequestTag::tag_calc`. -/
def tagCalc (time : ℚ) (prev : Tag) (increment : ℚ) (distReqVal : UInt32)
    (extremeIsHigh : Bool) : Tag :=
  if 0 = increment then (if extremeIsHigh then maxTag else minTag)
  else
    let increment := if 0 ≠ distReqVal then increment * distReqVal.toNat else increment
    max (time : Tag) (prev + (increment : Tag))

/-- The constructor `RequestTag(prev_tag, client, req_params, time, cost)`; the assertion
that one of the reservation and proportion tags is finite is the `Except`. -/
def requestTag (prevTag : RequestTag) (client : ClientInfo) (reqParams : ReqParams)
    (time : ℚ) (cost : ℚ) : Except String RequestTag :=
  let reservation := (cost : Tag) +
    tagCalc time prevTag.reservation client.reservationInv reqParams.rho true
  let proportion := tagCalc time prevTag.proportion client.weightInv reqParams.delta true
  let limit := tagCalc time prevTag.limit client.limitInv reqParams.delta false
  if reservation < maxTag ∨ proportion < maxTag then
    .ok ⟨reservation, proportion, limit, false⟩
  else .error "assert(reservation < max_tag || proportion < max_tag)"

/-- `RequestTag(0.0, 0.0, 0.0)`, a new client's `prev_tag`. -/
def RequestTag.zero : RequestTag := ⟨(0 : ℚ), (0 : ℚ), (0 : ℚ), false⟩

/-! ## `tag_calc` -/

section TagCalc
variable {time : ℚ} {prev : Tag} {inc : ℚ} {dist : UInt32} {high : Bool}

theorem tagCalc_of_zero (h : inc = 0) :
    tagCalc time prev inc dist high = if high then maxTag else minTag := by
  simp [tagCalc, h]

/-- A nonzero `dist` multiplies the increment; as a rational it is positive. -/
theorem dist_toNat_pos {dist : UInt32} (h : 0 ≠ dist) : (0 : ℚ) < dist.toNat := by
  have : dist.toNat ≠ 0 := fun h0 =>
    h (UInt32.toNat.inj (by rw [h0, UInt32.toNat_zero]))
  exact Nat.cast_pos.mpr (Nat.pos_of_ne_zero this)

/-- With a positive inverse rate, `tag_calc` is `max(time, prev + step)` for a positive
step: the inverse, times `dist` when that is nonzero. -/
theorem tagCalc_of_pos (h : 0 < inc) :
    ∃ step : ℚ, 0 < step ∧ tagCalc time prev inc dist high = max (time : Tag) (prev + step) := by
  refine ⟨if 0 ≠ dist then inc * dist.toNat else inc, ?_, by simp [tagCalc, h.ne]⟩
  split
  · exact mul_pos h (dist_toNat_pos ‹_›)
  · exact h

theorem le_tagCalc_of_pos (h : 0 < inc) : prev ≤ tagCalc time prev inc dist high := by
  obtain ⟨step, hs, he⟩ := @tagCalc_of_pos time prev inc dist high h
  rw [he]
  exact le_max_of_le_right (le_add_of_nonneg_right (by exact_mod_cast hs.le))

end TagCalc

end DmClock
