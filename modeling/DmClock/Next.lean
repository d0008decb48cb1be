import DmClock.Queue

/- The scheduling decision `PriorityQueueBase::do_next_request` (spec §4.2) and the pull
   façade's `PullPriorityQueue::pull_request` (§4.7).

   `do_next_request` reads the top of each view: the reservation top for the reservation
   phase; then, while the limit top has a front that is not ready and whose limit tag has
   passed, it marks that front ready and refreshes the structure (`promote`); then the ready
   top for the proportional phase; then the limit-break phase; and last the wake-up time,
   where it asserts that the limit top's front is not ready. The `while` loop is modelled
   with a bound of one round per record of the store; `promote_exits` (in
   `DmClock.Promote`) shows that the loop always stops on its own condition first.
-/

namespace DmClock

/-- `NextReq`: what `do_next_request` reports. -/
inductive NextReq
  | returning (heapId : HeapId)
  | future (whenReady : Tag)
  | none
  deriving DecidableEq, Repr

/-- `PhaseType`: the phase a dispatched request is labelled with. -/
inductive PhaseType
  | reservation
  | priority
  deriving DecidableEq, Repr

/-- `PullPriorityQueue::PullReq`: none, a wake-up time, or a dispatched request. -/
inductive PullReq
  | none
  | future (time : Tag)
  | retn (client : ClientId) (request : Request) (phase : PhaseType)
  deriving DecidableEq, Repr

/-- `min_not_0_time`: the lesser time, ignoring a `possible` of `TimeZero`. -/
def minNot0Time (current possible : Tag) : Tag :=
  if timeZero = possible then current else min current possible

/-- The end of `do_next_request`: a wake-up time below `TimeMax` is returned. -/
def futureOrNone (nextCall : Tag) : NextReq :=
  if nextCall < timeMax then .future nextCall else .none

namespace PriorityQueueBase
variable (ht : HeapTop)

/-- One round of `do_next_request`'s promotion loop: if the limit top has a front that is
not ready and whose limit tag has passed, that front is marked ready and the ready and limit
views are refreshed; `none` when the loop's condition fails. -/
def promoteStep (now : ℚ) (q : PriorityQueueBase) : Option PriorityQueueBase :=
  let p := q.topPtr ht .limit
  let limits := q.recOf p
  match limits.requests with
  | r :: rest =>
    if r.tag.ready = false ∧ r.tag.limit ≤ (now : Tag) then
      some (q.setRec p { limits with
        requests := { r with tag := { r.tag with ready := true } } :: rest }).adjustReadyLimitAll
    else none
  | [] => none

/-- The promotion loop of `do_next_request`, for at most `fuel` rounds. -/
def promote (now : ℚ) : Nat → PriorityQueueBase → PriorityQueueBase
  | 0, q => q
  | fuel + 1, q =>
    match promoteStep ht now q with
    | some q' => promote now fuel q'
    | none => q

/-- The phases of `do_next_request` after the promotion loop, which change nothing: the
proportional phase, the limit break, and the wake-up time. `pr` is the reservation top the
call read before the loop. -/
def laterPhases (q : PriorityQueueBase) (pr : Nat) : Except String NextReq :=
  let readys := q.topRec ht .ready
  if readys.requests.head?.any (fun r => r.tag.ready ∧ r.tag.proportion < maxTag) then
    .ok (.returning .ready)
  else if q.allowLimitBreak ∧ readys.requests.head?.any (fun r => r.tag.proportion < maxTag) then
    .ok (.returning .ready)
  else if q.allowLimitBreak ∧
      (q.recOf pr).requests.head?.any (fun r => r.tag.reservation < maxTag) then
    .ok (.returning .reservation)
  else
    let nextCall := match (q.topRec ht .reservation).requests with
      | r :: _ => minNot0Time timeMax r.tag.reservation
      | [] => timeMax
    match (q.topRec ht .limit).requests with
    | r :: _ =>
      if r.tag.ready then .error "assert(!next.tag.ready)"
      else .ok (futureOrNone (minNot0Time nextCall r.tag.limit))
    | [] => .ok (futureOrNone nextCall)

/-- `do_next_request(now)`: the state after the promotion loop, and the decision. -/
def doNextRequest (q : PriorityQueueBase) (now : ℚ) :
    Except String (PriorityQueueBase × NextReq) :=
  if q.noClients then .ok (q, .none) else
  let pr := q.topPtr ht .reservation
  if (q.recOf pr).requests.head?.any (fun r => r.tag.reservation ≤ (now : Tag)) then
    .ok (q, .returning .reservation)
  else
  let q := promote ht now (q.store.length + 1) q
  (q.laterPhases ht pr).map (Prod.mk q)

/-- The dispatching part of `pull_request`: pop the top of the view and, after a dispatch
from the ready view, reduce the client's reservation tags. -/
def dispatch (q : PriorityQueueBase) : HeapId → Except String (PriorityQueueBase × PullReq)
  | .reservation => (q.popProcessRequest ht .reservation).map fun r =>
    ({ r.1 with reservSchedCount := r.1.reservSchedCount + 1 },
      .retn r.2.1 r.2.2.request .reservation)
  | .ready => (q.popProcessRequest ht .ready).bind fun r =>
    (r.1.reduceReservationTags r.2.1).map fun q =>
      ({ q with propSchedCount := q.propSchedCount + 1 }, .retn r.2.1 r.2.2.request .priority)

/-- `PullPriorityQueue::pull_request(now)`. -/
def pullRequest (q : PriorityQueueBase) (now : ℚ) :
    Except String (PriorityQueueBase × PullReq) :=
  (q.doNextRequest ht now).bind fun r =>
    match r.2 with
    | .none => .ok (r.1, .none)
    | .future t => .ok (r.1, .future t)
    | .returning heapId => r.1.dispatch ht heapId

/-! ## What the calls return -/

theorem head?_any_eq_true {α : Type} {l : List α} {f : α → Bool} :
    l.head?.any f = true ↔ ∃ a t, l = a :: t ∧ f a = true := by
  cases l <;> simp

theorem futureOrNone_ne_returning (t : Tag) (heapId : HeapId) :
    futureOrNone t ≠ .returning heapId := by
  unfold futureOrNone; split <;> simp

/-- A round of the promotion loop happens exactly when the limit top's front is not ready
and its limit tag has passed; it marks that front ready. -/
theorem promoteStep_eq_some {now : ℚ} {q q' : PriorityQueueBase}
    (h : q.promoteStep ht now = some q') :
    ∃ r rest, (q.topRec ht .limit).requests = r :: rest ∧ r.tag.ready = false ∧
      r.tag.limit ≤ (now : Tag) ∧
      q' = (q.setRec (q.topPtr ht .limit) { q.topRec ht .limit with
        requests := { r with tag := { r.tag with ready := true } } :: rest }).adjustReadyLimitAll := by
  unfold promoteStep at h
  dsimp only at h
  split at h
  · split at h
    · rename_i r rest hreq hc
      cases h
      exact ⟨r, rest, hreq, hc.1, hc.2, rfl⟩
    · cases h
  · cases h

/-- The promotion loop changes only the records and the vector. -/
theorem promote_frame (now : ℚ) (fuel : Nat) (q : PriorityQueueBase) :
    ∃ s v, q.promote ht now fuel = { q with store := s, clVec := v } := by
  induction fuel generalizing q with
  | zero => exact ⟨q.store, q.clVec, rfl⟩
  | succ fuel ih =>
    unfold promote
    split
    · rename_i q' h
      obtain ⟨s, v, he⟩ := ih q'
      obtain ⟨r, rest, -, -, -, rfl⟩ := promoteStep_eq_some ht h
      rw [he]; unfold adjustReadyLimitAll; split <;> exact ⟨_, _, rfl⟩
    · exact ⟨q.store, q.clVec, rfl⟩

@[simp] theorem promote_allowLimitBreak (now : ℚ) (fuel : Nat) (q : PriorityQueueBase) :
    (q.promote ht now fuel).allowLimitBreak = q.allowLimitBreak := by
  obtain ⟨s, v, he⟩ := promote_frame ht now fuel q; rw [he]

/-- The later phases choose the ready view only for a front of the ready top below
`max_tag` that is ready, or any such front under limit break. -/
theorem laterPhases_ready {q : PriorityQueueBase} {pr : Nat}
    (h : q.laterPhases ht pr = .ok (.returning .ready)) :
    ∃ r rest, (q.topRec ht .ready).requests = r :: rest ∧ r.tag.proportion < maxTag ∧
      (r.tag.ready = true ∨ q.allowLimitBreak = true) := by
  unfold laterPhases at h
  dsimp only at h
  split at h
  · rename_i hc
    obtain ⟨r, rest, hr, hc⟩ := head?_any_eq_true.mp hc
    simp only [decide_eq_true_eq] at hc
    exact ⟨r, rest, hr, hc.2, .inl hc.1⟩
  · split at h
    · rename_i hc
      obtain ⟨r, rest, hr, hp⟩ := head?_any_eq_true.mp hc.2
      exact ⟨r, rest, hr, by simpa using hp, .inr hc.1⟩
    · split at h
      · cases h
      · split at h
        · split at h
          · cases h
          · exact absurd (Except.ok.inj h) (futureOrNone_ne_returning _ _)
        · exact absurd (Except.ok.inj h) (futureOrNone_ne_returning _ _)

/-- `do_next_request` chooses the ready view only after its promotion loop, by its later
phases. -/
theorem doNextRequest_ready {q q₁ : PriorityQueueBase} {now : ℚ}
    (h : q.doNextRequest ht now = .ok (q₁, .returning .ready)) :
    q₁ = q.promote ht now (q.store.length + 1) ∧
      q₁.laterPhases ht (q.topPtr ht .reservation) = .ok (.returning .ready) := by
  unfold doNextRequest at h
  split at h
  · cases h
  · dsimp only at h
    split at h
    · cases h
    · obtain ⟨d, hd, he⟩ := Except.map_eq_ok.mp h
      cases he
      exact ⟨rfl, hd⟩

/-- `pop_process_request` pops the front of the top of the view it dispatches from. -/
theorem popProcessRequest_ok {q : PriorityQueueBase} {heapId : HeapId}
    {r : PriorityQueueBase × ClientId × ClientReq} (h : q.popProcessRequest ht heapId = .ok r) :
    ∃ rest, (q.topRec ht heapId.view).requests = r.2.2 :: rest ∧
      r.2.1 = (q.topRec ht heapId.view).client ∧
      r.1 = (q.setRec (q.topPtr ht heapId.view)
        { q.topRec ht heapId.view with requests := rest }).adjustAll := by
  unfold popProcessRequest at h
  dsimp only at h
  split at h
  · cases h
  · rename_i first rest hreq
    cases h
    exact ⟨rest, hreq, rfl, rfl⟩

/-- A dispatch with phase priority pops the ready top after `do_next_request` chose the
ready view. -/
theorem pullRequest_priority {q q' : PriorityQueueBase} {now : ℚ} {c : ClientId}
    {req : Request} (h : q.pullRequest ht now = .ok (q', .retn c req .priority)) :
    ∃ q₁ r₂, q.doNextRequest ht now = .ok (q₁, .returning .ready) ∧
      q₁.popProcessRequest ht .ready = .ok r₂ ∧ c = r₂.2.1 ∧ req = r₂.2.2.request := by
  obtain ⟨⟨q₁, d⟩, h₁, h₂⟩ := Except.bind_eq_ok.mp h
  rcases d with heapId | t | _
  · cases heapId with
    | reservation =>
      obtain ⟨r₂, -, he⟩ := Except.map_eq_ok.mp h₂
      cases he
    | ready =>
      obtain ⟨r₂, h₃, h₄⟩ := Except.bind_eq_ok.mp h₂
      obtain ⟨q₃, -, he⟩ := Except.map_eq_ok.mp h₄
      cases he
      exact ⟨q₁, r₂, h₁, h₃, rfl, rfl⟩
  all_goals cases h₂

/-! ## Two runs the decision gets wrong -/

/-- The spec's scenario S1 reduced to one request: a client with `r = 2, w = 0, l = 0` has
one request at time 0, and `do_next_request(0)` runs, in either mode. The reservation tag is
`0.5`, so the reservation phase does not fire; the limit tag is `min_tag`, so the promotion
loop marks the front ready; the proportion tag is `max_tag`, so the proportional phase does
not fire; and the limit top is then the ready front, which the wake-up branch asserts it is
not. -/
theorem doNextRequest_asserts_on_ready_limit_top (useHeap : Bool) :
    ((make (fun _ => ClientInfo.ofNat 2 0 0) 600000 900000 360000 false useHeap).bind
      fun q => (q.doAddRequest 0 1 {} 0 0).bind
      fun q => (q.doNextRequest HeapTop.first 0).map Prod.snd) =
    .error "assert(!next.tag.ready)" := by
  cases useHeap <;> with_unfolding_all rfl

/-- A reservation-only client 1 (`r = 1, w = 0, l = 0`), then a weighted client 2
(`w = 1, l = 0`), then a limited weighted client 3 (`w = 1, l = 1`), each with one request at
time 0. Client 2 reactivates while client 1's front has proportion `max_tag`, so its
`prop_delta` becomes `max_tag`, and client 3's too. At `do_next_request(0)` the promotion loop
marks the fronts of clients 1 and 2 ready; the ready view ties them at `max_tag` and keeps
client 1, whose proportion tag is `max_tag`; so the call returns `future(1)` although
client 2, of weight 1, has a ready front. -/
theorem doNextRequest_skips_ready_weighted_client :
    ((make (fun c => if c = 1 then ClientInfo.ofNat 1 0 0 else if c = 2 then ClientInfo.ofNat 0 1 0
        else ClientInfo.ofNat 0 1 1) 600000 900000 360000 false false).bind
      fun q => (q.doAddRequest 0 1 {} 0 0).bind
      fun q => (q.doAddRequest 0 2 {} 0 0).bind
      fun q => (q.doAddRequest 0 3 {} 0 0).bind
      fun q => (q.doNextRequest HeapTop.first 0).map fun r =>
        (r.2, (r.1.recOf 1).info.weight, (r.1.recOf 1).requests.head?.map (·.tag.ready))) =
    .ok (.future ((1 : ℚ) : Tag), 1, some true) := by
  with_unfolding_all rfl

end PriorityQueueBase

end DmClock
