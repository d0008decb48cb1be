import DmClock.Requests

/- The dispatch of `pull_request` never fails.

   `pull_request(now)` pops the top of the view `do_next_request` chose and, after a
   dispatch from the ready view, looks the client up again to reduce its reservation tags.
   From a reachable state neither step fails: the chosen top has a front request
   (`doNextRequest_returning_front`), and the popped record's client is in the map. So
   `pull_request` fails exactly when `do_next_request` does, and `do_next_request` fails only
   by its assertion `assert(!next.tag.ready)` (`pullRequest_fails_only_by_assert`).

   The limit-break branch of the later phases tests the reservation record chosen before the
   promotion loop and then pops the reservation top after it. They are one record: in vector
   mode the loop moves only the ready and limit cursors, and in heap mode the reservation
   heap's top depends only on the map and the records' reservation keys, which the loop
   leaves alone (`HeapTop.ResvStable`; the model's two heap choices have it).
-/

namespace DmClock

/-- A heap choice whose reservation top depends only on the map and the records'
reservation keys, as a `resv_heap` that the other heaps' operations do not reorder. -/
def HeapTop.ResvStable (ht : HeapTop) : Prop :=
  ∀ q q' : PriorityQueueBase, q'.clientMap = q.clientMap →
    (∀ p, resvKey (q'.recOf p) = resvKey (q.recOf p)) →
    ht.top .reservation q' = ht.top .reservation q

theorem HeapTop.first_resvStable : HeapTop.first.ResvStable := fun _ _ hmap _ => by
  simp only [HeapTop.first, hmap]

theorem HeapTop.least_resvStable : HeapTop.least.ResvStable := fun q q' hmap hkey => by
  have hcmp : ∀ a b, View.compare .reservation (deref q'.store a) (deref q'.store b) =
      View.compare .reservation (deref q.store a) (deref q.store b) := fun a b =>
    Bool.eq_iff_iff.mpr (by
      simp only [View.compare, resvCompare_iff]
      exact iff_of_eq (congrArg₂ (· < ·) (hkey a) (hkey b)))
  simp only [HeapTop.least, hmap]
  split
  · rfl
  · simp only [hcmp]

namespace PriorityQueueBase
variable (ht : HeapTop) {q q₁ : PriorityQueueBase}

/-! ## The promotion loop and the reservation view -/

/-- The promotion loop changes no reservation key. -/
theorem promote_resvKey (now : ℚ) (fuel : Nat) (q : PriorityQueueBase) (p : Nat) :
    resvKey ((q.promote ht now fuel).recOf p) = resvKey (q.recOf p) := by
  induction fuel generalizing q with
  | zero => rfl
  | succ fuel ih =>
    unfold promote
    split
    · rename_i q' h
      obtain ⟨r, rest, hreq, -, -, rfl⟩ := promoteStep_eq_some ht h
      rw [ih, adjustReadyLimitAll_recOf, recOf_setRec]
      split
      · rename_i hp; rw [← hp.1]; exact resvKey_markReady _ hreq
      · rfl
    · rfl

/-- The promotion loop leaves the reservation cursor. -/
theorem promote_resv (now : ℚ) (fuel : Nat) (q : PriorityQueueBase) :
    (q.promote ht now fuel).clVec.resv = q.clVec.resv := by
  induction fuel generalizing q with
  | zero => rfl
  | succ fuel ih =>
    unfold promote
    split
    · rename_i q' h
      obtain ⟨r, rest, -, -, -, rfl⟩ := promoteStep_eq_some ht h
      rw [ih]
      unfold adjustReadyLimitAll
      split <;> simp [setRec]
    · rfl

/-- So the reservation top after the loop is the one before it. -/
theorem promote_topPtr_resv (hst : q.useHeap = false ∨ ht.ResvStable) (now : ℚ) (fuel : Nat) :
    (q.promote ht now fuel).topPtr ht .reservation = q.topPtr ht .reservation := by
  have hs : SameIndex q (q.promote ht now fuel) := sameIndex_pullClosed.promote ht now fuel q
  unfold topPtr
  rw [hs.useHeap]
  cases hu : q.useHeap
  · simp only [Bool.false_eq_true, if_false, hs.data, promote_resv]
  · simp only [if_true]
    exact (hst.resolve_left (by simp [hu])) q _ hs.clientMap (promote_resvKey ht now fuel q)

/-! ## What the decision returns -/

theorem laterPhases_error {pr : Nat} {e : String} (h : q.laterPhases ht pr = .error e) :
    e = "assert(!next.tag.ready)" := by
  unfold laterPhases at h
  dsimp only at h
  -- every branch but the assertion's returns a decision
  repeat' split at h
  all_goals cases h <;> rfl

/-- The limit-break branch chooses the reservation view only for a record with a front. -/
theorem laterPhases_reservation {pr : Nat} (h : q.laterPhases ht pr = .ok (.returning .reservation)) :
    (q.recOf pr).requests ≠ [] := by
  unfold laterPhases at h
  dsimp only at h
  split at h
  · cases h
  · split at h
    · cases h
    · split at h
      · rename_i hc
        obtain ⟨r, rest, hr, -⟩ := head?_any_eq_true.mp hc.2
        rw [hr]; exact List.cons_ne_nil _ _
      · split at h
        · split at h
          · cases h
          · exact absurd (Except.ok.inj h) (futureOrNone_ne_returning _ _)
        · exact absurd (Except.ok.inj h) (futureOrNone_ne_returning _ _)

/-- `do_next_request` fails only by its assertion. -/
theorem doNextRequest_error {now : ℚ} {e : String} (h : q.doNextRequest ht now = .error e) :
    e = "assert(!next.tag.ready)" := by
  unfold doNextRequest at h
  split at h
  · cases h
  · dsimp only at h
    split at h
    · cases h
    · cases hl : (q.promote ht now (q.store.length + 1)).laterPhases ht (q.topPtr ht .reservation)
      · exact laterPhases_error ht (by rw [hl] at h; cases h; exact hl)
      · rw [hl] at h; cases h

/-- When `do_next_request` chooses a view, that view's top has a front request. -/
theorem doNextRequest_returning_front (hst : q.useHeap = false ∨ ht.ResvStable) {now : ℚ}
    {heapId : HeapId} (h : q.doNextRequest ht now = .ok (q₁, .returning heapId)) :
    (q₁.topRec ht heapId.view).requests ≠ [] := by
  unfold doNextRequest at h
  split at h
  · cases h
  · dsimp only at h
    split at h
    · rename_i hc
      cases h
      obtain ⟨r, rest, hr, -⟩ := head?_any_eq_true.mp hc
      show (q.recOf (q.topPtr ht .reservation)).requests ≠ []
      rw [hr]; exact List.cons_ne_nil _ _
    · obtain ⟨d, hd, hq⟩ := Except.map_eq_ok.mp h
      cases hq
      cases heapId with
      | ready =>
        obtain ⟨r, rest, hr, -⟩ := laterPhases_ready ht hd
        rw [HeapId.view, hr]; exact List.cons_ne_nil _ _
      | reservation =>
        have := laterPhases_reservation ht hd
        rwa [← promote_topPtr_resv ht hst now (q.store.length + 1)] at this

/-! ## The dispatch -/

/-- The map sends the client of a view's top, when the top is a map record, to that top. -/
theorem lookup_topRec_client (hm : MapInv q) {v : View}
    (hmem : q.topPtr ht v ∈ q.clientMap.map Prod.snd) :
    q.clientMap.lookup (q.topRec ht v).client = some (q.topPtr ht v) := by
  obtain ⟨e, he, hp⟩ := List.mem_map.mp hmem
  rw [topRec, ← hp, hm.client e he]
  exact lookup_of_mem hm.keys_nodup he

/-- With a front on the chosen view's top, a map record, the dispatch succeeds: the pop finds
the front, and the reduction finds the popped record's client in the map. -/
theorem dispatch_ok (hm : MapInv q) {heapId : HeapId}
    (hmem : q.topPtr ht heapId.view ∈ q.clientMap.map Prod.snd)
    (hfront : (q.topRec ht heapId.view).requests ≠ []) : ∃ r, q.dispatch ht heapId = .ok r := by
  obtain ⟨r, rest, hreq⟩ := List.exists_cons_of_ne_nil hfront
  have hpop : q.popProcessRequest ht heapId =
      .ok ((q.setRec (q.topPtr ht heapId.view) { q.topRec ht heapId.view with requests := rest }).adjustAll,
        (q.topRec ht heapId.view).client, r) := by
    unfold popProcessRequest; dsimp only; rw [← topRec, hreq]
  cases heapId with
  | reservation => rw [dispatch, hpop]; exact ⟨_, rfl⟩
  | ready =>
    have hred : ∃ q', ((q.setRec (q.topPtr ht HeapId.ready.view) { q.topRec ht HeapId.ready.view with
        requests := rest }).adjustAll).reduceReservationTags (q.topRec ht HeapId.ready.view).client =
          .ok q' := by
      unfold reduceReservationTags
      rw [adjustAll_clientMap, show (q.setRec _ _).clientMap = q.clientMap from rfl,
        lookup_topRec_client ht hm hmem]
      exact ⟨_, rfl⟩
    obtain ⟨q', hq'⟩ := hred
    rw [dispatch, hpop]
    simp only [Except.bind, hq']
    exact ⟨_, rfl⟩

/-- From every state of every run, the top of the view `do_next_request` chose is a record
of the map. -/
theorem returning_top_mem {h : List Op} (hr : Run h q) {now : ℚ} {heapId : HeapId}
    (hd : q.doNextRequest ht now = .ok (q₁, .returning heapId)) :
    MapInv q₁ ∧ q₁.topPtr ht heapId.view ∈ q₁.clientMap.map Prod.snd := by
  have hs : SameIndex q q₁ := sameIndex_pullClosed.doNextRequest ht hd
  have hn : q₁.noClients = false := by
    rw [← noClients_of_returning ht hd]
    simp only [noClients, hs.useHeap, hs.clientMap, hs.count]
  exact ⟨hs.mapInv (mapInv_of_run hr), topPtr_mem_of_clients ht
    (fun hv => hs.indexInv (indexInv_of_run hr (hs.useHeap ▸ hv)))
    ((cursorInv_of_run hr).doNextRequest ht hd) hn heapId.view⟩

/-- From every state of every run, in vector mode or with a reservation heap that the
promotion loop does not reorder, `pull_request(now)` fails exactly when `do_next_request(now)`
fails, and then only by its assertion `assert(!next.tag.ready)`: its dispatch always finds a
front request, and `reduce_reservation_tags` always finds the client. -/
theorem pullRequest_fails_only_by_assert {h : List Op} {q : PriorityQueueBase} (hr : Run h q)
    {ht : HeapTop} (hst : q.useHeap = false ∨ ht.ResvStable) (now : ℚ) (e : String) :
    q.pullRequest ht now = .error e ↔
      q.doNextRequest ht now = .error e ∧ e = "assert(!next.tag.ready)" := by
  refine ⟨fun h => ?_, fun ⟨hd, _⟩ => by rw [pullRequest, hd]; rfl⟩
  cases hd : q.doNextRequest ht now with
  | error e' =>
    rw [pullRequest, hd] at h
    cases h
    exact ⟨rfl, doNextRequest_error ht hd⟩
  | ok r =>
    obtain ⟨q₁, heapId | t | _⟩ := r <;> rw [pullRequest, hd] at h
    · obtain ⟨hm, hmem⟩ := returning_top_mem ht hr hd
      obtain ⟨r, hr'⟩ := dispatch_ok ht hm hmem (doNextRequest_returning_front ht hst hd)
      simp only [Except.bind, hr'] at h
      cases h
    all_goals cases h

/-- One client with `r = 2, w = 0, l = 0` and one request at time 0, in vector mode (the
spec's scenario S1 reduced to one request): `pull_request(0)` fails, by the assertion. -/
theorem pullRequest_fails_only_by_assert_one_client :
    ∃ q, Run [.addRequest 0 1 {} 0 0] q ∧ q.useHeap = false ∧
      q.pullRequest HeapTop.first 0 = .error "assert(!next.tag.ready)" ∧
      (q.pullRequest HeapTop.first 0 = .error "assert(!next.tag.ready)" ↔
        q.doNextRequest HeapTop.first 0 = .error "assert(!next.tag.ready)" ∧
          "assert(!next.tag.ready)" = "assert(!next.tag.ready)") := by
  obtain ⟨q, hrun, hv, hpull⟩ : ∃ q, Run [.addRequest 0 1 {} 0 0] q ∧ q.useHeap = false ∧
      q.pullRequest HeapTop.first 0 = .error "assert(!next.tag.ready)" :=
    ⟨_, Run.of_runOf (show runOf HeapTop.first (fun _ => ClientInfo.ofNat 2 0 0) 600000 900000
        360000 false false [.addRequest 0 1 {} 0 0] = .ok _ by with_unfolding_all rfl),
      rfl, by with_unfolding_all rfl⟩
  exact ⟨q, hrun, hv, hpull,
    pullRequest_fails_only_by_assert hrun (.inl hv) 0 "assert(!next.tag.ready)"⟩

/-! ## What the dispatch changes -/

/-- Vector mode's `adjust` moves the three cursors and nothing else; heap mode's reordering
changes nothing the model holds. -/
theorem adjustAll_moves_cursors (q : PriorityQueueBase) : ∃ r₁ r₂ r₃,
    q.adjustAll = { q with clVec := { q.clVec with resv := r₁, ready := r₂, limit := r₃ } } := by
  unfold adjustAll
  split <;> exact ⟨_, _, _, rfl⟩

theorem adjustResvAll_moves_cursors (q : PriorityQueueBase) : ∃ r₁ r₂ r₃,
    q.adjustResvAll = { q with clVec := { q.clVec with resv := r₁, ready := r₂, limit := r₃ } } := by
  unfold adjustResvAll
  split <;> exact ⟨_, _, _, rfl⟩

/-- `pop_process_request`: the view's top loses its front, which it returns with the top's
client, and besides only the cursors move. -/
theorem popProcessRequest_frame {heapId : HeapId} {r : PriorityQueueBase × ClientId × ClientReq}
    (h : q.popProcessRequest ht heapId = .ok r) :
    ∃ rest r₁ r₂ r₃, (q.topRec ht heapId.view).requests = r.2.2 :: rest ∧
      r.2.1 = (q.topRec ht heapId.view).client ∧
      r.1 = { q.setRec (q.topPtr ht heapId.view) { q.topRec ht heapId.view with requests := rest }
        with clVec := { q.clVec with resv := r₁, ready := r₂, limit := r₃ } } := by
  obtain ⟨rest, hreq, hc, hr⟩ := popProcessRequest_ok ht h
  obtain ⟨r₁, r₂, r₃, ha⟩ := adjustAll_moves_cursors
    (q.setRec (q.topPtr ht heapId.view) { q.topRec ht heapId.view with requests := rest })
  exact ⟨rest, r₁, r₂, r₃, hreq, hc, hr.trans ha⟩

/-- `reduce_reservation_tags(c)` when the map sends `c` to `p`: the record at `p` is reduced,
and besides only the cursors move. -/
theorem reduceReservationTags_frame {c : ClientId} {p : Nat} (hl : q.clientMap.lookup c = some p)
    {q' : PriorityQueueBase} (h : q.reduceReservationTags c = .ok q') :
    ∃ r₁ r₂ r₃, q' = { q.setRec p (q.recOf p).reduceReservation
      with clVec := { q.clVec with resv := r₁, ready := r₂, limit := r₃ } } := by
  unfold reduceReservationTags at h
  rw [hl] at h
  cases h
  exact adjustResvAll_moves_cursors _

/-- A dispatch from the reservation view, in a state whose map is sound and holds the top:
the top loses its front, the returned request; the client's lookup reaches the top; and besides
only the cursors and `reserv_sched_count` change. -/
theorem dispatch_reservation_frame (hm : MapInv q)
    (hmem : q.topPtr ht .reservation ∈ q.clientMap.map Prod.snd) {q' : PriorityQueueBase}
    {c : ClientId} {req : Request} {phase : PhaseType}
    (h : q.dispatch ht .reservation = .ok (q', .retn c req phase)) :
    phase = .reservation ∧ q.clientMap.lookup c = some (q.topPtr ht .reservation) ∧
      ∃ first rest r₁ r₂ r₃, (q.topRec ht .reservation).requests = first :: rest ∧
        first.request = req ∧
        q' = { q.setRec (q.topPtr ht .reservation) { q.topRec ht .reservation with requests := rest }
          with clVec := { q.clVec with resv := r₁, ready := r₂, limit := r₃ },
               reservSchedCount := q.reservSchedCount + 1 } := by
  obtain ⟨r, hpop, he⟩ := Except.map_eq_ok.mp h
  obtain ⟨rest, r₁, r₂, r₃, hreq, hc, hr⟩ := popProcessRequest_frame ht hpop
  obtain ⟨hq, hret⟩ := Prod.mk.inj he
  obtain ⟨rfl, rfl, rfl⟩ := PullReq.retn.inj hret.symm
  exact ⟨rfl, by rw [hc]; exact lookup_topRec_client ht hm hmem, _, rest, r₁, r₂, r₃, hreq, rfl,
    by rw [← hq, hr]; rfl⟩

/-- A dispatch from the ready view, in a state whose map is sound and holds the top: the top
loses its front, the returned request; the client's lookup reaches the top, whose queued
reservation tags and previous one lose `reservation_inv`; and besides only the cursors and
`prop_sched_count` change. -/
theorem dispatch_ready_frame (hm : MapInv q) (hmem : q.topPtr ht .ready ∈ q.clientMap.map Prod.snd)
    {q' : PriorityQueueBase} {c : ClientId} {req : Request} {phase : PhaseType}
    (h : q.dispatch ht .ready = .ok (q', .retn c req phase)) :
    phase = .priority ∧ q.clientMap.lookup c = some (q.topPtr ht .ready) ∧
      ∃ first rest r₁ r₂ r₃, (q.topRec ht .ready).requests = first :: rest ∧ first.request = req ∧
        q' = { q.setRec (q.topPtr ht .ready)
            ({ q.topRec ht .ready with requests := rest } : ClientRec).reduceReservation
          with clVec := { q.clVec with resv := r₁, ready := r₂, limit := r₃ },
               propSchedCount := q.propSchedCount + 1 } := by
  obtain ⟨r, hpop, hred⟩ := Except.bind_eq_ok.mp h
  obtain ⟨q₃, hq₃, he⟩ := Except.map_eq_ok.mp hred
  obtain ⟨rest, r₁, r₂, r₃, hreq, hc, hr⟩ := popProcessRequest_frame ht hpop
  obtain ⟨hq, hret⟩ := Prod.mk.inj he
  obtain ⟨rfl, rfl, rfl⟩ := PullReq.retn.inj hret.symm
  have hl : q.clientMap.lookup r.2.1 = some (q.topPtr ht .ready) := by
    rw [hc]; exact lookup_topRec_client ht hm hmem
  obtain ⟨e, he, hp⟩ := List.mem_map.mp hmem
  have hlt : q.topPtr ht .ready < q.store.length := hp ▸ hm.lt_length e he
  have hl₁ : r.1.clientMap.lookup r.2.1 = some (q.topPtr ht .ready) := by rw [hr]; exact hl
  obtain ⟨r₁', r₂', r₃', hq₃⟩ := reduceReservationTags_frame hl₁ hq₃
  refine ⟨rfl, hl, _, rest, r₁', r₂', r₃', hreq, rfl, ?_⟩
  rw [← hq, hq₃, hr]
  simp only [HeapId.view, setRec, recOf, deref_set_self hlt, List.set_set]

/-- A dispatched request comes from `do_next_request` choosing a view, then the dispatch
from that view. -/
theorem pullRequest_retn {now : ℚ} {q' : PriorityQueueBase} {c : ClientId} {req : Request}
    {phase : PhaseType} (h : q.pullRequest ht now = .ok (q', .retn c req phase)) :
    ∃ q₁ heapId, q.doNextRequest ht now = .ok (q₁, .returning heapId) ∧
      q₁.dispatch ht heapId = .ok (q', .retn c req phase) := by
  obtain ⟨⟨q₁, d⟩, h₁, h₂⟩ := Except.bind_eq_ok.mp h
  rcases d with heapId | t | _
  · exact ⟨q₁, heapId, h₁, h₂⟩
  all_goals cases h₂

/-- From every state of every run, in either mode, `pull_request(now)` changes the state that
`do_next_request(now)` leaves after its promotion loop only as follows. The record `p` that the
map gives the returned client is the chosen view's top, and it loses its front request, the
returned one. After a dispatch with phase priority, each of its remaining requests, and its
previous tag, has its reservation tag lowered by exactly `reservation_inv`, and
`prop_sched_count` grows by one; after one with phase reservation no tag changes and
`reserv_sched_count` grows by one. Besides, only the vector's cursors move: every other
record, the map and the rest of the state are unchanged. -/
theorem pullRequest_dispatch_frame {h : List Op} {q : PriorityQueueBase} (hr : Run h q)
    (ht : HeapTop) (now : ℚ) (q' : PriorityQueueBase) (c : ClientId) (req : Request) :
    (q.pullRequest ht now = .ok (q', .retn c req .priority) →
      ∃ q₁ p first rest r₁ r₂ r₃, q.doNextRequest ht now = .ok (q₁, .returning .ready) ∧
        q₁.topPtr ht .ready = p ∧ q₁.clientMap.lookup c = some p ∧
        (q₁.recOf p).requests = first :: rest ∧ first.request = req ∧
        q' = { q₁.setRec p { q₁.recOf p with
                requests := rest.map fun r => { r with tag := { r.tag with
                  reservation := r.tag.reservation + ((-(q₁.recOf p).info.reservationInv : ℚ) : Tag) } },
                prevTag := { (q₁.recOf p).prevTag with
                  reservation := (q₁.recOf p).prevTag.reservation +
                    ((-(q₁.recOf p).info.reservationInv : ℚ) : Tag) } }
              with clVec := { q₁.clVec with resv := r₁, ready := r₂, limit := r₃ },
                   propSchedCount := q₁.propSchedCount + 1 }) ∧
    (q.pullRequest ht now = .ok (q', .retn c req .reservation) →
      ∃ q₁ p first rest r₁ r₂ r₃, q.doNextRequest ht now = .ok (q₁, .returning .reservation) ∧
        q₁.topPtr ht .reservation = p ∧ q₁.clientMap.lookup c = some p ∧
        (q₁.recOf p).requests = first :: rest ∧ first.request = req ∧
        q' = { q₁.setRec p { q₁.recOf p with requests := rest }
              with clVec := { q₁.clVec with resv := r₁, ready := r₂, limit := r₃ },
                   reservSchedCount := q₁.reservSchedCount + 1 }) := by
  -- each phase comes from its own view: the other view's dispatch returns the other phase
  refine ⟨fun hp => ?_, fun hp => ?_⟩ <;> obtain ⟨q₁, heapId, hd, hdisp⟩ := pullRequest_retn ht hp <;>
    obtain ⟨hm, hmem⟩ := returning_top_mem ht hr hd <;> cases heapId
  · cases (dispatch_reservation_frame ht hm hmem hdisp).1
  · obtain ⟨-, hl, first, rest, r₁, r₂, r₃, hreq, hfirst, hq'⟩ := dispatch_ready_frame ht hm hmem hdisp
    exact ⟨q₁, _, first, rest, r₁, r₂, r₃, hd, rfl, hl, hreq, hfirst, hq'⟩
  · obtain ⟨-, hl, first, rest, r₁, r₂, r₃, hreq, hfirst, hq'⟩ :=
      dispatch_reservation_frame ht hm hmem hdisp
    exact ⟨q₁, _, first, rest, r₁, r₂, r₃, hd, rfl, hl, hreq, hfirst, hq'⟩
  · cases (dispatch_ready_frame ht hm hmem hdisp).1

/-- One client with `r = w = 1, l = 0` and two requests at time 0, in vector mode:
`pull_request(0)` dispatches the first with phase priority, and the second request's
reservation tag goes from 2 to 1. -/
theorem pullRequest_dispatch_frame_two_requests :
    ∃ q q', Run [.addRequest 0 1 {} 0 0, .addRequest 1 1 {} 0 0] q ∧
      q.pullRequest HeapTop.first 0 = .ok (q', .retn 1 0 .priority) ∧
      ((q'.recOf 0).requests.map fun r => r.tag.reservation) = [((1 : ℚ) : Tag)] ∧
      ∃ q₁ p first rest r₁ r₂ r₃, q.doNextRequest HeapTop.first 0 = .ok (q₁, .returning .ready) ∧
        q₁.topPtr HeapTop.first .ready = p ∧ q₁.clientMap.lookup 1 = some p ∧
        (q₁.recOf p).requests = first :: rest ∧ first.request = 0 ∧
        q' = { q₁.setRec p { q₁.recOf p with
                requests := rest.map fun r => { r with tag := { r.tag with
                  reservation := r.tag.reservation + ((-(q₁.recOf p).info.reservationInv : ℚ) : Tag) } },
                prevTag := { (q₁.recOf p).prevTag with
                  reservation := (q₁.recOf p).prevTag.reservation +
                    ((-(q₁.recOf p).info.reservationInv : ℚ) : Tag) } }
              with clVec := { q₁.clVec with resv := r₁, ready := r₂, limit := r₃ },
                   propSchedCount := q₁.propSchedCount + 1 } := by
  obtain ⟨q, hrun, q', hpull, hresv⟩ : ∃ q, Run [.addRequest 0 1 {} 0 0, .addRequest 1 1 {} 0 0] q ∧
      ∃ q', q.pullRequest HeapTop.first 0 = .ok (q', .retn 1 0 .priority) ∧
        ((q'.recOf 0).requests.map fun r => r.tag.reservation) = [((1 : ℚ) : Tag)] :=
    ⟨_, Run.of_runOf (show runOf HeapTop.first (fun _ => ClientInfo.ofNat 1 1 0) 600000 900000
        360000 false false [.addRequest 0 1 {} 0 0, .addRequest 1 1 {} 0 0] = .ok _ by
          with_unfolding_all rfl),
      _, by with_unfolding_all rfl, by with_unfolding_all rfl⟩
  exact ⟨q, q', hrun, hpull, hresv,
    (pullRequest_dispatch_frame hrun HeapTop.first 0 q' 1 0).1 hpull⟩

end PriorityQueueBase

end DmClock
