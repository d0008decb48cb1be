import DmClock.QueueInv

/- The directions in which the scheduler repositions a record in the heaps (spec §4.3).

   Heap mode never re-sorts a heap: after changing a record it calls `promote` (the record
   may only have moved earlier) or `demote` (only later). Each comparator is `<` on a key
   (`DmClock.Compare`), so a call is in the right direction exactly when the key moved that
   way. What is proved:

     1. `popProcessRequest_moves_later`: in every run whose costs are nonnegative, popping a
        front moves the record later in the reservation and ready orderings, because the
        queue is ordered and only its front can be ready (`QueueInv`).
     2. `promoteStep_moves`: marking the limit top's front ready moves the record earlier in
        the ready ordering and later in the limit ordering, in every state.
     3. `reduceReservationTags_moves_earlier`: reducing the reservation tags moves the record
        earlier in the reservation ordering, in every state.
     4. `popProcessRequest_moves_earlier_in_limit`: popping a ready front leaves a front that
        is not ready, which the limit ordering puts first, so the record can move earlier
        there, against the `limit_heap.demote` that `pop_process_request` calls.
-/

namespace DmClock

/-! ## The keys after each change -/

section Keys
variable {c : ClientRec}

theorem resvKey_pop_le (hi : QueueInv c) {first : ClientReq} {rest : List ClientReq}
    (h : c.requests = first :: rest) : resvKey c ≤ resvKey { c with requests := rest } := by
  have hs := hi.sorted
  rw [h, List.pairwise_cons] at hs
  cases rest with
  | nil => simp only [resvKey, h]; exact le_top
  | cons g t =>
    simp only [resvKey, h]
    exact WithTop.coe_le_coe.mpr (hs.1 g (List.mem_cons_self _ _)).1

theorem readyKey_pop_le (hi : QueueInv c) {first : ClientReq} {rest : List ClientReq}
    (h : c.requests = first :: rest) : readyKey c ≤ readyKey { c with requests := rest } := by
  have hs := hi.sorted
  rw [h, List.pairwise_cons] at hs
  cases rest with
  | nil => simp only [readyKey, h]; exact le_top
  | cons g t =>
    have hg : g.tag.ready = false := hi.tail_unready g (by simp [h])
    have hp := add_le_add_right (hs.1 g (List.mem_cons_self _ _)).2.1 c.propDelta
    simp only [readyKey, h, hg, WithTop.coe_le_coe, Prod.Lex.le_iff]
    cases first.tag.ready <;> simp [hp]

theorem readyKey_promote_le {r : ClientReq} {rest : List ClientReq}
    (h : c.requests = r :: rest) (hready : r.tag.ready = false) :
    readyKey { c with requests := { r with tag := { r.tag with ready := true } } :: rest } ≤
      readyKey c := by
  simp [readyKey, h, hready, Prod.Lex.le_iff]

theorem limitKey_le_promote {r : ClientReq} {rest : List ClientReq}
    (h : c.requests = r :: rest) (hready : r.tag.ready = false) :
    limitKey c ≤
      limitKey { c with requests := { r with tag := { r.tag with ready := true } } :: rest } := by
  simp [limitKey, h, hready, Prod.Lex.le_iff]

theorem resvKey_reduce_le : resvKey c.reduceReservation ≤ resvKey c := by
  cases h : c.requests with
  | nil => simp [resvKey, ClientRec.reduceReservation, h]
  | cons f t =>
    simp only [resvKey, ClientRec.reduceReservation, h, List.map_cons, WithTop.coe_le_coe]
    exact add_le_of_nonpos_right (by exact_mod_cast neg_nonpos.mpr c.info.reservationInv_nonneg)

end Keys

/-! ## The repositionings of the code -/

namespace PriorityQueueBase
variable {ht : HeapTop}

/-- The record a successful pop leaves at the top's pointer. -/
theorem popProcessRequest_rec {q : PriorityQueueBase} {heapId : HeapId}
    {r : PriorityQueueBase × ClientId × ClientReq} (h : q.popProcessRequest ht heapId = .ok r) :
    ∃ rest, (q.topRec ht heapId.view).requests = r.2.2 :: rest ∧
      r.1.recOf (q.topPtr ht heapId.view) = { q.topRec ht heapId.view with requests := rest } := by
  obtain ⟨rest, hreq, -, hr⟩ := popProcessRequest_ok ht h
  have hp := lt_length_of_requests (by rw [← topRec, hreq]; exact List.cons_ne_nil _ _)
  exact ⟨rest, hreq, by rw [hr, adjustAll_recOf, recOf_setRec_self _ hp]⟩

/-- In a run whose costs are nonnegative, the record `pop_process_request` pops moves later
in the reservation and ready orderings, as `resv_heap.demote` and `ready_heap.demote`
assume. -/
theorem popProcessRequest_moves_later {h : List Op} {q q₁ : PriorityQueueBase} {now : ℚ}
    {d : NextReq} {heapId : HeapId} {r : PriorityQueueBase × ClientId × ClientReq}
    (hr : Run h q) (hcost : ∀ op ∈ h, 0 ≤ op.cost)
    (hnext : q.doNextRequest ht now = .ok (q₁, d))
    (hpop : q₁.popProcessRequest ht heapId = .ok r) :
    MovesLater resvCompare (q₁.topRec ht heapId.view) (r.1.recOf (q₁.topPtr ht heapId.view)) ∧
      MovesLater readyCompare (q₁.topRec ht heapId.view)
        (r.1.recOf (q₁.topPtr ht heapId.view)) := by
  have hi : QueueInv (q₁.topRec ht heapId.view) :=
    queueOrdered_invariant.store ((doNextRequest_change ht q hnext).store)
      (fun p => queueOrdered_invariant.run hr p) _ fun o ho => by
        rcases List.mem_append.mp ho with ho | ho
        · exact hcost o ho
        · rw [List.mem_singleton.mp ho]; exact le_rfl
  obtain ⟨rest, hreq, hrec⟩ := popProcessRequest_rec hpop
  rw [hrec]
  exact ⟨movesLater_of_le resvCompare_iff (resvKey_pop_le hi hreq),
    movesLater_of_le readyCompare_iff (readyKey_pop_le hi hreq)⟩

/-- A client of weight 1 and limit 0 with two requests at time 0: its ready front is
popped at time 0, and the record moves later in both orderings. -/
theorem popProcessRequest_moves_later_two_requests :
    ∃ h q q₁ d r, Run h q ∧ (∀ op ∈ h, 0 ≤ op.cost) ∧
      q.doNextRequest HeapTop.first 0 = .ok (q₁, d) ∧
      q₁.popProcessRequest HeapTop.first .ready = .ok r ∧
      MovesLater resvCompare (q₁.topRec HeapTop.first .ready)
        (r.1.recOf (q₁.topPtr HeapTop.first .ready)) ∧
      MovesLater readyCompare (q₁.topRec HeapTop.first .ready)
        (r.1.recOf (q₁.topPtr HeapTop.first .ready)) := by
  obtain ⟨q, hrun, q₁, d, hnext, r, hpop⟩ : ∃ q, Run [.addRequest 0 1 {} 0 0, .addRequest 1 1 {} 0 0] q ∧
      ∃ q₁ d, q.doNextRequest HeapTop.first 0 = .ok (q₁, d) ∧
      ∃ r, q₁.popProcessRequest HeapTop.first .ready = .ok r :=
    ⟨_, Run.of_runOf (show runOf HeapTop.first (fun _ => ClientInfo.ofNat 0 1 0) 600000 900000
      360000 false false [.addRequest 0 1 {} 0 0, .addRequest 1 1 {} 0 0] = .ok _ by
        with_unfolding_all rfl), _, _, by with_unfolding_all rfl, _, by with_unfolding_all rfl⟩
  have hcost : ∀ op ∈ [Op.addRequest 0 1 {} 0 0, .addRequest 1 1 {} 0 0], 0 ≤ op.cost := by
    simp [Op.cost]
  exact ⟨_, q, q₁, d, r, hrun, hcost, hnext, hpop, popProcessRequest_moves_later hrun hcost hnext hpop⟩

/-- Marking the limit top's front ready moves that record earlier in the ready ordering and
later in the limit ordering, as `ready_heap.promote` and `limit_heap.demote` assume. -/
theorem promoteStep_moves {now : ℚ} {q q' : PriorityQueueBase}
    (h : q.promoteStep ht now = some q') :
    MovesEarlier readyCompare (q.topRec ht .limit) (q'.recOf (q.topPtr ht .limit)) ∧
      MovesLater limitCompare (q.topRec ht .limit) (q'.recOf (q.topPtr ht .limit)) := by
  obtain ⟨r, rest, hreq, hready, -, rfl⟩ := promoteStep_eq_some ht h
  have hp := lt_length_of_requests (by rw [← topRec, hreq]; exact List.cons_ne_nil _ _)
  rw [adjustReadyLimitAll_recOf, recOf_setRec_self _ hp]
  exact ⟨movesEarlier_of_le readyCompare_iff (readyKey_promote_le hreq hready),
    movesLater_of_le limitCompare_iff (limitKey_le_promote hreq hready)⟩

/-- A client of weight 1 and limit 0 with one request: the first round of the promotion
loop at time 0 marks its front ready. -/
theorem promoteStep_moves_one_client :
    ∃ q q' : PriorityQueueBase, q.promoteStep HeapTop.first 0 = some q' ∧
      MovesEarlier readyCompare (q.topRec HeapTop.first .limit)
        (q'.recOf (q.topPtr HeapTop.first .limit)) ∧
      MovesLater limitCompare (q.topRec HeapTop.first .limit)
        (q'.recOf (q.topPtr HeapTop.first .limit)) := by
  obtain ⟨q, -, q', h⟩ : ∃ q, runOf HeapTop.first (fun _ => ClientInfo.ofNat 0 1 0) 600000 900000
      360000 false false [.addRequest 0 1 {} 0 0] = .ok q ∧
      ∃ q', q.promoteStep HeapTop.first 0 = some q' :=
    ⟨_, by with_unfolding_all rfl, _, by with_unfolding_all rfl⟩
  exact ⟨q, q', h, promoteStep_moves h⟩

/-- Reducing a client's reservation tags moves its record earlier in the reservation
ordering, as `resv_heap.promote` assumes. -/
theorem reduceReservationTags_moves_earlier {q q' : PriorityQueueBase} {c : ClientId} {p : Nat}
    (hp : q.clientMap.lookup c = some p) (h : q.reduceReservationTags c = .ok q') :
    MovesEarlier resvCompare (q.recOf p) (q'.recOf p) := by
  unfold reduceReservationTags at h
  rw [hp] at h
  cases h
  refine movesEarlier_of_le resvCompare_iff ?_
  rw [adjustResvAll_recOf]
  by_cases hlt : p < q.store.length
  · rw [recOf_setRec_self _ hlt]; exact resvKey_reduce_le
  · rw [recOf_setRec_of_le _ (not_lt.mp hlt)]

/-- A client with reservation 1 and one request: its record moves earlier when its
reservation tags are reduced. -/
theorem reduceReservationTags_moves_earlier_one_client :
    ∃ (q q' : PriorityQueueBase) (p : Nat), q.clientMap.lookup 1 = some p ∧
      q.reduceReservationTags 1 = .ok q' ∧
      MovesEarlier resvCompare (q.recOf p) (q'.recOf p) := by
  obtain ⟨q, -, p, hp, q', h⟩ : ∃ q, runOf HeapTop.first (fun _ => ClientInfo.ofNat 1 1 0) 600000
      900000 360000 false false [.addRequest 0 1 {} 0 0] = .ok q ∧
      ∃ p, q.clientMap.lookup 1 = some p ∧ ∃ q', q.reduceReservationTags 1 = .ok q' :=
    ⟨_, by with_unfolding_all rfl, _, by with_unfolding_all rfl, _, by with_unfolding_all rfl⟩
  exact ⟨q, q', p, hp, h, reduceReservationTags_moves_earlier hp h⟩

/-- Clients 1 and 2, of weight 1 and limit 0, send requests at time 0: two from client 1,
then one from client 2. At `do_next_request(0)` the promotion loop marks both fronts ready
and the ready view chooses client 1, whose ready front `pop_process_request` pops. Client 1's
new front is not ready, so its record now precedes client 2's in the limit ordering, which it
did not before: the record moved earlier, and `limit_heap.demote` moves it the other way.
The same holds in vector mode and in heap mode with correctly ordered heaps. -/
theorem popProcessRequest_moves_earlier_in_limit (useHeap : Bool) :
    ((runOf HeapTop.least (fun _ => ClientInfo.ofNat 0 1 0) 600000 900000 360000 false useHeap
        [.addRequest 0 1 {} 0 0, .addRequest 1 1 {} 0 0, .addRequest 2 2 {} 0 0]).bind fun q =>
      (q.doNextRequest HeapTop.least 0).bind fun r =>
      (r.1.popProcessRequest HeapTop.least .ready).map fun r' =>
        let p := r.1.topPtr HeapTop.least .ready
        (r.2, (r.1.recOf p).client, limitCompare (r.1.recOf p) (r.1.recOf 1),
          limitCompare (r'.1.recOf p) (r.1.recOf 1))) =
      .ok (.returning .ready, 1, false, true) := by
  cases useHeap <;> with_unfolding_all rfl

end PriorityQueueBase

end DmClock
