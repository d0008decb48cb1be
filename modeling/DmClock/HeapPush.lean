import DmClock.HeapMode
import DmClock.Push

/- Vector mode refines heap mode for the push façade (spec §4.3, §6).

   The push façade schedules through `next_request(now)` and `submit_request`, the pull
   façade's decision and dispatch, so its vector mode refines its heap mode as the pull
   façade's does (`HeapMode.lean`):
   1. `PushPriorityQueue.asHeap`: the push queue with its base queue's heap-mode image; the
      deadline and the thread's state are kept.
   2. `step_asHeap`: from a reachable vector-mode base queue, one step of the push façade is a
      step of heap mode with a correctly ordered heap, handing `handle_f` the same requests;
      when the step schedules after its own `add_request`, the heap breaks ties by the slots
      the vector has then.
   3. `vector_push_refines_heap_push`: every push run in vector mode, under any interleaving
      of the calls with the scheduling thread, is a push run of heap mode with correct heaps.
-/

namespace DmClock

namespace PushPriorityQueue
variable {order : List Nat} {q : PriorityQueueBase} {p p' : PushPriorityQueue}

/-- The heap-mode image of a push queue: its base queue's. -/
def asHeap (p : PushPriorityQueue) : PushPriorityQueue := { p with base := p.base.asHeap }

theorem schedAt_asHeap (when : Tag) (p : PushPriorityQueue) :
    (schedAt when p).asHeap = schedAt when p.asHeap := by
  unfold schedAt asHeap
  split_ifs <;> rfl

theorem nextRequest_mirrors (hm : PriorityQueueBase.Mirrors order q) (ht : HeapTop)
    {canHandle : Bool} {now : ℚ} {r : PriorityQueueBase × NextReq}
    (h : nextRequest ht q canHandle now = .ok r) : PriorityQueueBase.Mirrors order r.1 := by
  cases canHandle
  · cases h; exact hm
  · exact hm.of_sameIndex (PriorityQueueBase.sameIndex_pullClosed.doNextRequest ht h)
      (hm.cursors.doNextRequest ht h)

theorem nextRequest_asHeap (hm : PriorityQueueBase.Mirrors order q) (ht : HeapTop)
    (canHandle : Bool) (now : ℚ) :
    (nextRequest ht q canHandle now).map (fun r => (r.1.asHeap, r.2)) =
      nextRequest (HeapTop.inOrder order) q.asHeap canHandle now := by
  cases canHandle
  · rfl
  · exact hm.doNextRequest_asHeap ht now

theorem submitRequest_asHeap {ht hh : HeapTop} (q : PriorityQueueBase) {heapId : HeapId}
    (htop : q.asHeap.topPtr hh heapId.view = q.topPtr ht heapId.view) :
    (submitRequest ht q heapId).map (fun s => (s.1.asHeap, s.2)) =
      submitRequest hh q.asHeap heapId := by
  have hpop := PriorityQueueBase.popProcessRequest_asHeap q htop
  cases heapId with
  | reservation =>
    simp only [submitRequest, submitTopRequest]
    rw [← hpop]
    cases q.popProcessRequest ht .reservation <;> rfl
  | ready =>
    simp only [submitRequest, submitTopRequest]
    rw [← hpop]
    rcases q.popProcessRequest ht .ready with _ | ⟨q₁, c, r⟩
    · rfl
    · show ((q₁.reduceReservationTags c).map _).map _ = (q₁.asHeap.reduceReservationTags c).map _
      rw [← PriorityQueueBase.reduceReservationTags_asHeap]
      cases q₁.reduceReservationTags c <;> rfl

theorem scheduleRequest_asHeap (hm : PriorityQueueBase.Mirrors order p.base) (ht : HeapTop)
    (canHandle : Bool) (now : ℚ) :
    (p.scheduleRequest ht canHandle now).map (fun s => (s.1.asHeap, s.2)) =
      p.asHeap.scheduleRequest (HeapTop.inOrder order) canHandle now := by
  unfold scheduleRequest
  rw [show p.asHeap.base = p.base.asHeap from rfl, ← nextRequest_asHeap hm ht]
  cases hn : nextRequest ht p.base canHandle now with
  | error => rfl
  | ok r =>
    obtain ⟨q₁, d⟩ := r
    have hm₁ := nextRequest_mirrors hm ht hn
    cases d with
    | none => rfl
    | future t => exact congrArg Except.ok (Prod.ext (schedAt_asHeap t _) rfl)
    | returning heapId =>
      show ((submitRequest ht q₁ heapId).map _).map _ = (submitRequest _ q₁.asHeap heapId).map _
      rw [← submitRequest_asHeap q₁ (hm₁.topPtr ht _)]
      cases submitRequest ht q₁ heapId <;> rfl

theorem scheduleRequest_useHeap {ht : HeapTop} {canHandle : Bool} {now : ℚ} {o : List Handled}
    (hs : p.scheduleRequest ht canHandle now = .ok (p', o)) : p'.base.useHeap = p.base.useHeap := by
  cases canHandle
  · rw [scheduleRequest_busy] at hs
    cases hs; rfl
  · have he := scheduleRequest_canHandle ht p now
    rw [hs] at he
    obtain ⟨r, hpull, hr⟩ := Except.map_eq_ok.mp he.symm
    rw [← (Prod.mk.inj hr).1]
    exact (PriorityQueueBase.pullRequest_change ht p.base hpull).useHeap

/-- A step of the push façade keeps the base queue's mode. -/
theorem step_useHeap {ht : HeapTop} {op : PushOp} {o : List Handled}
    (hs : p.step ht op = .ok (p', o)) : p'.base.useHeap = p.base.useHeap := by
  cases op with
  | addRequest request clientId reqParams time addlCost now canHandle =>
    obtain ⟨q, hq, hsched⟩ := Except.bind_eq_ok.mp hs
    exact (scheduleRequest_useHeap hsched).trans (PriorityQueueBase.doAddRequest_change p.base hq).useHeap
  | requestCompleted => exact scheduleRequest_useHeap hs
  | schedAheadWake =>
    cases hs
    split <;> rfl
  | schedAheadRun =>
    simp only [step] at hs
    split at hs
    · exact (scheduleRequest_useHeap hs :)
    · cases hs; rfl
  | removeByClient c =>
    cases hs
    exact (PriorityQueueBase.removeByClient_change p.base c : StateChange (.removeByClient c) _ _).useHeap
  | removeByReqFilter =>
    obtain ⟨r, hr, he⟩ := Except.map_eq_ok.mp hs
    cases he
    exact (PriorityQueueBase.removeByReqFilter_change p.base hr).useHeap
  | doClean =>
    obtain ⟨q, hq, he⟩ := Except.map_eq_ok.mp hs
    cases he
    exact (PriorityQueueBase.doClean_change p.base hq).useHeap

/-- From a reachable vector-mode base queue, one step of the push façade is a step of heap mode
with a correctly ordered heap, handing the same requests to `handle_f`. The heap breaks ties by
the vector's slots when the step schedules, after the step's own `add_request`. -/
theorem step_asHeap {h : List Op} (hr : Run h p.base) (hv : p.base.useHeap = false)
    (ht : HeapTop) (op : PushOp) :
    ∃ hh : HeapTop, hh.Correct ∧
      (p.step ht op).map (fun s => (s.1.asHeap, s.2)) = p.asHeap.step hh op := by
  have hm := PriorityQueueBase.Mirrors.of_run hr hv
  have hbase : p.asHeap.base = p.base.asHeap := rfl
  cases op with
  | addRequest request clientId reqParams time addlCost now canHandle =>
    have hadd := p.base.doAddRequest_asHeap request clientId reqParams time addlCost
    cases ha : p.base.doAddRequest request clientId reqParams time addlCost with
    | error e =>
      refine ⟨HeapTop.least, HeapTop.least_correct, ?_⟩
      simp only [step]
      rw [hbase, ← hadd, ha]
      rfl
    | ok q =>
      have hq := hr.step (show p.base.step ht (.addRequest request clientId reqParams time addlCost) =
        .ok q from ha)
      have hmq := PriorityQueueBase.Mirrors.of_run hq
        ((PriorityQueueBase.doAddRequest_change p.base ha).useHeap.trans hv)
      refine ⟨HeapTop.inOrder q.clVec.data, HeapTop.inOrder_correct _, ?_⟩
      simp only [step]
      rw [hbase, ← hadd, ha]
      exact scheduleRequest_asHeap (p := { p with base := q }) hmq ht canHandle now
  | requestCompleted now canHandle =>
    exact ⟨_, HeapTop.inOrder_correct _, scheduleRequest_asHeap hm ht canHandle now⟩
  | schedAheadWake now =>
    refine ⟨HeapTop.least, HeapTop.least_correct, ?_⟩
    simp only [step, asHeap]
    split_ifs <;> rfl
  | schedAheadRun now canHandle =>
    refine ⟨HeapTop.inOrder p.base.clVec.data, HeapTop.inOrder_correct _, ?_⟩
    simp only [step, asHeap]
    split_ifs
    · exact scheduleRequest_asHeap (p := { p with schedAheadDue := false }) hm ht canHandle now
    · rfl
  | removeByClient c =>
    refine ⟨HeapTop.least, HeapTop.least_correct, ?_⟩
    simp only [step, hbase, PriorityQueueBase.removeByClient_asHeap]
    rfl
  | removeByReqFilter f b =>
    refine ⟨HeapTop.least, HeapTop.least_correct, ?_⟩
    simp only [step]
    rw [hbase, ← PriorityQueueBase.removeByReqFilter_asHeap]
    cases p.base.removeByReqFilter f b <;> rfl
  | doClean now =>
    refine ⟨HeapTop.least, HeapTop.least_correct, ?_⟩
    simp only [step]
    rw [hbase, ← PriorityQueueBase.doClean_asHeap]
    cases p.base.doClean now <;> rfl

end PushPriorityQueue

/-- `HeapPushRun h out p`: the steps `h` take a push queue constructed in heap mode to `p` with a
correctly ordered heap at every step, and `handle_f` received `out`. -/
inductive HeapPushRun : List PushOp → List Handled → PushPriorityQueue → Prop
  | make {f : ClientId → ClientInfo} {idleAge eraseAge checkTime : ℚ} {allowLimitBreak : Bool}
      {p : PushPriorityQueue} :
      PushPriorityQueue.make f idleAge eraseAge checkTime allowLimitBreak true = .ok p →
      HeapPushRun [] [] p
  | step {h : List PushOp} {out o : List Handled} {p p' : PushPriorityQueue} {ht : HeapTop}
      {op : PushOp} :
      HeapPushRun h out p → ht.Correct → p.step ht op = .ok (p', o) →
      HeapPushRun (h ++ [op]) (out ++ o) p'

/-- Every run of the push façade in vector mode, under any interleaving of its calls with the
scheduling thread, is a run of heap mode with a correctly ordered heap at every step that hands
`handle_f` the same requests with the same phases, and ends in the same deadline and thread
state with the base queue without its vector. -/
theorem vector_push_refines_heap_push {hs : List PushOp} {hd : List Handled}
    {p : PushPriorityQueue} (hr : PushRun hs hd p) (hv : p.base.useHeap = false) :
    HeapPushRun hs hd p.asHeap := by
  induction hr with
  | @make f idleAge eraseAge checkTime allowLimitBreak useHeap p hm =>
    refine @HeapPushRun.make f idleAge eraseAge checkTime allowLimitBreak _ ?_
    obtain ⟨q, hq, rfl⟩ := Except.map_eq_ok.mp hm
    unfold PriorityQueueBase.make at hq
    unfold PushPriorityQueue.make PriorityQueueBase.make
    split_ifs at hq ⊢
    cases hq; rfl
  | @step h out o p p' ht op hr₀ hs ih =>
    have hv₀ : p.base.useHeap = false := (PushPriorityQueue.step_useHeap hs).symm.trans hv
    obtain ⟨ops, ho, -⟩ := hr₀.outRun
    obtain ⟨hh, hc, he⟩ := PushPriorityQueue.step_asHeap ho.run hv₀ ht op
    rw [hs] at he
    exact .step (ih hv₀) hc he.symm

/-- A weighted client with limit 0 and two requests at time 0, in vector mode: the server takes
the first at once, and heap mode with a correct heap hands it over too. -/
theorem vector_push_refines_heap_push_two_requests :
    ∃ p, PushRun [.addRequest 0 1 {} 0 0 0 true, .addRequest 7 1 {} 0 0 0 false]
        [(1, 0, .priority)] p ∧ p.base.useHeap = false ∧
      HeapPushRun [.addRequest 0 1 {} 0 0 0 true, .addRequest 7 1 {} 0 0 0 false]
        [(1, 0, .priority)] p.asHeap := by
  obtain ⟨p, hr, hv⟩ : ∃ p, PushRun [.addRequest 0 1 {} 0 0 0 true, .addRequest 7 1 {} 0 0 0 false]
      [(1, 0, .priority)] p ∧ p.base.useHeap = false :=
    ⟨_, PushRun.of_pushRunOf (show pushRunOf HeapTop.first (fun _ => ClientInfo.ofNat 0 1 0) 600000
        900000 360000 false false [.addRequest 0 1 {} 0 0 0 true, .addRequest 7 1 {} 0 0 0 false] =
          .ok (_, [(1, 0, .priority)]) by with_unfolding_all rfl),
      by with_unfolding_all rfl⟩
  exact ⟨p, hr, hv, vector_push_refines_heap_push hr hv⟩

end DmClock
