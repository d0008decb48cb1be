import DmClock.Fifo

/- The push façade `PushPriorityQueue`.

   The push façade keeps the queue of `PriorityQueueBase`, as the pull façade does, and
   hands requests to the server itself. Each `add_request` and each `request_completed`
   calls `schedule_request()`. If the server can take a request (`can_handle_f()`),
   `do_next_request` decides; a chosen view is dispatched by `submit_request`, which hands
   the request to `handle_f(client, request, phase)`, and a wake-up time goes to
   `sched_at(when)`, which keeps the earliest deadline in `sched_ahead_when` (`TimeZero` for
   none). The scheduling thread `run_sched_ahead` waits until the clock passes that
   deadline, clears it, releases its lock, and only then calls `schedule_request()` under the
   data lock, so other calls may run in between. The model keeps the thread's position in
   the state (`schedAheadDue`), and a run interleaves the thread's two steps with the calls.

   What is proved:
     1. `scheduleRequest_eq_pullRequest`: one scheduling is the pull façade's
        `pull_request(now)`, `handle_f` receiving exactly the request it returns; when the
        server cannot take a request, nothing changes.
     2. `PushRun.outRun`: on the queue, every run of the push façade is a run of the pull
        façade that dispatches the same requests, so the pull façade's theorems over runs
        hold of it; FIFO per client does (`push_fifo_per_client`).
     3. `armedFor_of_steps`: no wake-up is lost. After a scheduling that returns a wake-up
        time `t`, until the thread calls `schedule_request()` again, it has woken or waits
        for a deadline no later than `t`, whatever calls run in between.

   Correspondence (C++ ↔ Lean):
     `PushPriorityQueue`'s data                   ↔ `PushPriorityQueue`
     `next_request(now)`                          ↔ `nextRequest`
     `submit_top_request` (both)                  ↔ `submitTopRequest`
     `submit_request(heap_id)`                    ↔ `submitRequest`
     `sched_at(when)`                             ↔ `schedAt`
     `schedule_request()`                         ↔ `scheduleRequest`
     `add_request`, `request_completed`, the steps of `run_sched_ahead`, and the calls
     inherited from `PriorityQueueBase`           ↔ `PushOp`, `step`
-/

namespace DmClock

/-- A request handed to the server: the arguments of `handle_f(client, request, phase)`. -/
abbrev Handled := ClientId × Request × PhaseType

/-- The client and request of a handed request. -/
def Handled.out (x : Handled) : ClientId × Request := (x.1, x.2.1)

/-- What `handle_f` receives where `pull_request` returns `r`. -/
def PullReq.handled : PullReq → List Handled
  | .retn client request phase => [(client, request, phase)]
  | _ => []

@[simp] theorem PullReq.handled_map_out (r : PullReq) : r.handled.map Handled.out = r.taken := by
  cases r <;> rfl

/-- `PushPriorityQueue`'s data: the queue, the scheduling thread's deadline `sched_ahead_when`
(`TimeZero` for none), and whether that thread has passed its deadline and not yet called
`schedule_request()`. -/
structure PushPriorityQueue where
  base : PriorityQueueBase
  schedAheadWhen : Tag
  schedAheadDue : Bool

/-- A call of the push façade under its data lock, a run of the cleaner, or a step of the
scheduling thread. `now` is the clock `schedule_request()` reads, and `canHandle` what
`can_handle_f()` answers there. -/
inductive PushOp
  | addRequest (request : Request) (clientId : ClientId) (reqParams : ReqParams) (time : ℚ)
      (addlCost : ℚ) (now : ℚ) (canHandle : Bool)
  | requestCompleted (now : ℚ) (canHandle : Bool)
  | schedAheadWake (now : ℚ)
  | schedAheadRun (now : ℚ) (canHandle : Bool)
  | removeByClient (client : ClientId)
  | removeByReqFilter (filter : Request → Bool) (visitBackwards : Bool)
  | doClean (now : ℚ)

namespace PushOp

/-- The request a call queues, under its client. -/
def added : PushOp → List (ClientId × Request)
  | .addRequest request clientId _ _ _ _ _ => [(clientId, request)]
  | _ => []

/-- The steps that hand back or keep every request: all but the removals and the cleaner. -/
def keepsRequests : PushOp → Bool
  | .removeByClient _ | .removeByReqFilter _ _ | .doClean _ => false
  | _ => true

/-- The scheduling thread's call of `schedule_request()`. -/
def runsThread : PushOp → Bool
  | .schedAheadRun _ _ => true
  | _ => false

end PushOp

namespace PushPriorityQueue
variable (ht : HeapTop)

/-- The constructor: the base queue, no deadline, and the thread waiting. -/
def make (f : ClientId → ClientInfo) (idleAge eraseAge checkTime : ℚ)
    (allowLimitBreak useHeap : Bool) : Except String PushPriorityQueue :=
  (PriorityQueueBase.make f idleAge eraseAge checkTime allowLimitBreak useHeap).map
    fun q => ⟨q, timeZero, false⟩

/-- `next_request(now)`: `none` while the server cannot take a request. -/
def nextRequest (q : PriorityQueueBase) (canHandle : Bool) (now : ℚ) :
    Except String (PriorityQueueBase × NextReq) :=
  if !canHandle then .ok (q, .none) else q.doNextRequest ht now

/-- `submit_top_request(phase)` and its heap twin: pop the view's top and hand its front to
`handle_f` with `phase`; the client is returned. -/
def submitTopRequest (q : PriorityQueueBase) (heapId : HeapId) (phase : PhaseType) :
    Except String (PriorityQueueBase × ClientId × Handled) :=
  (q.popProcessRequest ht heapId).map fun r => (r.1, r.2.1, (r.2.1, r.2.2.request, phase))

/-- `submit_request(heap_id)`. -/
def submitRequest (q : PriorityQueueBase) : HeapId → Except String (PriorityQueueBase × Handled)
  | .reservation => (submitTopRequest ht q .reservation .reservation).map fun r =>
    ({ r.1 with reservSchedCount := r.1.reservSchedCount + 1 }, r.2.2)
  | .ready => (submitTopRequest ht q .ready .priority).bind fun r =>
    (r.1.reduceReservationTags r.2.1).map fun q =>
      ({ q with propSchedCount := q.propSchedCount + 1 }, r.2.2)

/-- `sched_at(when)`: the deadline becomes `when` if there was none or a later one. -/
def schedAt (when : Tag) (p : PushPriorityQueue) : PushPriorityQueue :=
  if timeZero = p.schedAheadWhen ∨ when < p.schedAheadWhen then { p with schedAheadWhen := when }
  else p

@[simp] theorem schedAt_base (when : Tag) (p : PushPriorityQueue) :
    (schedAt when p).base = p.base := by
  unfold schedAt; split <;> rfl

@[simp] theorem schedAt_schedAheadDue (when : Tag) (p : PushPriorityQueue) :
    (schedAt when p).schedAheadDue = p.schedAheadDue := by
  unfold schedAt; split <;> rfl

/-- `schedule_request()` at clock `now`, `can_handle_f()` answering `canHandle`: the state,
and what `handle_f` received. -/
def scheduleRequest (p : PushPriorityQueue) (canHandle : Bool) (now : ℚ) :
    Except String (PushPriorityQueue × List Handled) :=
  (nextRequest ht p.base canHandle now).bind fun r =>
    match r.2 with
    | .none => .ok ({ p with base := r.1 }, [])
    | .future whenReady => .ok (schedAt whenReady { p with base := r.1 }, [])
    | .returning heapId =>
      (submitRequest ht r.1 heapId).map fun s => ({ p with base := s.1 }, [s.2])

/-- One step of the push façade, and what `handle_f` received. The thread wakes once the
clock has reached its deadline, clearing it; it runs `schedule_request()` only once woken.
At any other point each of its steps leaves the state as it is. -/
def step (p : PushPriorityQueue) : PushOp → Except String (PushPriorityQueue × List Handled)
  | .addRequest request clientId reqParams time addlCost now canHandle =>
    (p.base.doAddRequest request clientId reqParams time addlCost).bind fun q =>
      scheduleRequest ht { p with base := q } canHandle now
  | .requestCompleted now canHandle => scheduleRequest ht p canHandle now
  | .schedAheadWake now =>
    .ok (if p.schedAheadDue = false ∧ timeZero ≠ p.schedAheadWhen ∧ p.schedAheadWhen ≤ (now : Tag)
      then { p with schedAheadWhen := timeZero, schedAheadDue := true } else p, [])
  | .schedAheadRun now canHandle =>
    if p.schedAheadDue then scheduleRequest ht { p with schedAheadDue := false } canHandle now
    else .ok (p, [])
  | .removeByClient client => .ok ({ p with base := (p.base.removeByClient client).1 }, [])
  | .removeByReqFilter filter visitBackwards =>
    (p.base.removeByReqFilter filter visitBackwards).map fun r => ({ p with base := r.1 }, [])
  | .doClean now => (p.base.doClean now).map fun q => ({ p with base := q }, [])

/-! ## One scheduling is one pull -/

/-- `submit_request` is the pull façade's dispatch, `handle_f` receiving what the dispatch
returns. -/
theorem submitRequest_eq_dispatch (q : PriorityQueueBase) (heapId : HeapId) :
    (submitRequest ht q heapId).map (fun s => (s.1, [s.2])) =
      (q.dispatch ht heapId).map fun r => (r.1, r.2.handled) := by
  cases heapId <;> simp only [submitRequest, submitTopRequest, PriorityQueueBase.dispatch] <;>
    cases q.popProcessRequest ht _
  case reservation.ok r => rfl
  case ready.ok r =>
    show ((r.1.reduceReservationTags r.2.1).map _).map _ = ((r.1.reduceReservationTags r.2.1).map _).map _
    cases r.1.reduceReservationTags r.2.1 <;> rfl
  all_goals rfl

/-- With a server that can take a request, `schedule_request()` is `pull_request(now)`. -/
theorem scheduleRequest_canHandle (p : PushPriorityQueue) (now : ℚ) :
    (p.scheduleRequest ht true now).map (fun s => (s.1.base, s.2)) =
      (p.base.pullRequest ht now).map (fun r => (r.1, r.2.handled)) := by
  unfold scheduleRequest nextRequest PriorityQueueBase.pullRequest
  cases p.base.doNextRequest ht now with
  | error e => rfl
  | ok r =>
    obtain ⟨q₁, d⟩ := r
    rcases d with heapId | t | _
    · show ((submitRequest ht q₁ heapId).map _).map _ = (q₁.dispatch ht heapId).map _
      rw [← submitRequest_eq_dispatch]
      cases submitRequest ht q₁ heapId <;> rfl
    · show Except.ok ((schedAt t { p with base := q₁ }).base, []) = Except.ok (q₁, [])
      rw [schedAt_base]
    · rfl

/-- With a busy server, `schedule_request()` changes nothing. -/
theorem scheduleRequest_busy (p : PushPriorityQueue) (now : ℚ) :
    p.scheduleRequest ht false now = .ok (p, []) := rfl

/-- `schedule_request()` at clock `now` is `pull_request(now)` on the queue, `handle_f`
receiving exactly the request `pull_request` returns; when the server cannot take a request,
it changes nothing. -/
theorem scheduleRequest_eq_pullRequest (p : PushPriorityQueue) (now : ℚ) :
    (p.scheduleRequest ht true now).map (fun s => (s.1.base, s.2)) =
        (p.base.pullRequest ht now).map (fun r => (r.1, r.2.handled)) ∧
      p.scheduleRequest ht false now = .ok (p, []) :=
  ⟨scheduleRequest_canHandle ht p now, scheduleRequest_busy ht p now⟩

/-! ## Push runs are pull runs -/

variable {p p' : PushPriorityQueue} {h : List Op} {out : List (ClientId × Request)}

/-- On the queue, a scheduling is one pull, or nothing when the server cannot take a
request. -/
theorem scheduleRequest_simulates {canHandle : Bool} {now : ℚ} {o : List Handled}
    (hs : p.scheduleRequest ht canHandle now = .ok (p', o)) (hr : OutRun h out p.base) :
    ∃ ops, OutRun (h ++ ops) (out ++ o.map Handled.out) p'.base ∧ ops.flatMap Op.added = [] ∧
      ops.all Op.keepsRequests = true := by
  cases canHandle with
  | false =>
    rw [scheduleRequest_busy] at hs
    cases hs
    exact ⟨[], by simpa using hr, rfl, rfl⟩
  | true =>
    have he := scheduleRequest_canHandle ht p now
    rw [hs] at he
    obtain ⟨r, hpull, hr'⟩ := Except.map_eq_ok.mp he.symm
    obtain ⟨h₁, h₂⟩ := Prod.mk.inj hr'
    have hstep : p.base.stepOut ht (.pullRequest now) = .ok (p'.base, o.map Handled.out) := by
      simp only [PriorityQueueBase.stepOut, hpull]
      show Except.ok (r.1, r.2.taken) = _
      rw [← PullReq.handled_map_out, h₁, h₂]
    exact ⟨[.pullRequest now], hr.step hstep, rfl, rfl⟩

/-- On the queue, every step of the push façade is a few steps of the pull façade that queue
the same requests and dispatch what `handle_f` received. -/
theorem step_simulates {op : PushOp} {o : List Handled} (hs : p.step ht op = .ok (p', o))
    (hr : OutRun h out p.base) :
    ∃ ops, OutRun (h ++ ops) (out ++ o.map Handled.out) p'.base ∧
      ops.flatMap Op.added = op.added ∧ (op.keepsRequests = true → ops.all Op.keepsRequests = true) := by
  cases op with
  | addRequest request clientId reqParams time addlCost now canHandle =>
    obtain ⟨q, hq, hsched⟩ := Except.bind_eq_ok.mp hs
    have hstep : p.base.stepOut ht (.addRequest request clientId reqParams time addlCost) =
        .ok (q, []) := by
      simp only [PriorityQueueBase.stepOut, PriorityQueueBase.step, hq]; rfl
    obtain ⟨ops, hr₂, hadd, hkeep⟩ := scheduleRequest_simulates ht hsched (by simpa using hr.step hstep)
    exact ⟨.addRequest request clientId reqParams time addlCost :: ops, by simpa using hr₂,
      by simp [hadd, Op.added, PushOp.added], fun _ => by simp [hkeep, Op.keepsRequests]⟩
  | requestCompleted now canHandle =>
    obtain ⟨ops, hr₂, hadd, hkeep⟩ := scheduleRequest_simulates ht hs hr
    exact ⟨ops, hr₂, hadd, fun _ => hkeep⟩
  | schedAheadWake now =>
    cases hs
    refine ⟨[], ?_, rfl, fun _ => rfl⟩
    split <;> simpa using hr
  | schedAheadRun now canHandle =>
    simp only [step] at hs
    split at hs
    · obtain ⟨ops, hr₂, hadd, hkeep⟩ := scheduleRequest_simulates ht hs hr
      exact ⟨ops, hr₂, hadd, fun _ => hkeep⟩
    · cases hs
      exact ⟨[], by simpa using hr, rfl, fun _ => rfl⟩
  | removeByClient client =>
    cases hs
    have hstep : p.base.stepOut ht (.removeByClient client) =
        .ok ((p.base.removeByClient client).1, []) := rfl
    exact ⟨[.removeByClient client], by simpa using hr.step hstep, rfl, fun h => by cases h⟩
  | removeByReqFilter filter visitBackwards =>
    obtain ⟨r, hr', he⟩ := Except.map_eq_ok.mp hs
    cases he
    have hstep : p.base.stepOut ht (.removeByReqFilter filter visitBackwards) = .ok (r.1, []) := by
      simp only [PriorityQueueBase.stepOut, PriorityQueueBase.step, hr']; rfl
    exact ⟨[.removeByReqFilter filter visitBackwards], by simpa using hr.step hstep, rfl,
      fun h => by cases h⟩
  | doClean now =>
    obtain ⟨q, hq, he⟩ := Except.map_eq_ok.mp hs
    cases he
    have hstep : p.base.stepOut ht (.doClean now) = .ok (q, []) := by
      simp only [PriorityQueueBase.stepOut, PriorityQueueBase.step, hq]; rfl
    exact ⟨[.doClean now], by simpa using hr.step hstep, rfl, fun h => by cases h⟩

end PushPriorityQueue

/-- `PushRun h out p`: the steps `h`, oldest first, take a constructed push queue to `p`, and
`handle_f` received `out`, oldest first. The heap tops may differ at every step. -/
inductive PushRun : List PushOp → List Handled → PushPriorityQueue → Prop
  | make {f : ClientId → ClientInfo} {idleAge eraseAge checkTime : ℚ}
      {allowLimitBreak useHeap : Bool} {p : PushPriorityQueue} :
      PushPriorityQueue.make f idleAge eraseAge checkTime allowLimitBreak useHeap = .ok p →
      PushRun [] [] p
  | step {h : List PushOp} {out o : List Handled} {p p' : PushPriorityQueue} {ht : HeapTop}
      {op : PushOp} :
      PushRun h out p → p.step ht op = .ok (p', o) → PushRun (h ++ [op]) (out ++ o) p'

/-- The run of `ops` from the push queue `make` builds, with what `handle_f` received. -/
def pushRunOf (ht : HeapTop) (f : ClientId → ClientInfo) (idleAge eraseAge checkTime : ℚ)
    (allowLimitBreak useHeap : Bool) (ops : List PushOp) :
    Except String (PushPriorityQueue × List Handled) :=
  (PushPriorityQueue.make f idleAge eraseAge checkTime allowLimitBreak useHeap).bind fun p =>
    ops.foldlM (fun acc op => (acc.1.step ht op).map fun r => (r.1, acc.2 ++ r.2)) (p, [])

theorem PushRun.foldlM {ht : HeapTop} {h : List PushOp} {out : List Handled}
    {p : PushPriorityQueue} (hr : PushRun h out p) :
    ∀ {ops : List PushOp} {r : PushPriorityQueue × List Handled},
      ops.foldlM (fun acc op => (acc.1.step ht op).map fun r => (r.1, acc.2 ++ r.2)) (p, out) =
        .ok r → PushRun (h ++ ops) r.2 r.1
  | [], _, hq => by cases hq; simpa using hr
  | op :: ops, _, hq => by
    obtain ⟨r₁, h₁, h₂⟩ := Except.bind_eq_ok.mp hq
    obtain ⟨r₀, h₀, rfl⟩ := Except.map_eq_ok.mp h₁
    simpa using (hr.step h₀).foldlM h₂

/-- A run that `pushRunOf` computes is a run with those handed requests. -/
theorem PushRun.of_pushRunOf {ht : HeapTop} {f : ClientId → ClientInfo}
    {idleAge eraseAge checkTime : ℚ} {allowLimitBreak useHeap : Bool} {ops : List PushOp}
    {r : PushPriorityQueue × List Handled}
    (h : pushRunOf ht f idleAge eraseAge checkTime allowLimitBreak useHeap ops = .ok r) :
    PushRun ops r.2 r.1 := by
  obtain ⟨p₀, h₀, h₁⟩ := Except.bind_eq_ok.mp h
  simpa using (PushRun.make h₀).foldlM h₁

/-- On the queue, every run of the push façade is a run of the pull façade that queues the
same requests and dispatches what `handle_f` received, and that makes only `add_request` and
`pull_request` calls when the push run neither removes nor cleans. -/
theorem PushRun.outRun {hs : List PushOp} {hd : List Handled} {p : PushPriorityQueue}
    (hr : PushRun hs hd p) :
    ∃ h, OutRun h (hd.map Handled.out) p.base ∧ h.flatMap Op.added = hs.flatMap PushOp.added ∧
      (hs.all PushOp.keepsRequests = true → h.all Op.keepsRequests = true) := by
  induction hr with
  | make hm =>
    obtain ⟨q, hq, rfl⟩ := Except.map_eq_ok.mp hm
    exact ⟨[], .make hq, rfl, fun _ => rfl⟩
  | step _ hs ih =>
    obtain ⟨h, ho, hadd, hkeep⟩ := ih
    obtain ⟨ops, ho', hadd', hkeep'⟩ := PushPriorityQueue.step_simulates _ hs ho
    refine ⟨h ++ ops, by simpa using ho', by simp [hadd, hadd'], fun hall => ?_⟩
    simp only [List.all_append, Bool.and_eq_true, List.all_cons, List.all_nil, Bool.and_true]
      at hall ⊢
    exact ⟨hkeep hall.1, hkeep' hall.2⟩

/-- FIFO per client on every run of the push façade, under any interleaving of the calls with
the scheduling thread: for every client, the requests handed to the server for it followed
by those still queued for it are, in order, a subsequence of the requests added for it; and
when the run neither removes nor cleans, they are exactly those requests, in order. -/
theorem push_fifo_per_client {hs : List PushOp} {hd : List Handled} {p : PushPriorityQueue}
    (hr : PushRun hs hd p) (c : ClientId) :
    (requestsOf c (hd.map Handled.out) ++ p.base.clientQueue c).Sublist
        (requestsOf c (hs.flatMap PushOp.added)) ∧
      (hs.all PushOp.keepsRequests = true →
        requestsOf c (hd.map Handled.out) ++ p.base.clientQueue c =
          requestsOf c (hs.flatMap PushOp.added)) := by
  obtain ⟨h, ho, hadd, hkeep⟩ := hr.outRun
  rw [← hadd]
  have hfifo := fifo_per_client ho c
  exact ⟨hfifo.1, fun hall => hfifo.2 (hkeep hall)⟩

/-- A weighted client with limit 0 and two requests at time 0, in vector mode: the server takes
the first at once, and cannot take another when the second arrives, which stays queued. -/
theorem push_fifo_per_client_two_requests :
    ∃ p, PushRun [.addRequest 0 1 {} 0 0 0 true, .addRequest 7 1 {} 0 0 0 false]
        [(1, 0, .priority)] p ∧ p.base.clientQueue 1 = [7] ∧
      (requestsOf 1 ([(1, 0, .priority)].map Handled.out) ++ p.base.clientQueue 1).Sublist
          (requestsOf 1 ([PushOp.addRequest 0 1 {} 0 0 0 true, .addRequest 7 1 {} 0 0 0 false].flatMap
            PushOp.added)) ∧
        ([PushOp.addRequest 0 1 {} 0 0 0 true, .addRequest 7 1 {} 0 0 0 false].all
            PushOp.keepsRequests = true →
          requestsOf 1 ([(1, 0, .priority)].map Handled.out) ++ p.base.clientQueue 1 =
            requestsOf 1 ([PushOp.addRequest 0 1 {} 0 0 0 true, .addRequest 7 1 {} 0 0 0 false].flatMap
              PushOp.added)) := by
  obtain ⟨p, hr, hq⟩ : ∃ p, PushRun [.addRequest 0 1 {} 0 0 0 true, .addRequest 7 1 {} 0 0 0 false]
      [(1, 0, .priority)] p ∧ p.base.clientQueue 1 = [7] :=
    ⟨_, PushRun.of_pushRunOf (show pushRunOf HeapTop.first (fun _ => ClientInfo.ofNat 0 1 0) 600000
        900000 360000 false false [.addRequest 0 1 {} 0 0 0 true, .addRequest 7 1 {} 0 0 0 false] =
          .ok (_, [(1, 0, .priority)]) by with_unfolding_all rfl),
      by with_unfolding_all rfl⟩
  exact ⟨p, hr, hq, push_fifo_per_client hr 1⟩

/-! ## No lost wake-up -/

theorem timeMax_ne_timeZero : timeMax ≠ timeZero := WithTop.top_ne_coe

theorem minNot0Time_ne_timeZero {current : Tag} (h : current ≠ timeZero) (possible : Tag) :
    minNot0Time current possible ≠ timeZero := by
  unfold minNot0Time
  split
  · exact h
  · rcases min_choice current possible with hm | hm <;> rw [hm]
    · exact h
    · exact Ne.symm ‹_›

theorem futureOrNone_ne_timeZero {x t : Tag} (hx : x ≠ timeZero) (h : futureOrNone x = .future t) :
    t ≠ timeZero := by
  unfold futureOrNone at h
  split at h
  · cases h; exact hx
  · cases h

namespace PriorityQueueBase
variable (ht : HeapTop)

/-- A wake-up time `do_next_request` returns is never `TimeZero`: it is `TimeMax` lowered by
`min_not_0_time`, which skips `TimeZero`. -/
theorem doNextRequest_future_ne_timeZero {q q₁ : PriorityQueueBase} {now : ℚ} {t : Tag}
    (h : q.doNextRequest ht now = .ok (q₁, .future t)) : t ≠ timeZero := by
  unfold doNextRequest at h
  split at h
  · cases h
  dsimp only at h
  split at h
  · cases h
  obtain ⟨d, hd, he⟩ := Except.map_eq_ok.mp h
  cases he
  unfold laterPhases at hd
  dsimp only at hd
  -- every branch but the wake-up times returns a view or fails
  repeat' split at hd
  all_goals first
    | cases hd
    | exact futureOrNone_ne_timeZero
        (by (repeat apply minNot0Time_ne_timeZero); exact timeMax_ne_timeZero) (Except.ok.inj hd)

end PriorityQueueBase

namespace PushPriorityQueue
variable (ht : HeapTop)

/-- The scheduling thread will call `schedule_request()` by time `t`: it has woken, or it waits
for a deadline no later than `t`. -/
def ArmedFor (t : Tag) (p : PushPriorityQueue) : Prop :=
  p.schedAheadDue = true ∨ (timeZero ≠ p.schedAheadWhen ∧ p.schedAheadWhen ≤ t)

variable {t : Tag} {p p' : PushPriorityQueue}

/-- A wake-up time a scheduling computes is never `TimeZero`. -/
theorem nextRequest_future_ne_timeZero {canHandle : Bool} {now : ℚ} {q : PriorityQueueBase}
    {t' : Tag} (h : nextRequest ht p.base canHandle now = .ok (q, .future t')) : t' ≠ timeZero := by
  unfold nextRequest at h
  split at h
  · cases h
  · exact PriorityQueueBase.doNextRequest_future_ne_timeZero ht h

/-- `sched_at(when)` arms the thread for `when`. -/
theorem schedAt_armedFor (hw : t ≠ timeZero) (p : PushPriorityQueue) : ArmedFor t (schedAt t p) := by
  unfold schedAt
  split
  · exact .inr ⟨Ne.symm hw, le_rfl⟩
  · rename_i hc
    push_neg at hc
    exact .inr ⟨Ne.symm (Ne.symm hc.1), hc.2⟩

/-- `sched_at(when)` keeps the thread armed for a later time. -/
theorem ArmedFor.schedAt (ha : ArmedFor t p) {t' : Tag} (hw : t' ≠ timeZero) :
    ArmedFor t (PushPriorityQueue.schedAt t' p) := by
  unfold PushPriorityQueue.schedAt
  split
  · rename_i hc
    rcases ha with hd | ⟨hz, hle⟩
    · exact .inl hd
    · exact .inr ⟨Ne.symm hw, (hc.resolve_left hz).le.trans hle⟩
  · exact ha

/-- A scheduling keeps the thread armed: it changes the deadline only by `sched_at`. -/
theorem ArmedFor.scheduleRequest (ha : ArmedFor t p) {canHandle : Bool} {now : ℚ}
    {o : List Handled} (hs : p.scheduleRequest ht canHandle now = .ok (p', o)) : ArmedFor t p' := by
  obtain ⟨⟨q, d⟩, hn, hs⟩ := Except.bind_eq_ok.mp hs
  rcases d with heapId | t' | _
  · obtain ⟨s, -, he⟩ := Except.map_eq_ok.mp hs
    cases he
    exact ha
  · cases hs
    exact ArmedFor.schedAt (p := { p with base := q }) ha (nextRequest_future_ne_timeZero ht hn)
  · cases hs
    exact ha

/-- A scheduling whose decision is the wake-up time `t` arms the thread for `t`. -/
theorem armedFor_of_scheduleRequest {canHandle : Bool} {now : ℚ} {q : PriorityQueueBase}
    {o : List Handled} (hn : nextRequest ht p.base canHandle now = .ok (q, .future t))
    (hs : p.scheduleRequest ht canHandle now = .ok (p', o)) : ArmedFor t p' := by
  unfold scheduleRequest at hs
  rw [hn] at hs
  cases hs
  exact schedAt_armedFor (nextRequest_future_ne_timeZero ht hn) _

/-- Every step but the thread's own call of `schedule_request()` keeps the thread armed: the
callers' schedulings only lower its deadline, and its wake-up trades the deadline for being
woken. -/
theorem ArmedFor.step (ha : ArmedFor t p) {op : PushOp} (hop : op.runsThread = false)
    {o : List Handled} (hs : p.step ht op = .ok (p', o)) : ArmedFor t p' := by
  cases op with
  | addRequest request clientId reqParams time addlCost now canHandle =>
    obtain ⟨q, -, hsched⟩ := Except.bind_eq_ok.mp hs
    exact ArmedFor.scheduleRequest (p := { p with base := q }) ht ha hsched
  | requestCompleted now canHandle => exact ha.scheduleRequest ht hs
  | schedAheadWake now =>
    cases hs
    split
    · exact .inl rfl
    · exact ha
  | schedAheadRun now canHandle => cases hop
  | removeByClient client => cases hs; exact ha
  | removeByReqFilter filter visitBackwards | doClean now =>
    obtain ⟨_, -, he⟩ := Except.map_eq_ok.mp hs
    cases he; exact ha

end PushPriorityQueue

/-- `PushSteps p ops p'`: the steps `ops`, oldest first, take `p` to `p'`, each with its own
heap tops. -/
inductive PushSteps : PushPriorityQueue → List PushOp → PushPriorityQueue → Prop
  | nil (p : PushPriorityQueue) : PushSteps p [] p
  | cons {p p₁ p' : PushPriorityQueue} {ht : HeapTop} {op : PushOp} {ops : List PushOp}
      {o : List Handled} :
      p.step ht op = .ok (p₁, o) → PushSteps p₁ ops p' → PushSteps p (op :: ops) p'

namespace PushPriorityQueue

/-- The run lemma: steps without the thread's call of `schedule_request()` keep it armed. -/
theorem ArmedFor.steps {t : Tag} {p p' : PushPriorityQueue} {ops : List PushOp}
    (hsteps : PushSteps p ops p') (hops : ∀ op ∈ ops, op.runsThread = false) (ha : ArmedFor t p) :
    ArmedFor t p' := by
  induction hsteps with
  | nil => exact ha
  | cons hs _ ih =>
    exact ih (fun op h => hops op (List.mem_cons_of_mem _ h))
      (ha.step _ (hops _ (List.mem_cons_self _ _)) hs)

/-- No wake-up is lost. After a scheduling whose decision is the wake-up time `t`, whatever
calls, runs of the cleaner and wake-ups of the thread follow, in any order, until the thread
next calls `schedule_request()` it has woken or waits for a deadline no later than `t`. -/
theorem armedFor_of_steps (ht : HeapTop) {p p₁ p₂ : PushPriorityQueue} {canHandle : Bool}
    {now : ℚ} {q : PriorityQueueBase} {t : Tag} {o : List Handled} {ops : List PushOp}
    (hn : nextRequest ht p.base canHandle now = .ok (q, .future t))
    (hs : p.scheduleRequest ht canHandle now = .ok (p₁, o))
    (hsteps : PushSteps p₁ ops p₂) (hops : ∀ op ∈ ops, op.runsThread = false) :
    ArmedFor t p₂ :=
  ArmedFor.steps hsteps hops (armedFor_of_scheduleRequest ht hn hs)

/-- A weighted client with limit rate 1 and one request at time 0, queued while the server was
busy. `request_completed` at time 0 finds the request's limit tag 1 not yet reached and
schedules the thread for time 1; a request added while the server is busy, and the thread's
wake-up attempt at time 0, leave it armed for time 1. -/
theorem armedFor_of_steps_busy_server :
    ∃ p q p₁ p₂, PushRun [.addRequest 0 1 {} 0 0 0 false] [] p ∧
      nextRequest HeapTop.first p.base true 0 = .ok (q, .future ((1 : ℚ) : Tag)) ∧
      p.scheduleRequest HeapTop.first true 0 = .ok (p₁, []) ∧
      PushSteps p₁ [.addRequest 7 1 {} 0 0 0 false, .schedAheadWake 0] p₂ ∧
      (∀ op ∈ [PushOp.addRequest 7 1 {} 0 0 0 false, .schedAheadWake 0], op.runsThread = false) ∧
      ArmedFor ((1 : ℚ) : Tag) p₂ := by
  obtain ⟨p, hrun, q, hn, p₁, hs, p₂, hsteps⟩ : ∃ p, PushRun [.addRequest 0 1 {} 0 0 0 false] [] p ∧
      ∃ q, nextRequest HeapTop.first p.base true 0 = .ok (q, .future ((1 : ℚ) : Tag)) ∧
      ∃ p₁, p.scheduleRequest HeapTop.first true 0 = .ok (p₁, []) ∧
      ∃ p₂, PushSteps p₁ [.addRequest 7 1 {} 0 0 0 false, .schedAheadWake 0] p₂ :=
    ⟨_, PushRun.of_pushRunOf (show pushRunOf HeapTop.first (fun _ => ClientInfo.ofNat 0 1 1) 600000
        900000 360000 false false [.addRequest 0 1 {} 0 0 0 false] = .ok (_, []) by
          with_unfolding_all rfl),
      _, by with_unfolding_all rfl, _, by with_unfolding_all rfl, _,
      @PushSteps.cons _ _ _ HeapTop.first _ _ _ (by with_unfolding_all rfl)
        (@PushSteps.cons _ _ _ HeapTop.first _ _ _ (by with_unfolding_all rfl) (.nil _))⟩
  have hops : ∀ op ∈ [PushOp.addRequest 7 1 {} 0 0 0 false, .schedAheadWake 0],
      op.runsThread = false := by simp [PushOp.runsThread]
  exact ⟨p, q, p₁, p₂, hrun, hn, hs, hsteps, hops,
    armedFor_of_steps HeapTop.first hn hs hsteps hops⟩

end PushPriorityQueue

end DmClock
