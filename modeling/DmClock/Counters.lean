import DmClock.Push

/- The scheduling counters `reserv_sched_count`, `prop_sched_count` and
   `limit_break_sched_count`.

   Both façades count a dispatch once the view's top is popped: `reserv_sched_count` for one
   from the reservation view, `prop_sched_count` for one from the ready view. The increments
   of `limit_break_sched_count` stand in the `HeapId::proportional` cases, which only
   `USE_PROP_HEAP` compiles, so that counter keeps the constructor's 0. A limit break is
   decided by `do_next_request` as a dispatch from the ready view or from the reservation
   view, and is counted with that view's dispatches.

   What is proved: over every run of the push façade, under any interleaving of its calls with
   the scheduling thread, `reserv_sched_count` and `prop_sched_count` are the numbers of
   requests handed to the server with phase reservation and priority, limit breaks included,
   and `limit_break_sched_count` is 0 (`push_sched_counts_by_phase`). One lemma per function
   of the source says what it adds to the counters; `pullRequest_schedCounts` is the pull
   façade's `pull_request`.

   Correspondence (C++ ↔ Lean):
     `reserv_sched_count`, `prop_sched_count`, `limit_break_sched_count` ↔ `schedCounts`
-/

namespace DmClock

/-- The number of the handed requests `hd` with phase `phase`. -/
def phaseCount (hd : List Handled) (phase : PhaseType) : Nat :=
  hd.countP fun d => decide (d.2.2 = phase)

/-- The three counters as counts per phase: each handed request under its phase, and none
under limit break. -/
def handledCounts (hd : List Handled) : Nat × Nat × Nat :=
  (phaseCount hd .reservation, phaseCount hd .priority, 0)

@[simp] theorem handledCounts_nil : handledCounts [] = 0 := rfl

theorem handledCounts_append (hd hd' : List Handled) :
    handledCounts (hd ++ hd') = handledCounts hd + handledCounts hd' := by
  simp only [handledCounts, phaseCount, List.countP_append, Prod.mk_add_mk, Nat.add_zero]

/-- Every handed request has one of the two phases. -/
theorem phaseCount_add (hd : List Handled) :
    phaseCount hd .reservation + phaseCount hd .priority = hd.length := by
  induction hd with
  | nil => rfl
  | cons d hd ih =>
    rcases d with ⟨c, r, _ | _⟩ <;> simp [phaseCount, List.countP_cons] at ih ⊢ <;> omega

namespace PriorityQueueBase
variable (ht : HeapTop) (q : PriorityQueueBase)

/-- `reserv_sched_count`, `prop_sched_count` and `limit_break_sched_count`. -/
def schedCounts : Nat × Nat × Nat :=
  (q.reservSchedCount, q.propSchedCount, q.limitBreakSchedCount)

@[simp] theorem schedCounts_setRec (p : Nat) (c : ClientRec) :
    (q.setRec p c).schedCounts = q.schedCounts := rfl
@[simp] theorem schedCounts_adjustAll : q.adjustAll.schedCounts = q.schedCounts := by
  unfold adjustAll; split <;> rfl
@[simp] theorem schedCounts_adjustReadyLimitAll :
    q.adjustReadyLimitAll.schedCounts = q.schedCounts := by
  unfold adjustReadyLimitAll; split <;> rfl
@[simp] theorem schedCounts_adjustResvAll : q.adjustResvAll.schedCounts = q.schedCounts := by
  unfold adjustResvAll; split <;> rfl

theorem make_schedCounts {f : ClientId → ClientInfo} {idleAge eraseAge checkTime : ℚ}
    {allowLimitBreak useHeap : Bool} {q : PriorityQueueBase}
    (h : make f idleAge eraseAge checkTime allowLimitBreak useHeap = .ok q) : q.schedCounts = 0 := by
  unfold make at h
  split at h
  · cases h
  · split at h
    · cases h
    · cases h; rfl

/-! ## The calls that count nothing -/

theorem findOrCreate_schedCounts (c : ClientId) :
    (q.findOrCreate c).1.schedCounts = q.schedCounts := by
  unfold findOrCreate
  split
  · rfl
  · dsimp only; split <;> rfl

theorem reactivate_schedCounts (p : Nat) (time : ℚ) :
    (q.reactivate p time).schedCounts = q.schedCounts := by
  unfold reactivate; dsimp only; split <;> rfl

theorem doAddRequest_schedCounts {request : Request} {clientId : ClientId} {reqParams : ReqParams}
    {time cost : ℚ} {q' : PriorityQueueBase}
    (h : q.doAddRequest request clientId reqParams time cost = .ok q') :
    q'.schedCounts = q.schedCounts := by
  obtain ⟨q₁, h₁, rfl⟩ := Except.map_eq_ok.mp h
  obtain ⟨tag, -, rfl⟩ := Except.map_eq_ok.mp h₁
  rw [schedCounts_adjustAll, schedCounts_setRec, reactivate_schedCounts, findOrCreate_schedCounts]
  rfl

theorem doNextRequest_schedCounts {now : ℚ} {r : PriorityQueueBase × NextReq}
    (h : q.doNextRequest ht now = .ok r) : r.1.schedCounts = q.schedCounts := by
  rcases doNextRequest_fst ht q h with h' | h' <;> rw [h']
  obtain ⟨s, v, he⟩ := promote_frame ht now (q.store.length + 1) q
  rw [he]; rfl

theorem removeByClient_schedCounts (c : ClientId) :
    (q.removeByClient c).1.schedCounts = q.schedCounts := by
  unfold removeByClient; split <;> simp

theorem removeByReqFilter_schedCounts {f : Request → Bool} {b : Bool}
    {r : PriorityQueueBase × List Request × Bool} (h : q.removeByReqFilter f b = .ok r) :
    r.1.schedCounts = q.schedCounts := by
  refine foldlM_rel (fun a a' : PriorityQueueBase × List Request × Bool =>
    a'.1.schedCounts = a.1.schedCounts) (fun _ => rfl)
    (fun h₁ h₂ => h₂.trans h₁) (fun {acc e acc'} he => ?_) _ _ _ h
  obtain ⟨r, -, rfl⟩ := Except.map_eq_ok.mp he
  dsimp only; split <;> simp

theorem cleanEntry_schedCounts {ep ip : Nat} {e : ClientId × Nat} {q' : PriorityQueueBase}
    (h : cleanEntry ep ip q e = .ok q') : q'.schedCounts = q.schedCounts := by
  rcases cleanEntry_eq_ok h with ⟨rfl, -⟩ | rfl <;> rfl

theorem doClean_schedCounts {now : ℚ} {q' : PriorityQueueBase} (h : q.doClean now = .ok q') :
    q'.schedCounts = q.schedCounts :=
  doClean_rel q (fun a a' => a'.schedCounts = a.schedCounts) (fun _ => rfl)
    (fun h₁ h₂ => h₂.trans h₁) (fun _ => rfl) (cleanEntry_schedCounts _) h

/-! ## The dispatches -/

theorem popProcessRequest_schedCounts {heapId : HeapId}
    {r : PriorityQueueBase × ClientId × ClientReq} (h : q.popProcessRequest ht heapId = .ok r) :
    r.1.schedCounts = q.schedCounts := by
  obtain ⟨rest, -, -, hr⟩ := popProcessRequest_ok ht h
  rw [hr]; simp

theorem reduceReservationTags_schedCounts {c : ClientId} {q' : PriorityQueueBase}
    (h : q.reduceReservationTags c = .ok q') : q'.schedCounts = q.schedCounts := by
  unfold reduceReservationTags at h
  split at h
  · cases h
  · cases h; simp

/-- A dispatch counts the request it returns under its phase. -/
theorem dispatch_schedCounts {heapId : HeapId} {r : PriorityQueueBase × PullReq}
    (h : q.dispatch ht heapId = .ok r) : r.1.schedCounts = q.schedCounts + handledCounts r.2.handled := by
  cases heapId with
  | reservation =>
    obtain ⟨r₁, h₁, rfl⟩ := Except.map_eq_ok.mp h
    rw [← popProcessRequest_schedCounts ht q h₁]; rfl
  | ready =>
    obtain ⟨r₁, h₁, h₂⟩ := Except.bind_eq_ok.mp h
    obtain ⟨q₂, h₃, rfl⟩ := Except.map_eq_ok.mp h₂
    rw [← popProcessRequest_schedCounts ht q h₁, ← reduceReservationTags_schedCounts _ h₃]; rfl

/-- `pull_request(now)` counts the request it returns under its phase, and nothing else. -/
theorem pullRequest_schedCounts {now : ℚ} {r : PriorityQueueBase × PullReq}
    (h : q.pullRequest ht now = .ok r) : r.1.schedCounts = q.schedCounts + handledCounts r.2.handled := by
  obtain ⟨⟨q₁, d⟩, h₁, h₂⟩ := Except.bind_eq_ok.mp h
  have hq₁ := doNextRequest_schedCounts ht q h₁
  rcases d with heapId | t | _
  · rw [dispatch_schedCounts ht _ h₂, hq₁]
  all_goals cases h₂; exact hq₁

end PriorityQueueBase

namespace PushPriorityQueue
variable (ht : HeapTop) {p p' : PushPriorityQueue} {o : List Handled}

/-- `schedule_request()` counts what it hands to the server: it is `pull_request(now)` on the
queue, or nothing when the server cannot take a request. -/
theorem scheduleRequest_schedCounts {canHandle : Bool} {now : ℚ}
    (hs : p.scheduleRequest ht canHandle now = .ok (p', o)) :
    p'.base.schedCounts = p.base.schedCounts + handledCounts o := by
  cases canHandle with
  | false =>
    rw [scheduleRequest_busy] at hs
    cases hs
    simp
  | true =>
    have he := scheduleRequest_canHandle ht p now
    rw [hs] at he
    obtain ⟨r, hpull, hr⟩ := Except.map_eq_ok.mp he.symm
    obtain ⟨h₁, h₂⟩ := Prod.mk.inj hr
    have hc := PriorityQueueBase.pullRequest_schedCounts ht _ hpull
    rwa [h₁, h₂] at hc

/-- Every step of the push façade counts the requests it hands to the server under their
phases, and nothing else. -/
theorem step_schedCounts {op : PushOp} (hs : p.step ht op = .ok (p', o)) :
    p'.base.schedCounts = p.base.schedCounts + handledCounts o := by
  cases op with
  | addRequest =>
    obtain ⟨q, hq, hsched⟩ := Except.bind_eq_ok.mp hs
    rw [scheduleRequest_schedCounts ht hsched]
    exact congrArg (· + _) (PriorityQueueBase.doAddRequest_schedCounts _ hq)
  | requestCompleted => exact scheduleRequest_schedCounts ht hs
  | schedAheadWake => cases hs; split <;> simp
  | schedAheadRun =>
    simp only [step] at hs
    split at hs
    · exact (scheduleRequest_schedCounts ht hs :)
    · cases hs; simp
  | removeByClient => cases hs; simp [PriorityQueueBase.removeByClient_schedCounts]
  | removeByReqFilter =>
    obtain ⟨r, hr, he⟩ := Except.map_eq_ok.mp hs
    cases he
    simp [PriorityQueueBase.removeByReqFilter_schedCounts _ hr]
  | doClean =>
    obtain ⟨q, hq, he⟩ := Except.map_eq_ok.mp hs
    cases he
    simp [PriorityQueueBase.doClean_schedCounts _ hq]

end PushPriorityQueue

/-- On every run of the push façade the counters are the counts per phase of what `handle_f`
received. -/
theorem PushRun.schedCounts {hs : List PushOp} {hd : List Handled} {p : PushPriorityQueue}
    (hr : PushRun hs hd p) : p.base.schedCounts = handledCounts hd := by
  induction hr with
  | make hm =>
    obtain ⟨q, hq, rfl⟩ := Except.map_eq_ok.mp hm
    exact PriorityQueueBase.make_schedCounts hq
  | step _ hs ih =>
    rw [PushPriorityQueue.step_schedCounts _ hs, ih, handledCounts_append]

/-- On every run of the push façade, under any interleaving of its calls with the scheduling
thread: `reserv_sched_count` is the number of requests handed to the server with phase
reservation and `prop_sched_count` the number with phase priority, limit breaks included, so
that together they count every handed request once; `limit_break_sched_count` stays 0. -/
theorem push_sched_counts_by_phase {hs : List PushOp} {hd : List Handled} {p : PushPriorityQueue}
    (hr : PushRun hs hd p) :
    p.base.reservSchedCount = phaseCount hd .reservation ∧
      p.base.propSchedCount = phaseCount hd .priority ∧
      p.base.reservSchedCount + p.base.propSchedCount = hd.length ∧
      p.base.limitBreakSchedCount = 0 := by
  have h := hr.schedCounts
  simp only [PriorityQueueBase.schedCounts, handledCounts, Prod.mk.injEq] at h
  obtain ⟨h₁, h₂, h₃⟩ := h
  exact ⟨h₁, h₂, h₁ ▸ h₂ ▸ phaseCount_add hd, h₃⟩

/-- A limit break through the reservation view: a client with reservation 1, weight 0 and
limit 1 adds a request at time 0 under limit break, and the server takes it at once. Its
reservation tag 1 is not due at 0, its limit tag 1 has not passed, and its proportion tag is
`max_tag`, so `do_next_request` chooses the reservation view by the limit break; the dispatch
is counted in `reserv_sched_count`, and `limit_break_sched_count` stays 0. -/
theorem push_sched_counts_by_phase_limit_break :
    ∃ p, PushRun [.addRequest 0 1 {} 0 0 0 true] [(1, 0, .reservation)] p ∧
      p.base.allowLimitBreak = true ∧
      p.base.reservSchedCount = phaseCount [(1, 0, .reservation)] .reservation ∧
      p.base.propSchedCount = phaseCount [(1, 0, .reservation)] .priority ∧
      p.base.reservSchedCount + p.base.propSchedCount = [((1 : ClientId), (0 : Request),
        PhaseType.reservation)].length ∧
      p.base.limitBreakSchedCount = 0 := by
  obtain ⟨p, hr, hl⟩ : ∃ p, PushRun [.addRequest 0 1 {} 0 0 0 true] [(1, 0, .reservation)] p ∧
      p.base.allowLimitBreak = true :=
    ⟨_, PushRun.of_pushRunOf (show pushRunOf HeapTop.first (fun _ => ClientInfo.ofNat 1 0 1) 600000
        900000 360000 true false [.addRequest 0 1 {} 0 0 0 true] =
          .ok (_, [(1, 0, .reservation)]) by with_unfolding_all rfl), by with_unfolding_all rfl⟩
  exact ⟨p, hr, hl, push_sched_counts_by_phase hr⟩

end DmClock
