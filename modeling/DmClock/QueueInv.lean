import DmClock.Records

/- The order of a client's request queue and its ready flags (spec §3, §4.4).

   1. `requestTag_ge`: with a nonnegative cost, a new tag is not ready and is at least the
      previous tag in each field, except the limit tag of a client with limit 0, which is
      `min_tag`.
   2. `QueueInv`: only the front can be ready, the tags do not decrease from front to back,
      every queued tag is at most `prev_tag`, and with limit 0 every limit tag is `min_tag`.
      `QueueInv.change` shows that every change an operation with a nonnegative cost can make
      to a record keeps it, and `queue_ordered` that every record of every run whose costs
      are nonnegative satisfies it.
   3. `ReadyPassed h`: every ready request has a limit tag that some call of the history `h`
      had reached. Ready flags are set only on fronts whose limit tag has passed and are never
      copied, so it holds of every record of every run (`readyPassed_invariant`).
-/

namespace DmClock

/-- The three tags of `a` are at most those of `b`. -/
def RequestTag.TagsLE (a b : RequestTag) : Prop :=
  a.reservation ≤ b.reservation ∧ a.proportion ≤ b.proportion ∧ a.limit ≤ b.limit

namespace RequestTag.TagsLE

theorem refl (a : RequestTag) : TagsLE a a := ⟨le_rfl, le_rfl, le_rfl⟩

theorem trans {a b c : RequestTag} (h₁ : TagsLE a b) (h₂ : TagsLE b c) : TagsLE a c :=
  ⟨h₁.1.trans h₂.1, h₁.2.1.trans h₂.2.1, h₁.2.2.trans h₂.2.2⟩

end RequestTag.TagsLE

/-! ## New tags -/

section NewTag
variable {prev tag : RequestTag} {info : ClientInfo} {reqParams : ReqParams} {time cost : ℚ}

theorem le_tagCalc_high {prev : Tag} {inc : ℚ} {dist : UInt32} (h : 0 ≤ inc) :
    prev ≤ tagCalc time prev inc dist true := by
  rcases h.eq_or_lt with h | h
  · simp [tagCalc_of_zero h.symm]
  · exact le_tagCalc_of_pos h

theorem requestTag_eq (h : requestTag prev info reqParams time cost = .ok tag) :
    tag = ⟨(cost : Tag) + tagCalc time prev.reservation info.reservationInv reqParams.rho true,
      tagCalc time prev.proportion info.weightInv reqParams.delta true,
      tagCalc time prev.limit info.limitInv reqParams.delta false, false⟩ := by
  unfold requestTag at h
  dsimp only at h
  split at h
  · cases h; rfl
  · cases h

theorem requestTag_ready (h : requestTag prev info reqParams time cost = .ok tag) :
    tag.ready = false := by
  rw [requestTag_eq h]

/-- With a nonnegative cost, a new tag is at least the previous one in each field, except
the limit tag of a client with limit 0, which is `min_tag`. -/
theorem requestTag_ge (h : requestTag prev info reqParams time cost = .ok tag) (hcost : 0 ≤ cost) :
    prev.reservation ≤ tag.reservation ∧ prev.proportion ≤ tag.proportion ∧
      (info.limitInv = 0 → tag.limit = minTag) ∧ (info.limitInv ≠ 0 → prev.limit ≤ tag.limit) := by
  rw [requestTag_eq h]
  refine ⟨?_, le_tagCalc_high info.weightInv_nonneg, fun h0 => by simp [tagCalc_of_zero h0], fun h0 =>
    le_tagCalc_of_pos (lt_of_le_of_ne info.limitInv_nonneg (Ne.symm h0))⟩
  exact (le_tagCalc_high info.reservationInv_nonneg).trans
    (le_add_of_nonneg_left (by exact_mod_cast hcost))

end NewTag

/-! ## The queue invariant -/

/-- The order of a record's queue. -/
structure QueueInv (c : ClientRec) : Prop where
  /-- Only the front request can be ready. -/
  tail_unready : ∀ r ∈ c.requests.tail, r.tag.ready = false
  /-- The tags do not decrease from front to back. -/
  sorted : c.requests.Pairwise fun a b => a.tag.TagsLE b.tag
  /-- Every queued tag is at most `prev_tag`. -/
  le_prevTag : ∀ r ∈ c.requests, r.tag.TagsLE c.prevTag
  /-- A client with limit 0 has only `min_tag` limit tags. -/
  limit_min : c.info.limitInv = 0 → ∀ r ∈ c.requests, r.tag.limit = minTag

namespace QueueInv
variable {c : ClientRec}

theorem of_nil (h : c.requests = []) : QueueInv c :=
  ⟨by simp [h], by simp [h], by simp [h], by simp [h]⟩

/-- Keeping a subsequence of the queue: a pop, a filter, or a clear. -/
theorem sublist (hi : QueueInv c) {l : List ClientReq} (hl : l.Sublist c.requests) :
    QueueInv { c with requests := l } :=
  ⟨fun r hr => hi.tail_unready r (hl.tail.subset hr), hi.sorted.sublist hl,
    fun r hr => hi.le_prevTag r (hl.subset hr), fun h0 r hr => hi.limit_min h0 r (hl.subset hr)⟩

/-- Marking the front ready. -/
theorem promote (hi : QueueInv c) {r : ClientReq} {rest : List ClientReq}
    (hreq : c.requests = r :: rest) :
    QueueInv { c with requests := { r with tag := { r.tag with ready := true } } :: rest } := by
  obtain ⟨h₁, h₂, h₃, h₄⟩ := hi
  rw [hreq] at h₁ h₂ h₃ h₄
  simp only [List.pairwise_cons, List.mem_cons, forall_eq_or_imp] at h₂ h₃ h₄
  refine ⟨h₁, ?_, ?_, ?_⟩ <;> simp only [List.pairwise_cons, List.mem_cons, forall_eq_or_imp]
  exacts [h₂, h₃, h₄]

/-- Appending a new tag that is at least `prev_tag` (with the exception of limit 0) and
making it the new `prev_tag`. -/
theorem enqueue (hi : QueueInv c) {tag : RequestTag} (hready : tag.ready = false)
    (hres : c.prevTag.reservation ≤ tag.reservation)
    (hprop : c.prevTag.proportion ≤ tag.proportion)
    (hlim₀ : c.info.limitInv = 0 → tag.limit = minTag)
    (hlim : c.info.limitInv ≠ 0 → c.prevTag.limit ≤ tag.limit)
    (clientId : ClientId) (request : Request) (tick : Nat) :
    QueueInv ((c.addRequest tag clientId request).updateReqTag tag tick) := by
  have hnew : ∀ r ∈ c.requests, r.tag.TagsLE tag := fun r hr => by
    obtain ⟨h₁, h₂, h₃⟩ := hi.le_prevTag r hr
    refine ⟨h₁.trans hres, h₂.trans hprop, ?_⟩
    by_cases h0 : c.info.limitInv = 0
    · rw [hi.limit_min h0 r hr, hlim₀ h0]
    · exact h₃.trans (hlim h0)
  refine ⟨fun r hr => ?_, ?_, ?_, fun h0 r hr => ?_⟩
  · cases hc : c.requests with
    | nil => simp [ClientRec.updateReqTag, ClientRec.addRequest, hc] at hr
    | cons a t =>
      simp only [ClientRec.updateReqTag, ClientRec.addRequest, hc, List.cons_append,
        List.tail_cons, List.mem_append, List.mem_singleton] at hr
      rcases hr with hr | rfl
      · exact hi.tail_unready r (by rw [hc]; exact hr)
      · exact hready
  · exact List.pairwise_append.mpr ⟨hi.sorted, by simp, fun a ha b hb => by
      rw [List.mem_singleton.mp hb]; exact hnew a ha⟩
  · simp only [ClientRec.updateReqTag, ClientRec.addRequest, List.mem_append, List.mem_singleton]
    rintro r (hr | rfl)
    · exact hnew r hr
    · exact .refl _
  · simp only [ClientRec.updateReqTag, ClientRec.addRequest, List.mem_append,
      List.mem_singleton] at hr
    rcases hr with hr | rfl
    · exact hi.limit_min h0 r hr
    · exact hlim₀ h0

/-- `reduce_reservation_tags` shifts every queued reservation tag and the previous one by
the same amount. -/
theorem reduce (hi : QueueInv c) : QueueInv c.reduceReservation := by
  have hshift : ∀ a b : RequestTag, a.TagsLE b → RequestTag.TagsLE
      { a with reservation := a.reservation + ((-c.info.reservationInv : ℚ) : Tag) }
      { b with reservation := b.reservation + ((-c.info.reservationInv : ℚ) : Tag) } :=
    fun a b h => ⟨add_le_add_right h.1 _, h.2.1, h.2.2⟩
  refine ⟨fun r hr => ?_, ?_, fun r hr => ?_, fun h0 r hr => ?_⟩
  · simp only [ClientRec.reduceReservation, ← List.map_tail, List.mem_map] at hr
    obtain ⟨r, hr, rfl⟩ := hr
    exact hi.tail_unready r hr
  · exact hi.sorted.map _ fun a b h => hshift _ _ h
  · simp only [ClientRec.reduceReservation, List.mem_map] at hr
    obtain ⟨r, hr, rfl⟩ := hr
    exact hshift _ _ (hi.le_prevTag r hr)
  · simp only [ClientRec.reduceReservation, List.mem_map] at hr
    obtain ⟨r, hr, rfl⟩ := hr
    exact hi.limit_min h0 r hr

/-- Every change an operation with a nonnegative cost can make to a record keeps the
queue invariant. -/
theorem change {op : Op} {c' : ClientRec} (hc : RecChange op c c') (hcost : 0 ≤ op.cost)
    (hi : QueueInv c) : QueueInv c' := by
  cases hc with
  | slot => exact ⟨hi.1, hi.2, hi.3, hi.4⟩
  | reactivate => exact ⟨hi.1, hi.2, hi.3, hi.4⟩
  | enqueue tick htag =>
    obtain ⟨hres, hprop, hlim₀, hlim⟩ := requestTag_ge htag hcost
    exact hi.enqueue (requestTag_ready htag) hres hprop hlim₀ hlim _ _ tick
  | promote hreq => exact hi.promote hreq
  | pop first rest hreq => exact hi.sublist (by rw [hreq]; exact List.sublist_cons_self _ _)
  | reduce => exact hi.reduce
  | clear => exact hi.sublist (List.nil_sublist _)
  | filter => exact hi.sublist (List.filter_sublist _)
  | idle => exact ⟨hi.1, hi.2, hi.3, hi.4⟩

end QueueInv

/-- The queue invariant, for the runs whose added costs are nonnegative. -/
def QueueOrdered (h : List Op) (c : ClientRec) : Prop := (∀ op ∈ h, 0 ≤ op.cost) → QueueInv c

theorem queueOrdered_invariant : RecInvariant QueueOrdered where
  of_default _ _ := .of_nil rfl
  of_make _ _ _ _ _ := .of_nil rfl
  mono _ _ _ hc hcost := hc fun o ho => hcost o (List.mem_append_left _ ho)
  change _ _ _ _ hch hc hcost := (hc hcost).change hch (hcost _ (by simp))

/-- In every run whose added costs are nonnegative, every record's queue has only its front
ready, nondecreasing tags in all three fields, and no tag above `prev_tag`. -/
theorem queue_ordered {h : List Op} {q : PriorityQueueBase} (hr : Run h q)
    (hcost : ∀ op ∈ h, 0 ≤ op.cost) (p : Nat) : QueueInv (q.recOf p) :=
  queueOrdered_invariant.run hr p hcost

/-- Two requests of one client at times 0 and 1: the run exists, its costs are
nonnegative, and the client's queue is ordered. -/
theorem queue_ordered_two_requests :
    ∃ q, Run [.addRequest 0 1 {} 0 0, .addRequest 1 1 {} 1 0] q ∧
      (∀ op ∈ [Op.addRequest 0 1 {} 0 0, .addRequest 1 1 {} 1 0], 0 ≤ op.cost) ∧
      (q.recOf 0).requests.length = 2 ∧ QueueInv (q.recOf 0) := by
  obtain ⟨q, hrun, hlen⟩ : ∃ q, Run [.addRequest 0 1 {} 0 0, .addRequest 1 1 {} 1 0] q ∧
      (q.recOf 0).requests.length = 2 :=
    ⟨_, Run.of_runOf (show runOf HeapTop.first (fun _ => ClientInfo.ofNat 1 1 1) 600000 900000
      360000 false false [.addRequest 0 1 {} 0 0, .addRequest 1 1 {} 1 0] = .ok _ by
        with_unfolding_all rfl), by with_unfolding_all rfl⟩
  have hcost : ∀ op ∈ [Op.addRequest 0 1 {} 0 0, .addRequest 1 1 {} 1 0], 0 ≤ op.cost := by
    simp [Op.cost]
  exact ⟨q, hrun, hcost, hlen, queue_ordered hrun hcost 0⟩

/-! ## Ready flags -/

/-- Every ready request of the record has a limit tag that some call of the history `h`
had reached. -/
def ReadyPassed (h : List Op) (c : ClientRec) : Prop :=
  ∀ r ∈ c.requests, r.tag.ready = true → ∃ op ∈ h, r.tag.limit ≤ op.decisionTime

theorem readyPassed_invariant : RecInvariant ReadyPassed where
  of_default _ _ hr := by simp [Inhabited.default] at hr
  of_make _ _ _ _ _ hr := by simp [ClientRec.make] at hr
  mono _ _ _ hc r hr hready := by
    obtain ⟨o, ho, hle⟩ := hc r hr hready
    exact ⟨o, List.mem_append_left _ ho, hle⟩
  change h op c c' hch hc := by
    cases hch with
    | slot => exact hc
    | reactivate => exact hc
    | enqueue tick htag =>
      intro r hr hready
      simp only [ClientRec.updateReqTag, ClientRec.addRequest, List.mem_append,
        List.mem_singleton] at hr
      rcases hr with hr | rfl
      · exact hc r hr hready
      · simp [requestTag_ready htag] at hready
    | @promote now _ r rest hreq _ hle =>
      intro r' hr' hready
      simp only [List.mem_cons] at hr'
      rcases hr' with rfl | hr'
      · exact ⟨.pullRequest now, by simp, hle⟩
      · exact hc r' (by rw [hreq]; exact List.mem_cons_of_mem _ hr') hready
    | pop first rest hreq =>
      exact fun r hr => hc r (by rw [hreq]; exact List.mem_cons_of_mem _ hr)
    | reduce =>
      intro r hr hready
      simp only [ClientRec.reduceReservation, List.mem_map] at hr
      obtain ⟨r, hr, rfl⟩ := hr
      exact hc r hr hready
    | clear => intro r hr; simp at hr
    | filter => exact fun r hr => hc r ((List.mem_filter.mp hr).1)
    | idle => exact hc

/-! ## Dispatch within the limit -/

/-- Without limit break, and when no earlier call of the run had a later time, a request
dispatched with phase priority is the front of the ready top that the call's decision chose,
and its limit tag is at most the call's time. -/
theorem priority_dispatch_within_limit {h : List Op} {q q' : PriorityQueueBase} {ht : HeapTop}
    {now : ℚ} {c : ClientId} {req : Request} (hr : Run h q) (hlb : q.allowLimitBreak = false)
    (hnow : ∀ op ∈ h, op.decisionTime ≤ now)
    (hpull : q.pullRequest ht now = .ok (q', .retn c req .priority)) :
    ∃ q₁ r rest, q.doNextRequest ht now = .ok (q₁, .returning .ready) ∧
      (q₁.topRec ht .ready).requests = r :: rest ∧ r.request = req ∧ r.tag.limit ≤ now := by
  obtain ⟨q₁, r₂, hnext, hpop, -, rfl⟩ := PriorityQueueBase.pullRequest_priority ht hpull
  obtain ⟨hq₁, hlater⟩ := PriorityQueueBase.doNextRequest_ready ht hnext
  obtain ⟨r, rest, hfront, -, hready⟩ := PriorityQueueBase.laterPhases_ready ht hlater
  obtain ⟨rest', hfront', -, -⟩ := PriorityQueueBase.popProcessRequest_ok ht hpop
  obtain ⟨hr₂, -⟩ := List.cons.inj (hfront.symm.trans hfront')
  have hready : r.tag.ready = true := hready.resolve_right (by simp [hq₁, hlb])
  have hmem : r ∈ (q₁.topRec ht .ready).requests := hfront ▸ List.mem_cons_self r rest
  obtain ⟨op, hop, hle⟩ := readyPassed_invariant.store
    ((PriorityQueueBase.doNextRequest_change ht q hnext).store) (readyPassed_invariant.run hr) _ r hmem
    hready
  refine ⟨q₁, r, rest, hnext, hfront, by rw [hr₂], ?_⟩
  rcases List.mem_append.mp hop with hop | hop
  · exact hle.trans (hnow op hop)
  · rwa [List.mem_singleton.mp hop] at hle

/-- One weighted client with limit 0 and one request at time 0: its front is promoted and
dispatched with phase priority at time 0, within its limit. -/
theorem priority_dispatch_one_client :
    ∃ q q' q₁ r rest, Run [.addRequest 0 1 {} 0 0] q ∧ q.allowLimitBreak = false ∧
      q.pullRequest HeapTop.first 0 = .ok (q', .retn 1 0 .priority) ∧
      q.doNextRequest HeapTop.first 0 = .ok (q₁, .returning .ready) ∧
      (q₁.topRec HeapTop.first .ready).requests = r :: rest ∧ r.request = 0 ∧
      r.tag.limit ≤ ((0 : ℚ) : Tag) := by
  obtain ⟨q, hrun, hlb, q', hpull⟩ : ∃ q, Run [.addRequest 0 1 {} 0 0] q ∧
      q.allowLimitBreak = false ∧
      ∃ q', q.pullRequest HeapTop.first 0 = .ok (q', .retn 1 0 .priority) :=
    ⟨_, Run.of_runOf (show runOf HeapTop.first (fun _ => ClientInfo.ofNat 0 1 0) 600000 900000
      360000 false false [.addRequest 0 1 {} 0 0] = .ok _ by with_unfolding_all rfl),
      by with_unfolding_all rfl, _, by with_unfolding_all rfl⟩
  obtain ⟨q₁, r, rest, h₁, h₂, h₃, h₄⟩ :=
    priority_dispatch_within_limit hrun hlb (by simp [Op.decisionTime]) hpull
  exact ⟨q, q', q₁, r, rest, hrun, hlb, hpull, h₁, h₂, h₃, h₄⟩

end DmClock
