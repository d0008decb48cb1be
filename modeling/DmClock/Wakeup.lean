import DmClock.Decision

/- The wake-up time of `do_next_request` (spec §4.2, the end of the decision).

   When nothing is dispatched, `do_next_request(now)` returns the time to call again: the
   reservation top's front reservation tag, lowered to the limit top's front limit tag by
   `min_not_0_time`, as a `future` time when it is below `TimeMax` and as `none` otherwise.
   `pull_request` hands it back, and the push façade arms its scheduling thread with it
   (`armedFor_of_steps`).

   What is proved (`pullRequest_wakeup_bounds`), on every class of states that reads least
   records (`ReadsLeast`), with a clock not below 0; `pullRequest_wakeup_not_late` is vector
   mode, from every state of every run: the wake-up time `t` (`TimeMax` for `none`) is after the
   clock, and no event the decision waits for comes before it. Every client's front request
   has its reservation tag after the clock and not before `t`, and every front that is not
   ready has its limit tag after the clock and not before `t`. A caller that sleeps until `t`
   misses no reservation that falls due and no limit that passes.

   The bound on the clock is needed: `min_not_0_time` skips a tag equal to `TimeZero`, and
   only a clock below 0 leaves such a tag waiting.
-/

namespace DmClock

section MinNot0Time
variable {current possible : Tag}

theorem minNot0Time_le_left : minNot0Time current possible ≤ current := by
  unfold minNot0Time; split
  · exact le_rfl
  · exact min_le_left _ _

theorem minNot0Time_le_right (hp : possible ≠ timeZero) : minNot0Time current possible ≤ possible := by
  unfold minNot0Time; rw [if_neg (Ne.symm hp)]; exact min_le_right _ _

theorem lt_minNot0Time {a : Tag} (hc : a < current) (hp : a < possible) :
    a < minNot0Time current possible := by
  unfold minNot0Time; split
  · exact hc
  · exact lt_min hc hp

end MinNot0Time

/-- The time a wake-up decision asks for, its `future` time or `TimeMax` for `none`, is at
most the candidate and is the candidate or `TimeMax`. -/
theorem futureOrNone_wake {x t : Tag}
    (h : futureOrNone x = .future t ∨ (futureOrNone x = .none ∧ t = timeMax)) :
    t ≤ x ∧ (t = x ∨ t = timeMax) := by
  unfold futureOrNone at h
  split at h
  · rcases h with h | ⟨h, -⟩
    · cases h; exact ⟨le_rfl, .inl rfl⟩
    · cases h
  · rcases h with h | ⟨-, rfl⟩
    · cases h
    · exact ⟨not_lt.mp ‹_›, .inr rfl⟩

/-- A tag after a clock not below 0 is not `TimeZero`. -/
theorem ne_timeZero_of_lt {now : ℚ} (hnow : 0 ≤ now) {x : Tag} (h : (now : Tag) < x) :
    x ≠ timeZero :=
  ne_of_gt (lt_of_le_of_lt (Tag.ofRat_le_ofRat.mpr hnow : timeZero ≤ (now : Tag)) h)

section Fronts
variable {now : ℚ} {c d : ClientRec} {r : ClientReq} {rest : List ClientReq}

/-- A record no later in the reservation view than one with a front has a front whose
reservation tag is no later. -/
theorem resvKey_le_cons (h : resvKey c ≤ resvKey d) (hd : d.requests = r :: rest) :
    ∃ r₀ rest₀, c.requests = r₀ :: rest₀ ∧ r₀.tag.reservation ≤ r.tag.reservation := by
  unfold resvKey at h
  simp only [hd] at h
  split at h
  · rename_i r₀ rest₀ hc
    exact ⟨r₀, rest₀, hc, WithTop.coe_le_coe.mp h⟩
  · exact absurd h (not_le.mpr (WithTop.coe_lt_top _))

/-- A record no later in the limit view than one with a front that is not ready has such a
front, with a limit tag no later. -/
theorem limitKey_le_cons (h : limitKey c ≤ limitKey d) (hd : d.requests = r :: rest)
    (hr : r.tag.ready = false) :
    ∃ r₀ rest₀, c.requests = r₀ :: rest₀ ∧ r₀.tag.ready = false ∧ r₀.tag.limit ≤ r.tag.limit := by
  unfold limitKey at h
  simp only [hd] at h
  split at h
  · rename_i r₀ rest₀ hc
    simp only [WithTop.coe_le_coe, Prod.Lex.le_iff, hr] at h
    rcases h with h | h
    · exact absurd h (by cases r₀.tag.ready <;> decide)
    · exact ⟨r₀, rest₀, hc, h⟩
  · exact absurd h (not_le.mpr (WithTop.coe_lt_top _))

theorem resvPassed_markReady : resvPassed now (markReady now c) = resvPassed now c := by
  unfold markReady
  split
  · split
    · rename_i hreq _; simp [resvPassed, hreq]
    · rfl
  · rfl

theorem lt_reservation_of_not_passed (h : resvPassed now c = false) (hc : c.requests = r :: rest) :
    (now : Tag) < r.tag.reservation := by
  simpa [resvPassed, hc] using h

theorem lt_limit_of_not_pending (h : pending now c = false) (hc : c.requests = r :: rest)
    (hr : r.tag.ready = false) : (now : Tag) < r.tag.limit := by
  simpa [pending, hc, hr] using h

end Fronts

namespace PriorityQueueBase
variable (ht : HeapTop) {q : PriorityQueueBase}

/-- The last phase of `do_next_request`, when it returns a wake-up time `t`: with the
reservation top's front and a limit top's front that is not ready after the clock, `t` is
after the clock and at most both tags, and the limit top's front is not ready. -/
theorem laterPhases_wakeup {pr : Nat} {d : NextReq} {t : Tag} (h : q.laterPhases ht pr = .ok d)
    (hd : d = .future t ∨ (d = .none ∧ t = timeMax)) {now : ℚ} (hnow : 0 ≤ now)
    (hres : ∀ r rest, (q.topRec ht .reservation).requests = r :: rest →
      (now : Tag) < r.tag.reservation)
    (hlim : ∀ r rest, (q.topRec ht .limit).requests = r :: rest → r.tag.ready = false →
      (now : Tag) < r.tag.limit) :
    (now : Tag) < t ∧
      (∀ r rest, (q.topRec ht .reservation).requests = r :: rest → t ≤ r.tag.reservation) ∧
      ∀ r rest, (q.topRec ht .limit).requests = r :: rest → r.tag.ready = false ∧ t ≤ r.tag.limit := by
  have hnr : ∀ v, d ≠ .returning v := by
    rcases hd with rfl | ⟨rfl, -⟩ <;> intro v hv <;> cases hv
  have hmax : (now : Tag) < timeMax := Tag.ofRat_lt_maxTag now
  unfold laterPhases at h
  dsimp only at h
  -- the proportional phase and the limit break return a view
  split at h
  · exact absurd (Except.ok.inj h).symm (hnr _)
  split at h
  · exact absurd (Except.ok.inj h).symm (hnr _)
  split at h
  · exact absurd (Except.ok.inj h).symm (hnr _)
  -- the wake-up candidate: `TimeMax`, lowered by the reservation top, then by the limit top
  obtain ⟨x, hx, hnx, hxr, hxl⟩ : ∃ x, futureOrNone x = d ∧ (now : Tag) < x ∧
      (∀ r rest, (q.topRec ht .reservation).requests = r :: rest → x ≤ r.tag.reservation) ∧
      ∀ l lrest, (q.topRec ht .limit).requests = l :: lrest →
        l.tag.ready = false ∧ x ≤ l.tag.limit := by
    rcases hrr : (q.topRec ht .reservation).requests with _ | ⟨r, rest⟩ <;>
      rcases hll : (q.topRec ht .limit).requests with _ | ⟨l, lrest⟩ <;>
      simp only [hrr, hll] at h
    · exact ⟨_, Except.ok.inj h, hmax, fun _ _ h' => (nomatch h'),
        fun _ _ h' => (nomatch h')⟩
    · split at h
      · cases h
      · rename_i hl
        have hL := hlim l lrest hll (by simpa using hl)
        refine ⟨_, Except.ok.inj h, lt_minNot0Time hmax hL, fun _ _ h' => (nomatch h'),
          fun _ _ h' => ?_⟩
        cases h'
        exact ⟨by simpa using hl, minNot0Time_le_right (ne_timeZero_of_lt hnow hL)⟩
    · have hR := hres r rest hrr
      refine ⟨_, Except.ok.inj h, lt_minNot0Time hmax hR, fun _ _ h' => ?_,
        fun _ _ h' => (nomatch h')⟩
      cases h'
      exact minNot0Time_le_right (ne_timeZero_of_lt hnow hR)
    · split at h
      · cases h
      · rename_i hl
        have hR := hres r rest hrr
        have hL := hlim l lrest hll (by simpa using hl)
        refine ⟨_, Except.ok.inj h, lt_minNot0Time (lt_minNot0Time hmax hR) hL, fun _ _ h' => ?_,
          fun _ _ h' => ?_⟩
        · cases h'
          exact minNot0Time_le_left.trans (minNot0Time_le_right (ne_timeZero_of_lt hnow hR))
        · cases h'
          exact ⟨by simpa using hl, minNot0Time_le_right (ne_timeZero_of_lt hnow hL)⟩
  obtain ⟨htx, htx'⟩ := futureOrNone_wake (hx ▸ hd)
  refine ⟨?_, fun r rest hr => htx.trans (hxr r rest hr),
    fun l lrest hl => ⟨(hxl l lrest hl).1, htx.trans (hxl l lrest hl).2⟩⟩
  rcases htx' with rfl | rfl
  exacts [hnx, hmax]

/-- A dispatch returns a request. -/
theorem dispatch_retn {heapId : HeapId} {r : PriorityQueueBase × PullReq}
    (h : q.dispatch ht heapId = .ok r) : ∃ c req phase, r.2 = .retn c req phase := by
  cases heapId with
  | reservation =>
    obtain ⟨r₁, -, rfl⟩ := Except.map_eq_ok.mp h
    exact ⟨_, _, _, rfl⟩
  | ready =>
    obtain ⟨r₁, -, h₂⟩ := Except.bind_eq_ok.mp h
    obtain ⟨q₂, -, rfl⟩ := Except.map_eq_ok.mp h₂
    exact ⟨_, _, _, rfl⟩

/-- A pull that hands back a wake-up time passes on the one `do_next_request` returned. -/
theorem doNextRequest_of_pullRequest_wait {now : ℚ} {q' : PriorityQueueBase} {t : Tag}
    (h : q.pullRequest ht now = .ok (q', .future t) ∨
      (q.pullRequest ht now = .ok (q', .none) ∧ t = timeMax)) :
    ∃ d, q.doNextRequest ht now = .ok (q', d) ∧ (d = .future t ∨ (d = .none ∧ t = timeMax)) := by
  rcases h with h | ⟨h, rfl⟩ <;> obtain ⟨⟨q₁, d⟩, h₁, h₂⟩ := Except.bind_eq_ok.mp h <;>
    rcases d with heapId | t' | _
  all_goals first
    | (obtain ⟨c, req, ph, he⟩ := dispatch_retn ht h₂; cases he)
    | (cases h₂; exact ⟨_, h₁, .inl rfl⟩)
    | (cases h₂; exact ⟨_, h₁, .inr ⟨rfl, rfl⟩⟩)
    | cases h₂

/-- The wake-up of a call that passes no reservation: after the promotion loop, every front has
its reservation tag after the clock and not before the wake-up time, and so has its limit tag
unless it is ready. -/
theorem laterPhases_wakeup_bounds {now : ℚ} {P : PriorityQueueBase → Prop}
    (hP : ReadsLeast ht now P) (hq : P q) (hnow : 0 ≤ now) {q' : PriorityQueueBase} {t : Tag}
    {d : NextReq} (hne : q.clientMap ≠ []) (hnone : ∀ e ∈ q.clientMap, resvPassed now (q.recOf e.2) = false)
    (hd : q.doNextRequest ht now = .ok (q', d)) (hdt : d = .future t ∨ (d = .none ∧ t = timeMax)) :
    (now : Tag) < t ∧ ∀ e ∈ q'.clientMap, ∀ r rest, (q'.recOf e.2).requests = r :: rest →
      (now : Tag) < r.tag.reservation ∧ t ≤ r.tag.reservation ∧
      (r.tag.ready = true ∨ ((now : Tag) < r.tag.limit ∧ t ≤ r.tag.limit)) := by
  obtain ⟨q₁, hdn, -, hmap, hrec, hleast, htops⟩ :=
    doNextRequest_later_phases hP hq hne hnone
  obtain ⟨d', hl, he⟩ := Except.map_eq_ok.mp (hdn ▸ hd)
  obtain ⟨rfl, rfl⟩ := Prod.mk.inj he
  -- the fronts of the marked records: reservation after the clock, limit too unless ready
  have hfront : ∀ p ∈ q₁.clientMap.map Prod.snd, ∀ r rest, (q₁.recOf p).requests = r :: rest →
      (now : Tag) < r.tag.reservation ∧ (r.tag.ready = false → (now : Tag) < r.tag.limit) := by
    intro p hp r rest hreq
    rw [hmap] at hp
    rw [hrec, if_pos hp] at hreq
    obtain ⟨e, he, rfl⟩ := List.mem_map.mp hp
    exact ⟨lt_reservation_of_not_passed (resvPassed_markReady.trans (hnone e he)) hreq,
      lt_limit_of_not_pending pending_markReady hreq⟩
  obtain ⟨hnt, hR, hL⟩ := laterPhases_wakeup ht hl hdt hnow
    (fun r rest h => (hfront _ (htops .reservation) r rest h).1)
    (fun r rest h hr => (hfront _ (htops .limit) r rest h).2 hr)
  refine ⟨hnt, fun e he r rest hreq => ?_⟩
  obtain ⟨hres, hlim⟩ := hfront _ (List.mem_map_of_mem _ he) r rest hreq
  obtain ⟨-, hkr, -, hkl⟩ := hleast e he
  obtain ⟨r₀, rest₀, h₀, hle⟩ := resvKey_le_cons hkr hreq
  refine ⟨hres, (hR r₀ rest₀ h₀).trans hle, ?_⟩
  cases hready : r.tag.ready
  · obtain ⟨l₀, lrest₀, hl₀, -, hle'⟩ := limitKey_le_cons hkl hreq hready
    exact .inr ⟨hlim hready, (hL l₀ lrest₀ hl₀).2.trans hle'⟩
  · exact .inl rfl

/-- The wake-up bound of `pull_request(now)` on a class of states that reads least records. -/
theorem pullRequest_wakeup_bounds {now : ℚ} {P : PriorityQueueBase → Prop}
    (hP : ReadsLeast ht now P) (hq : P q) (hnow : 0 ≤ now) {q' : PriorityQueueBase} {t : Tag}
    (hp : q.pullRequest ht now = .ok (q', .future t) ∨
      (q.pullRequest ht now = .ok (q', .none) ∧ t = timeMax)) :
    (now : Tag) < t ∧ ∀ e ∈ q'.clientMap, ∀ r rest, (q'.recOf e.2).requests = r :: rest →
      (now : Tag) < r.tag.reservation ∧ t ≤ r.tag.reservation ∧
      (r.tag.ready = true ∨ ((now : Tag) < r.tag.limit ∧ t ≤ r.tag.limit)) := by
  obtain ⟨d, hd, hdt⟩ := doNextRequest_of_pullRequest_wait ht hp
  by_cases hne : q.clientMap = []
  · -- no client: `none`, on the unchanged state
    rw [doNextRequest_of_nil hP hq hne] at hd
    obtain ⟨rfl, rfl⟩ := Prod.mk.inj (Except.ok.inj hd)
    refine ⟨?_, fun e he => by rw [hne] at he; cases he⟩
    rcases hdt with h | ⟨-, rfl⟩
    · cases h
    · exact Tag.ofRat_lt_maxTag now
  -- a passed reservation would be dispatched
  refine laterPhases_wakeup_bounds ht hP hq hnow hne (fun e he => Bool.eq_false_iff.mpr
    fun hpass => ?_) hd hdt
  rw [(doNextRequest_of_resvPassed hP hq ⟨e, he, hpass⟩).1] at hd
  rcases hdt with rfl | ⟨rfl, -⟩ <;> cases (Prod.mk.inj (Except.ok.inj hd)).2

/-- In vector mode, from every state of every run, with a clock not below 0: when
`pull_request(now)` hands back the wake-up time `t` (`TimeMax` for `none`), `t` is after the
clock; every client's front request has its reservation tag after the clock and not before
`t`; and every front that is not ready has its limit tag after the clock and not before `t`. -/
theorem pullRequest_wakeup_not_late {h : List Op} {q q' : PriorityQueueBase} (hr : Run h q)
    (hv : q.useHeap = false) (ht : HeapTop) {now : ℚ} (hnow : 0 ≤ now) {t : Tag}
    (hp : q.pullRequest ht now = .ok (q', .future t) ∨
      (q.pullRequest ht now = .ok (q', .none) ∧ t = timeMax)) :
    (now : Tag) < t ∧ ∀ e ∈ q'.clientMap, ∀ r rest, (q'.recOf e.2).requests = r :: rest →
      (now : Tag) < r.tag.reservation ∧ t ≤ r.tag.reservation ∧
      (r.tag.ready = true ∨ ((now : Tag) < r.tag.limit ∧ t ≤ r.tag.limit)) :=
  pullRequest_wakeup_bounds ht (vector_readsLeast ht now)
    ⟨indexInv_of_run hr hv, cursorInv_of_run hr, hv⟩ hnow hp

/-- One weighted client with limit rate 1 and one request at time 0, in vector mode:
`pull_request(0)` cannot dispatch it, and returns `future(1)`, its limit tag. -/
theorem pullRequest_wakeup_not_late_one_client :
    ∃ q q', Run [.addRequest 0 1 {} 0 0] q ∧ q.useHeap = false ∧ (0 : ℚ) ≤ 0 ∧
      q.pullRequest HeapTop.first 0 = .ok (q', .future ((1 : ℚ) : Tag)) ∧
      ((0 : ℚ) : Tag) < ((1 : ℚ) : Tag) ∧ ∀ e ∈ q'.clientMap, ∀ r rest, (q'.recOf e.2).requests = r :: rest →
        ((0 : ℚ) : Tag) < r.tag.reservation ∧ ((1 : ℚ) : Tag) ≤ r.tag.reservation ∧
        (r.tag.ready = true ∨ (((0 : ℚ) : Tag) < r.tag.limit ∧ ((1 : ℚ) : Tag) ≤ r.tag.limit)) := by
  obtain ⟨q, hrun, hv, q', hp⟩ : ∃ q, Run [.addRequest 0 1 {} 0 0] q ∧ q.useHeap = false ∧
      ∃ q', q.pullRequest HeapTop.first 0 = .ok (q', .future ((1 : ℚ) : Tag)) :=
    ⟨_, Run.of_runOf (show runOf HeapTop.first (fun _ => ClientInfo.ofNat 0 1 1) 600000 900000
        360000 false false [.addRequest 0 1 {} 0 0] = .ok _ by with_unfolding_all rfl),
      rfl, _, by with_unfolding_all rfl⟩
  exact ⟨q, q', hrun, hv, le_rfl, hp,
    pullRequest_wakeup_not_late hrun hv HeapTop.first le_rfl (.inl hp)⟩

end PriorityQueueBase

end DmClock
