import DmClock.Index

/- The cleaner (spec §4.6 and testable property 8).

   Two clocks meet in `do_clean`. `tick` counts the calls of `do_add_request`, and a record's
   `last_tick` is the count just after the client's most recent one. `do_clean` notes the
   pair (its clock, `tick`) as a mark point, pops the mark points that are `erase_age` old,
   and walks the map: it erases the clients whose `last_tick` is at most the count of the last
   mark point popped, and marks idle those whose `last_tick` is at most the count of the last
   mark point that is `idle_age` old. The erase is `client_map.erase(i2)` followed by
   `delete_from_heaps(i2->second)`, and the second reads the map node the first destroyed:
   undefined behaviour, which ends the call (`cleanEntry`). What is proved:

     1. `cleanInv_of_run`: in every state of every run, `tick` is the number of adds of the
        run, each mark point was noted by a cleaner run of the history with the number of
        adds before it, and each map record's `last_tick` is the number of adds up to and
        including the client's most recent add (`CleanInv`).
     2. `doClean_cleaned`, `doClean_error`: a walk that returns keeps the map and changes a
        record only by marking a map record idle whose `last_tick` is at most the idle point
        (`Cleaned`); a walk that fails reads an erased node, at a map entry whose `last_tick`
        is at most the erase point.
     3. `doClean_outcome`: with `idle_age > 0`, in every state of every run, `do_clean(now)`
        never reads `front()` of an empty mark-point deque. It fails only by the read of an
        erased node, and then some client's most recent add came before a cleaner run at a
        clock at most `now - erase_age`. When it returns, it has erased no client, and it
        has changed a record only by marking idle a client whose most recent add came before
        a cleaner run at a clock at most `now - idle_age`.
     4. `doClean_reads_erased_node`: a run of three calls reaches a cleaner run that erases a
        client, so reads the erased node.
-/

namespace DmClock

/-! ## The history's clocks -/

namespace Op

/-- The call is a `do_add_request`, which advances `tick`. -/
def isAdd : Op → Bool
  | .addRequest .. => true
  | _ => false

/-- The call is a `do_add_request` for client `c`. -/
def addsFor (c : ClientId) : Op → Bool
  | .addRequest _ clientId _ _ _ => clientId == c
  | _ => false

theorem addsFor_of_not_isAdd {op : Op} (h : op.isAdd = false) (c : ClientId) :
    op.addsFor c = false := by
  cases op <;> simp_all [isAdd, addsFor]

end Op

/-- The value of `tick` after the history `h`: its number of adds. -/
def addCount (h : List Op) : Nat := h.countP Op.isAdd

theorem addCount_append (h h' : List Op) : addCount (h ++ h') = addCount h + addCount h' :=
  List.countP_append ..

theorem addCount_concat (h : List Op) (op : Op) :
    addCount (h ++ [op]) = addCount h + if op.isAdd then 1 else 0 := by
  rw [addCount_append, addCount, addCount, List.countP_singleton]

/-- The client's most recent `add_request` in `h` came before a run of the cleaner at a clock
at most `cut`. -/
def LastAddBefore (h : List Op) (c : ClientId) (cut : ℚ) : Prop :=
  ∃ pre t post, h = pre ++ .doClean t :: post ∧ t ≤ cut ∧ (∃ op ∈ pre, op.addsFor c = true) ∧
    ∀ op ∈ post, op.addsFor c = false

/-- The client's most recent `add_request` in `h` left `tick` at `n`. -/
def LastAdd (h : List Op) (c : ClientId) (n : Nat) : Prop :=
  ∃ pre op post, h = pre ++ op :: post ∧ op.addsFor c = true ∧
    (∀ o ∈ post, o.addsFor c = false) ∧ n = addCount pre + 1

/-- A cleaner run of `h` at clock `m.1` noted `m.2` adds. -/
def MarkedAt (h : List Op) (m : MarkPoint) : Prop :=
  ∃ pre post, h = pre ++ .doClean m.1 :: post ∧ m.2 = addCount pre

section History
variable {h : List Op} {c : ClientId} {n : Nat} {m : MarkPoint}

theorem LastAdd.snoc (ha : LastAdd h c n) {op : Op} (hop : op.addsFor c = false) :
    LastAdd (h ++ [op]) c n := by
  obtain ⟨pre, o, post, rfl, ho, hpost, rfl⟩ := ha
  refine ⟨pre, o, post ++ [op], by simp, ho, fun o' h' => ?_, rfl⟩
  rcases List.mem_append.mp h' with h' | h'
  · exact hpost o' h'
  · rw [List.mem_singleton.mp h']; exact hop

theorem MarkedAt.snoc (hm : MarkedAt h m) (op : Op) : MarkedAt (h ++ [op]) m := by
  obtain ⟨pre, post, rfl, hm⟩ := hm
  exact ⟨pre, post ++ [op], by simp, hm⟩

/-- A client whose most recent add left `tick` at most at the count a cleaner run noted made
that add before the cleaner run. -/
theorem lastAddBefore_of_le (ha : LastAdd h c n) (hm : MarkedAt h m) (hle : n ≤ m.2)
    {cut : ℚ} (ht : m.1 ≤ cut) : LastAddBefore h c cut := by
  obtain ⟨pre', op, post', hh', hop, hpost, rfl⟩ := ha
  obtain ⟨pre, post, hh, hm2⟩ := hm
  rw [hh] at hh'
  rcases List.append_eq_append_iff.mp hh' with ⟨a', hpre', -⟩ | ⟨c', hpre, hc'⟩
  · rw [hpre', addCount_append] at hle; omega
  · cases c' with
    | nil =>
      obtain ⟨rfl, -⟩ := List.cons.inj hc'
      simp [Op.addsFor] at hop
    | cons z c'' =>
      obtain ⟨rfl, rfl⟩ := List.cons.inj hc'
      exact ⟨pre, m.1, post, hh, ht, ⟨op, by simp [hpre], hop⟩, fun o ho => hpost o (by simp [ho])⟩

end History

/-! ## The cleaner's loops -/

section Loops
variable {cut : ℚ}

/-- The erase loop stops, at the latest, at a mark point younger than the cut. -/
theorem eraseLoop_ok : ∀ (ep : Nat) (l : List MarkPoint), (∃ m ∈ l, cut < m.1) →
    ∃ r, PriorityQueueBase.eraseLoop cut ep l = .ok r
  | _, [], ⟨_, hm, _⟩ => absurd hm (List.not_mem_nil _)
  | ep, point :: rest, ⟨m, hm, hlt⟩ => by
    unfold PriorityQueueBase.eraseLoop
    split
    · rcases List.mem_cons.mp hm with rfl | hm
      · exact absurd hlt (not_lt.mpr ‹_›)
      · exact eraseLoop_ok point.2 rest ⟨m, hm, hlt⟩
    · exact ⟨_, rfl⟩

/-- The erase loop leaves a suffix of the mark points, and its erase point is the start or the
count of a mark point older than the cut. -/
theorem eraseLoop_spec : ∀ {ep : Nat} {l : List MarkPoint} {r : Nat × List MarkPoint},
    PriorityQueueBase.eraseLoop cut ep l = .ok r →
      r.2 <:+ l ∧ (r.1 = ep ∨ ∃ m ∈ l, m.1 ≤ cut ∧ r.1 = m.2)
  | _, [], _, h => by cases h
  | ep, point :: rest, r, h => by
    unfold PriorityQueueBase.eraseLoop at h
    split at h
    · obtain ⟨hs, hr⟩ := eraseLoop_spec h
      refine ⟨hs.trans (List.suffix_cons _ _), .inr ?_⟩
      rcases hr with hr | ⟨m, hm, hc, hr⟩
      · exact ⟨point, List.mem_cons_self _ _, ‹_›, hr⟩
      · exact ⟨m, List.mem_cons_of_mem _ hm, hc, hr⟩
    · cases h; exact ⟨List.suffix_refl _, .inl rfl⟩

/-- The idle point is the start or the count of a mark point older than the cut. -/
theorem idleScan_spec : ∀ (ip : Nat) (l : List MarkPoint),
    PriorityQueueBase.idleScan cut ip l = ip ∨
      ∃ m ∈ l, m.1 ≤ cut ∧ PriorityQueueBase.idleScan cut ip l = m.2
  | _, [] => .inl rfl
  | ip, i :: rest => by
    unfold PriorityQueueBase.idleScan
    split
    · rcases idleScan_spec i.2 rest with h | ⟨m, hm, hc, h⟩
      · exact .inr ⟨i, List.mem_cons_self _ _, ‹_›, h⟩
      · exact .inr ⟨m, List.mem_cons_of_mem _ hm, hc, h⟩
    · exact .inl rfl

end Loops

/-! ## The cleaner's walk -/

namespace PriorityQueueBase

/-- What a walk of the cleaner that returns does from `q` to `q'`, with idle point
`idlePoint`: it keeps `tick`, the mark points and the map, and changes a record only by
marking idle a map record whose `last_tick` is at most a nonzero idle point. -/
structure Cleaned (idlePoint : Nat) (q q' : PriorityQueueBase) : Prop where
  tick : q'.tick = q.tick
  marks : q'.cleanMarkPoints = q.cleanMarkPoints
  map : q'.clientMap = q.clientMap
  records : ∀ p, q'.recOf p = q.recOf p ∨ (q'.recOf p = { q.recOf p with idle := true } ∧
    p ∈ q.clientMap.map Prod.snd ∧ idlePoint ≠ 0 ∧ (q.recOf p).lastTick ≤ idlePoint)

/-- Marking a record idle keeps every record's `last_tick`. -/
theorem lastTick_setRec_idle (q : PriorityQueueBase) (p p' : Nat) :
    ((q.setRec p { q.recOf p with idle := true }).recOf p').lastTick = (q.recOf p').lastTick := by
  rw [recOf_setRec]
  split
  · rename_i h; rw [h.1]
  · rfl

namespace Cleaned
variable {ip : Nat} {q q₁ q₂ : PriorityQueueBase}

theorem refl (q : PriorityQueueBase) : Cleaned ip q q := ⟨rfl, rfl, rfl, fun _ => .inl rfl⟩

/-- A record's `last_tick` survives the walk. -/
theorem lastTick (h : Cleaned ip q q₁) (p : Nat) : (q₁.recOf p).lastTick = (q.recOf p).lastTick := by
  rcases h.records p with h | ⟨h, -⟩ <;> rw [h]

theorem trans (h₁ : Cleaned ip q q₁) (h₂ : Cleaned ip q₁ q₂) : Cleaned ip q q₂ where
  tick := h₂.tick.trans h₁.tick
  marks := h₂.marks.trans h₁.marks
  map := h₂.map.trans h₁.map
  records p := by
    rcases h₁.records p with k₁ | ⟨k₁, hc⟩
    · rcases h₂.records p with k₂ | ⟨k₂, hm, hc'⟩
      · exact .inl (k₂.trans k₁)
      · rw [k₂, k₁]; rw [k₁] at hc'; exact .inr ⟨rfl, h₁.map ▸ hm, hc'⟩
    · rcases h₂.records p with k₂ | ⟨k₂, -⟩ <;> rw [k₂, k₁] <;> exact .inr ⟨rfl, hc⟩

/-- An entry of the map that the walk passes and that returns: marked idle under the idle
condition, or left alone. -/
theorem cleanEntry {ep : Nat} {e : ClientId × Nat} (he : e ∈ q.clientMap)
    (h : PriorityQueueBase.cleanEntry ep ip q e = .ok q₁) : Cleaned ip q q₁ := by
  rcases cleanEntry_eq_ok h with ⟨rfl, hc⟩ | rfl
  · refine ⟨rfl, rfl, rfl, fun p => ?_⟩
    rw [recOf_setRec]
    split
    · rename_i hp; rw [← hp.1]; exact .inr ⟨rfl, List.mem_map_of_mem _ he, hc⟩
    · exact .inl rfl
  · exact .refl _

end Cleaned

/-- A walk over entries of the map that returns has cleaned. -/
theorem cleanWalk_ok {ep ip : Nat} : ∀ (l : List (ClientId × Nat)) (q q' : PriorityQueueBase),
    (∀ e ∈ l, e ∈ q.clientMap) → l.foldlM (cleanEntry ep ip) q = .ok q' → Cleaned ip q q'
  | [], q, _, _, h => by cases h; exact .refl q
  | e :: l, q, q', hl, h => by
    obtain ⟨q₁, h₁, h₂⟩ := Except.bind_eq_ok.mp h
    have hc := Cleaned.cleanEntry (hl e (List.mem_cons_self _ _)) h₁
    exact hc.trans (cleanWalk_ok l q₁ q' (fun e' he' => hc.map ▸ hl e' (List.mem_cons_of_mem _ he'))
      h₂)

/-- A walk that fails reads an erased node, at one of its entries whose `last_tick` is at most
a nonzero erase point. -/
theorem cleanWalk_error {ep ip : Nat} (l : List (ClientId × Nat)) (q : PriorityQueueBase)
    {msg : String} (h : l.foldlM (cleanEntry ep ip) q = .error msg) :
    msg = erasedNodeRead ∧ ∃ e ∈ l, ep ≠ 0 ∧ (q.recOf e.2).lastTick ≤ ep := by
  obtain ⟨e, he, q₁, hq₁, h₁⟩ := foldlM_error
    (fun a a' : PriorityQueueBase => ∀ p, (a'.recOf p).lastTick = (a.recOf p).lastTick)
    (fun _ _ => rfl) (fun h₁ h₂ p => (h₂ p).trans (h₁ p))
    (fun h p => by
      rcases cleanEntry_eq_ok h with ⟨rfl, -⟩ | rfl
      exacts [lastTick_setRec_idle _ _ p, rfl])
    l q msg h
  obtain ⟨rfl, hne, hle⟩ := cleanEntry_eq_error h₁
  exact ⟨rfl, e, he, hne, hq₁ e.2 ▸ hle⟩

/-- `do_clean` that returns: its erase loop succeeded, and the walk, if it ran, cleaned from
the state holding the remaining mark points. -/
theorem doClean_cleaned {q q' : PriorityQueueBase} {now : ℚ} (h : q.doClean now = .ok q') :
    ∃ r, eraseLoop (now - q.eraseAge) 0 (q.cleanMarkPoints ++ [(now, q.tick)]) = .ok r ∧
      Cleaned (idleScan (now - q.idleAge) 0 r.2) { q with cleanMarkPoints := r.2 } q' := by
  obtain ⟨r, hr, ⟨-, hw⟩ | ⟨-, rfl⟩⟩ := doClean_ok q h
  · exact ⟨r, hr, cleanWalk_ok _ _ _ (fun _ he => he) hw⟩
  · exact ⟨r, hr, .refl _⟩

/-- `do_clean` that fails: its erase loop failed, or its walk read an erased node, at a map
entry whose `last_tick` is at most the erase loop's nonzero erase point. -/
theorem doClean_error {q : PriorityQueueBase} {now : ℚ} {msg : String}
    (h : q.doClean now = .error msg) :
    eraseLoop (now - q.eraseAge) 0 (q.cleanMarkPoints ++ [(now, q.tick)]) = .error msg ∨
      ∃ r, eraseLoop (now - q.eraseAge) 0 (q.cleanMarkPoints ++ [(now, q.tick)]) = .ok r ∧
        msg = erasedNodeRead ∧ ∃ e ∈ q.clientMap, r.1 ≠ 0 ∧ (q.recOf e.2).lastTick ≤ r.1 := by
  unfold doClean at h
  cases hr : eraseLoop (now - q.eraseAge) 0 (q.cleanMarkPoints ++ [(now, q.tick)]) with
  | error msg' => rw [hr] at h; cases h; exact .inl rfl
  | ok r =>
    rw [hr] at h
    refine .inr ⟨r, rfl, ?_⟩
    dsimp only [Except.bind] at h
    split at h
    · exact cleanWalk_error _ { q with cleanMarkPoints := r.2 } h
    · cases h

/-! ## The other operations -/

/-- The pulls, the removals and the end of `do_add_request` keep `tick` and the mark points. -/
theorem sameClock_pullClosed :
    PullClosed fun q q' => q'.tick = q.tick ∧ q'.cleanMarkPoints = q.cleanMarkPoints where
  refl _ := ⟨rfl, rfl⟩
  trans h₁ h₂ := ⟨h₂.1.trans h₁.1, h₂.2.trans h₁.2⟩
  setRec _ _ _ _ _ := ⟨rfl, rfl⟩
  adjustAll q := by unfold adjustAll; split <;> exact ⟨rfl, rfl⟩
  adjustReadyLimitAll q := by unfold adjustReadyLimitAll; split <;> exact ⟨rfl, rfl⟩
  adjustResvAll q := by unfold adjustResvAll; split <;> exact ⟨rfl, rfl⟩
  sched _ _ _ := ⟨rfl, rfl⟩

end PriorityQueueBase

/-- Only an add writes `last_tick`. -/
theorem RecChange.lastTick {op : Op} {c c' : ClientRec} (h : RecChange op c c')
    (hop : op.isAdd = false) : c'.lastTick = c.lastTick := by
  cases h <;> first | rfl | simp [Op.isAdd] at hop

theorem recChanges_lastTick {op : Op} {c c' : ClientRec} (h : RecChanges op c c')
    (hop : op.isAdd = false) : c'.lastTick = c.lastTick := by
  induction h with
  | refl => rfl
  | tail _ hlast ih => exact (hlast.lastTick hop).trans ih

namespace PriorityQueueBase

theorem step_lastTick {ht : HeapTop} {q q' : PriorityQueueBase} {op : Op}
    (hs : q.step ht op = .ok q') (hop : op.isAdd = false) {p : Nat} (hp : p < q.store.length) :
    (q'.recOf p).lastTick = (q.recOf p).lastTick := by
  have hc := (step_change ht q hs).store
  exact recChanges_lastTick (((hc.2 p (by have := hc.1; omega)).1 hp)) hop

section Add
variable {q q' : PriorityQueueBase} {c : ClientId}

/-- The client's entry after `find_or_create`, and the others' untouched. -/
theorem findOrCreate_entry (hm : MapInv q) (c : ClientId) :
    (c, (q.findOrCreate c).2) ∈ (q.findOrCreate c).1.clientMap ∧
      (q.findOrCreate c).2 < (q.findOrCreate c).1.store.length ∧
      (q.findOrCreate c).1.tick = q.tick ∧
      (q.findOrCreate c).1.cleanMarkPoints = q.cleanMarkPoints ∧
      ∀ e ∈ (q.findOrCreate c).1.clientMap, e.1 ≠ c →
        e ∈ q.clientMap ∧ e.2 ≠ (q.findOrCreate c).2 ∧ (q.findOrCreate c).1.recOf e.2 = q.recOf e.2 := by
  cases h : q.clientMap.lookup c with
  | some p =>
    have hfc : q.findOrCreate c = (q, p) := by simp [findOrCreate, h]
    rw [hfc]
    refine ⟨lookup_mem h, hm.lt_length _ (lookup_mem h), rfl, rfl, fun e he hne => ⟨he, ?_, rfl⟩⟩
    intro hp
    exact hne (congrArg Prod.fst (List.inj_on_of_nodup_map hm.values_nodup he (lookup_mem h) hp))
  | none =>
    obtain ⟨hmap, hlen, hold, -, -⟩ := findOrCreate_new h
    have hperm : (mapInsert c q.store.length q.clientMap).Perm ((c, q.store.length) :: q.clientMap) :=
      mapInsert_perm (lookup_none h)
    have hp : (q.findOrCreate c).2 = q.store.length := by simp [findOrCreate, h]
    have hfr : (q.findOrCreate c).1.tick = q.tick ∧
        (q.findOrCreate c).1.cleanMarkPoints = q.cleanMarkPoints := by
      unfold findOrCreate; rw [h]; exact ⟨rfl, rfl⟩
    rw [hp, hmap]
    refine ⟨hperm.mem_iff.mpr (List.mem_cons_self _ _), by omega, hfr.1, hfr.2,
      fun e he hne => ?_⟩
    rcases List.mem_cons.mp (hperm.mem_iff.mp he) with rfl | he
    · exact absurd rfl hne
    · have hlt := hm.lt_length e he
      exact ⟨he, by omega, hold _ hlt⟩

theorem reactivate_recOf_ne {p p' : Nat} (hp : p ≠ p') (time : ℚ) :
    (q.reactivate p time).recOf p' = q.recOf p' := by
  unfold reactivate; dsimp only
  split
  · split <;> exact deref_set_ne hp _
  · rfl

theorem enqueue_recOf_ne {p p' : Nat} {request : Request} {reqParams : ReqParams} {time cost : ℚ}
    (h : q.enqueue p request reqParams time cost = .ok q') (hp : p ≠ p') :
    q'.recOf p' = q.recOf p' := by
  obtain ⟨tag, -, rfl⟩ := Except.map_eq_ok.mp h
  exact deref_set_ne hp _

/-- `do_add_request` for client `c` advances `tick`, keeps the mark points, gives the client's
record the new `tick` as `last_tick`, and leaves the other clients' entries and records alone. -/
theorem doAddRequest_clock (hm : MapInv q) {request : Request} {reqParams : ReqParams}
    {time cost : ℚ} (h : q.doAddRequest request c reqParams time cost = .ok q') :
    q'.tick = q.tick + 1 ∧ q'.cleanMarkPoints = q.cleanMarkPoints ∧
      ∃ p, (c, p) ∈ q'.clientMap ∧ (q'.recOf p).lastTick = q.tick + 1 ∧
        ∀ e ∈ q'.clientMap, e.1 ≠ c → e ∈ q.clientMap ∧ q'.recOf e.2 = q.recOf e.2 := by
  obtain ⟨q₃, h₃, rfl⟩ := Except.map_eq_ok.mp h
  obtain ⟨hmem, hlt, htick, hmarks, hold⟩ :=
    findOrCreate_entry ((SameIndex.of_eq rfl rfl rfl rfl rfl :
      SameIndex q { q with tick := q.tick + 1 }).mapInv hm) c
  generalize findOrCreate { q with tick := q.tick + 1 } c = r at hmem hlt htick hmarks hold h₃
  obtain ⟨q₁, p⟩ := r
  dsimp only at hmem hlt htick hmarks hold h₃
  have hs : SameIndex q₁ q₃.adjustAll := sameIndex_pullClosed.trans
    (sameIndex_pullClosed.reactivate p time)
    (sameIndex_pullClosed.trans (sameIndex_pullClosed.enqueue h₃) (sameIndex_pullClosed.adjustAll _))
  have hcl : q₃.adjustAll.tick = q₁.tick ∧ q₃.adjustAll.cleanMarkPoints = q₁.cleanMarkPoints :=
    sameClock_pullClosed.trans (sameClock_pullClosed.reactivate p time)
      (sameClock_pullClosed.trans (sameClock_pullClosed.enqueue h₃) (sameClock_pullClosed.adjustAll _))
  have hlast : (q₃.recOf p).lastTick = q₁.tick := by
    have hr : (q₁.reactivate p time).tick = q₁.tick ∧ _ := sameClock_pullClosed.reactivate p time
    obtain ⟨tag, -, rfl⟩ := Except.map_eq_ok.mp h₃
    rw [recOf_setRec_self _ ((sameIndex_pullClosed.reactivate p time : SameIndex q₁ _).length ▸ hlt)]
    exact hr.1
  refine ⟨hcl.1.trans htick, hcl.2.trans hmarks, p, hs.clientMap ▸ hmem,
    by rw [adjustAll_recOf, hlast, htick], fun e he hne => ?_⟩
  obtain ⟨he', hp, hrec⟩ := hold e (hs.clientMap ▸ he) hne
  refine ⟨he', ?_⟩
  rw [adjustAll_recOf, enqueue_recOf_ne h₃ (Ne.symm hp), reactivate_recOf_ne (Ne.symm hp), hrec]
  rfl

end Add

/-! ## The bookkeeping of every run -/

/-- The constructor's checks, and the state it builds as far as the cleaner reads it. -/
theorem make_ok {f : ClientId → ClientInfo} {idleAge eraseAge checkTime : ℚ}
    {allowLimitBreak useHeap : Bool} {q : PriorityQueueBase}
    (h : make f idleAge eraseAge checkTime allowLimitBreak useHeap = .ok q) :
    idleAge ≤ eraseAge ∧ q.idleAge = durationCast idleAge ∧ q.eraseAge = durationCast eraseAge ∧
      q.tick = 0 ∧ q.cleanMarkPoints = [] ∧ q.clientMap = [] := by
  unfold make at h
  split at h
  · cases h
  · split at h
    · cases h
    · cases h; exact ⟨not_lt.mp ‹_›, rfl, rfl, rfl, rfl, rfl⟩

/-- The ages the constructor checked hold in every state of every run. -/
theorem ages_of_run {h : List Op} {q : PriorityQueueBase} (hr : Run h q) :
    q.idleAge ≤ q.eraseAge := by
  induction hr with
  | make hm => obtain ⟨hle, hi, he, -⟩ := make_ok hm; rw [hi, he]; exact durationCast_mono hle
  | step _ hs ih =>
    have hc := (step_change _ _ hs).config
    simp only [config, Prod.mk.injEq] at hc
    rw [hc.2.2.1, hc.2.2.2.1]; exact ih

/-- The cleaner's bookkeeping at the end of the history `h`: `tick` counts its adds, every
mark point was noted by one of its cleaner runs, and every map record's `last_tick` is the
count after its client's most recent add. -/
structure CleanInv (h : List Op) (q : PriorityQueueBase) : Prop where
  tick : q.tick = addCount h
  marks : ∀ m ∈ q.cleanMarkPoints, MarkedAt h m
  lastAdd : ∀ e ∈ q.clientMap, LastAdd h e.1 (q.recOf e.2).lastTick

namespace CleanInv
variable {h : List Op} {q q' : PriorityQueueBase} {ht : HeapTop} {op : Op}

/-- An operation that adds no request, keeps `tick`, only drops map entries, and leaves mark
points the history notes keeps the bookkeeping. -/
theorem of_frame (hi : CleanInv h q) (hm : MapInv q) (hs : q.step ht op = .ok q')
    (hop : op.isAdd = false) (htick : q'.tick = q.tick)
    (hmarks : ∀ m ∈ q'.cleanMarkPoints, MarkedAt (h ++ [op]) m)
    (hmap : ∀ e ∈ q'.clientMap, e ∈ q.clientMap) : CleanInv (h ++ [op]) q' where
  tick := by simp [htick, hi.tick, addCount_concat, hop]
  marks := hmarks
  lastAdd e he := by
    rw [step_lastTick hs hop (hm.lt_length e (hmap e he))]
    exact (hi.lastAdd e (hmap e he)).snoc (Op.addsFor_of_not_isAdd hop _)

/-- The same for an operation that keeps `tick`, the mark points and the map. -/
theorem of_same (hi : CleanInv h q) (hm : MapInv q) (hs : q.step ht op = .ok q')
    (hop : op.isAdd = false) (hcl : q'.tick = q.tick ∧ q'.cleanMarkPoints = q.cleanMarkPoints)
    (hmap : q'.clientMap = q.clientMap) : CleanInv (h ++ [op]) q' :=
  hi.of_frame hm hs hop hcl.1 (fun m hm => (hi.marks m (hcl.2 ▸ hm)).snoc op)
    (fun _ he => hmap ▸ he)

/-- A mark point at least `age > 0` old at clock `now` is not the one `do_clean` notes. -/
theorem marked_of_le (hi : CleanInv h q) {now : ℚ} {age : Int} (hage : 0 < age) {m : MarkPoint}
    (hm : m ∈ q.cleanMarkPoints ++ [(now, q.tick)]) (ht : m.1 ≤ now - age) : MarkedAt h m := by
  rcases List.mem_append.mp hm with hm | hm
  · exact hi.marks m hm
  · rw [List.mem_singleton.mp hm] at ht
    exact absurd ht (not_le.mpr (sub_lt_self now (Int.cast_pos.mpr hage)))

theorem step (hi : CleanInv h q) (hm : MapInv q) (hm' : MapInv q') (hs : q.step ht op = .ok q') :
    CleanInv (h ++ [op]) q' := by
  cases op with
  | addRequest request c reqParams time cost =>
    obtain ⟨htick, hmarks, p, hp, hlast, hother⟩ := doAddRequest_clock hm hs
    refine ⟨by rw [htick, hi.tick, addCount_concat]; rfl,
      fun m hm => (hi.marks m (hmarks ▸ hm)).snoc _, ?_⟩
    rintro ⟨c', p'⟩ he
    by_cases hc : c' = c
    · subst hc
      have hp' : p' = p := Option.some.inj
        ((lookup_of_mem hm'.keys_nodup he).symm.trans (lookup_of_mem hm'.keys_nodup hp))
      subst hp'
      exact ⟨h, _, [], rfl, by simp [Op.addsFor], by simp, by rw [hlast, hi.tick]⟩
    · obtain ⟨he', hrec⟩ := hother _ he hc
      rw [hrec]
      exact (hi.lastAdd _ he').snoc (by simp [Op.addsFor, Ne.symm hc])
  | pullRequest now =>
    obtain ⟨r, hr, rfl⟩ := Except.map_eq_ok.mp hs
    exact hi.of_same hm hs rfl (sameClock_pullClosed.pullRequest ht hr)
      (sameIndex_pullClosed.pullRequest ht hr).clientMap
  | removeByClient c =>
    obtain rfl : (q.removeByClient c).1 = q' := Except.ok.inj hs
    exact hi.of_same hm hs rfl (sameClock_pullClosed.removeByClient c)
      (sameIndex_pullClosed.removeByClient c).clientMap
  | removeByReqFilter f b =>
    obtain ⟨r, hr, rfl⟩ := Except.map_eq_ok.mp hs
    exact hi.of_same hm hs rfl (sameClock_pullClosed.removeByReqFilter hr)
      (sameIndex_pullClosed.removeByReqFilter hr).clientMap
  | doClean now =>
    obtain ⟨r, hr, hc⟩ := doClean_cleaned hs
    refine hi.of_frame hm hs rfl hc.tick (fun m hm => ?_) (fun e he => hc.map ▸ he)
    rw [hc.marks] at hm
    rcases List.mem_append.mp ((eraseLoop_spec hr).1.subset hm) with hm | hm
    · exact (hi.marks m hm).snoc _
    · rw [List.mem_singleton.mp hm]; exact ⟨h, [], rfl, hi.tick⟩

end CleanInv

/-- Every state of every run keeps the cleaner's bookkeeping. -/
theorem cleanInv_of_run {h : List Op} {q : PriorityQueueBase} (hr : Run h q) : CleanInv h q := by
  induction hr with
  | make hm =>
    obtain ⟨-, -, -, htick, hmarks, hmap⟩ := make_ok hm
    exact ⟨htick, by simp [hmarks], by simp [hmap]⟩
  | step hr' hs ih => exact ih.step (mapInv_of_run hr') (mapInv_of_run (hr'.step hs)) hs

/-! ## The law -/

/-- With `idle_age > 0`, in every state of every run, `do_clean(now)` never reads `front()` of
an empty mark-point deque. It fails only by the read of an erased `client_map` node, and then
some client's most recent `add_request` came before a cleaner run at a clock at most
`now - erase_age`. When it returns, it has erased no client, and it has changed a record only
by marking idle the record of a client whose most recent `add_request` came before a cleaner
run at a clock at most `now - idle_age`. -/
theorem doClean_outcome {h : List Op} {q : PriorityQueueBase} (hr : Run h q)
    (hage : 0 < q.idleAge) (now : ℚ) :
    (∀ msg, q.doClean now = .error msg →
      msg = erasedNodeRead ∧ ∃ e ∈ q.clientMap, LastAddBefore h e.1 (now - q.eraseAge)) ∧
    ∀ q', q.doClean now = .ok q' → q'.clientMap = q.clientMap ∧
      ∀ p, q'.recOf p = q.recOf p ∨ (q'.recOf p = { q.recOf p with idle := true } ∧
        ∃ e ∈ q.clientMap, e.2 = p ∧ LastAddBefore h e.1 (now - q.idleAge)) := by
  have hi := cleanInv_of_run hr
  have hea : 0 < q.eraseAge := lt_of_lt_of_le hage (ages_of_run hr)
  refine ⟨fun msg hmsg => ?_, fun q' hq' => ?_⟩
  · rcases doClean_error hmsg with he | ⟨r, hr', rfl, e, he, hne, hle⟩
    · -- the erase loop stops at the mark point this run notes, at the latest
      obtain ⟨r₀, hr₀⟩ := eraseLoop_ok 0 (q.cleanMarkPoints ++ [(now, q.tick)])
        ⟨(now, q.tick), by simp, sub_lt_self now (Int.cast_pos.mpr hea)⟩
      rw [hr₀] at he; cases he
    · obtain ⟨m, hm, hcut, hm2⟩ := (eraseLoop_spec hr').2.resolve_left hne
      exact ⟨rfl, e, he,
        lastAddBefore_of_le (hi.lastAdd e he) (hi.marked_of_le hea hm hcut) (hm2 ▸ hle) hcut⟩
  · obtain ⟨r, hr', hc⟩ := doClean_cleaned hq'
    refine ⟨hc.map, fun p => ?_⟩
    rcases hc.records p with hk | ⟨hk, hp, hne, hle⟩
    · exact .inl hk
    · obtain ⟨e, he, rfl⟩ := List.mem_map.mp hp
      obtain ⟨m, hm, hcut, hm2⟩ := (idleScan_spec 0 r.2).resolve_left hne
      exact .inr ⟨hk, e, he, rfl, lastAddBefore_of_le (hi.lastAdd e he)
        (hi.marked_of_le hage ((eraseLoop_spec hr').1.subset hm) hcut) (hm2 ▸ hle) hcut⟩

/-- Vector mode with `idle_age = 2`, `erase_age = 3` and `check_time = 1` milliseconds:
client 1 adds a request, the cleaner runs at clock 0, client 2 adds a request, and the
cleaner runs at clock 5/2. Client 1's most recent add came before the run at clock
`0 ≤ 5/2 - idle_age`, so the run marks it idle, and erases no one. -/
theorem doClean_outcome_idles_client :
    ∃ q q', Run [.addRequest 0 1 {} 0 0, .doClean 0, .addRequest 0 2 {} 0 0] q ∧
      0 < q.idleAge ∧ q.doClean (5 / 2) = .ok q' ∧ (q.recOf 0).idle = false ∧
      (q'.recOf 0).idle = true ∧
      (∀ msg, q.doClean (5 / 2) = .error msg → msg = erasedNodeRead ∧ ∃ e ∈ q.clientMap,
        LastAddBefore [.addRequest 0 1 {} 0 0, .doClean 0, .addRequest 0 2 {} 0 0] e.1
          (5 / 2 - q.eraseAge)) ∧
      ∀ q'', q.doClean (5 / 2) = .ok q'' → q''.clientMap = q.clientMap ∧
        ∀ p, q''.recOf p = q.recOf p ∨ (q''.recOf p = { q.recOf p with idle := true } ∧
          ∃ e ∈ q.clientMap, e.2 = p ∧
            LastAddBefore [.addRequest 0 1 {} 0 0, .doClean 0, .addRequest 0 2 {} 0 0] e.1
              (5 / 2 - q.idleAge)) := by
  obtain ⟨q, hrun, q', hage, hq', hidle, hidle'⟩ : ∃ q,
      Run [.addRequest 0 1 {} 0 0, .doClean 0, .addRequest 0 2 {} 0 0] q ∧ ∃ q',
        0 < q.idleAge ∧ q.doClean (5 / 2) = .ok q' ∧ (q.recOf 0).idle = false ∧
        (q'.recOf 0).idle = true :=
    ⟨_, Run.of_runOf (show runOf HeapTop.first (fun _ => ClientInfo.ofNat 0 1 0) 2 3 1 false false
      [.addRequest 0 1 {} 0 0, .doClean 0, .addRequest 0 2 {} 0 0] = .ok _ by
        with_unfolding_all rfl), _, by with_unfolding_all decide, by with_unfolding_all rfl,
      by with_unfolding_all rfl, by with_unfolding_all rfl⟩
  exact ⟨q, q', hrun, hage, hq', hidle, hidle', doClean_outcome hrun hage (5 / 2)⟩

/-- The same run, with the cleaner run 5 ms after the one at clock 0: client 1's most recent
add came before the run at clock `0 ≤ 5 - erase_age`, so the walk erases it, with
`client_map.erase(i2)`, and then reads `i2->second` of the node that erase destroyed. -/
theorem doClean_reads_erased_node :
    ∃ q, Run [.addRequest 0 1 {} 0 0, .doClean 0, .addRequest 0 2 {} 0 0] q ∧
      q.useHeap = false ∧ 0 < q.idleAge ∧ (1, 0) ∈ q.clientMap ∧
      LastAddBefore [.addRequest 0 1 {} 0 0, .doClean 0, .addRequest 0 2 {} 0 0] 1
        (5 - q.eraseAge) ∧
      q.doClean 5 = .error erasedNodeRead := by
  obtain ⟨q, hrun, hv, hage, hmem, hea, herr⟩ : ∃ q,
      Run [.addRequest 0 1 {} 0 0, .doClean 0, .addRequest 0 2 {} 0 0] q ∧ q.useHeap = false ∧
        0 < q.idleAge ∧ (1, 0) ∈ q.clientMap ∧ q.eraseAge = 3 ∧
        q.doClean 5 = .error erasedNodeRead :=
    ⟨_, Run.of_runOf (show runOf HeapTop.first (fun _ => ClientInfo.ofNat 0 1 0) 2 3 1 false false
      [.addRequest 0 1 {} 0 0, .doClean 0, .addRequest 0 2 {} 0 0] = .ok _ by
        with_unfolding_all rfl), rfl, by with_unfolding_all decide, by with_unfolding_all decide,
      by with_unfolding_all rfl, by with_unfolding_all rfl⟩
  refine ⟨q, hrun, hv, hage, hmem, ⟨[.addRequest 0 1 {} 0 0], 0, [.addRequest 0 2 {} 0 0], rfl,
    by rw [hea]; norm_num, ⟨_, List.mem_singleton_self _, rfl⟩, by simp [Op.addsFor]⟩, herr⟩

end PriorityQueueBase

end DmClock
