import DmClock.Cursor

/- The §4.2 decision over the clients' records, against the decision over the vector's
   cursors (vector mode).

   The spec decides over the set of client records: the reservation phase fires when some
   front's reservation tag has passed; otherwise every front that is not ready and whose
   limit tag has passed becomes ready (`markReady`), and the later phases read a least
   record of each view. What is proved:

     1. `tops_least`: by the cursor and index invariants, each view's top is a least record
        of that view among the map's records. `ReadsLeast` names what the decision needs of
        a class of states, least tops among them, so that the decision's lemmas do not
        depend on how the tops are kept; vector mode is such a class (`vector_readsLeast`).
     2. `promote_marks`: on such a class, the promotion loop, given more rounds than there
        are map records with a pending front, ends by its own condition, having applied
        `markReady` to exactly the map's records. The model's loop has `store.size() + 1`
        rounds, which is enough (`pendingCount_le`).
     3. `doNextRequest_decides_on_least`: so in every state of a vector-mode run the
        reservation phase fires exactly when some client's front reservation tag has passed,
        and otherwise the later phases run on the marked records and read least records.
     4. `pullRequest_passes_over_least_ready_client`: the later phases read one least record
        per view, and in the ready view the least records need not agree on what is read:
        the key is `proportion + prop_delta`, the proportional phase tests `proportion <
        max_tag`, and a record with `prop_delta = max_tag` ties at `max_tag` with one whose
        proportion is `max_tag`. A reactivated client's record reaches such a state.
-/

namespace DmClock

/-! ## The spec's promotion -/

/-- The promotion of one record at `now` (spec §4.2): a front that is not ready and whose
limit tag has passed becomes ready. -/
def markReady (now : ℚ) (c : ClientRec) : ClientRec :=
  match c.requests with
  | r :: rest =>
    if r.tag.ready = false ∧ r.tag.limit ≤ (now : Tag) then
      { c with requests := { r with tag := { r.tag with ready := true } } :: rest }
    else c
  | [] => c

/-- The record's front is one the promotion marks. -/
def pending (now : ℚ) (c : ClientRec) : Bool :=
  match c.requests with
  | r :: _ => !r.tag.ready && decide (r.tag.limit ≤ (now : Tag))
  | [] => false

/-- The reservation phase's test on a record: its front's reservation tag has passed. -/
def resvPassed (now : ℚ) (c : ClientRec) : Bool :=
  c.requests.head?.any fun r => r.tag.reservation ≤ (now : Tag)

section Promotion
variable {now : ℚ} {c d : ClientRec}

theorem markReady_of_not_pending (h : pending now c = false) : markReady now c = c := by
  unfold markReady
  split
  · rename_i r rest hreq
    simp only [pending, hreq, Bool.and_eq_false_iff, Bool.not_eq_false', decide_eq_false_iff_not]
      at h
    rw [if_neg fun ⟨h₁, h₂⟩ => h.elim (fun h => absurd h (by simp [h₁])) (· h₂)]
  · rfl

theorem pending_markReady : pending now (markReady now c) = false := by
  unfold markReady
  split
  · rename_i r rest hreq
    split
    · simp [pending]
    · rename_i hc
      simp only [pending, hreq, Bool.and_eq_false_iff, Bool.not_eq_false', decide_eq_false_iff_not]
      by_cases hr : r.tag.ready = true
      · exact .inl hr
      · exact .inr fun hl => hc ⟨by simpa using hr, hl⟩
  · rename_i hreq; simp [pending, hreq]

theorem markReady_idem : markReady now (markReady now c) = markReady now c :=
  markReady_of_not_pending pending_markReady

/-- The limit view puts pending fronts first: a record no later than a pending one is
pending. -/
theorem pending_of_limitKey_le (h : limitKey c ≤ limitKey d) (hd : pending now d = true) :
    pending now c = true := by
  unfold pending at hd ⊢
  unfold limitKey at h
  split at hd
  · rename_i r rest hreq
    simp only [hreq] at h
    simp only [Bool.and_eq_true, Bool.not_eq_true', decide_eq_true_eq] at hd
    split
    · rename_i r' rest' hreq'
      simp only [hreq', WithTop.coe_le_coe, Prod.Lex.le_iff, hd.1] at h
      simp only [Bool.and_eq_true, Bool.not_eq_true', decide_eq_true_eq]
      rcases h with h | ⟨h₁, h₂⟩
      · exact absurd h (by simp)
      · exact ⟨h₁, le_trans h₂ hd.2⟩
    · rename_i hreq'
      simp only [hreq'] at h
      exact absurd h (by simp)
  · cases hd

end Promotion

namespace PriorityQueueBase
variable {q : PriorityQueueBase}

/-- The vector holds a record exactly when the map does. -/
theorem count_pos_iff (hi : IndexInv q) : 0 < q.clVec.count ↔ q.clientMap ≠ [] := by
  constructor
  · intro h hnil
    have hmem := hi.data_mem 0 h
    rw [hnil] at hmem; cases hmem
  · intro hne
    obtain ⟨e, he⟩ := List.exists_mem_of_ne_nil _ hne
    obtain ⟨j, hj, -⟩ := exists_getD_eq (hi.mem_data _ (List.mem_map_of_mem _ he))
    rw [hi.count_eq]; exact Nat.zero_lt_of_lt hj

theorem noClients_iff (hi : IndexInv q) (hv : q.useHeap = false) :
    q.noClients = true ↔ q.clientMap = [] := by
  rw [← not_iff_not, ← ne_eq _ [], ← count_pos_iff hi]
  simp [noClients, hv, Nat.pos_iff_ne_zero]

/-- In vector mode, when the vector holds a record, each view's top is a map record. -/
theorem topPtr_mem (hi : IndexInv q) (hf : q.clVec.Fresh q.store) (hv : q.useHeap = false)
    (ht : HeapTop) (hn : 0 < q.clVec.count) (v : View) :
    q.topPtr ht v ∈ q.clientMap.map Prod.snd := by
  obtain ⟨hr, hy, hl, -⟩ := hf.least hn
  cases v <;> simp only [topPtr, hv, Bool.false_eq_true, if_false]
  exacts [hi.data_mem _ hr, hi.data_mem _ hy, hi.data_mem _ hl]

/-- With the index invariant and fresh cursors, the top of each view is least in that view's
ordering among the map's records. -/
theorem tops_least (hi : IndexInv q) (hf : q.clVec.Fresh q.store) (hv : q.useHeap = false)
    (ht : HeapTop) {p : Nat} (hp : p ∈ q.clientMap.map Prod.snd) :
    resvKey (q.topRec ht .reservation) ≤ resvKey (q.recOf p) ∧
      readyKey (q.topRec ht .ready) ≤ readyKey (q.recOf p) ∧
      limitKey (q.topRec ht .limit) ≤ limitKey (q.recOf p) := by
  obtain ⟨j, hj, rfl⟩ := exists_getD_eq (hi.mem_data p hp)
  rw [← hi.count_eq] at hj
  simp only [topRec, topPtr, hv, Bool.false_eq_true, if_false]
  exact ⟨hf.resv ▸ (q.clVec.resvSweep_spec q.store).2.1 j hj,
    hf.ready ▸ (q.clVec.readySweep_spec q.store).2.1 j hj,
    hf.limit ▸ (q.clVec.limitSweep_spec q.store).2.1 j hj⟩

/-! ## Least tops, in either mode -/

/-- Every view's top is a map record, least in that view's ordering among the map's records. -/
structure TopsLeast (ht : HeapTop) (q : PriorityQueueBase) : Prop where
  mem : ∀ v, q.topPtr ht v ∈ q.clientMap.map Prod.snd
  resv : ∀ p ∈ q.clientMap.map Prod.snd, resvKey (q.topRec ht .reservation) ≤ resvKey (q.recOf p)
  ready : ∀ p ∈ q.clientMap.map Prod.snd, readyKey (q.topRec ht .ready) ≤ readyKey (q.recOf p)
  limit : ∀ p ∈ q.clientMap.map Prod.snd, limitKey (q.topRec ht .limit) ≤ limitKey (q.recOf p)

/-- A class `P` of states on which `do_next_request(now)` reads least records: the map holds
distinct store records, the selection structure is empty exactly when the map is, the tops are
least while the map holds a record, and a round of the promotion loop stays in the class. -/
structure ReadsLeast (ht : HeapTop) (now : ℚ) (P : PriorityQueueBase → Prop) : Prop where
  map : ∀ {q}, P q → MapInv q
  noClients : ∀ {q}, P q → (q.noClients = true ↔ q.clientMap = [])
  tops : ∀ {q}, P q → q.clientMap ≠ [] → TopsLeast ht q
  step : ∀ {q q'}, P q → q.promoteStep ht now = some q' → P q'

/-- Vector mode reads least records under the index and cursor invariants. -/
theorem vector_readsLeast (ht : HeapTop) (now : ℚ) :
    ReadsLeast ht now fun q => IndexInv q ∧ q.CursorInv ∧ q.useHeap = false := by
  refine ⟨fun hq => hq.1.toMapInv, fun hq => noClients_iff hq.1 hq.2.2,
    fun {q} ⟨hi, hc, hv⟩ hne => ?_, fun ⟨hi, hc, hv⟩ h => ?_⟩
  · have hleast := fun p (hp : p ∈ q.clientMap.map Prod.snd) => tops_least hi (hc hv) hv ht hp
    exact ⟨topPtr_mem hi (hc hv) hv ht ((count_pos_iff hi).mpr hne), fun p hp => (hleast p hp).1,
      fun p hp => (hleast p hp).2.1, fun p hp => (hleast p hp).2.2⟩
  · have hs : SameIndex _ _ := sameIndex_pullClosed.promoteStep ht h
    exact ⟨hs.indexInv hi, hc.promoteStep ht h, hs.useHeap.trans hv⟩

/-! ## The promotion loop -/

theorem resvKey_markReady_eq (now : ℚ) (c : ClientRec) : resvKey (markReady now c) = resvKey c := by
  unfold markReady
  split
  · split
    · rename_i hreq _; simp [resvKey, hreq]
    · rfl
  · rfl

/-- A record no later than one whose front reservation tag has passed has such a front. -/
theorem passed_of_resvKey_le {c d : ClientRec} {now : ℚ} (h : resvKey c ≤ resvKey d)
    (hd : resvPassed now d = true) : resvPassed now c = true := by
  unfold resvPassed at hd ⊢
  obtain ⟨a, t, hda, ha⟩ := head?_any_eq_true.mp hd
  simp only [resvKey, hda] at h
  simp only [decide_eq_true_eq] at ha
  cases hc : c.requests with
  | nil => simp [hc] at h
  | cons r rest =>
    simp only [hc, WithTop.coe_le_coe] at h
    simpa using le_trans h ha

/-- The number of the map's records with a pending front: the promotion loop's measure. -/
def pendingCount (now : ℚ) (q : PriorityQueueBase) : Nat :=
  (q.clientMap.map Prod.snd).countP fun p => pending now (q.recOf p)

/-- The map holds distinct records of the store, so fewer than `store.size() + 1`. -/
theorem pendingCount_le (hm : MapInv q) (now : ℚ) : pendingCount now q ≤ q.store.length := by
  refine (List.countP_le_length _).trans ?_
  have hsub : List.Subperm (q.clientMap.map Prod.snd) (List.range q.store.length) :=
    List.subperm_of_subset hm.values_nodup fun p hp => by
      obtain ⟨e, he, rfl⟩ := List.mem_map.mp hp
      exact List.mem_range.mpr (hm.lt_length e he)
  simpa using hsub.length_le

/-- A count drops when one element that passed the test fails it and no other starts to pass. -/
theorem countP_lt_countP {l : List Nat} {f g : Nat → Bool}
    (hle : ∀ x ∈ l, g x = true → f x = true) {t : Nat} (ht : t ∈ l) (hf : f t = true)
    (hg : g t = false) : l.countP g < l.countP f := by
  induction l with
  | nil => cases ht
  | cons x l ih =>
    have hle' : ∀ y ∈ l, g y = true → f y = true := fun y hy => hle y (List.mem_cons_of_mem x hy)
    have hmono : l.countP g ≤ l.countP f := List.countP_mono_left hle'
    have hx := hle x (List.mem_cons_self x l)
    simp only [List.countP_cons]
    rcases List.mem_cons.mp ht with rfl | ht
    · simp only [hf, hg, if_true, Bool.false_eq_true, if_false]; omega
    · have := ih hle' ht
      cases hgx : g x
      · simp only [Bool.false_eq_true, if_false]; split <;> omega
      · simp only [hx hgx, if_true]; omega

/-- A round of the promotion loop happens when the limit top's front is pending. -/
theorem promoteStep_of_pending (ht : HeapTop) {now : ℚ}
    (h : pending now (q.topRec ht .limit) = true) : ∃ q', q.promoteStep ht now = some q' := by
  cases hreq : (q.recOf (q.topPtr ht .limit)).requests with
  | nil => simp [topRec, pending, hreq] at h
  | cons r rest =>
    simp only [topRec, pending, hreq, Bool.and_eq_true, Bool.not_eq_true', decide_eq_true_eq] at h
    unfold promoteStep
    simp only [hreq, h, and_self, if_true, Option.some.injEq, exists_eq']

variable {ht : HeapTop} {now : ℚ}

/-- A round of the promotion loop marks the front of the limit top, a map record whose front
is pending, and changes no other record. -/
theorem promoteStep_marks (hl : TopsLeast ht q) {q' : PriorityQueueBase}
    (h : q.promoteStep ht now = some q') :
    q.topPtr ht .limit ∈ q.clientMap.map Prod.snd ∧ pending now (q.topRec ht .limit) = true ∧
      ∀ p, q'.recOf p = if p = q.topPtr ht .limit then markReady now (q.recOf p) else q.recOf p := by
  obtain ⟨r, rest, hreq, hready, hlim, rfl⟩ := promoteStep_eq_some ht h
  have hlt := lt_length_of_requests (by rw [← topRec, hreq]; exact List.cons_ne_nil _ _)
  have hmark : markReady now (q.topRec ht .limit) = { q.topRec ht .limit with
      requests := { r with tag := { r.tag with ready := true } } :: rest } := by
    simp [markReady, hreq, hready, hlim]
  refine ⟨hl.mem .limit, by simp [pending, hreq, hready, hlim], fun p => ?_⟩
  rw [adjustReadyLimitAll_recOf, recOf_setRec]
  split
  · rename_i hp; rw [if_pos hp.1.symm, ← hp.1]; exact hmark.symm
  · rename_i hp; rw [if_neg fun h => hp ⟨h.symm, hlt⟩]

/-- When the loop's condition fails, no map record has a pending front: the limit top is
least, and pending fronts come first in the limit view. -/
theorem not_pending_of_promoteStep_none (hl : TopsLeast ht q) (h : q.promoteStep ht now = none)
    {p : Nat} (hp : p ∈ q.clientMap.map Prod.snd) : pending now (q.recOf p) = false := by
  by_contra hpend
  obtain ⟨q', h'⟩ := promoteStep_of_pending ht
    (pending_of_limitKey_le (hl.limit p hp) (by simpa using hpend))
  rw [h] at h'; cases h'

theorem pendingCount_promoteStep (hl : TopsLeast ht q) {q' : PriorityQueueBase}
    (h : q.promoteStep ht now = some q') : pendingCount now q' < pendingCount now q := by
  obtain ⟨hmem, hpend, hrec⟩ := promoteStep_marks hl h
  have hmap : q'.clientMap = q.clientMap :=
    (sameIndex_pullClosed.promoteStep ht h : SameIndex q q').clientMap
  unfold pendingCount; rw [hmap]
  refine countP_lt_countP (fun x _ hx => ?_) hmem hpend ?_
  · rw [hrec] at hx
    split at hx
    · rw [pending_markReady] at hx; cases hx
    · exact hx
  · rw [hrec, if_pos rfl]; exact pending_markReady

section Promote
variable {P : PriorityQueueBase → Prop}

/-- The promotion loop stays in a class that reads least records. -/
theorem ReadsLeast.promote (hP : ReadsLeast ht now P) :
    ∀ (fuel : Nat) {q : PriorityQueueBase}, P q → P (q.promote ht now fuel)
  | 0, _, hq => hq
  | fuel + 1, q, hq => by
    unfold PriorityQueueBase.promote
    split
    · exact hP.promote fuel (hP.step hq ‹_›)
    · exact hq

/-- The promotion loop, given more rounds than the map has records with a pending front, ends
by its own condition, having applied `markReady` to exactly the map's records. -/
theorem promote_marks (hP : ReadsLeast ht now P) : ∀ (fuel : Nat) (q : PriorityQueueBase),
    P q → q.clientMap ≠ [] → pendingCount now q < fuel →
      (q.promote ht now fuel).promoteStep ht now = none ∧
        ∀ p, (q.promote ht now fuel).recOf p =
          if p ∈ q.clientMap.map Prod.snd then markReady now (q.recOf p) else q.recOf p
  | 0, _, _, _, hlt => absurd hlt (Nat.not_lt_zero _)
  | fuel + 1, q, hq, hne, hlt => by
    have hl := hP.tops hq hne
    unfold promote
    split
    · rename_i q' h
      have hs : SameIndex q q' := sameIndex_pullClosed.promoteStep ht h
      obtain ⟨hmem, -, hrec⟩ := promoteStep_marks hl h
      have hlt' : pendingCount now q' < fuel := by
        have := pendingCount_promoteStep hl h; omega
      obtain ⟨hnone, hrec'⟩ :=
        promote_marks hP fuel q' (hP.step hq h) (hs.clientMap ▸ hne) hlt'
      refine ⟨hnone, fun p => ?_⟩
      rw [hrec', hs.clientMap, hrec]
      by_cases hp : p = q.topPtr ht .limit
      · subst hp; simp only [if_pos hmem, if_true, markReady_idem]
      · simp only [hp, if_false]
    · rename_i h
      refine ⟨h, fun p => ?_⟩
      split
      · exact (markReady_of_not_pending (not_pending_of_promoteStep_none hl h ‹_›)).symm
      · rfl

end Promote

section Decide
variable {P : PriorityQueueBase → Prop} (hP : ReadsLeast ht now P) {q : PriorityQueueBase} (hq : P q)
include hP hq

theorem doNextRequest_of_nil (hnil : q.clientMap = []) : q.doNextRequest ht now = .ok (q, .none) := by
  unfold doNextRequest; rw [if_pos ((hP.noClients hq).mpr hnil)]

/-- A passed reservation tag anywhere makes the reservation phase fire on the least record. -/
theorem doNextRequest_of_resvPassed (hpass : ∃ e ∈ q.clientMap, resvPassed now (q.recOf e.2) = true) :
    q.doNextRequest ht now = .ok (q, .returning .reservation) ∧
      ∀ e ∈ q.clientMap, resvKey (q.topRec ht .reservation) ≤ resvKey (q.recOf e.2) := by
  obtain ⟨e, he, hpass⟩ := hpass
  have hne := List.ne_nil_of_mem he
  have hleast := fun e (he : e ∈ q.clientMap) =>
    (hP.tops hq hne).resv e.2 (List.mem_map_of_mem _ he)
  have htop := passed_of_resvKey_le (hleast e he) hpass
  simp only [resvPassed, topRec] at htop
  refine ⟨?_, hleast⟩
  simp only [doNextRequest, if_neg (mt (hP.noClients hq).mp hne), htop, if_true]

/-- With no passed reservation tag, the later phases run after a promotion loop that ended by
its own condition, on the marked records, and each view's top is a least map record. -/
theorem doNextRequest_later_phases (hne : q.clientMap ≠ [])
    (hnone : ∀ e ∈ q.clientMap, resvPassed now (q.recOf e.2) = false) :
    ∃ q₁ : PriorityQueueBase, q.doNextRequest ht now =
        (q₁.laterPhases ht (q.topPtr ht .reservation)).map (Prod.mk q₁) ∧
      q₁.promoteStep ht now = none ∧ q₁.clientMap = q.clientMap ∧
      (∀ p, q₁.recOf p =
        if p ∈ q.clientMap.map Prod.snd then markReady now (q.recOf p) else q.recOf p) ∧
      (∀ e ∈ q₁.clientMap,
        resvKey (q₁.recOf (q.topPtr ht .reservation)) ≤ resvKey (q₁.recOf e.2) ∧
        resvKey (q₁.topRec ht .reservation) ≤ resvKey (q₁.recOf e.2) ∧
        readyKey (q₁.topRec ht .ready) ≤ readyKey (q₁.recOf e.2) ∧
        limitKey (q₁.topRec ht .limit) ≤ limitKey (q₁.recOf e.2)) ∧
      ∀ v, q₁.topPtr ht v ∈ q₁.clientMap.map Prod.snd := by
  have hl := hP.tops hq hne
  obtain ⟨e, he, hp⟩ := List.mem_map.mp (hl.mem .reservation)
  have htop := hp ▸ hnone e he
  simp only [resvPassed] at htop
  obtain ⟨hstop, hrec⟩ := promote_marks hP (q.store.length + 1) q hq hne
    (Nat.lt_succ_of_le (pendingCount_le (hP.map hq) now))
  have hs : SameIndex q (q.promote ht now (q.store.length + 1)) :=
    sameIndex_pullClosed.promote ht now _ q
  have hl₁ := hP.tops (hP.promote _ hq) (hs.clientMap ▸ hne)
  refine ⟨_, ?_, hstop, hs.clientMap, hrec, fun e' he' => ?_, hl₁.mem⟩
  · simp only [doNextRequest, if_neg (mt (hP.noClients hq).mp hne), htop,
      Bool.false_eq_true, if_false]
  · have hmem := List.mem_map_of_mem Prod.snd he'
    rw [hs.clientMap] at he'
    refine ⟨?_, hl₁.resv _ hmem, hl₁.ready _ hmem, hl₁.limit _ hmem⟩
    rw [hrec, hrec, if_pos (hl.mem .reservation), if_pos (List.mem_map_of_mem _ he'),
      resvKey_markReady_eq, resvKey_markReady_eq]
    exact hl.resv _ (List.mem_map_of_mem _ he')

end Decide

/-- In vector mode, in every state of every run, `do_next_request(now)` makes the §4.2
decision over least records. With no client it returns `none`. If some client's front
reservation tag has passed, it returns the reservation view, whose top is least in the
reservation ordering. Otherwise its promotion loop ends by its own condition, having marked
ready exactly the fronts of the clients' records that were not ready and whose limit tag had
passed (`markReady`), and changed no other record; the later phases then run on that state
with the reservation record chosen before the loop, and every record they read is least in
its view's ordering among the clients' records. -/
theorem doNextRequest_decides_on_least {h : List Op} {q : PriorityQueueBase} (hr : Run h q)
    (hv : q.useHeap = false) (ht : HeapTop) (now : ℚ) :
    (q.clientMap = [] → q.doNextRequest ht now = .ok (q, .none)) ∧
    ((∃ e ∈ q.clientMap, resvPassed now (q.recOf e.2) = true) →
      q.doNextRequest ht now = .ok (q, .returning .reservation) ∧
        ∀ e ∈ q.clientMap, resvKey (q.topRec ht .reservation) ≤ resvKey (q.recOf e.2)) ∧
    (q.clientMap ≠ [] → (∀ e ∈ q.clientMap, resvPassed now (q.recOf e.2) = false) →
      ∃ q₁ : PriorityQueueBase, q.doNextRequest ht now =
          (q₁.laterPhases ht (q.topPtr ht .reservation)).map (Prod.mk q₁) ∧
        q₁.promoteStep ht now = none ∧ q₁.clientMap = q.clientMap ∧
        (∀ p, q₁.recOf p =
          if p ∈ q.clientMap.map Prod.snd then markReady now (q.recOf p) else q.recOf p) ∧
        ∀ e ∈ q₁.clientMap,
          resvKey (q₁.recOf (q.topPtr ht .reservation)) ≤ resvKey (q₁.recOf e.2) ∧
          resvKey (q₁.topRec ht .reservation) ≤ resvKey (q₁.recOf e.2) ∧
          readyKey (q₁.topRec ht .ready) ≤ readyKey (q₁.recOf e.2) ∧
          limitKey (q₁.topRec ht .limit) ≤ limitKey (q₁.recOf e.2)) := by
  have hP := vector_readsLeast ht now
  have hq : IndexInv q ∧ q.CursorInv ∧ q.useHeap = false :=
    ⟨indexInv_of_run hr hv, cursorInv_of_run hr, hv⟩
  refine ⟨doNextRequest_of_nil hP hq, doNextRequest_of_resvPassed hP hq, fun hne hnone => ?_⟩
  obtain ⟨q₁, h₁, h₂, h₃, h₄, h₅, -⟩ := doNextRequest_later_phases hP hq hne hnone
  exact ⟨q₁, h₁, h₂, h₃, h₄, h₅⟩

/-- The three clients of the run below, at time 0, where no reservation tag has passed. -/
theorem doNextRequest_decides_on_least_three_clients :
    ∃ q, Run [.addRequest 0 1 {} 0 0, .addRequest 0 2 {} 0 0, .addRequest 0 3 {} 0 0] q ∧
      q.useHeap = false ∧
      (q.clientMap = [] → q.doNextRequest HeapTop.first 0 = .ok (q, .none)) ∧
      ((∃ e ∈ q.clientMap, resvPassed 0 (q.recOf e.2) = true) →
        q.doNextRequest HeapTop.first 0 = .ok (q, .returning .reservation) ∧
          ∀ e ∈ q.clientMap,
            resvKey (q.topRec HeapTop.first .reservation) ≤ resvKey (q.recOf e.2)) ∧
      (q.clientMap ≠ [] → (∀ e ∈ q.clientMap, resvPassed 0 (q.recOf e.2) = false) →
        ∃ q₁ : PriorityQueueBase, q.doNextRequest HeapTop.first 0 =
            (q₁.laterPhases HeapTop.first (q.topPtr HeapTop.first .reservation)).map
              (Prod.mk q₁) ∧
          q₁.promoteStep HeapTop.first 0 = none ∧ q₁.clientMap = q.clientMap ∧
          (∀ p, q₁.recOf p =
            if p ∈ q.clientMap.map Prod.snd then markReady 0 (q.recOf p) else q.recOf p) ∧
          ∀ e ∈ q₁.clientMap,
            resvKey (q₁.recOf (q.topPtr HeapTop.first .reservation)) ≤ resvKey (q₁.recOf e.2) ∧
            resvKey (q₁.topRec HeapTop.first .reservation) ≤ resvKey (q₁.recOf e.2) ∧
            readyKey (q₁.topRec HeapTop.first .ready) ≤ readyKey (q₁.recOf e.2) ∧
            limitKey (q₁.topRec HeapTop.first .limit) ≤ limitKey (q₁.recOf e.2)) := by
  obtain ⟨q, hrun, hv⟩ : ∃ q, Run [.addRequest 0 1 {} 0 0, .addRequest 0 2 {} 0 0,
      .addRequest 0 3 {} 0 0] q ∧ q.useHeap = false :=
    ⟨_, Run.of_runOf (show runOf HeapTop.first (fun c => if c = 1 then ClientInfo.ofNat 1 0 0
        else if c = 2 then ClientInfo.ofNat 0 1 0 else ClientInfo.ofNat 0 1 1) 600000 900000
        360000 false false [.addRequest 0 1 {} 0 0, .addRequest 0 2 {} 0 0,
          .addRequest 0 3 {} 0 0] = .ok _ by with_unfolding_all rfl), rfl⟩
  exact ⟨q, hrun, hv, doNextRequest_decides_on_least hrun hv HeapTop.first 0⟩

/-- Vector mode, no limit break: a reservation-only client 1, a weighted client 2 and a limited
weighted client 3, each with one request at time 0. After the promotion loop of
`pull_request(0)`, client 2's record (pointer 1) is least in the ready ordering among the
map's records, and its front is ready with proportion tag `1 < max_tag`; the fronts'
reservation tags are `1`, `max_tag` and `max_tag`, none passed. The decision over the set of records dispatches from the ready
view; `pull_request(0)` returns `future(1)`. -/
theorem pullRequest_passes_over_least_ready_client :
    ∃ q q' q₁, Run [.addRequest 0 1 {} 0 0, .addRequest 0 2 {} 0 0, .addRequest 0 3 {} 0 0] q ∧
      q.useHeap = false ∧ q.allowLimitBreak = false ∧
      q.pullRequest HeapTop.first 0 = .ok (q', .future ((1 : ℚ) : Tag)) ∧
      q.doNextRequest HeapTop.first 0 = .ok (q₁, .future ((1 : ℚ) : Tag)) ∧
      q₁.clientMap.map (fun e => (q₁.recOf e.2).requests.head?.map fun r => r.tag.reservation) =
        [some ((1 : ℚ) : Tag), some maxTag, some maxTag] ∧
      (2, 1) ∈ q₁.clientMap ∧
      (∀ e ∈ q₁.clientMap, readyKey (q₁.recOf 1) ≤ readyKey (q₁.recOf e.2)) ∧
      ∃ r rest, (q₁.recOf 1).requests = r :: rest ∧ r.tag.ready = true ∧
        r.tag.proportion < maxTag := by
  obtain ⟨q, hrun, q', q₁, hv, halb, hpull, hnext, hresv, hmap, hkey, r, rest, hreq, hready, hprop⟩ :
      ∃ q, Run [.addRequest 0 1 {} 0 0, .addRequest 0 2 {} 0 0, .addRequest 0 3 {} 0 0] q ∧
      ∃ q' q₁, q.useHeap = false ∧ q.allowLimitBreak = false ∧
        q.pullRequest HeapTop.first 0 = .ok (q', .future ((1 : ℚ) : Tag)) ∧
        q.doNextRequest HeapTop.first 0 = .ok (q₁, .future ((1 : ℚ) : Tag)) ∧
        q₁.clientMap.map (fun e => (q₁.recOf e.2).requests.head?.map fun r => r.tag.reservation) =
          [some ((1 : ℚ) : Tag), some maxTag, some maxTag] ∧
        q₁.clientMap = [(1, 0), (2, 1), (3, 2)] ∧
        readyKey (q₁.recOf 1) = readyKey (q₁.topRec HeapTop.first .ready) ∧
        ∃ r rest, (q₁.recOf 1).requests = r :: rest ∧ r.tag.ready = true ∧
          r.tag.proportion = ((1 : ℚ) : Tag) :=
    ⟨_, Run.of_runOf (show runOf HeapTop.first (fun c => if c = 1 then ClientInfo.ofNat 1 0 0
        else if c = 2 then ClientInfo.ofNat 0 1 0 else ClientInfo.ofNat 0 1 1) 600000 900000
        360000 false false [.addRequest 0 1 {} 0 0, .addRequest 0 2 {} 0 0,
          .addRequest 0 3 {} 0 0] = .ok _ by with_unfolding_all rfl),
      _, _, rfl, rfl, by with_unfolding_all rfl, by with_unfolding_all rfl,
      by with_unfolding_all rfl, by with_unfolding_all rfl, by with_unfolding_all rfl,
      _, _, by with_unfolding_all rfl, by with_unfolding_all rfl, by with_unfolding_all rfl⟩
  have hs : SameIndex q q₁ := sameIndex_pullClosed.doNextRequest _ hnext
  have hv₁ : q₁.useHeap = false := hs.useHeap.trans hv
  have hi₁ := hs.indexInv (indexInv_of_run hrun hv)
  have hf₁ := (cursorInv_of_run hrun).doNextRequest HeapTop.first hnext hv₁
  refine ⟨q, q', q₁, hrun, hv, halb, hpull, hnext, hresv, by simp [hmap], fun e he => ?_,
    r, rest, hreq, hready, hprop ▸ Tag.ofRat_lt_maxTag 1⟩
  rw [hkey]; exact (tops_least hi₁ hf₁ hv₁ _ (List.mem_map_of_mem _ he)).2.1

end PriorityQueueBase

end DmClock
