import DmClock.Decision
import DmClock.Clean

/- The requests the queue holds, and what each public call does to them.

   `heldRequests q` lists, for each map entry in key order, the payloads its record queues,
   front first, each with the entry's client. A request is held from the `add_request` that
   queues it until a call hands it back or drops it. What is proved, from every reachable
   state, in either mode (`requests_accounted`):

     - `add_request` adds exactly its request, under its client;
     - `pull_request` takes out exactly the request it returns, and nothing when it returns
       none or a future time;
     - `remove_by_client` takes out exactly the client's queued requests, which it returns;
     - `remove_by_req_filter` keeps exactly the held requests the predicate rejects, in
       order, and returns the others;
     - `do_clean` keeps exactly the requests of the entries it keeps: it drops the queued
       requests of the clients it erases (the spec's "requests sit until cleaned").

   So no call loses or duplicates a request, except the cleaner's erasure. The step lemmas
   are one per function: replacing one record changes the held requests by exactly that
   record's payloads (`heldRequests_setRec`), and the promotion loop, the reduction of the
   reservation tags and the structure's adjustments leave them alone.
-/

namespace DmClock

/-- The payloads of a record's queue, front first. -/
def ClientRec.reqs (c : ClientRec) : List Request := c.requests.map ClientReq.request

@[simp] theorem ClientRec.reqs_updateReqTag (c : ClientRec) (prev : RequestTag) (tick : Nat) :
    (c.updateReqTag prev tick).reqs = c.reqs := rfl

@[simp] theorem ClientRec.reqs_addRequest (c : ClientRec) (tag : RequestTag) (clientId : ClientId)
    (request : Request) : (c.addRequest tag clientId request).reqs = c.reqs ++ [request] := by
  simp [ClientRec.reqs, ClientRec.addRequest]

/-- What a pull hands back: the dispatched request under its client, or nothing. -/
def PullReq.taken : PullReq → List (ClientId × Request)
  | .retn client request _ => [(client, request)]
  | _ => []

/-- Changing the image of one element of a duplicate-free list changes a `flatMap` by
exactly that image. -/
theorem flatMap_update_perm {α β : Type} (F F' : α → List β) {l : List α} (hn : l.Nodup)
    {a : α} (ha : a ∈ l) (hF : ∀ x ∈ l, x ≠ a → F' x = F x) :
    (l.flatMap F' ++ F a).Perm (l.flatMap F ++ F' a) := by
  induction l with
  | nil => cases ha
  | cons x l ih =>
    rw [List.nodup_cons] at hn
    simp only [List.flatMap_cons, List.append_assoc]
    by_cases hx : x = a
    · subst hx
      rw [List.flatMap_congr fun y hy => hF y (List.mem_cons_of_mem _ hy) fun h => hn.1 (h ▸ hy)]
      exact (List.perm_append_comm_assoc _ _ _).trans
        ((List.perm_append_comm.append_left _).trans (List.perm_append_comm_assoc _ _ _))
    · rw [hF x (List.mem_cons_self _ _) hx]
      exact (ih hn.2 ((List.mem_cons.mp ha).resolve_left (Ne.symm hx))
        fun y hy => hF y (List.mem_cons_of_mem _ hy)).append_left _

namespace PriorityQueueBase

/-- The requests the records of `entries` hold, each under its entry's client, in order. -/
def heldBy (q : PriorityQueueBase) (entries : List (ClientId × Nat)) :
    List (ClientId × Request) :=
  entries.flatMap fun e => (q.recOf e.2).reqs.map (e.1, ·)

/-- The requests the queue holds: those of the map's records, in key order. -/
def heldRequests (q : PriorityQueueBase) : List (ClientId × Request) := q.heldBy q.clientMap

/-- The map and every record's payloads are the same: what the promotion loop, the reduction
of reservation tags and the structure's adjustments keep. -/
structure SameReqs (q q' : PriorityQueueBase) : Prop where
  clientMap : q'.clientMap = q.clientMap
  reqs : ∀ p, (q'.recOf p).reqs = (q.recOf p).reqs

namespace SameReqs
variable {q q' q'' : PriorityQueueBase}

theorem refl (q : PriorityQueueBase) : SameReqs q q := ⟨rfl, fun _ => rfl⟩

theorem trans (h₁ : SameReqs q q') (h₂ : SameReqs q' q'') : SameReqs q q'' :=
  ⟨h₂.clientMap.trans h₁.clientMap, fun p => (h₂.reqs p).trans (h₁.reqs p)⟩

/-- The held requests read only the map and the records' payloads. -/
theorem heldRequests (h : SameReqs q q') : q'.heldRequests = q.heldRequests := by
  unfold PriorityQueueBase.heldRequests heldBy
  rw [h.clientMap]
  exact List.flatMap_congr fun e _ => by rw [h.reqs]

/-- Replacing a record by one with the same payloads. -/
theorem setRec {p : Nat} {c : ClientRec} (hc : c.reqs = (q.recOf p).reqs) :
    SameReqs q (q.setRec p c) :=
  ⟨rfl, fun p' => by
    rw [recOf_setRec]
    split
    · rename_i hp; rw [hc, hp.1]
    · rfl⟩

theorem adjustAll (q : PriorityQueueBase) : SameReqs q q.adjustAll := by
  unfold PriorityQueueBase.adjustAll; split <;> exact ⟨rfl, fun _ => rfl⟩

theorem adjustReadyLimitAll (q : PriorityQueueBase) : SameReqs q q.adjustReadyLimitAll := by
  unfold PriorityQueueBase.adjustReadyLimitAll; split <;> exact ⟨rfl, fun _ => rfl⟩

theorem adjustResvAll (q : PriorityQueueBase) : SameReqs q q.adjustResvAll := by
  unfold PriorityQueueBase.adjustResvAll; split <;> exact ⟨rfl, fun _ => rfl⟩

end SameReqs

/-! ## One record at a time -/

section Held
variable {q : PriorityQueueBase}

@[simp] theorem heldRequests_adjustAll : q.adjustAll.heldRequests = q.heldRequests :=
  (SameReqs.adjustAll q).heldRequests

/-- Replacing the record of a map entry, when the map's records are distinct: the held
requests lose the entry's old payloads and gain its new ones. -/
theorem heldRequests_setRec (hm : MapInv q) {e : ClientId × Nat} (he : e ∈ q.clientMap)
    (c : ClientRec) :
    ((q.setRec e.2 c).heldRequests ++ (q.recOf e.2).reqs.map (e.1, ·)).Perm
      (q.heldRequests ++ c.reqs.map (e.1, ·)) := by
  have hnew : (q.setRec e.2 c).recOf e.2 = c := by
    rw [recOf_setRec, if_pos ⟨rfl, hm.lt_length e he⟩]
  have h := flatMap_update_perm (fun x => (q.recOf x.2).reqs.map (x.1, ·))
    (fun x => ((q.setRec e.2 c).recOf x.2).reqs.map (x.1, ·)) (hm.values_nodup.of_map _) he
    fun x hx hne => by
      dsimp only
      rw [recOf_setRec, if_neg fun h => hne (List.inj_on_of_nodup_map hm.values_nodup hx he h.1.symm)]
  dsimp only at h
  rwa [hnew] at h

/-- Taking the front out of a map record's queue takes exactly that request out. -/
theorem heldRequests_pop (hm : MapInv q) {e : ClientId × Nat} (he : e ∈ q.clientMap)
    {r : ClientReq} {rest : List ClientReq} (hreq : (q.recOf e.2).requests = r :: rest) :
    q.heldRequests.Perm
      ((e.1, r.request) :: (q.setRec e.2 { q.recOf e.2 with requests := rest }).heldRequests) := by
  have h := heldRequests_setRec hm he { q.recOf e.2 with requests := rest }
  simp only [ClientRec.reqs, hreq, List.map_cons] at h
  exact ((List.perm_append_right_iff _).mp (List.perm_middle.symm.trans h)).symm

/-- Appending a request to a map record's queue adds exactly that request. -/
theorem heldRequests_push (hm : MapInv q) {e : ClientId × Nat} (he : e ∈ q.clientMap)
    {c : ClientRec} {x : Request} (hc : c.reqs = (q.recOf e.2).reqs ++ [x]) :
    (q.setRec e.2 c).heldRequests.Perm ((e.1, x) :: q.heldRequests) := by
  have h := heldRequests_setRec hm he c
  rw [hc, List.map_append, List.map_singleton] at h
  refine (List.perm_append_right_iff _).mp (h.trans ?_)
  exact (List.perm_append_comm.append_left _).trans
    (by rw [← List.append_assoc]; exact List.perm_append_singleton _ _ |>.append_right _)

/-- Emptying a map record's queue takes exactly its requests out. -/
theorem heldRequests_clear (hm : MapInv q) {e : ClientId × Nat} (he : e ∈ q.clientMap) :
    q.heldRequests.Perm ((q.recOf e.2).reqs.map (e.1, ·) ++
      (q.setRec e.2 { q.recOf e.2 with requests := [] }).heldRequests) := by
  have h := heldRequests_setRec hm he { q.recOf e.2 with requests := [] }
  simp only [ClientRec.reqs, List.map_nil, List.append_nil] at h
  exact h.symm.trans List.perm_append_comm

end Held

/-! ## The calls -/

section Calls
variable (ht : HeapTop) {q : PriorityQueueBase}

theorem sameReqs_promote (now : ℚ) (fuel : Nat) (q : PriorityQueueBase) :
    SameReqs q (q.promote ht now fuel) := by
  induction fuel generalizing q with
  | zero => exact .refl q
  | succ fuel ih =>
    unfold promote
    split
    · rename_i q' h
      obtain ⟨r, rest, hreq, -, -, rfl⟩ := promoteStep_eq_some ht h
      refine ((SameReqs.setRec ?_).trans (.adjustReadyLimitAll _)).trans (ih _)
      show _ = (q.topRec ht .limit).reqs
      simp [ClientRec.reqs, hreq]
    · exact .refl q

theorem sameReqs_doNextRequest {now : ℚ} {r : PriorityQueueBase × NextReq}
    (h : q.doNextRequest ht now = .ok r) : SameReqs q r.1 := by
  rcases doNextRequest_fst ht q h with h' | h' <;> rw [h']
  · exact .refl q
  · exact sameReqs_promote ht _ _ q

theorem sameReqs_reduceReservationTags {c : ClientId} {q' : PriorityQueueBase}
    (h : q.reduceReservationTags c = .ok q') : SameReqs q q' := by
  unfold reduceReservationTags at h
  split at h
  · cases h
  · cases h
    exact (SameReqs.setRec (by simp [ClientRec.reqs, ClientRec.reduceReservation])).trans
      (.adjustResvAll _)

/-- In a state with clients, each view's top is a map record: in vector mode by the index
and cursor invariants, in heap mode because a heap holds the map's records. -/
theorem topPtr_mem_of_clients (hi : q.useHeap = false → IndexInv q) (hc : q.CursorInv)
    (hn : q.noClients = false) (v : View) : q.topPtr ht v ∈ q.clientMap.map Prod.snd := by
  cases hu : q.useHeap
  · have hi := hi hu
    have hne : q.clientMap ≠ [] := fun h => by
      rw [(noClients_iff hi hu).mpr h] at hn; cases hn
    exact topPtr_mem hi (hc hu) hu ht ((count_pos_iff hi).mpr hne) v
  · simp only [topPtr, hu, if_true]
    exact ht.top_mem v q (by simpa [noClients, hu] using hn)

/-- `pop_process_request` takes out exactly the front it returns, under the popped record's
client. -/
theorem heldRequests_popProcessRequest (hm : MapInv q) {heapId : HeapId}
    {r : PriorityQueueBase × ClientId × ClientReq} (h : q.popProcessRequest ht heapId = .ok r)
    (hmem : q.topPtr ht heapId.view ∈ q.clientMap.map Prod.snd) :
    q.heldRequests.Perm ((r.2.1, r.2.2.request) :: r.1.heldRequests) := by
  obtain ⟨rest, hreq, hclient, hr⟩ := popProcessRequest_ok ht h
  obtain ⟨e, he, hp⟩ := List.mem_map.mp hmem
  simp only [topRec, ← hp] at hreq hclient hr
  have h' := heldRequests_pop hm he hreq
  rw [← hm.client e he] at h'
  rwa [hr, heldRequests_adjustAll, hclient]

/-- What `pull_request` does to the queues: after a promotion loop that keeps every payload,
either nothing more, or one `pop_process_request` of a map record followed by changes that
keep every payload. -/
theorem pullRequest_cases (hm : MapInv q) (hi : q.useHeap = false → IndexInv q)
    (hc : q.CursorInv) {now : ℚ} {r : PriorityQueueBase × PullReq}
    (h : q.pullRequest ht now = .ok r) :
    (r.2.taken = [] ∧ SameReqs q r.1) ∨
      ∃ q₁ heapId rp, SameReqs q q₁ ∧ MapInv q₁ ∧ q₁.popProcessRequest ht heapId = .ok rp ∧
        q₁.topPtr ht heapId.view ∈ q₁.clientMap.map Prod.snd ∧
        r.2.taken = [(rp.2.1, rp.2.2.request)] ∧ SameReqs rp.1 r.1 := by
  obtain ⟨⟨q₁, d⟩, h₁, h₂⟩ := Except.bind_eq_ok.mp h
  have hsr := sameReqs_doNextRequest ht h₁
  rcases d with heapId | t | _
  · have hs : SameIndex q q₁ := sameIndex_pullClosed.doNextRequest ht h₁
    have hn : q₁.noClients = false := by
      rw [← noClients_of_returning ht h₁]
      simp only [noClients, hs.useHeap, hs.clientMap, hs.count]
    have hmem := topPtr_mem_of_clients ht (fun hv => hs.indexInv (hi (hs.useHeap ▸ hv)))
      (hc.doNextRequest ht h₁) hn heapId.view
    refine .inr ⟨q₁, heapId, ?_⟩
    cases heapId with
    | reservation =>
      obtain ⟨rp, h₃, rfl⟩ := Except.map_eq_ok.mp h₂
      exact ⟨rp, hsr, hs.mapInv hm, h₃, hmem, rfl, ⟨rfl, fun _ => rfl⟩⟩
    | ready =>
      obtain ⟨rp, h₃, h₄⟩ := Except.bind_eq_ok.mp h₂
      obtain ⟨q₃, h₅, rfl⟩ := Except.map_eq_ok.mp h₄
      exact ⟨rp, hsr, hs.mapInv hm, h₃, hmem, rfl,
        (sameReqs_reduceReservationTags h₅).trans ⟨rfl, fun _ => rfl⟩⟩
  all_goals cases h₂; exact .inl ⟨rfl, hsr⟩

/-- `pull_request` takes out exactly the request it returns. -/
theorem heldRequests_pullRequest (hm : MapInv q) (hi : q.useHeap = false → IndexInv q)
    (hc : q.CursorInv) {now : ℚ} {r : PriorityQueueBase × PullReq}
    (h : q.pullRequest ht now = .ok r) : q.heldRequests.Perm (r.2.taken ++ r.1.heldRequests) := by
  rcases pullRequest_cases ht hm hi hc h with ⟨htk, hs⟩ | ⟨q₁, heapId, rp, hs₁, hm₁, hp, hmem, htk, hs₂⟩
  · rw [htk, hs.heldRequests]; rfl
  · rw [htk, hs₂.heldRequests, ← hs₁.heldRequests]
    exact heldRequests_popProcessRequest ht hm₁ hp hmem

theorem sameReqs_reactivate (q : PriorityQueueBase) (p : Nat) (time : ℚ) :
    SameReqs q (q.reactivate p time) := by
  unfold reactivate; dsimp only
  split
  · split <;> exact SameReqs.setRec rfl
  · exact .refl q

theorem findOrCreate_requests_new {c : ClientId} (h : q.clientMap.lookup c = none) :
    ((q.findOrCreate c).1.recOf q.store.length).requests = [] := by
  unfold findOrCreate
  simp only [h]
  cases q.useHeap <;>
    simp [IndIntruVector.push, recOf, deref, List.getD_eq_getElem?_getD, List.getElem?_set,
      ClientRec.make]

/-- Finding or creating a client's record holds no new request: a new record's queue is
empty. -/
theorem heldRequests_findOrCreate (hm : MapInv q) (c : ClientId) :
    (q.findOrCreate c).1.heldRequests.Perm q.heldRequests := by
  cases h : q.clientMap.lookup c with
  | some p => simp only [findOrCreate, h]; exact .refl _
  | none =>
    obtain ⟨hmap, -, hold, -⟩ := findOrCreate_new h
    unfold heldRequests heldBy
    rw [hmap]
    refine ((mapInsert_perm (lookup_none h)).flatMap_right _).trans ?_
    rw [List.flatMap_cons, ClientRec.reqs, findOrCreate_requests_new h, List.map_nil,
      List.map_nil, List.nil_append]
    exact .of_eq (List.flatMap_congr fun e he => by rw [hold e.2 (hm.lt_length e he)])

/-- `add_request` adds exactly its request, under its client. -/
theorem heldRequests_doAddRequest (hm : MapInv q) {request : Request} {c : ClientId}
    {reqParams : ReqParams} {time cost : ℚ} {q' : PriorityQueueBase}
    (h : q.doAddRequest request c reqParams time cost = .ok q') :
    q'.heldRequests.Perm ((c, request) :: q.heldRequests) := by
  obtain ⟨q₂, h₂, rfl⟩ := Except.map_eq_ok.mp h
  have hm₀ : MapInv { q with tick := q.tick + 1 } :=
    ⟨hm.client, hm.keys_nodup, hm.values_nodup, hm.lt_length⟩
  obtain ⟨hmem, -⟩ := findOrCreate_entry hm₀ c
  set q₁ := ({ q with tick := q.tick + 1 }.findOrCreate c).1
  set p := ({ q with tick := q.tick + 1 }.findOrCreate c).2
  have hs : SameIndex q₁ (q₁.reactivate p time) := sameIndex_pullClosed.reactivate p time
  have hre : (q₁.reactivate p time).heldRequests = q₁.heldRequests :=
    (sameReqs_reactivate q₁ p time).heldRequests
  obtain ⟨tag, -, rfl⟩ := Except.map_eq_ok.mp h₂
  rw [heldRequests_adjustAll]
  have hmem' : (c, p) ∈ (q₁.reactivate p time).clientMap := by rw [hs.clientMap]; exact hmem
  refine (heldRequests_push (hs.mapInv (findOrCreate_mapInv hm₀ c)) hmem'
    ((ClientRec.reqs_updateReqTag _ _ _).trans (ClientRec.reqs_addRequest _ _ _ _))).trans ?_
  rw [hre]
  exact (heldRequests_findOrCreate hm₀ c).cons _

/-- `remove_by_client` takes out exactly the client's queued requests, which it returns. -/
theorem heldRequests_removeByClient (hm : MapInv q) (c : ClientId) :
    q.heldRequests.Perm ((q.removeByClient c).2.map (c, ·) ++ (q.removeByClient c).1.heldRequests) := by
  unfold removeByClient
  split
  · exact .refl _
  · rename_i p hp
    rw [heldRequests_adjustAll]
    exact heldRequests_clear hm (lookup_mem hp)

end Calls

/-! ## The filter's walk -/

section Filter
variable (f : Request → Bool) (b : Bool)

theorem reqs_keptBy (requests : List ClientReq) :
    (keptBy f requests).map ClientReq.request = (requests.map ClientReq.request).filter (!f ·) := by
  simp [keptBy, List.filter_map, Function.comp_def]

theorem matchedBy_eq (requests : List ClientReq) :
    matchedBy f requests = (requests.map ClientReq.request).filter f := by
  simp [matchedBy, List.filter_map, Function.comp_def]

/-- Whichever way it walks, a filter that completes appends the matching payloads to the
collector, in some order. -/
theorem removeByReqFilter_out {requests : List ClientReq} {out : List Request}
    {r : List ClientReq × List Request × Bool}
    (h : DmClock.removeByReqFilter f requests out b = .ok r) :
    r.2.1.Perm (out ++ matchedBy f requests) := by
  unfold DmClock.removeByReqFilter at h
  split at h
  · cases requests with
    | nil => cases h
    | cons x xs =>
      rw [removeByReqFilterBackwards_eq f (List.cons_ne_nil x xs)] at h; cases h
      exact (List.reverse_perm _).append_left _
  · cases h; rw [removeByReqFilterForwards_eq]

/-- One client of the walk: its record keeps the payloads the predicate rejects, and the
collector gains the others. -/
theorem filterEntry_spec {acc acc₁ : PriorityQueueBase × List Request × Bool}
    {e : ClientId × Nat} (h : filterEntry f b acc e = .ok acc₁) :
    acc₁.1.clientMap = acc.1.clientMap ∧
      (∀ p, (acc₁.1.recOf p).reqs =
        if p = e.2 then (acc.1.recOf p).reqs.filter (!f ·) else (acc.1.recOf p).reqs) ∧
      acc₁.2.1.Perm (acc.2.1 ++ (acc.1.recOf e.2).reqs.filter f) := by
  obtain ⟨r, hr, rfl⟩ := Except.map_eq_ok.mp h
  obtain ⟨hkept, -⟩ := removeByReqFilter_ok f hr
  have hout := removeByReqFilter_out f b hr
  rw [matchedBy_eq] at hout
  have hrec : ∀ p, ((acc.1.setRec e.2 { acc.1.recOf e.2 with requests := r.1 }).recOf p).reqs =
      if p = e.2 then (acc.1.recOf p).reqs.filter (!f ·) else (acc.1.recOf p).reqs := fun p => by
    rw [recOf_setRec]
    split
    · rename_i hp; rw [if_pos hp.1.symm, ← hp.1]; simp only [ClientRec.reqs, hkept, reqs_keptBy]
    · rename_i hp
      split
      · rename_i he
        subst he
        rw [recOf, deref_of_le (not_lt.mp (not_and.mp hp rfl))]; rfl
      · rfl
  dsimp only
  split
  · exact ⟨(adjustAll_clientMap _).trans rfl, fun p => by rw [adjustAll_recOf]; exact hrec p, hout⟩
  · exact ⟨rfl, hrec, hout⟩

/-- The walk over entries with distinct records: each visited record keeps the payloads the
predicate rejects, the others are unchanged, and the collector gains the visited records'
other payloads. -/
theorem filterWalk_spec : ∀ (l : List (ClientId × Nat)) (acc acc' : PriorityQueueBase × List Request × Bool),
    (l.map Prod.snd).Nodup → l.foldlM (filterEntry f b) acc = .ok acc' →
    acc'.1.clientMap = acc.1.clientMap ∧
      (∀ p, (acc'.1.recOf p).reqs = if p ∈ l.map Prod.snd then
        (acc.1.recOf p).reqs.filter (!f ·) else (acc.1.recOf p).reqs) ∧
      acc'.2.1.Perm (acc.2.1 ++ l.flatMap fun e => (acc.1.recOf e.2).reqs.filter f)
  | [], acc, acc', _, h => by cases h; simp
  | e :: l, acc, acc', hn, h => by
    rw [List.foldlM_cons] at h
    obtain ⟨acc₁, h₁, h₂⟩ := Except.bind_eq_ok.mp h
    rw [List.map_cons, List.nodup_cons] at hn
    obtain ⟨hmap₁, hrec₁, hout₁⟩ := filterEntry_spec f b h₁
    obtain ⟨hmap, hrec, hout⟩ := filterWalk_spec l acc₁ acc' hn.2 h₂
    have hsame : (l.flatMap fun x => (acc₁.1.recOf x.2).reqs.filter f) =
        l.flatMap fun x => (acc.1.recOf x.2).reqs.filter f :=
      List.flatMap_congr fun x hx => by
        rw [hrec₁, if_neg fun (h : x.2 = e.2) => hn.1 (h ▸ List.mem_map_of_mem _ hx)]
    refine ⟨hmap.trans hmap₁, fun p => ?_, ?_⟩
    · rw [hrec, hrec₁]
      by_cases hp : p = e.2
      · subst hp; simp [hn.1]
      · by_cases hl : p ∈ l.map Prod.snd <;> simp [hp, hl]
    · rw [hsame] at hout
      rw [List.flatMap_cons, ← List.append_assoc]
      exact hout.trans (hout₁.append_right _)

/-- `remove_by_req_filter` keeps exactly the held requests the predicate rejects, in order, and
returns the others. -/
theorem heldRequests_removeByReqFilter {q : PriorityQueueBase} (hm : MapInv q)
    {r : PriorityQueueBase × List Request × Bool} (h : q.removeByReqFilter f b = .ok r) :
    r.1.heldRequests = q.heldRequests.filter (fun x => !f x.2) ∧
      r.2.1.Perm ((q.heldRequests.filter (fun x => f x.2)).map Prod.snd) := by
  obtain ⟨hmap, hrec, hout⟩ := filterWalk_spec f b q.clientMap (q, [], false) r hm.values_nodup h
  refine ⟨?_, hout.trans (.of_eq ?_)⟩
  · unfold heldRequests heldBy
    rw [hmap, List.filter_flatMap]
    refine List.flatMap_congr fun e he => ?_
    rw [hrec, if_pos (List.mem_map_of_mem _ he), List.filter_map]
    rfl
  · simp [heldRequests, heldBy, List.filter_flatMap, List.map_flatMap, List.filter_map,
      Function.comp_def]

end Filter

/-- `do_clean` keeps exactly the requests of the entries it keeps, in order. -/
theorem heldRequests_doClean {q q' : PriorityQueueBase} {now : ℚ} (h : q.doClean now = .ok q') :
    q'.clientMap.Sublist q.clientMap ∧ q'.heldRequests = q.heldBy q'.clientMap := by
  obtain ⟨r, -, hc⟩ := doClean_cleaned h
  refine ⟨by rw [hc.map], List.flatMap_congr fun e _ => ?_⟩
  rcases hc.records e.2 with hi | ⟨hi, -⟩ <;> rw [hi] <;> rfl

/-! ## Every call of every run -/

/-- From every state of every run, in either mode, each call accounts for every request:
`add_request` adds exactly its request under its client; `pull_request` takes out exactly the
request it returns, and nothing when it returns none or a future time; `remove_by_client`
takes out exactly the client's queued requests, which it returns; `remove_by_req_filter`
keeps exactly the held requests the predicate rejects, in order, and returns the others;
`do_clean`, when it returns, keeps exactly the requests of the map entries it keeps, in order
(a clean that would erase an entry fails instead, `doClean_error`, so it keeps them all). -/
theorem requests_accounted {h : List Op} {q : PriorityQueueBase} (hr : Run h q) (ht : HeapTop) :
    (∀ request c reqParams time cost q', q.doAddRequest request c reqParams time cost = .ok q' →
      q'.heldRequests.Perm ((c, request) :: q.heldRequests)) ∧
    (∀ now r, q.pullRequest ht now = .ok r →
      q.heldRequests.Perm (r.2.taken ++ r.1.heldRequests)) ∧
    (∀ c, q.heldRequests.Perm
      ((q.removeByClient c).2.map (c, ·) ++ (q.removeByClient c).1.heldRequests)) ∧
    (∀ f b r, q.removeByReqFilter f b = .ok r →
      r.1.heldRequests = q.heldRequests.filter (fun x => !f x.2) ∧
        r.2.1.Perm ((q.heldRequests.filter (fun x => f x.2)).map Prod.snd)) ∧
    (∀ now q', q.doClean now = .ok q' →
      q'.clientMap.Sublist q.clientMap ∧ q'.heldRequests = q.heldBy q'.clientMap) := by
  have hm := mapInv_of_run hr
  exact ⟨fun _ _ _ _ _ _ h => heldRequests_doAddRequest hm h,
    fun _ _ h => heldRequests_pullRequest ht hm (indexInv_of_run hr) (cursorInv_of_run hr) h,
    heldRequests_removeByClient hm, fun f b _ h => heldRequests_removeByReqFilter f b hm h,
    fun _ _ h => heldRequests_doClean h⟩

/-- After one request of client 1 and a cleaner run at clock 0, the cleaner at clock 5/2
(idle age 2, erase age 3) marks the client idle and keeps its request. -/
theorem requests_accounted_clean_keeps :
    ∃ q q', Run [.addRequest 0 1 {} 0 0, .doClean 0] q ∧ q.doClean (5 / 2) = .ok q' ∧
      (q'.recOf 0).idle = true ∧ q'.heldRequests = [(1, 0)] ∧
      (∀ request c reqParams time cost q', q.doAddRequest request c reqParams time cost = .ok q' →
        q'.heldRequests.Perm ((c, request) :: q.heldRequests)) ∧
      (∀ now r, q.pullRequest HeapTop.first now = .ok r →
        q.heldRequests.Perm (r.2.taken ++ r.1.heldRequests)) ∧
      (∀ c, q.heldRequests.Perm
        ((q.removeByClient c).2.map (c, ·) ++ (q.removeByClient c).1.heldRequests)) ∧
      (∀ f b r, q.removeByReqFilter f b = .ok r →
        r.1.heldRequests = q.heldRequests.filter (fun x => !f x.2) ∧
          r.2.1.Perm ((q.heldRequests.filter (fun x => f x.2)).map Prod.snd)) ∧
      (∀ now q', q.doClean now = .ok q' →
        q'.clientMap.Sublist q.clientMap ∧ q'.heldRequests = q.heldBy q'.clientMap) := by
  obtain ⟨q, q', hrun, hc, hidle, hq'⟩ : ∃ q q', Run [.addRequest 0 1 {} 0 0, .doClean 0] q ∧
      q.doClean (5 / 2) = .ok q' ∧ (q'.recOf 0).idle = true ∧ q'.heldRequests = [(1, 0)] :=
    ⟨_, _, Run.of_runOf (show runOf HeapTop.first (fun _ => ClientInfo.ofNat 0 1 0) 2 3 1 false
        false [.addRequest 0 1 {} 0 0, .doClean 0] = .ok _ by with_unfolding_all rfl),
      by with_unfolding_all rfl, by with_unfolding_all rfl, by with_unfolding_all rfl⟩
  exact ⟨q, q', hrun, hc, hidle, hq', requests_accounted hrun HeapTop.first⟩

/-! ## The counts the queue reports -/

/-- The vector's slots below `size()`, read one by one, are its pointers. -/
theorem slots_map (hi : IndexInv q) (f : ClientRec → Nat) :
    (List.range q.clVec.count).map (fun i => f (q.clVec.slot q.store i)) =
      q.clVec.data.map fun p => f (q.recOf p) := by
  rw [hi.count_eq]
  refine List.ext_getElem (by simp) fun i _ h => ?_
  rw [List.length_map] at h
  simp [IndIntruVector.slot, recOf, List.getElem?_eq_getElem h]

/-- The vector holds the map's pointers, each once. -/
theorem data_perm (hi : IndexInv q) : q.clVec.data.Perm (q.clientMap.map Prod.snd) := by
  rw [List.perm_ext_iff_of_nodup hi.data_nodup hi.values_nodup]
  refine fun p => ⟨fun hp => ?_, hi.mem_data p⟩
  obtain ⟨j, hj, rfl⟩ := exists_getD_eq hp
  exact hi.data_mem j (hi.count_eq ▸ hj)

/-- In vector mode, in every state of every run, `client_count()` and `request_count()`, which
read the vector's slots, report the clients of the map and the requests the queue holds. -/
theorem vector_counts_agree {h : List Op} {q : PriorityQueueBase} (hr : Run h q)
    (hv : q.useHeap = false) :
    q.clientCount = q.clientMap.length ∧ q.requestCount = q.heldRequests.length := by
  have hi := indexInv_of_run hr hv
  simp only [clientCount, requestCount, hv, Bool.false_eq_true, if_false]
  refine ⟨by rw [hi.count_eq, (data_perm hi).length_eq, List.length_map], ?_⟩
  rw [slots_map hi fun c => c.requests.length, ((data_perm hi).map _).sum_eq, heldRequests, heldBy,
    List.length_flatMap, List.map_map]
  simp [ClientRec.reqs, Function.comp_def]

/-- Two clients, one with two requests and one with one, and a pull at time 0 that dispatches
one of them, in vector mode: the counts are 2 clients and 2 requests. -/
theorem vector_counts_agree_two_clients :
    ∃ q, Run [.addRequest 0 1 {} 0 0, .addRequest 1 1 {} 0 0, .addRequest 2 2 {} 0 0,
        .pullRequest 0] q ∧ q.useHeap = false ∧ q.clientCount = 2 ∧ q.requestCount = 2 ∧
      q.clientCount = q.clientMap.length ∧ q.requestCount = q.heldRequests.length := by
  obtain ⟨q, hrun, hv, hc, hn⟩ : ∃ q, Run [.addRequest 0 1 {} 0 0, .addRequest 1 1 {} 0 0,
      .addRequest 2 2 {} 0 0, .pullRequest 0] q ∧ q.useHeap = false ∧ q.clientCount = 2 ∧
      q.requestCount = 2 :=
    ⟨_, Run.of_runOf (show runOf HeapTop.first (fun _ => ClientInfo.ofNat 1 1 0) 600000 900000
        360000 false false [.addRequest 0 1 {} 0 0, .addRequest 1 1 {} 0 0, .addRequest 2 2 {} 0 0,
          .pullRequest 0] = .ok _ by with_unfolding_all rfl),
      rfl, by with_unfolding_all rfl, by with_unfolding_all rfl⟩
  exact ⟨q, hrun, hv, hc, hn, vector_counts_agree hrun hv⟩

end PriorityQueueBase

end DmClock
