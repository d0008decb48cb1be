import DmClock.Requests

/- FIFO per client (spec §8, property 1) over every run.

   `OutRun h out q` is a run of the operations `h` that also records, oldest first, the
   requests its pulls dispatched (`stepOut`); every run has one (`Run.outRun`). A client's
   queue is what `client_map.find(c)` leads to, as payloads (`clientQueue`). What is proved
   (`fifo_per_client`): in every run, for every client, the requests dispatched for it
   followed by those still queued for it are, in order, a subsequence of the requests added
   for it; with only `add_request` and `pull_request` calls they are exactly those requests,
   in order. So a client's requests are dispatched in the order they were added.

   The step lemmas are one per call, on one client's queue: `add_request` appends to its
   client's queue, a dispatch pops the front of its client's queue, `remove_by_client`
   empties one queue, `remove_by_req_filter` filters each, `do_clean` empties some, and no
   call touches another client's queue.
-/

namespace DmClock

namespace Op

/-- The request a call queues, under its client: `add_request`'s, nothing for the others. -/
def added : Op → List (ClientId × Request)
  | .addRequest request clientId _ _ _ => [(clientId, request)]
  | _ => []

/-- The calls that hand back or keep every request: `add_request` and `pull_request`. -/
def keepsRequests : Op → Bool
  | .addRequest .. | .pullRequest _ => true
  | _ => false

end Op

/-- The requests of client `c` in a list of requests under their clients, in order. -/
def requestsOf (c : ClientId) (l : List (ClientId × Request)) : List Request :=
  (l.filter fun x => x.1 == c).map Prod.snd

@[simp] theorem requestsOf_nil (c : ClientId) : requestsOf c [] = [] := rfl

@[simp] theorem requestsOf_append (c : ClientId) (l l' : List (ClientId × Request)) :
    requestsOf c (l ++ l') = requestsOf c l ++ requestsOf c l' := by
  simp [requestsOf]

theorem requestsOf_singleton (c c' : ClientId) (x : Request) :
    requestsOf c [(c', x)] = if c' = c then [x] else [] := by
  by_cases h : c' = c <;> simp [requestsOf, h]

/-- `client_map[c] = p` makes `c` lead to `p` and leaves every other key's entry. -/
theorem lookup_mapInsert (c d : ClientId) (p : Nat) : ∀ m : List (ClientId × Nat),
    (mapInsert c p m).lookup d = if d = c then some p else m.lookup d
  | [] => by simp [mapInsert, lookup_cons_ite]
  | e :: m => by
    unfold mapInsert
    by_cases h₁ : c < e.1
    · rw [if_pos h₁, lookup_cons_ite]
    · rw [if_neg h₁]
      by_cases h₂ : c = e.1
      · rw [if_pos h₂, lookup_cons_ite, lookup_cons_ite]
        subst h₂
        by_cases hd : d = e.1 <;> simp [hd]
      · rw [if_neg h₂, lookup_cons_ite, lookup_mapInsert c d p m, lookup_cons_ite]
        by_cases hd : d = e.1
        · simp [hd, Ne.symm h₂]
        · simp [hd]

namespace PriorityQueueBase

/-- One operation, with the requests it dispatches: a pull's, nothing for the others. -/
def stepOut (ht : HeapTop) (q : PriorityQueueBase) (op : Op) :
    Except String (PriorityQueueBase × List (ClientId × Request)) :=
  match op with
  | .pullRequest now => (q.pullRequest ht now).map fun r => (r.1, r.2.taken)
  | _ => (q.step ht op).map fun q' => (q', [])

/-- The payloads of the queue `client_map.find(c)` leads to; none for a client the map lacks. -/
def clientQueue (q : PriorityQueueBase) (c : ClientId) : List Request :=
  match q.clientMap.lookup c with
  | some p => (q.recOf p).reqs
  | none => []

variable (ht : HeapTop) {q q' : PriorityQueueBase}

theorem stepOut_step {op : Op} {o : List (ClientId × Request)}
    (h : q.stepOut ht op = .ok (q', o)) : q.step ht op = .ok q' := by
  unfold stepOut at h
  split at h
  · obtain ⟨r, hr, hrr⟩ := Except.map_eq_ok.mp h
    cases hrr
    simp only [step, hr]; rfl
  · obtain ⟨q'', hr, hrr⟩ := Except.map_eq_ok.mp h
    cases hrr
    exact hr

theorem stepOut_of_step {op : Op} (h : q.step ht op = .ok q') :
    ∃ o, q.stepOut ht op = .ok (q', o) := by
  cases op
  case pullRequest now =>
    obtain ⟨r, hr, rfl⟩ := Except.map_eq_ok.mp h
    exact ⟨r.2.taken, by simp only [stepOut, hr]; rfl⟩
  all_goals exact ⟨[], by simp only [stepOut, h]; rfl⟩

/-- Only a pull dispatches. -/
theorem stepOut_out {op : Op} {o : List (ClientId × Request)}
    (h : q.stepOut ht op = .ok (q', o)) (hop : ∀ now, op ≠ .pullRequest now) : o = [] := by
  unfold stepOut at h
  split at h
  · exact absurd rfl (hop _)
  · obtain ⟨q'', -, hrr⟩ := Except.map_eq_ok.mp h
    exact (Prod.mk.inj hrr).2.symm

/-! ## One client's queue -/

theorem SameReqs.clientQueue (h : SameReqs q q') (d : ClientId) :
    q'.clientQueue d = q.clientQueue d := by
  unfold PriorityQueueBase.clientQueue
  rw [h.clientMap]
  cases q.clientMap.lookup d with
  | none => rfl
  | some p => exact h.reqs p

/-- With distinct keys and records, exactly one key leads to a map entry's record. -/
theorem lookup_eq_some_iff (hm : MapInv q) {e : ClientId × Nat} (he : e ∈ q.clientMap)
    (d : ClientId) : q.clientMap.lookup d = some e.2 ↔ d = e.1 := by
  constructor
  · intro h
    exact congrArg Prod.fst (List.inj_on_of_nodup_map hm.values_nodup (lookup_mem h) he rfl)
  · rintro rfl
    exact lookup_of_mem hm.keys_nodup he

theorem clientQueue_of_mem (hm : MapInv q) {e : ClientId × Nat} (he : e ∈ q.clientMap) :
    q.clientQueue e.1 = (q.recOf e.2).reqs := by
  unfold clientQueue
  rw [(lookup_eq_some_iff hm he e.1).mpr rfl]

/-- Replacing the record of a map entry changes exactly that entry's client's queue. -/
theorem clientQueue_setRec (hm : MapInv q) {e : ClientId × Nat} (he : e ∈ q.clientMap)
    (c : ClientRec) (d : ClientId) :
    (q.setRec e.2 c).clientQueue d = if d = e.1 then c.reqs else q.clientQueue d := by
  have hmap : (q.setRec e.2 c).clientMap = q.clientMap := rfl
  unfold clientQueue
  rw [hmap]
  by_cases hd : d = e.1
  · subst hd
    rw [if_pos rfl, (lookup_eq_some_iff hm he e.1).mpr rfl]
    show ((q.setRec e.2 c).recOf e.2).reqs = c.reqs
    rw [recOf_setRec, if_pos ⟨rfl, hm.lt_length e he⟩]
  · rw [if_neg hd]
    cases hl : q.clientMap.lookup d with
    | none => rfl
    | some p =>
      have hp : p ≠ e.2 := fun h => hd ((lookup_eq_some_iff hm he d).mp (h ▸ hl))
      show ((q.setRec e.2 c).recOf p).reqs = (q.recOf p).reqs
      rw [recOf_setRec, if_neg fun h => hp h.1.symm]

/-- A dispatch pops the front of its client's queue and no other. -/
theorem clientQueue_popProcessRequest (hm : MapInv q) {heapId : HeapId}
    {r : PriorityQueueBase × ClientId × ClientReq} (h : q.popProcessRequest ht heapId = .ok r)
    (hmem : q.topPtr ht heapId.view ∈ q.clientMap.map Prod.snd) (d : ClientId) :
    q.clientQueue d = requestsOf d [(r.2.1, r.2.2.request)] ++ r.1.clientQueue d := by
  obtain ⟨rest, hreq, hclient, hr⟩ := popProcessRequest_ok ht h
  obtain ⟨e, he, hp⟩ := List.mem_map.mp hmem
  simp only [topRec, ← hp] at hreq hclient hr
  rw [hr, (SameReqs.adjustAll _).clientQueue, clientQueue_setRec hm he,
    hclient.trans (hm.client e he), requestsOf_singleton]
  by_cases hd : d = e.1
  · subst hd
    simp [clientQueue_of_mem hm he, ClientRec.reqs, hreq]
  · simp [hd, Ne.symm hd]

/-- `pull_request` pops the front of the queue of the client it returns, and no other. -/
theorem clientQueue_pullRequest (hm : MapInv q) (hi : q.useHeap = false → IndexInv q)
    (hc : q.CursorInv) {now : ℚ} {r : PriorityQueueBase × PullReq}
    (h : q.pullRequest ht now = .ok r) (d : ClientId) :
    q.clientQueue d = requestsOf d r.2.taken ++ r.1.clientQueue d := by
  rcases pullRequest_cases ht hm hi hc h with ⟨htk, hs⟩ | ⟨q₁, heapId, rp, hs₁, hm₁, hp, hmem, htk, hs₂⟩
  · rw [htk, hs.clientQueue]; rfl
  · rw [htk, hs₂.clientQueue, ← hs₁.clientQueue]
    exact clientQueue_popProcessRequest ht hm₁ hp hmem d

/-- Finding or creating a record changes no queue: a new record's queue is empty. -/
theorem clientQueue_findOrCreate (hm : MapInv q) (c d : ClientId) :
    (q.findOrCreate c).1.clientQueue d = q.clientQueue d := by
  cases h : q.clientMap.lookup c with
  | some p => simp only [findOrCreate, h]
  | none =>
    obtain ⟨hmap, -, hold, -⟩ := findOrCreate_new h
    unfold clientQueue
    rw [hmap, lookup_mapInsert]
    by_cases hd : d = c
    · subst hd
      simp [h, ClientRec.reqs, findOrCreate_requests_new h]
    · rw [if_neg hd]
      cases hl : q.clientMap.lookup d with
      | none => rfl
      | some p => exact congrArg ClientRec.reqs (hold p (hm.lt_length _ (lookup_mem hl)))

/-- `add_request` appends its request to its client's queue and to no other. -/
theorem clientQueue_doAddRequest (hm : MapInv q) {request : Request} {c : ClientId}
    {reqParams : ReqParams} {time cost : ℚ} (h : q.doAddRequest request c reqParams time cost = .ok q')
    (d : ClientId) : q'.clientQueue d = q.clientQueue d ++ requestsOf d [(c, request)] := by
  obtain ⟨q₂, h₂, rfl⟩ := Except.map_eq_ok.mp h
  have hm₀ : MapInv { q with tick := q.tick + 1 } :=
    ⟨hm.client, hm.keys_nodup, hm.values_nodup, hm.lt_length⟩
  obtain ⟨hmem, -⟩ := findOrCreate_entry hm₀ c
  set q₁ := ({ q with tick := q.tick + 1 }.findOrCreate c).1
  set p := ({ q with tick := q.tick + 1 }.findOrCreate c).2
  have hs : SameIndex q₁ (q₁.reactivate p time) := sameIndex_pullClosed.reactivate p time
  have hm₃ := hs.mapInv (findOrCreate_mapInv hm₀ c)
  have hmem₃ : (c, p) ∈ (q₁.reactivate p time).clientMap := by rw [hs.clientMap]; exact hmem
  have hq₃ : ∀ d, (q₁.reactivate p time).clientQueue d = q.clientQueue d := fun d =>
    ((sameReqs_reactivate q₁ p time).clientQueue d).trans (clientQueue_findOrCreate hm₀ c d)
  obtain ⟨tag, -, rfl⟩ := Except.map_eq_ok.mp h₂
  rw [(SameReqs.adjustAll _).clientQueue, clientQueue_setRec hm₃ hmem₃, requestsOf_singleton]
  by_cases hd : d = c
  · subst hd
    rw [if_pos rfl, if_pos rfl, ← hq₃, clientQueue_of_mem hm₃ hmem₃]
    simp
  · rw [if_neg hd, if_neg (Ne.symm hd), hq₃, List.append_nil]

/-- `remove_by_client(c)` empties `c`'s queue and no other. -/
theorem clientQueue_removeByClient (hm : MapInv q) (c d : ClientId) :
    (q.removeByClient c).1.clientQueue d = if d = c then [] else q.clientQueue d := by
  unfold removeByClient
  split
  · rename_i hl
    split
    · rename_i hd; subst hd; simp [clientQueue, hl]
    · rfl
  · rename_i p hp
    rw [(SameReqs.adjustAll _).clientQueue, clientQueue_setRec hm (lookup_mem hp)]
    rfl

/-- `remove_by_req_filter` filters every client's queue. -/
theorem clientQueue_removeByReqFilter (hm : MapInv q) {f : Request → Bool} {b : Bool}
    {r : PriorityQueueBase × List Request × Bool} (h : q.removeByReqFilter f b = .ok r)
    (d : ClientId) : r.1.clientQueue d = (q.clientQueue d).filter (!f ·) := by
  obtain ⟨hmap, hrec, -⟩ := filterWalk_spec f b q.clientMap (q, [], false) r hm.values_nodup h
  unfold clientQueue
  rw [hmap]
  cases hl : q.clientMap.lookup d with
  | none => rfl
  | some p => exact (hrec p).trans (if_pos (List.mem_map_of_mem Prod.snd (lookup_mem hl)))

/-- `do_clean` that returns keeps each client's queue: it only marks records idle. -/
theorem clientQueue_doClean {now : ℚ} (h : q.doClean now = .ok q') (d : ClientId) :
    (q'.clientQueue d).Sublist (q.clientQueue d) := by
  obtain ⟨r, -, hc⟩ := doClean_cleaned h
  unfold clientQueue
  rw [hc.map]
  cases q.clientMap.lookup d with
  | none => exact List.nil_sublist _
  | some p =>
    show (q'.recOf p).reqs.Sublist (q.recOf p).reqs
    rcases hc.records p with hi | ⟨hi, -⟩ <;> rw [hi] <;> exact .refl _

/-- One step of a run, on one client: what it dispatches for the client followed by the
client's queue after it is a subsequence of the queue before it followed by what it adds for
the client, and equal to it for `add_request` and `pull_request`. -/
theorem stepOut_fifo {h : List Op} (hr : Run h q) {op : Op} {o : List (ClientId × Request)}
    (hs : q.stepOut ht op = .ok (q', o)) (c : ClientId) :
    (requestsOf c o ++ q'.clientQueue c).Sublist (q.clientQueue c ++ requestsOf c op.added) ∧
      (op.keepsRequests = true →
        requestsOf c o ++ q'.clientQueue c = q.clientQueue c ++ requestsOf c op.added) := by
  have hm := mapInv_of_run hr
  have hstep := stepOut_step ht hs
  have heq : ∀ l, requestsOf c o ++ q'.clientQueue c = l →
      (requestsOf c o ++ q'.clientQueue c).Sublist l ∧
        (op.keepsRequests = true → requestsOf c o ++ q'.clientQueue c = l) :=
    fun _ h => ⟨h ▸ .refl _, fun _ => h⟩
  have hsub : o = [] → (q'.clientQueue c).Sublist (q.clientQueue c) → op.added = [] →
      op.keepsRequests = false →
      (requestsOf c o ++ q'.clientQueue c).Sublist (q.clientQueue c ++ requestsOf c op.added) ∧
        (op.keepsRequests = true →
          requestsOf c o ++ q'.clientQueue c = q.clientQueue c ++ requestsOf c op.added) :=
    fun ho hq ha hk => ⟨by simpa [ho, ha] using hq, fun h => absurd h (by simp [hk])⟩
  cases op with
  | addRequest request c' reqParams time cost =>
    obtain rfl := stepOut_out ht hs fun _ h => by cases h
    exact heq _ (by rw [clientQueue_doAddRequest hm hstep]; rfl)
  | pullRequest now =>
    obtain ⟨r, hq, hrr⟩ := Except.map_eq_ok.mp hs
    cases hrr
    exact heq _ (by
      rw [clientQueue_pullRequest ht hm (indexInv_of_run hr) (cursorInv_of_run hr) hq c]
      simp [Op.added])
  | removeByClient c' =>
    obtain rfl := stepOut_out ht hs fun _ h => by cases h
    obtain rfl : (q.removeByClient c').1 = q' := Except.ok.inj hstep
    refine hsub rfl ?_ rfl rfl
    rw [clientQueue_removeByClient hm]
    split
    · exact List.nil_sublist _
    · exact .refl _
  | removeByReqFilter f b =>
    obtain rfl := stepOut_out ht hs fun _ h => by cases h
    obtain ⟨r, hq, rfl⟩ := Except.map_eq_ok.mp hstep
    exact hsub rfl (by rw [clientQueue_removeByReqFilter hm hq]; exact List.filter_sublist _) rfl rfl
  | doClean now =>
    obtain rfl := stepOut_out ht hs fun _ h => by cases h
    exact hsub rfl (clientQueue_doClean hstep c) rfl rfl

end PriorityQueueBase

/-! ## Runs with their dispatches -/

/-- `OutRun h out q`: the operations `h`, oldest first, take a constructed queue to `q`, and
their pulls dispatch `out`, oldest first. -/
inductive OutRun : List Op → List (ClientId × Request) → PriorityQueueBase → Prop
  | make {f : ClientId → ClientInfo} {idleAge eraseAge checkTime : ℚ}
      {allowLimitBreak useHeap : Bool} {q : PriorityQueueBase} :
      PriorityQueueBase.make f idleAge eraseAge checkTime allowLimitBreak useHeap = .ok q →
      OutRun [] [] q
  | step {h : List Op} {out o : List (ClientId × Request)} {q q' : PriorityQueueBase}
      {ht : HeapTop} {op : Op} :
      OutRun h out q → q.stepOut ht op = .ok (q', o) → OutRun (h ++ [op]) (out ++ o) q'

theorem OutRun.run {h : List Op} {out : List (ClientId × Request)} {q : PriorityQueueBase}
    (hr : OutRun h out q) : Run h q := by
  induction hr with
  | make hm => exact .make hm
  | step _ hs ih => exact .step ih (PriorityQueueBase.stepOut_step _ hs)

/-- Every run records some dispatches. -/
theorem Run.outRun {h : List Op} {q : PriorityQueueBase} (hr : Run h q) : ∃ out, OutRun h out q := by
  induction hr with
  | make hm => exact ⟨[], .make hm⟩
  | step _ hs ih =>
    obtain ⟨out, ho⟩ := ih
    obtain ⟨o, hso⟩ := PriorityQueueBase.stepOut_of_step _ hs
    exact ⟨out ++ o, .step ho hso⟩

/-- The run of `ops` from the queue `make` builds, with what its pulls dispatch. -/
def outRunOf (ht : HeapTop) (f : ClientId → ClientInfo) (idleAge eraseAge checkTime : ℚ)
    (allowLimitBreak useHeap : Bool) (ops : List Op) :
    Except String (PriorityQueueBase × List (ClientId × Request)) :=
  (PriorityQueueBase.make f idleAge eraseAge checkTime allowLimitBreak useHeap).bind fun q =>
    ops.foldlM (fun acc op => (acc.1.stepOut ht op).map fun r => (r.1, acc.2 ++ r.2)) (q, [])

theorem OutRun.foldlM {ht : HeapTop} {h : List Op} {out : List (ClientId × Request)}
    {q : PriorityQueueBase} (hr : OutRun h out q) :
    ∀ {ops : List Op} {r : PriorityQueueBase × List (ClientId × Request)},
      ops.foldlM (fun acc op => (acc.1.stepOut ht op).map fun r => (r.1, acc.2 ++ r.2)) (q, out) =
        .ok r → OutRun (h ++ ops) r.2 r.1
  | [], _, hq => by cases hq; simpa using hr
  | op :: ops, _, hq => by
    obtain ⟨r₁, h₁, h₂⟩ := Except.bind_eq_ok.mp hq
    obtain ⟨r₀, h₀, rfl⟩ := Except.map_eq_ok.mp h₁
    simpa using (hr.step h₀).foldlM h₂

/-- A run that `outRunOf` computes is a run with those dispatches. -/
theorem OutRun.of_outRunOf {ht : HeapTop} {f : ClientId → ClientInfo}
    {idleAge eraseAge checkTime : ℚ} {allowLimitBreak useHeap : Bool} {ops : List Op}
    {r : PriorityQueueBase × List (ClientId × Request)}
    (h : outRunOf ht f idleAge eraseAge checkTime allowLimitBreak useHeap ops = .ok r) :
    OutRun ops r.2 r.1 := by
  obtain ⟨q₀, h₀, h₁⟩ := Except.bind_eq_ok.mp h
  simpa using (OutRun.make h₀).foldlM h₁

/-- FIFO per client (spec §8, property 1) on every run: for every client, the requests
dispatched for it followed by those still queued for it are, in order, a subsequence of the
requests added for it; and when the run makes only `add_request` and `pull_request` calls,
they are exactly those requests, in order. -/
theorem fifo_per_client {h : List Op} {out : List (ClientId × Request)} {q : PriorityQueueBase}
    (hr : OutRun h out q) (c : ClientId) :
    (requestsOf c out ++ q.clientQueue c).Sublist (requestsOf c (h.flatMap Op.added)) ∧
      (h.all Op.keepsRequests = true →
        requestsOf c out ++ q.clientQueue c = requestsOf c (h.flatMap Op.added)) := by
  induction hr with
  | make hm =>
    have hmap := (PriorityQueueBase.mapInv_make hm).1
    simp [PriorityQueueBase.clientQueue, hmap]
  | step hr hs ih =>
    obtain ⟨hsub, heq⟩ := PriorityQueueBase.stepOut_fifo _ hr.run hs c
    rw [requestsOf_append, List.flatMap_append, requestsOf_append, List.flatMap_singleton,
      List.append_assoc]
    refine ⟨(hsub.append_left _).trans (by rw [← List.append_assoc]; exact ih.1.append_right _),
      fun hall => ?_⟩
    rw [List.all_append, Bool.and_eq_true] at hall
    rw [heq (by simpa using hall.2), ← List.append_assoc, ih.2 hall.1]

/-- Two requests of a reservation-only client and a pull at time 1, in vector mode: the
first request is dispatched and the second is still queued. -/
theorem fifo_per_client_two_requests :
    ∃ q, OutRun [.addRequest 0 1 {} 0 0, .addRequest 7 1 {} 0 0, .pullRequest 1] [(1, 0)] q ∧
      q.clientQueue 1 = [7] ∧
      (requestsOf 1 [(1, 0)] ++ q.clientQueue 1).Sublist (requestsOf 1
        ([.addRequest 0 1 {} 0 0, .addRequest 7 1 {} 0 0, .pullRequest 1].flatMap Op.added)) ∧
      ([.addRequest 0 1 {} 0 0, .addRequest 7 1 {} 0 0, .pullRequest 1].all Op.keepsRequests =
          true →
        requestsOf 1 [(1, 0)] ++ q.clientQueue 1 = requestsOf 1
          ([.addRequest 0 1 {} 0 0, .addRequest 7 1 {} 0 0, .pullRequest 1].flatMap Op.added)) := by
  obtain ⟨q, hr, hq⟩ : ∃ q, OutRun [.addRequest 0 1 {} 0 0, .addRequest 7 1 {} 0 0,
      .pullRequest 1] [(1, 0)] q ∧ q.clientQueue 1 = [7] :=
    ⟨_, OutRun.of_outRunOf (show outRunOf HeapTop.first (fun _ => ClientInfo.ofNat 1 0 0) 600000
        900000 360000 false false [.addRequest 0 1 {} 0 0, .addRequest 7 1 {} 0 0,
          .pullRequest 1] = .ok (_, [(1, 0)]) by with_unfolding_all rfl),
      by with_unfolding_all rfl⟩
  exact ⟨q, hr, hq, fifo_per_client hr 1⟩

end DmClock
