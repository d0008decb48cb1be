import DmClock.Run

/- What each operation does to a state, one lemma per function of the source: the state
   after the call is a `StateChange` of the state before it, for the operation the call
   belongs to. Its records change as `StoreChange` says and its configuration stays. Later
   proofs about single records cite `step_change` (and, inside a pull,
   `doNextRequest_change`) and never unfold an operation.
-/

namespace DmClock

namespace IndIntruVector
variable {op : Op} (s : List ClientRec) (v : IndIntruVector)

theorem push_store (p : Nat) : StoreChange op s (v.push s p).1 :=
  StoreChange.set (RecChange.slot _)

end IndIntruVector

/-- What `op` does to a whole state: its records change as `StoreChange` says, and the
configuration the constructor fixed stays. -/
structure StateChange (op : Op) (q q' : PriorityQueueBase) : Prop where
  store : StoreChange op q.store q'.store
  config : q'.config = q.config

namespace StateChange
variable {op : Op} {q q' q'' : PriorityQueueBase}

theorem refl (op : Op) (q : PriorityQueueBase) : StateChange op q q := ⟨.refl _ _, rfl⟩

theorem trans (h₁ : StateChange op q q') (h₂ : StateChange op q' q'') : StateChange op q q'' :=
  ⟨h₁.store.trans h₂.store, h₂.config.trans h₁.config⟩

theorem useHeap (h : StateChange op q q') : q'.useHeap = q.useHeap :=
  congrArg (fun c => c.2.2.2.2.2) h.config

end StateChange

namespace PriorityQueueBase
variable (ht : HeapTop) (q : PriorityQueueBase) {op : Op}

@[simp] theorem setRec_store (p : Nat) (c : ClientRec) : (q.setRec p c).store = q.store.set p c :=
  rfl
@[simp] theorem adjustAll_store : q.adjustAll.store = q.store := by
  unfold adjustAll; split <;> rfl
@[simp] theorem adjustAll_clientMap : q.adjustAll.clientMap = q.clientMap := by
  unfold adjustAll; split <;> rfl
@[simp] theorem adjustReadyLimitAll_store : q.adjustReadyLimitAll.store = q.store := by
  unfold adjustReadyLimitAll; split <;> rfl
@[simp] theorem adjustResvAll_store : q.adjustResvAll.store = q.store := by
  unfold adjustResvAll; split <;> rfl
@[simp] theorem adjustAll_recOf (p : Nat) : q.adjustAll.recOf p = q.recOf p := by
  simp [recOf]
@[simp] theorem adjustReadyLimitAll_recOf (p : Nat) :
    q.adjustReadyLimitAll.recOf p = q.recOf p := by
  simp [recOf]
@[simp] theorem adjustResvAll_recOf (p : Nat) : q.adjustResvAll.recOf p = q.recOf p := by
  simp [recOf]

theorem setRec_change {p : Nat} {c : ClientRec} (h : RecChange op (q.recOf p) c) :
    StateChange op q (q.setRec p c) :=
  ⟨StoreChange.set h, rfl⟩

theorem adjustAll_change : StateChange op q q.adjustAll :=
  ⟨by rw [adjustAll_store]; exact .refl _ _, by unfold adjustAll; split <;> rfl⟩

theorem adjustReadyLimitAll_change : StateChange op q q.adjustReadyLimitAll :=
  ⟨by rw [adjustReadyLimitAll_store]; exact .refl _ _, by unfold adjustReadyLimitAll; split <;> rfl⟩

theorem adjustResvAll_change : StateChange op q q.adjustResvAll :=
  ⟨by rw [adjustResvAll_store]; exact .refl _ _, by unfold adjustResvAll; split <;> rfl⟩

/-! ## `do_add_request` -/

section Add
variable {request : Request} {clientId : ClientId} {reqParams : ReqParams} {time cost : ℚ}

theorem findOrCreate_change (c : ClientId) :
    StateChange (.addRequest request clientId reqParams time cost) q (q.findOrCreate c).1 := by
  unfold findOrCreate
  split
  · exact .refl _ _
  · dsimp only
    split
    · exact ⟨StoreChange.append_make _ _ _, rfl⟩
    · exact ⟨(StoreChange.append_make _ _ _).trans (IndIntruVector.push_store _ _ _), rfl⟩

theorem reactivate_change (p : Nat) :
    StateChange (.addRequest request clientId reqParams time cost) q (q.reactivate p time) := by
  unfold reactivate; dsimp only
  split
  · split <;> exact setRec_change q (RecChange.reactivate _)
  · exact .refl _ _

theorem enqueue_change {q' : PriorityQueueBase} {p : Nat}
    (h : q.enqueue p request reqParams time cost = .ok q') :
    StateChange (.addRequest request clientId reqParams time cost) q q' := by
  obtain ⟨tag, htag, rfl⟩ := Except.map_eq_ok.mp h
  exact setRec_change q (RecChange.enqueue _ htag)

theorem doAddRequest_change {q' : PriorityQueueBase}
    (h : q.doAddRequest request clientId reqParams time cost = .ok q') :
    StateChange (.addRequest request clientId reqParams time cost) q q' := by
  obtain ⟨q₁, h₁, rfl⟩ := Except.map_eq_ok.mp h
  have h₀ : StateChange (.addRequest request clientId reqParams time cost) q
      { q with tick := q.tick + 1 } := ⟨.refl _ _, rfl⟩
  exact (h₀.trans (findOrCreate_change _ clientId)).trans
    ((reactivate_change _ _).trans ((enqueue_change _ h₁).trans (adjustAll_change _)))

end Add

/-! ## `do_next_request` and `pull_request` -/

section Pull
variable {now : ℚ}

theorem promoteStep_change {q' : PriorityQueueBase} (h : q.promoteStep ht now = some q') :
    StateChange (.pullRequest now) q q' := by
  obtain ⟨r, rest, hreq, hready, hle, rfl⟩ := promoteStep_eq_some ht h
  exact (setRec_change q (RecChange.promote hreq hready hle)).trans (adjustReadyLimitAll_change _)

theorem promote_change (fuel : Nat) :
    StateChange (.pullRequest now) q (q.promote ht now fuel) := by
  induction fuel generalizing q with
  | zero => exact .refl _ _
  | succ fuel ih =>
    unfold promote
    split
    · rename_i q' h; exact (promoteStep_change ht q h).trans (ih q')
    · exact .refl _ _

/-- `do_next_request` changes the state only by its promotion loop. -/
theorem doNextRequest_fst {r : PriorityQueueBase × NextReq} (h : q.doNextRequest ht now = .ok r) :
    r.1 = q ∨ r.1 = q.promote ht now (q.store.length + 1) := by
  unfold doNextRequest at h
  split at h
  · cases h; exact .inl rfl
  · dsimp only at h
    split at h
    · cases h; exact .inl rfl
    · obtain ⟨_, -, rfl⟩ := Except.map_eq_ok.mp h; exact .inr rfl

theorem doNextRequest_change {r : PriorityQueueBase × NextReq}
    (h : q.doNextRequest ht now = .ok r) : StateChange (.pullRequest now) q r.1 := by
  rcases doNextRequest_fst ht q h with h' | h' <;> rw [h']
  · exact .refl _ _
  · exact promote_change ht q _

theorem popProcessRequest_change {heapId : HeapId} {r : PriorityQueueBase × ClientId × ClientReq}
    (h : q.popProcessRequest ht heapId = .ok r) : StateChange (.pullRequest now) q r.1 := by
  obtain ⟨rest, hreq, -, hr⟩ := popProcessRequest_ok ht h
  rw [hr]
  exact (setRec_change q (RecChange.pop _ rest hreq)).trans (adjustAll_change _)

theorem reduceReservationTags_change {c : ClientId} {q' : PriorityQueueBase}
    (h : q.reduceReservationTags c = .ok q') : StateChange (.pullRequest now) q q' := by
  unfold reduceReservationTags at h
  split at h
  · cases h
  · cases h
    exact (setRec_change q RecChange.reduce).trans (adjustResvAll_change _)

theorem dispatch_change {heapId : HeapId} {r : PriorityQueueBase × PullReq}
    (h : q.dispatch ht heapId = .ok r) : StateChange (.pullRequest now) q r.1 := by
  cases heapId with
  | reservation =>
    obtain ⟨r₁, h₁, rfl⟩ := Except.map_eq_ok.mp h
    exact (popProcessRequest_change ht q h₁).trans ⟨.refl _ _, rfl⟩
  | ready =>
    obtain ⟨r₁, h₁, h₂⟩ := Except.bind_eq_ok.mp h
    obtain ⟨q₂, h₃, rfl⟩ := Except.map_eq_ok.mp h₂
    have h₄ : StateChange (.pullRequest now) _ _ := reduceReservationTags_change _ h₃
    exact (popProcessRequest_change ht q h₁).trans (h₄.trans ⟨.refl _ _, rfl⟩)

theorem pullRequest_change {r : PriorityQueueBase × PullReq} (h : q.pullRequest ht now = .ok r) :
    StateChange (.pullRequest now) q r.1 := by
  obtain ⟨⟨q₁, d⟩, h₁, h₂⟩ := Except.bind_eq_ok.mp h
  refine (doNextRequest_change ht q h₁).trans ?_
  rcases d with heapId | t | _
  · exact dispatch_change ht _ h₂
  all_goals cases h₂; exact .refl _ _

end Pull

/-! ## Removal and the cleaner -/

/-- A relation that each step of a fold in `Except` establishes, and that is reflexive and
transitive, holds between the fold's start and its result. -/
theorem foldlM_rel {α β ε : Type} (R : α → α → Prop) (hrefl : ∀ a, R a a)
    (htrans : ∀ {a b c}, R a b → R b c → R a c) {f : α → β → Except ε α}
    (hf : ∀ {a b a'}, f a b = .ok a' → R a a') :
    ∀ (l : List β) (a a' : α), l.foldlM f a = .ok a' → R a a'
  | [], a, a', h => by cases h; exact hrefl a
  | b :: l, a, a', h => by
    obtain ⟨a₁, h₁, h₂⟩ := Except.bind_eq_ok.mp h
    exact htrans (hf h₁) (foldlM_rel R hrefl htrans hf l a₁ a' h₂)

/-- A fold in `Except` that fails, fails at one of its elements, from a state that the steps
before it relate to the start. -/
theorem foldlM_error {α β ε : Type} (R : α → α → Prop) (hrefl : ∀ a, R a a)
    (htrans : ∀ {a b c}, R a b → R b c → R a c) {f : α → β → Except ε α}
    (hf : ∀ {a b a'}, f a b = .ok a' → R a a') :
    ∀ (l : List β) (a : α) (e : ε), l.foldlM f a = .error e →
      ∃ b ∈ l, ∃ a₁, R a a₁ ∧ f a₁ b = .error e
  | [], _, _, h => by cases h
  | b :: l, a, e, h => by
    rw [List.foldlM_cons] at h
    cases h₁ : f a b <;> rw [h₁] at h
    case error => exact ⟨b, List.mem_cons_self _ _, a, hrefl a, h₁.trans h⟩
    case ok a₁ =>
      obtain ⟨b', hb', a₂, hR, h₂⟩ := foldlM_error R hrefl htrans hf l a₁ e h
      exact ⟨b', List.mem_cons_of_mem _ hb', a₂, htrans (hf h₁) hR, h₂⟩

/-- The same for a plain fold. -/
theorem foldl_rel {α β : Type} (R : α → α → Prop) (hrefl : ∀ a, R a a)
    (htrans : ∀ {a b c}, R a b → R b c → R a c) {f : α → β → α} (hf : ∀ a b, R a (f a b)) :
    ∀ (l : List β) (a : α), R a (l.foldl f a)
  | [], a => hrefl a
  | b :: l, a => htrans (hf a b) (foldl_rel R hrefl htrans hf l (f a b))

theorem removeByClient_change (c : ClientId) :
    StateChange (.removeByClient c) q (q.removeByClient c).1 := by
  unfold removeByClient
  split
  · exact .refl _ _
  · exact (setRec_change q RecChange.clear).trans (adjustAll_change _)

theorem filterEntry_change {f : Request → Bool} {b : Bool}
    {acc acc' : PriorityQueueBase × List Request × Bool} {e : ClientId × Nat}
    (h : filterEntry f b acc e = .ok acc') : StateChange (.removeByReqFilter f b) acc.1 acc'.1 := by
  obtain ⟨r, hr, rfl⟩ := Except.map_eq_ok.mp h
  have hset : StateChange (.removeByReqFilter f b) acc.1
      (acc.1.setRec e.2 { acc.1.recOf e.2 with requests := r.1 }) :=
    setRec_change acc.1 ((removeByReqFilter_ok f hr).1 ▸ RecChange.filter)
  split
  · exact hset.trans (adjustAll_change _)
  · exact hset

theorem removeByReqFilter_change {f : Request → Bool} {b : Bool}
    {r : PriorityQueueBase × List Request × Bool} (h : q.removeByReqFilter f b = .ok r) :
    StateChange (.removeByReqFilter f b) q r.1 :=
  foldlM_rel (fun a a' => StateChange _ a.1 a'.1) (fun _ => .refl _ _)
    StateChange.trans filterEntry_change _ _ _ h

theorem cleanEntry_change {now : ℚ} {erasePoint idlePoint : Nat} {e : ClientId × Nat}
    {q' : PriorityQueueBase} (h : cleanEntry erasePoint idlePoint q e = .ok q') :
    StateChange (.doClean now) q q' := by
  rcases cleanEntry_eq_ok h with ⟨rfl, -⟩ | rfl
  · exact setRec_change q RecChange.idle
  · exact .refl _ _

/-- `do_clean` that returns: its erase loop succeeded, and its walk, if it ran, went from the
state holding the remaining mark points to the result. -/
theorem doClean_ok {now : ℚ} {q' : PriorityQueueBase} (h : q.doClean now = .ok q') :
    ∃ r, eraseLoop (now - q.eraseAge) 0 (q.cleanMarkPoints ++ [(now, q.tick)]) = .ok r ∧
      ((r.1 > 0 ∨ idleScan (now - q.idleAge) 0 r.2 > 0) ∧
        q.clientMap.foldlM (cleanEntry r.1 (idleScan (now - q.idleAge) 0 r.2))
          { q with cleanMarkPoints := r.2 } = .ok q' ∨
       ¬(r.1 > 0 ∨ idleScan (now - q.idleAge) 0 r.2 > 0) ∧
        q' = { q with cleanMarkPoints := r.2 }) := by
  obtain ⟨r, hr, h₁⟩ := Except.bind_eq_ok.mp h
  refine ⟨r, hr, ?_⟩
  dsimp only at h₁
  split at h₁
  · exact .inl ⟨‹_›, h₁⟩
  · exact .inr ⟨‹_›, (Except.ok.inj h₁).symm⟩

/-- A relation that holds from `q` to `q` with any mark points and across every entry of the
walk that returns holds across every `do_clean` that returns. -/
theorem doClean_rel (R : PriorityQueueBase → PriorityQueueBase → Prop) (hrefl : ∀ a, R a a)
    (htrans : ∀ {a b c}, R a b → R b c → R a c) (hmarks : ∀ l, R q { q with cleanMarkPoints := l })
    (hentry : ∀ {ep ip e a a'}, cleanEntry ep ip a e = .ok a' → R a a') {now : ℚ}
    {q' : PriorityQueueBase} (h : q.doClean now = .ok q') : R q q' := by
  obtain ⟨r, -, ⟨-, hw⟩ | ⟨-, rfl⟩⟩ := doClean_ok q h
  · exact htrans (hmarks _) (foldlM_rel R hrefl htrans hentry _ _ _ hw)
  · exact hmarks _

theorem doClean_change {now : ℚ} {q' : PriorityQueueBase} (h : q.doClean now = .ok q') :
    StateChange (.doClean now) q q' :=
  doClean_rel q _ (StateChange.refl _) StateChange.trans (fun _ => ⟨.refl _ _, rfl⟩)
    (cleanEntry_change _) h

/-- Every operation changes the state as `StateChange` says. -/
theorem step_change {q' : PriorityQueueBase} (h : q.step ht op = .ok q') : StateChange op q q' := by
  cases op with
  | addRequest => exact doAddRequest_change q h
  | pullRequest =>
    obtain ⟨r, hr, rfl⟩ := Except.map_eq_ok.mp h
    exact pullRequest_change ht q hr
  | removeByClient => cases h; exact removeByClient_change q _
  | removeByReqFilter =>
    obtain ⟨r, hr, rfl⟩ := Except.map_eq_ok.mp h
    exact removeByReqFilter_change q hr
  | doClean => exact doClean_change q h

end PriorityQueueBase

/-! ## Relations the pulls, the removals and the filters keep -/

/-- A relation on states that every step of a pull, of a removal by client, of a filter, and
of the end of `do_add_request` keeps: replacing a record by one with the same id and slot,
refreshing the vector's cursors, and counting a dispatch. -/
structure PullClosed (R : PriorityQueueBase → PriorityQueueBase → Prop) : Prop where
  refl : ∀ q, R q q
  trans : ∀ {a b c}, R a b → R b c → R a c
  setRec : ∀ (q : PriorityQueueBase) p (c : ClientRec), c.client = (q.recOf p).client →
    c.lookupVectorData = (q.recOf p).lookupVectorData → R q (q.setRec p c)
  adjustAll : ∀ q : PriorityQueueBase, R q q.adjustAll
  adjustReadyLimitAll : ∀ q : PriorityQueueBase, R q q.adjustReadyLimitAll
  adjustResvAll : ∀ q : PriorityQueueBase, R q q.adjustResvAll
  sched : ∀ (q : PriorityQueueBase) (a b : Nat),
    R q { q with reservSchedCount := a, propSchedCount := b }

namespace PullClosed
variable {R : PriorityQueueBase → PriorityQueueBase → Prop} (hR : PullClosed R) (ht : HeapTop)
  {q : PriorityQueueBase}
include hR

theorem promoteStep {now : ℚ} {q' : PriorityQueueBase} (h : q.promoteStep ht now = some q') :
    R q q' := by
  obtain ⟨r, rest, -, -, -, rfl⟩ := PriorityQueueBase.promoteStep_eq_some ht h
  exact hR.trans (hR.setRec _ _ _ (by rfl) (by rfl)) (hR.adjustReadyLimitAll _)

theorem promote (now : ℚ) (fuel : Nat) (q : PriorityQueueBase) : R q (q.promote ht now fuel) := by
  induction fuel generalizing q with
  | zero => exact hR.refl q
  | succ fuel ih =>
    unfold PriorityQueueBase.promote
    split
    · rename_i q' h; exact hR.trans (hR.promoteStep ht h) (ih q')
    · exact hR.refl q

theorem doNextRequest {now : ℚ} {r : PriorityQueueBase × NextReq}
    (h : q.doNextRequest ht now = .ok r) : R q r.1 := by
  rcases PriorityQueueBase.doNextRequest_fst ht q h with h' | h' <;> rw [h']
  · exact hR.refl q
  · exact hR.promote ht _ _ q

theorem popProcessRequest {heapId : HeapId} {r : PriorityQueueBase × ClientId × ClientReq}
    (h : q.popProcessRequest ht heapId = .ok r) : R q r.1 := by
  obtain ⟨rest, -, -, hr⟩ := PriorityQueueBase.popProcessRequest_ok ht h
  rw [hr]
  exact hR.trans (hR.setRec _ _ _ (by rfl) (by rfl)) (hR.adjustAll _)

theorem reduceReservationTags {c : ClientId} {q' : PriorityQueueBase}
    (h : q.reduceReservationTags c = .ok q') : R q q' := by
  unfold PriorityQueueBase.reduceReservationTags at h
  split at h
  · cases h
  · cases h; exact hR.trans (hR.setRec _ _ _ (by rfl) (by rfl)) (hR.adjustResvAll _)

theorem pullRequest {now : ℚ} {r : PriorityQueueBase × PullReq}
    (h : q.pullRequest ht now = .ok r) : R q r.1 := by
  obtain ⟨⟨q₁, d⟩, h₁, h₂⟩ := Except.bind_eq_ok.mp h
  refine hR.trans (hR.doNextRequest ht h₁) ?_
  rcases d with heapId | t | _
  · cases heapId with
    | reservation =>
      obtain ⟨r₂, h₃, rfl⟩ := Except.map_eq_ok.mp h₂
      exact hR.trans (hR.popProcessRequest ht h₃) (hR.sched _ _ _)
    | ready =>
      obtain ⟨r₂, h₃, h₄⟩ := Except.bind_eq_ok.mp h₂
      obtain ⟨q₃, h₅, rfl⟩ := Except.map_eq_ok.mp h₄
      exact hR.trans (hR.popProcessRequest ht h₃)
        (hR.trans (hR.reduceReservationTags h₅) (hR.sched _ _ _))
  all_goals cases h₂; exact hR.refl _

theorem removeByClient (c : ClientId) : R q (q.removeByClient c).1 := by
  unfold PriorityQueueBase.removeByClient
  split
  · exact hR.refl q
  · exact hR.trans (hR.setRec _ _ _ (by rfl) (by rfl)) (hR.adjustAll _)

theorem removeByReqFilter {f : Request → Bool} {b : Bool}
    {r : PriorityQueueBase × List Request × Bool} (h : q.removeByReqFilter f b = .ok r) :
    R q r.1 := by
  refine PriorityQueueBase.foldlM_rel (fun a a' => R a.1 a'.1) (fun _ => hR.refl _) hR.trans
    (fun {acc e acc'} he => ?_) _ _ _ h
  obtain ⟨r, -, rfl⟩ := Except.map_eq_ok.mp he
  dsimp only
  split
  · exact hR.trans (hR.setRec _ _ _ (by rfl) (by rfl)) (hR.adjustAll _)
  · exact hR.setRec _ _ _ (by rfl) (by rfl)

theorem reactivate (p : Nat) (time : ℚ) : R q (q.reactivate p time) := by
  unfold PriorityQueueBase.reactivate; dsimp only
  split
  · split <;> exact hR.setRec _ _ _ (by rfl) (by rfl)
  · exact hR.refl q

theorem enqueue {p : Nat} {request : Request} {reqParams : ReqParams} {time cost : ℚ}
    {q' : PriorityQueueBase} (h : q.enqueue p request reqParams time cost = .ok q') : R q q' := by
  obtain ⟨tag, -, rfl⟩ := Except.map_eq_ok.mp h
  exact hR.setRec _ _ _ (by rfl) (by rfl)

end PullClosed

/-! ## Properties of every record of a run -/

/-- A property of single records, indexed by the run's history, that holds of the default
record and of every freshly made one, survives the arrival of one more operation, and
survives every change the newest operation can make. -/
structure RecInvariant (P : List Op → ClientRec → Prop) : Prop where
  of_default : ∀ h, P h (Inhabited.default : ClientRec)
  of_make : ∀ h c info tick, P h (ClientRec.make c info tick)
  mono : ∀ h op c, P h c → P (h ++ [op]) c
  change : ∀ h op c c', RecChange op c c' → P (h ++ [op]) c → P (h ++ [op]) c'

namespace RecInvariant
variable {P : List Op → ClientRec → Prop} (hP : RecInvariant P)
include hP

theorem changes {h : List Op} {op : Op} {c c' : ClientRec} (hc : RecChanges op c c') :
    P (h ++ [op]) c → P (h ++ [op]) c' := by
  induction hc with
  | refl => exact id
  | tail _ hlast ih => exact fun hpc => hP.change _ _ _ _ hlast (ih hpc)

/-- One operation's change of the store keeps the property of every record. -/
theorem store {h : List Op} {op : Op} {s s' : List ClientRec} (hc : StoreChange op s s')
    (hs : ∀ p, P h (deref s p)) : ∀ p, P (h ++ [op]) (deref s' p) := by
  intro p
  by_cases hp : p < s'.length
  · by_cases hold : p < s.length
    · exact hP.changes ((hc.2 p hp).1 hold) (hP.mono _ _ _ (hs p))
    · obtain ⟨c, info, tick, hcc⟩ := (hc.2 p hp).2 (by omega)
      exact hP.changes hcc (hP.of_make _ _ _ _)
  · rw [deref_of_le (not_lt.mp hp)]; exact hP.of_default _

/-- The property holds of every record of every run's end. -/
theorem run {h : List Op} {q : PriorityQueueBase} (hr : Run h q) : ∀ p, P h (q.recOf p) := by
  induction hr with
  | make hq =>
    unfold PriorityQueueBase.make at hq
    split at hq
    · cases hq
    · split at hq
      · cases hq
      · cases hq; intro p; exact hP.of_default _
  | step _ hs ih => exact hP.store (PriorityQueueBase.step_change _ _ hs).store ih

end RecInvariant

end DmClock
