import DmClock.Fifo

/- Vector mode refines heap mode (spec §4.3).

   The queue keeps its records in three heaps (`use_heap`) or in the indirect vector `cl_vec`;
   the rest of the code reads either structure only through `top()`, `empty()` and the
   adjustments after a change. This file shows that the vector is a correct replacement for
   the heaps over whole runs:
   1. `HeapTop.Correct`: a heap no record of whose map strictly precedes its `top()` in the
      view, as with a correctly ordered heap. `HeapTop.least` is one, and so is
      `HeapTop.inOrder order`, which breaks ties by the pointer order `order`.
   2. `asHeap`: the heap-mode state a vector-mode state stands for, without the vector and the
      slots the records store. Every function of the queue commutes with it. The pull reads
      its tops in heap mode from `HeapTop.inOrder` of the vector's slots, which are the
      vector's cursors while the index is intact and the cursors fresh (`Mirrors.topPtr`).
   3. `vector_mode_refines_heap_mode`: every vector-mode run, with its dispatches, is a
      heap-mode run with correct heaps through `asHeap`; `vector_calls_as_heap_calls`: from
      every reachable vector-mode state each public call returns what heap mode returns.
-/

namespace DmClock

/-! ## One-pass selection -/

/-- A scan of `p :: rest` that moves only on strict improvement under `prec`: the first of the
least elements. -/
def selectFirst {α : Type} (prec : α → α → Bool) (p : α) (rest : List α) : α :=
  rest.foldl (fun a b => if prec b a then b else a) p

section SelectFirst
variable {α : Type} {prec : α → α → Bool}

theorem selectFirst_cons (p b : α) (rest : List α) :
    selectFirst prec p (b :: rest) = selectFirst prec (if prec b p then b else p) rest := rfl

theorem selectFirst_mem (p : α) (rest : List α) : selectFirst prec p rest ∈ p :: rest := by
  induction rest generalizing p with
  | nil => exact List.mem_singleton_self p
  | cons b rest ih =>
    rw [selectFirst_cons]
    split
    · exact List.mem_cons_of_mem _ (ih b)
    · rcases List.mem_cons.mp (ih p) with h | h
      · rw [h]; exact List.mem_cons_self _ _
      · exact List.mem_cons_of_mem _ (List.mem_cons_of_mem _ h)

/-- When `prec` is `<` on a key into a linear order, the selection's key is least. -/
theorem selectFirst_le {κ : Type} [LinearOrder κ] (key : α → κ)
    (hk : ∀ a b, prec a b = true ↔ key a < key b) (p : α) (rest : List α) :
    ∀ x ∈ p :: rest, key (selectFirst prec p rest) ≤ key x := by
  induction rest generalizing p with
  | nil => simp [selectFirst]
  | cons b rest ih =>
    rw [selectFirst_cons]
    intro x hx
    by_cases hb : prec b p = true
    · have hbp := (hk b p).mp hb
      rw [if_pos hb]
      rcases List.mem_cons.mp hx with rfl | hx
      · exact (ih b b (List.mem_cons_self _ _)).trans hbp.le
      · exact ih b x hx
    · have hpb := not_lt.mp (mt (hk b p).mpr hb)
      rw [if_neg hb]
      rcases List.mem_cons.mp hx with rfl | hx
      · exact ih x x (List.mem_cons_self _ _)
      rcases List.mem_cons.mp hx with rfl | hx
      · exact (ih p p (List.mem_cons_self _ _)).trans hpb
      · exact ih p x (List.mem_cons_of_mem _ hx)

theorem selectFirst_unpreceded {κ : Type} [LinearOrder κ] (key : α → κ)
    (hk : ∀ a b, prec a b = true ↔ key a < key b) (p : α) (rest : List α) :
    ∀ x ∈ p :: rest, prec x (selectFirst prec p rest) = false := fun x hx =>
  Bool.eq_false_iff.mpr fun h => absurd ((hk _ _).mp h) (not_lt.mpr (selectFirst_le key hk p rest x hx))

end SelectFirst

/-- A scan of the records of some pointers in one view leaves a record that none of them
strictly precedes. -/
theorem View.compare_selectFirst (v : View) (store : List ClientRec) (p : Nat) (rest : List Nat) :
    ∀ x ∈ p :: rest, v.compare (deref store x)
      (deref store (selectFirst (fun a b => v.compare (deref store a) (deref store b)) p rest)) =
        false := by
  cases v
  · exact selectFirst_unpreceded (fun a => resvKey (deref store a)) (fun _ _ => resvCompare_iff _ _) p rest
  · exact selectFirst_unpreceded (fun a => readyKey (deref store a)) (fun _ _ => readyCompare_iff _ _) p rest
  · exact selectFirst_unpreceded (fun a => limitKey (deref store a)) (fun _ _ => limitCompare_iff _ _) p rest

/-! ## Correct heaps -/

/-- A correctly ordered heap: no record of the map strictly precedes its `top()` in the view. -/
def HeapTop.Correct (ht : HeapTop) : Prop :=
  ∀ (v : View) (q : PriorityQueueBase), ∀ p ∈ q.clientMap.map Prod.snd, v.compare (q.recOf p) (q.recOf (ht.top v q)) = false

/-- The heap of the model's heap-mode examples is correct. -/
theorem HeapTop.least_correct : HeapTop.least.Correct := by
  intro v q p hp
  unfold HeapTop.least
  dsimp only
  split
  · simp_all
  · rename_i e rest hm
    rw [hm, List.map_cons] at hp
    have hsel : rest.foldl (fun p e' => if v.compare (deref q.store e'.2) (deref q.store p) then e'.2
        else p) e.2 = selectFirst (fun a b => v.compare (deref q.store a) (deref q.store b)) e.2
          (rest.map Prod.snd) := by rw [selectFirst, List.foldl_map]
    rw [hsel]
    exact View.compare_selectFirst v q.store e.2 (rest.map Prod.snd) p hp

/-- The map's pointers in the order `order` lists them, those it lacks after them. -/
def orderedPtrs (order : List Nat) (q : PriorityQueueBase) : List Nat :=
  order.filter (fun p => p ∈ q.clientMap.map Prod.snd) ++
    (q.clientMap.map Prod.snd).filter fun p => p ∉ order

theorem mem_orderedPtrs (order : List Nat) {q : PriorityQueueBase} {p : Nat} :
    p ∈ orderedPtrs order q ↔ p ∈ q.clientMap.map Prod.snd := by
  by_cases h : p ∈ order <;> simp [orderedPtrs, h]

/-- A heap that breaks ties by the pointer order `order`: the first in that order of the least
records of the map. -/
def HeapTop.inOrder (order : List Nat) : HeapTop where
  top v q := match orderedPtrs order q with
    | [] => 0
    | p :: rest => selectFirst (fun a b => v.compare (q.recOf a) (q.recOf b)) p rest
  top_mem v q h := by
    dsimp only
    split
    · rename_i hn
      obtain ⟨p, hp⟩ := List.exists_mem_of_ne_nil (q.clientMap.map Prod.snd) (by simpa using h)
      have := (mem_orderedPtrs order).mpr hp
      rw [hn] at this; cases this
    · rename_i p rest hp
      exact (mem_orderedPtrs order).mp (hp ▸ selectFirst_mem p rest)

theorem HeapTop.inOrder_top_nil {order : List Nat} {q : PriorityQueueBase} {v : View}
    (h : orderedPtrs order q = []) : (HeapTop.inOrder order).top v q = 0 := by
  simp [HeapTop.inOrder, h]

theorem HeapTop.inOrder_top_cons {order : List Nat} {q : PriorityQueueBase} {v : View} {p : Nat}
    {rest : List Nat} (h : orderedPtrs order q = p :: rest) :
    (HeapTop.inOrder order).top v q =
      selectFirst (fun a b => v.compare (q.recOf a) (q.recOf b)) p rest := by
  simp [HeapTop.inOrder, h]

theorem HeapTop.inOrder_correct (order : List Nat) : (HeapTop.inOrder order).Correct := by
  intro v q p hp
  unfold HeapTop.inOrder
  dsimp only
  have hp' := (mem_orderedPtrs order).mpr hp
  split
  · rename_i hn; rw [hn] at hp'; cases hp'
  · rename_i a rest hn
    exact View.compare_selectFirst v q.store a rest p (hn ▸ hp')

/-! ## The heap-mode image of a vector-mode state -/

/-- The record as heap mode keeps it: heap mode never writes `lookup_vector_data`. -/
def ClientRec.clearSlot (c : ClientRec) : ClientRec := { c with lookupVectorData := 0 }

@[simp] theorem ClientRec.clearSlot_make (c : ClientId) (info : ClientInfo) (tick : Nat) :
    (ClientRec.make c info tick).clearSlot = ClientRec.make c info tick := rfl

/-- Each view's comparator reads no slot. -/
@[simp] theorem View.compare_clearSlot (v : View) (a b : ClientRec) :
    v.compare a.clearSlot b.clearSlot = v.compare a b := by
  cases v <;> rfl

/-- Writing a record's slot changes nothing heap mode keeps. -/
theorem map_clearSlot_set_slot (s : List ClientRec) (p i : Nat) :
    (s.set p { deref s p with lookupVectorData := i }).map ClientRec.clearSlot =
      s.map ClientRec.clearSlot := by
  refine List.ext_getElem (by simp) fun j h₁ _ => ?_
  simp only [List.getElem_map, List.getElem_set]
  split
  · subst_vars
    rw [List.length_map, List.length_set] at h₁
    simp [deref, ClientRec.clearSlot, List.getD_eq_getElem?_getD, List.getElem?_eq_getElem h₁]
  · rfl

theorem flag_eq_compare :
    ClientCompareAtOnce.resvFlag = View.reservation.compare ∧
      ClientCompareAtOnce.readyFlag = View.ready.compare ∧
      ClientCompareAtOnce.limitFlag = View.limit.compare := by
  refine ⟨funext fun a => funext fun b => ?_, funext fun a => funext fun b => ?_,
    funext fun a => funext fun b => ?_⟩
  exacts [resvFlag_eq a b, readyFlag_eq a b, limitFlag_eq a b]

/-- The vector's sweep ends on the slot that a scan of its pointers in slot order selects. -/
theorem getD_sweep {v : IndIntruVector} {store : List ClientRec} {p : Nat} {rest : List Nat}
    (hc : v.count = v.data.length) (hd : v.data = p :: rest) (prec : ClientRec → ClientRec → Bool) :
    v.data.getD (sweep (fun i c => prec (v.slot store i) (v.slot store c)) v.count) 0 =
      selectFirst (fun a b => prec (deref store a) (deref store b)) p rest := by
  have hmap : (List.range' 1 rest.length).map (fun i => (p :: rest).getD i 0) = rest :=
    List.ext_getElem (by simp) fun i _ h => by
      simp [List.getD_eq_getElem?_getD, Nat.add_comm 1 i, List.getElem?_eq_getElem h]
  simp only [sweep, selectFirst, IndIntruVector.slot, hc, hd, List.length_cons,
    Nat.add_sub_cancel]
  rw [IndIntruVector.foldl_proj _ _ (fun c => (p :: rest).getD c 0)
    (fun a i => if prec (deref store ((p :: rest).getD i 0)) (deref store a) then
      (p :: rest).getD i 0 else a) (fun _ _ => apply_ite (fun c => (p :: rest).getD c 0) _ _ _)]
  conv_rhs => rw [← hmap, List.foldl_map]
  rfl

namespace PriorityQueueBase

/-- The heap-mode state a vector-mode state stands for: the same map, records, clock and
counters, without the vector and the slots the records store. -/
def asHeap (q : PriorityQueueBase) : PriorityQueueBase :=
  { q with store := q.store.map ClientRec.clearSlot, clVec := IndIntruVector.empty,
           useHeap := true }

section AsHeap
variable (q : PriorityQueueBase)

@[simp] theorem asHeap_clientMap : q.asHeap.clientMap = q.clientMap := rfl
@[simp] theorem asHeap_useHeap : q.asHeap.useHeap = true := rfl
@[simp] theorem asHeap_length : q.asHeap.store.length = q.store.length := List.length_map _ _
@[simp] theorem asHeap_tick : q.asHeap.tick = q.tick := rfl
@[simp] theorem asHeap_cleanMarkPoints : q.asHeap.cleanMarkPoints = q.cleanMarkPoints := rfl
@[simp] theorem asHeap_idleAge : q.asHeap.idleAge = q.idleAge := rfl
@[simp] theorem asHeap_eraseAge : q.asHeap.eraseAge = q.eraseAge := rfl
@[simp] theorem asHeap_allowLimitBreak : q.asHeap.allowLimitBreak = q.allowLimitBreak := rfl

@[simp] theorem recOf_asHeap (p : Nat) : q.asHeap.recOf p = (q.recOf p).clearSlot := by
  simp only [recOf, asHeap, deref, List.getD_eq_getElem?_getD, List.getElem?_map]
  cases q.store[p]? <;> rfl

theorem setRec_asHeap (p : Nat) (c : ClientRec) :
    (q.setRec p c).asHeap = q.asHeap.setRec p c.clearSlot := by
  simp only [setRec, asHeap, List.map_set]

@[simp] theorem adjustAll_asHeap : q.adjustAll.asHeap = q.asHeap := by
  unfold adjustAll; split <;> rfl

@[simp] theorem adjustReadyLimitAll_asHeap : q.adjustReadyLimitAll.asHeap = q.asHeap := by
  unfold adjustReadyLimitAll; split <;> rfl

@[simp] theorem adjustResvAll_asHeap : q.adjustResvAll.asHeap = q.asHeap := by
  unfold adjustResvAll; split <;> rfl

@[simp] theorem setRec_useHeap (p : Nat) (c : ClientRec) : (q.setRec p c).useHeap = q.useHeap := rfl

/-- Heap mode's adjustments only reorder the heaps. -/
@[simp] theorem adjustAll_of_heap {q : PriorityQueueBase} (h : q.useHeap = true) :
    q.adjustAll = q := by
  simp [adjustAll, h]

@[simp] theorem adjustReadyLimitAll_of_heap {q : PriorityQueueBase} (h : q.useHeap = true) :
    q.adjustReadyLimitAll = q := by
  simp [adjustReadyLimitAll, h]

@[simp] theorem adjustResvAll_of_heap {q : PriorityQueueBase} (h : q.useHeap = true) :
    q.adjustResvAll = q := by
  simp [adjustResvAll, h]

end AsHeap

/-! ## Every function commutes with `asHeap` -/

section Commute
variable (q : PriorityQueueBase)

theorem findOrCreate_asHeap (c : ClientId) :
    q.asHeap.findOrCreate c = ((q.findOrCreate c).1.asHeap, (q.findOrCreate c).2) := by
  unfold findOrCreate
  rw [asHeap_clientMap]
  cases q.clientMap.lookup c with
  | some p => rfl
  | none =>
    dsimp only
    rw [asHeap_useHeap, if_pos rfl, asHeap_length]
    refine Prod.ext ?_ rfl
    cases hv : q.useHeap
    · simp only [Bool.false_eq_true, if_false, IndIntruVector.push, asHeap, map_clearSlot_set_slot,
        List.map_append, List.map_singleton, ClientRec.clearSlot_make]
    · simp only [if_true, asHeap, List.map_append, List.map_singleton, ClientRec.clearSlot_make]

theorem lowestPropTag_asHeap : q.asHeap.lowestPropTag = q.lowestPropTag := by
  simp only [lowestPropTag, recOf_asHeap, asHeap_clientMap]; rfl

theorem reactivate_asHeap (p : Nat) (time : ℚ) :
    (q.reactivate p time).asHeap = q.asHeap.reactivate p time := by
  unfold reactivate
  rw [lowestPropTag_asHeap, recOf_asHeap]
  dsimp only [ClientRec.clearSlot]
  split
  · split <;> exact setRec_asHeap ..
  · rfl

theorem enqueue_asHeap (p : Nat) (request : Request) (reqParams : ReqParams) (time cost : ℚ) :
    (q.enqueue p request reqParams time cost).map asHeap =
      q.asHeap.enqueue p request reqParams time cost := by
  unfold enqueue
  rw [recOf_asHeap]
  dsimp only [ClientRec.clearSlot]
  cases requestTag (q.recOf p).prevTag (q.recOf p).info reqParams time cost with
  | error => rfl
  | ok tag => exact congrArg Except.ok (setRec_asHeap ..)

theorem doAddRequest_asHeap (request : Request) (clientId : ClientId) (reqParams : ReqParams)
    (time cost : ℚ) :
    (q.doAddRequest request clientId reqParams time cost).map asHeap =
      q.asHeap.doAddRequest request clientId reqParams time cost := by
  have hq : ({ q.asHeap with tick := q.asHeap.tick + 1 } : PriorityQueueBase) =
      ({ q with tick := q.tick + 1 } : PriorityQueueBase).asHeap := rfl
  have hadj : ∀ x : Except String PriorityQueueBase,
      (x.map adjustAll).map asHeap = (x.map asHeap).map adjustAll := by
    rintro (_ | a)
    · rfl
    · exact congrArg Except.ok (by rw [adjustAll_asHeap, adjustAll_of_heap (asHeap_useHeap a)])
  unfold doAddRequest
  rw [hq, findOrCreate_asHeap]
  dsimp only
  rw [hadj, enqueue_asHeap, reactivate_asHeap]

theorem reduceReservationTags_asHeap (c : ClientId) :
    (q.reduceReservationTags c).map asHeap = q.asHeap.reduceReservationTags c := by
  unfold reduceReservationTags
  rw [asHeap_clientMap]
  cases q.clientMap.lookup c with
  | none => rfl
  | some p =>
    exact congrArg Except.ok (by rw [adjustResvAll_asHeap, setRec_asHeap, recOf_asHeap]; rfl)

theorem removeByClient_asHeap (c : ClientId) :
    q.asHeap.removeByClient c = ((q.removeByClient c).1.asHeap, (q.removeByClient c).2) := by
  unfold removeByClient
  rw [asHeap_clientMap]
  cases q.clientMap.lookup c with
  | none => rfl
  | some p =>
    dsimp only
    simp only [recOf_asHeap, adjustAll_asHeap, setRec_asHeap, adjustAll_of_heap, setRec_useHeap,
      asHeap_useHeap]
    rfl

theorem filterEntry_asHeap (f : Request → Bool) (b : Bool)
    (acc : PriorityQueueBase × List Request × Bool) (e : ClientId × Nat) :
    (filterEntry f b acc e).map (fun r => (r.1.asHeap, r.2)) =
      filterEntry f b (acc.1.asHeap, acc.2) e := by
  unfold filterEntry
  rw [recOf_asHeap]
  dsimp only [ClientRec.clearSlot]
  cases DmClock.removeByReqFilter f (acc.1.recOf e.2).requests acc.2.1 b with
  | error => rfl
  | ok r =>
    refine congrArg Except.ok ?_
    dsimp only
    split <;> simp only [adjustAll_asHeap, adjustAll_of_heap, setRec_useHeap, asHeap_useHeap,
      setRec_asHeap] <;> rfl

/-- A fold whose steps commute with `g` commutes with `g`. -/
theorem foldlM_hom {α β γ ε : Type} (g : α → γ) {f : α → β → Except ε α}
    {f' : γ → β → Except ε γ} (h : ∀ a b, (f a b).map g = f' (g a) b) :
    ∀ (l : List β) (a : α), (l.foldlM f a).map g = l.foldlM f' (g a)
  | [], _ => rfl
  | b :: l, a => by
    simp only [List.foldlM_cons, ← h]
    cases f a b with
    | error => rfl
    | ok a' => exact foldlM_hom g h l a'

theorem removeByReqFilter_asHeap (f : Request → Bool) (b : Bool) :
    (q.removeByReqFilter f b).map (fun r => (r.1.asHeap, r.2)) = q.asHeap.removeByReqFilter f b :=
  foldlM_hom _ (filterEntry_asHeap f b) q.clientMap (q, [], false)

theorem cleanEntry_asHeap (erasePoint idlePoint : Nat) (e : ClientId × Nat) :
    (cleanEntry erasePoint idlePoint q e).map asHeap = cleanEntry erasePoint idlePoint q.asHeap e := by
  unfold cleanEntry
  rw [recOf_asHeap]
  dsimp only [ClientRec.clearSlot]
  split
  · rfl
  · split
    · exact congrArg Except.ok (setRec_asHeap ..)
    · rfl

theorem doClean_asHeap (now : ℚ) : (q.doClean now).map asHeap = q.asHeap.doClean now := by
  unfold doClean
  simp only [asHeap_eraseAge, asHeap_cleanMarkPoints, asHeap_tick, asHeap_idleAge]
  cases eraseLoop (now - q.eraseAge) 0 (q.cleanMarkPoints ++ [(now, q.tick)]) with
  | error => rfl
  | ok r =>
    dsimp only [Except.bind]
    split
    · exact foldlM_hom asHeap (fun a e => cleanEntry_asHeap a _ _ e) q.clientMap _
    · rfl

end Commute

/-! ## The pull reads the same tops -/

section Pull
variable (q : PriorityQueueBase) {ht hh : HeapTop}

theorem popProcessRequest_asHeap {heapId : HeapId}
    (htop : q.asHeap.topPtr hh heapId.view = q.topPtr ht heapId.view) :
    (q.popProcessRequest ht heapId).map (fun r => (r.1.asHeap, r.2)) =
      q.asHeap.popProcessRequest hh heapId := by
  unfold popProcessRequest
  dsimp only
  rw [htop, recOf_asHeap]
  dsimp only [ClientRec.clearSlot]
  cases (q.recOf (q.topPtr ht heapId.view)).requests with
  | nil => rfl
  | cons first rest =>
    refine congrArg Except.ok ?_
    simp only [adjustAll_asHeap, setRec_asHeap, adjustAll_of_heap, setRec_useHeap, asHeap_useHeap]
    rfl

theorem dispatch_asHeap {heapId : HeapId}
    (htop : q.asHeap.topPtr hh heapId.view = q.topPtr ht heapId.view) :
    (q.dispatch ht heapId).map (fun r => (r.1.asHeap, r.2)) = q.asHeap.dispatch hh heapId := by
  have hpop := popProcessRequest_asHeap q htop
  cases heapId with
  | reservation =>
    simp only [dispatch]
    rw [← hpop]
    cases q.popProcessRequest ht .reservation <;> rfl
  | ready =>
    simp only [dispatch]
    rw [← hpop]
    rcases q.popProcessRequest ht .ready with _ | ⟨q₁, c, r⟩
    · rfl
    · show ((q₁.reduceReservationTags c).map _).map _ = (q₁.asHeap.reduceReservationTags c).map _
      rw [← reduceReservationTags_asHeap]
      cases q₁.reduceReservationTags c <;> rfl

theorem promoteStep_asHeap (htop : q.asHeap.topPtr hh .limit = q.topPtr ht .limit) (now : ℚ) :
    (q.promoteStep ht now).map asHeap = q.asHeap.promoteStep hh now := by
  unfold promoteStep
  dsimp only
  rw [htop, recOf_asHeap]
  dsimp only [ClientRec.clearSlot]
  cases (q.recOf (q.topPtr ht .limit)).requests with
  | nil => rfl
  | cons r rest =>
    dsimp only
    split_ifs
    · refine congrArg some ?_
      simp only [adjustReadyLimitAll_asHeap, setRec_asHeap, adjustReadyLimitAll_of_heap,
        setRec_useHeap, asHeap_useHeap]
      rfl
    · rfl

theorem laterPhases_asHeap (htop : ∀ v, q.asHeap.topPtr hh v = q.topPtr ht v) (pr : Nat) :
    q.asHeap.laterPhases hh pr = q.laterPhases ht pr := by
  simp only [laterPhases, topRec, htop, recOf_asHeap, asHeap_allowLimitBreak, ClientRec.clearSlot]

end Pull

/-- A vector-mode state with its index intact, its cursors fresh and the slots `order`: the
states one pull passes through, whose tops heap mode reads from `HeapTop.inOrder order`. -/
structure Mirrors (order : List Nat) (q : PriorityQueueBase) : Prop where
  vector : q.useHeap = false
  index : IndexInv q
  cursors : q.CursorInv
  data : q.clVec.data = order

namespace Mirrors
variable {order : List Nat} {q q' : PriorityQueueBase}

theorem of_run {h : List Op} (hr : Run h q) (hv : q.useHeap = false) : Mirrors q.clVec.data q :=
  ⟨hv, indexInv_of_run hr hv, cursorInv_of_run hr, rfl⟩

theorem of_sameIndex (hm : Mirrors order q) (hs : SameIndex q q') (hc : q'.CursorInv) :
    Mirrors order q' :=
  ⟨hs.useHeap.trans hm.vector, hs.indexInv hm.index, hc, hs.data.trans hm.data⟩

/-- The tops heap mode reads are the vector's cursors. -/
theorem topPtr (hm : Mirrors order q) (ht : HeapTop) (v : View) :
    q.asHeap.topPtr (HeapTop.inOrder order) v = q.topPtr ht v := by
  have hperm := data_perm hm.index
  have hord : orderedPtrs order q.asHeap = order := by
    rw [← hm.data, orderedPtrs, asHeap_clientMap,
      List.filter_eq_self.mpr fun p hp => by simpa using hperm.subset hp,
      List.filter_eq_nil_iff.mpr fun p hp => by simpa using hperm.symm.subset hp, List.append_nil]
  have hf := hm.cursors hm.vector
  simp only [PriorityQueueBase.topPtr, asHeap_useHeap, if_true, hm.vector, Bool.false_eq_true,
    if_false]
  rcases hd : orderedPtrs order q.asHeap with _ | ⟨p, rest⟩
  · rw [HeapTop.inOrder_top_nil hd, hm.data, ← hord, hd]
    cases v <;> rfl
  · have hd' := hm.data.trans (hord.symm.trans hd)
    obtain ⟨hr, hy, hl⟩ := flag_eq_compare
    rw [HeapTop.inOrder_top_cons hd]
    simp only [recOf_asHeap, View.compare_clearSlot]
    cases v
    · rw [hf.resv, IndIntruVector.resvSweep, hr, getD_sweep hm.index.count_eq hd']; rfl
    · rw [hf.ready, IndIntruVector.readySweep, hy, getD_sweep hm.index.count_eq hd']; rfl
    · rw [hf.limit, IndIntruVector.limitSweep, hl, getD_sweep hm.index.count_eq hd']; rfl

theorem noClients (hm : Mirrors order q) : q.asHeap.noClients = q.noClients := by
  simp only [PriorityQueueBase.noClients, asHeap_useHeap, if_true, hm.vector, Bool.false_eq_true,
    if_false, asHeap_clientMap, hm.index.count_eq, (data_perm hm.index).length_eq]
  cases q.clientMap <;> rfl

theorem empty (hm : Mirrors order q) (ht : HeapTop) :
    q.asHeap.empty (HeapTop.inOrder order) = q.empty ht := by
  simp only [PriorityQueueBase.empty, topRec, hm.noClients, hm.topPtr ht, recOf_asHeap,
    ClientRec.clearSlot, ClientRec.hasRequest]

theorem promote_asHeap (hm : Mirrors order q) (ht : HeapTop) (now : ℚ) (fuel : Nat) :
    (q.promote ht now fuel).asHeap = q.asHeap.promote (HeapTop.inOrder order) now fuel := by
  induction fuel generalizing q with
  | zero => rfl
  | succ fuel ih =>
    have hstep := promoteStep_asHeap q (hm.topPtr ht .limit) now
    unfold PriorityQueueBase.promote
    cases hs : q.promoteStep ht now with
    | none => rw [hs] at hstep; rw [← hstep]; rfl
    | some q' =>
      rw [hs] at hstep; rw [← hstep]
      exact ih (hm.of_sameIndex (sameIndex_pullClosed.promoteStep ht hs)
        (hm.cursors.promoteStep ht hs))

theorem doNextRequest_asHeap (hm : Mirrors order q) (ht : HeapTop) (now : ℚ) :
    (q.doNextRequest ht now).map (fun r => (r.1.asHeap, r.2)) =
      q.asHeap.doNextRequest (HeapTop.inOrder order) now := by
  unfold doNextRequest
  dsimp only
  rw [hm.noClients, hm.topPtr ht .reservation, recOf_asHeap, asHeap_length]
  dsimp only [ClientRec.clearSlot]
  split_ifs
  · rfl
  · rfl
  · have hm' : Mirrors order (q.promote ht now (q.store.length + 1)) :=
      hm.of_sameIndex (sameIndex_pullClosed.promote ht now _ q) (hm.cursors.promote ht now _ q)
    rw [← hm.promote_asHeap ht now, laterPhases_asHeap _ (hm'.topPtr ht)]
    cases (q.promote ht now (q.store.length + 1)).laterPhases ht (q.topPtr ht .reservation) <;> rfl

theorem pullRequest_asHeap (hm : Mirrors order q) (ht : HeapTop) (now : ℚ) :
    (q.pullRequest ht now).map (fun r => (r.1.asHeap, r.2)) =
      q.asHeap.pullRequest (HeapTop.inOrder order) now := by
  unfold pullRequest
  rw [← hm.doNextRequest_asHeap ht now]
  cases hd : q.doNextRequest ht now with
  | error => rfl
  | ok r =>
    obtain ⟨q₁, d⟩ := r
    have hm₁ : Mirrors order q₁ := hm.of_sameIndex (sameIndex_pullClosed.doNextRequest ht hd)
      (hm.cursors.doNextRequest ht hd)
    cases d with
    | returning heapId => exact dispatch_asHeap q₁ (hm₁.topPtr ht _)
    | future t => rfl
    | none => rfl

theorem stepOut_asHeap (hm : Mirrors order q) (ht : HeapTop) (op : Op) :
    (q.stepOut ht op).map (fun r => (r.1.asHeap, r.2)) =
      q.asHeap.stepOut (HeapTop.inOrder order) op := by
  cases op with
  | pullRequest now =>
    simp only [stepOut]
    rw [← hm.pullRequest_asHeap ht now]
    cases q.pullRequest ht now <;> rfl
  | addRequest request c reqParams time cost =>
    simp only [stepOut, step]
    rw [← doAddRequest_asHeap]
    cases q.doAddRequest request c reqParams time cost <;> rfl
  | removeByClient c => simp only [stepOut, step, removeByClient_asHeap]; rfl
  | removeByReqFilter f b =>
    simp only [stepOut, step]
    rw [← removeByReqFilter_asHeap]
    cases q.removeByReqFilter f b <;> rfl
  | doClean now =>
    simp only [stepOut, step]
    rw [← doClean_asHeap]
    cases q.doClean now <;> rfl

end Mirrors

/-- From every reachable vector-mode state, each public call of the pull façade returns what it
returns in heap mode, when the heap breaks ties by the vector's slot order, and the two states
it leaves agree up to the vector: `empty()`, `pull_request(now)` with its dispatch or wake-up
time, `add_request`, `remove_by_client` and `remove_by_req_filter` with what they collect, and
`do_clean`. -/
theorem vector_calls_as_heap_calls {h : List Op} {q : PriorityQueueBase} (hr : Run h q)
    (hv : q.useHeap = false) (ht : HeapTop) :
    q.asHeap.empty (HeapTop.inOrder q.clVec.data) = q.empty ht ∧
    (∀ now, q.asHeap.pullRequest (HeapTop.inOrder q.clVec.data) now =
      (q.pullRequest ht now).map fun r => (r.1.asHeap, r.2)) ∧
    (∀ request clientId reqParams time cost,
      q.asHeap.doAddRequest request clientId reqParams time cost =
        (q.doAddRequest request clientId reqParams time cost).map asHeap) ∧
    (∀ c, q.asHeap.removeByClient c = ((q.removeByClient c).1.asHeap, (q.removeByClient c).2)) ∧
    (∀ f b, q.asHeap.removeByReqFilter f b =
      (q.removeByReqFilter f b).map fun r => (r.1.asHeap, r.2)) ∧
    (∀ now, q.asHeap.doClean now = (q.doClean now).map asHeap) := by
  have hm := Mirrors.of_run hr hv
  exact ⟨hm.empty ht, fun now => (hm.pullRequest_asHeap ht now).symm,
    fun _ _ _ _ _ => (doAddRequest_asHeap ..).symm, removeByClient_asHeap q,
    fun f b => (removeByReqFilter_asHeap q f b).symm, fun now => (doClean_asHeap q now).symm⟩

/-- A client with reservation 1 and two requests, in vector mode: the calls agree with heap
mode's. -/
theorem vector_calls_as_heap_calls_two_requests :
    ∃ q, Run [.addRequest 0 1 {} 0 0, .addRequest 7 1 {} 0 0] q ∧ q.useHeap = false ∧
      q.asHeap.empty (HeapTop.inOrder q.clVec.data) = q.empty HeapTop.first ∧
      (∀ now, q.asHeap.pullRequest (HeapTop.inOrder q.clVec.data) now =
        (q.pullRequest HeapTop.first now).map fun r => (r.1.asHeap, r.2)) := by
  obtain ⟨q, hr, hv⟩ : ∃ q, Run [.addRequest 0 1 {} 0 0, .addRequest 7 1 {} 0 0] q ∧
      q.useHeap = false :=
    ⟨_, Run.of_runOf (show runOf HeapTop.first (fun _ => ClientInfo.ofNat 1 0 0) 600000 900000
        360000 false false [.addRequest 0 1 {} 0 0, .addRequest 7 1 {} 0 0] = .ok _ by
          with_unfolding_all rfl), by with_unfolding_all rfl⟩
  obtain ⟨he, hp, -⟩ := vector_calls_as_heap_calls hr hv HeapTop.first
  exact ⟨q, hr, hv, he, hp⟩

end PriorityQueueBase

/-! ## Runs -/

/-- `HeapRun h out q`: the operations `h` take a queue constructed in heap mode to `q` with a
correctly ordered heap at every call, and its pulls dispatch `out`. -/
inductive HeapRun : List Op → List (ClientId × Request) → PriorityQueueBase → Prop
  | make {f : ClientId → ClientInfo} {idleAge eraseAge checkTime : ℚ} {allowLimitBreak : Bool}
      {q : PriorityQueueBase} :
      PriorityQueueBase.make f idleAge eraseAge checkTime allowLimitBreak true = .ok q →
      HeapRun [] [] q
  | step {h : List Op} {out o : List (ClientId × Request)} {q q' : PriorityQueueBase}
      {ht : HeapTop} {op : Op} :
      HeapRun h out q → ht.Correct → q.stepOut ht op = .ok (q', o) →
      HeapRun (h ++ [op]) (out ++ o) q'

/-- Every run of vector mode, with what its pulls dispatch, is a run of heap mode with a
correctly ordered heap at every call, which ends in the vector-mode state without its vector:
the same client map, records, counters and clean mark points. -/
theorem vector_mode_refines_heap_mode {h : List Op} {out : List (ClientId × Request)}
    {q : PriorityQueueBase} (hr : OutRun h out q) (hv : q.useHeap = false) :
    HeapRun h out q.asHeap := by
  induction hr with
  | @make f idleAge eraseAge checkTime allowLimitBreak useHeap q hm =>
    refine @HeapRun.make f idleAge eraseAge checkTime allowLimitBreak _ ?_
    unfold PriorityQueueBase.make at hm ⊢
    split_ifs at hm ⊢
    cases hm; rfl
  | @step h out o q q' ht op hr₀ hs ih =>
    have hv₀ : q.useHeap = false :=
      ((PriorityQueueBase.step_change ht q (PriorityQueueBase.stepOut_step ht hs)).useHeap).symm.trans hv
    have hstep := (PriorityQueueBase.Mirrors.of_run hr₀.run hv₀).stepOut_asHeap ht op
    rw [hs] at hstep
    exact .step (ih hv₀) (HeapTop.inOrder_correct _) hstep.symm

/-- Two requests of a reservation-only client and a pull at time 1, in vector mode: heap mode
with a correct heap dispatches the same request. -/
theorem vector_mode_refines_heap_mode_two_requests :
    ∃ q, OutRun [.addRequest 0 1 {} 0 0, .addRequest 7 1 {} 0 0, .pullRequest 1] [(1, 0)] q ∧
      q.useHeap = false ∧
      HeapRun [.addRequest 0 1 {} 0 0, .addRequest 7 1 {} 0 0, .pullRequest 1] [(1, 0)] q.asHeap := by
  obtain ⟨q, hr, hv⟩ : ∃ q, OutRun [.addRequest 0 1 {} 0 0, .addRequest 7 1 {} 0 0,
      .pullRequest 1] [(1, 0)] q ∧ q.useHeap = false :=
    ⟨_, OutRun.of_outRunOf (show outRunOf HeapTop.first (fun _ => ClientInfo.ofNat 1 0 0) 600000
        900000 360000 false false [.addRequest 0 1 {} 0 0, .addRequest 7 1 {} 0 0,
          .pullRequest 1] = .ok (_, [(1, 0)]) by with_unfolding_all rfl),
      by with_unfolding_all rfl⟩
  exact ⟨q, hr, hv, vector_mode_refines_heap_mode hr hv⟩

end DmClock
