import DmClock.Records
import Mathlib.Data.List.Nodup

/- The index structures of vector mode (spec §4.3): `client_map`, the indirect vector
   `cl_vec`, and the slot each record stores (`lookup_vector_data`).

   1. `MapInv`: every record of the map holds the id it is stored under; the ids and the
      records of the map are distinct and in the store.
   2. `IndexInv`: in vector mode, moreover `count = data.size()`, the record of slot `j`
      stores `j`, and the records of slots `0 .. count - 1` are exactly the map's.
   3. `indexInv_of_run`: every state of a vector-mode run satisfies `IndexInv`. Every
      operation other than client creation and the cleaner's erasure leaves the map, the
      vector, and each record's id and slot alone (`SameIndex`); creation pushes a fresh
      record (`findOrCreate_indexInv`), and erasure moves the last slot into the erased one
      (`cleanEntry_indexInv`).
-/

namespace DmClock

/-! ## The client map -/

section Map
variable {m : List (ClientId × Nat)} {c : ClientId} {p : Nat}

/-- `lookup` through one entry, as an `if`. -/
theorem lookup_cons_ite (d : ClientId) (e : ClientId × Nat) (m : List (ClientId × Nat)) :
    (e :: m).lookup d = if d = e.1 then some e.2 else m.lookup d := by
  obtain ⟨k, v⟩ := e
  by_cases h : d = k
  · subst h; simp
  · simp [List.lookup_cons, h, beq_false_of_ne h]

theorem lookup_mem (h : m.lookup c = some p) : (c, p) ∈ m := by
  induction m with
  | nil => simp at h
  | cons e m ih =>
    rw [lookup_cons_ite] at h
    split at h
    · rename_i hc
      cases h; subst hc; exact List.mem_cons_self _ _
    · exact List.mem_cons_of_mem _ (ih h)

theorem lookup_none (h : m.lookup c = none) : c ∉ m.map Prod.fst := by
  induction m with
  | nil => simp
  | cons e m ih =>
    rw [lookup_cons_ite] at h
    split at h
    · cases h
    · rename_i hc
      simpa [hc] using ih h

theorem lookup_of_mem (hk : (m.map Prod.fst).Nodup) (h : (c, p) ∈ m) : m.lookup c = some p := by
  induction m with
  | nil => simp at h
  | cons e m ih =>
    rw [List.map_cons, List.nodup_cons] at hk
    rcases List.mem_cons.mp h with rfl | h
    · simp [lookup_cons_ite]
    · have hc : c ≠ e.1 := fun he => hk.1 (he ▸ List.mem_map_of_mem _ h)
      rw [lookup_cons_ite, if_neg hc]
      exact ih hk.2 h

/-- Inserting a new id puts its entry among the others. -/
theorem mapInsert_perm : ∀ {m : List (ClientId × Nat)}, c ∉ m.map Prod.fst →
    (mapInsert c p m).Perm ((c, p) :: m)
  | [], _ => .refl _
  | e :: m, h => by
    have hne : c ≠ e.1 := fun he => h (by simp [he])
    unfold mapInsert
    split
    · exact .refl _
    · exact ((mapInsert_perm fun hm => h (List.mem_cons_of_mem _ hm)).cons e).trans (.swap _ _ _)

end Map

namespace PriorityQueueBase

/-- The record a pointer designates after one record is replaced. -/
theorem recOf_setRec (q : PriorityQueueBase) (p p' : Nat) (c : ClientRec) :
    (q.setRec p c).recOf p' = if p = p' ∧ p < q.store.length then c else q.recOf p' := by
  split
  · rename_i h; rw [← h.1]; exact recOf_setRec_self _ h.2 c
  · rename_i h
    by_cases hp : p = p'
    · subst hp; exact recOf_setRec_of_le _ (not_lt.mp fun hl => h ⟨rfl, hl⟩) c
    · exact deref_set_ne hp c

/-! ## The invariants -/

/-- The facts of the map both modes keep: each record holds the id it is stored under, the
ids and the records are distinct, and every record is in the store. -/
structure MapInv (q : PriorityQueueBase) : Prop where
  client : ∀ e ∈ q.clientMap, (q.recOf e.2).client = e.1
  keys_nodup : (q.clientMap.map Prod.fst).Nodup
  values_nodup : (q.clientMap.map Prod.snd).Nodup
  lt_length : ∀ e ∈ q.clientMap, e.2 < q.store.length

/-- The index invariant of the indirect vector. -/
structure IndexInv (q : PriorityQueueBase) extends MapInv q : Prop where
  count_eq : q.clVec.count = q.clVec.data.length
  slot : ∀ j < q.clVec.count, (q.recOf (q.clVec.data.getD j 0)).lookupVectorData = j
  data_mem : ∀ j < q.clVec.count, q.clVec.data.getD j 0 ∈ q.clientMap.map Prod.snd
  mem_data : ∀ p ∈ q.clientMap.map Prod.snd, p ∈ q.clVec.data

namespace IndexInv
variable {q : PriorityQueueBase} (hi : IndexInv q)
include hi

/-- Slots hold distinct pointers: each stores its own slot. -/
theorem slot_inj {j k : Nat} (hj : j < q.clVec.count) (hk : k < q.clVec.count)
    (h : q.clVec.data.getD j 0 = q.clVec.data.getD k 0) : j = k := by
  rw [← hi.slot j hj, ← hi.slot k hk, h]

theorem data_nodup : q.clVec.data.Nodup := by
  refine List.nodup_iff_injective_getElem.mpr fun a b h => Fin.ext (hi.slot_inj
    (by rw [hi.count_eq]; exact a.2) (by rw [hi.count_eq]; exact b.2) ?_)
  simpa [List.getD_eq_getElem?_getD, List.getElem?_eq_getElem a.2, List.getElem?_eq_getElem b.2]
    using h

end IndexInv

/-- The part of a state the index invariant reads is unchanged: the map, the vector's
pointers and count, the store's size, and every record's id and slot. -/
structure SameIndex (q q' : PriorityQueueBase) : Prop where
  clientMap : q'.clientMap = q.clientMap
  data : q'.clVec.data = q.clVec.data
  count : q'.clVec.count = q.clVec.count
  length : q'.store.length = q.store.length
  client : ∀ p, (q'.recOf p).client = (q.recOf p).client
  slot : ∀ p, (q'.recOf p).lookupVectorData = (q.recOf p).lookupVectorData
  useHeap : q'.useHeap = q.useHeap

namespace SameIndex
variable {q q' q'' : PriorityQueueBase}

theorem refl (q : PriorityQueueBase) : SameIndex q q :=
  ⟨rfl, rfl, rfl, rfl, fun _ => rfl, fun _ => rfl, rfl⟩

theorem trans (h₁ : SameIndex q q') (h₂ : SameIndex q' q'') : SameIndex q q'' :=
  ⟨h₂.clientMap.trans h₁.clientMap, h₂.data.trans h₁.data, h₂.count.trans h₁.count,
    h₂.length.trans h₁.length,
    fun p => (h₂.client p).trans (h₁.client p), fun p => (h₂.slot p).trans (h₁.slot p),
    h₂.useHeap.trans h₁.useHeap⟩

/-- A change of everything else than the store, the map, the vector and the mode. -/
theorem of_eq (hs : q'.store = q.store) (hm : q'.clientMap = q.clientMap)
    (hv : q'.clVec.data = q.clVec.data) (hc : q'.clVec.count = q.clVec.count)
    (hu : q'.useHeap = q.useHeap) : SameIndex q q' :=
  ⟨hm, hv, hc, by rw [hs], fun p => by rw [recOf, hs]; rfl, fun p => by rw [recOf, hs]; rfl, hu⟩

theorem mapInv (h : SameIndex q q') (hi : MapInv q) : MapInv q' := by
  refine ⟨?_, ?_, ?_, ?_⟩ <;> rw [h.clientMap]
  · exact fun e he => (h.client e.2).trans (hi.client e he)
  · exact hi.keys_nodup
  · exact hi.values_nodup
  · exact fun e he => h.length ▸ hi.lt_length e he

theorem indexInv (h : SameIndex q q') (hi : IndexInv q) : IndexInv q' where
  toMapInv := h.mapInv hi.toMapInv
  count_eq := by rw [h.count, h.data]; exact hi.count_eq
  slot j hj := by rw [h.slot, h.data]; exact hi.slot j (h.count ▸ hj)
  data_mem j hj := by rw [h.data, h.clientMap]; exact hi.data_mem j (h.count ▸ hj)
  mem_data p hp := by rw [h.data]; exact hi.mem_data p (h.clientMap ▸ hp)

end SameIndex

/-! ## Operations that leave the index structures alone -/

theorem sameIndex_pullClosed : PullClosed SameIndex where
  refl := SameIndex.refl
  trans := SameIndex.trans
  setRec q p c hc hs := by
    refine ⟨rfl, rfl, rfl, List.length_set .., fun p' => ?_, fun p' => ?_, rfl⟩ <;>
      rw [recOf_setRec] <;> split
    · obtain ⟨rfl, -⟩ := ‹p = p' ∧ _›; exact hc
    · rfl
    · obtain ⟨rfl, -⟩ := ‹p = p' ∧ _›; exact hs
    · rfl
  adjustAll q := by
    unfold adjustAll; split
    · exact .refl _
    · exact .of_eq rfl rfl (IndIntruVector.adjust_data ..) (IndIntruVector.adjust_count ..) rfl
  adjustReadyLimitAll q := by
    unfold adjustReadyLimitAll; split
    · exact .refl _
    · exact .of_eq rfl rfl (IndIntruVector.adjustReadyLimit_data ..)
        (IndIntruVector.adjustReadyLimit_count ..) rfl
  adjustResvAll q := by
    unfold adjustResvAll; split
    · exact .refl _
    · exact .of_eq rfl rfl (IndIntruVector.adjustResv_data ..) (IndIntruVector.adjustResv_count ..)
        rfl
  sched _ _ _ := .of_eq rfl rfl rfl rfl rfl

/-! ## A new client -/

section FindOrCreate
variable {q : PriorityQueueBase} {c : ClientId}

/-- A new client's record is appended to the store and entered in the map, and in vector mode
pushed into the vector's next slot. -/
theorem findOrCreate_new (h : q.clientMap.lookup c = none) :
    (q.findOrCreate c).1.clientMap = mapInsert c q.store.length q.clientMap ∧
      (q.findOrCreate c).1.store.length = q.store.length + 1 ∧
      (∀ p < q.store.length, (q.findOrCreate c).1.recOf p = q.recOf p) ∧
      ((q.findOrCreate c).1.recOf q.store.length).client = c ∧
      (q.useHeap = false →
        ((q.findOrCreate c).1.recOf q.store.length).lookupVectorData = q.clVec.count ∧
        (q.findOrCreate c).1.clVec.data = q.clVec.data ++ [q.store.length] ∧
        (q.findOrCreate c).1.clVec.count = q.clVec.count + 1) := by
  unfold findOrCreate
  simp only [h]
  cases hu : q.useHeap <;>
    simp [IndIntruVector.push, recOf, deref, List.getD_eq_getElem?_getD, List.getElem?_set] <;>
    exact ⟨fun p hp => by rw [List.getElem?_append_left hp], rfl⟩

theorem findOrCreate_mapInv (hi : MapInv q) (c : ClientId) : MapInv (q.findOrCreate c).1 := by
  cases h : q.clientMap.lookup c with
  | some p => simpa [findOrCreate, h] using hi
  | none =>
    obtain ⟨hmap, hlen, hold, hnew, -⟩ := findOrCreate_new h
    have hperm : (mapInsert c q.store.length q.clientMap).Perm ((c, q.store.length) :: q.clientMap) :=
      mapInsert_perm (lookup_none h)
    have hlt : ∀ e ∈ q.clientMap, e.2 < q.store.length := hi.lt_length
    refine ⟨?_, ?_, ?_, ?_⟩ <;> rw [hmap]
    · intro e he
      rcases List.mem_cons.mp (hperm.mem_iff.mp he) with rfl | he
      · exact hnew
      · rw [hold _ (hlt e he)]; exact hi.client e he
    · exact (hperm.map Prod.fst).nodup_iff.mpr (List.nodup_cons.mpr ⟨lookup_none h, hi.keys_nodup⟩)
    · refine (hperm.map Prod.snd).nodup_iff.mpr (List.nodup_cons.mpr ⟨fun hm => ?_, hi.values_nodup⟩)
      obtain ⟨e, he, he2⟩ := List.mem_map.mp hm
      exact absurd (hlt e he) (by rw [he2]; exact lt_irrefl _)
    · intro e he
      rw [hlen]
      rcases List.mem_cons.mp (hperm.mem_iff.mp he) with rfl | he
      · exact Nat.lt_succ_self _
      · exact Nat.lt_succ_of_lt (hlt e he)

/-- The entry `getD` reads from a list with one more element at its end. -/
theorem getD_concat {l : List Nat} {x j : Nat} (hj : j < l.length + 1) :
    (l ++ [x]).getD j 0 = if j < l.length then l.getD j 0 else x := by
  split
  · simp [List.getD_eq_getElem?_getD, List.getElem?_append_left ‹j < l.length›]
  · have : j = l.length := by omega
    subst this; simp [List.getD_eq_getElem?_getD]

theorem findOrCreate_indexInv (hi : IndexInv q) (hv : q.useHeap = false) (c : ClientId) :
    IndexInv (q.findOrCreate c).1 := by
  cases h : q.clientMap.lookup c with
  | some p => simpa [findOrCreate, h] using hi
  | none =>
    obtain ⟨hmap, -, hold, -, hvec⟩ := findOrCreate_new h
    obtain ⟨hslot, hdata, hcount⟩ := hvec hv
    have hperm : (mapInsert c q.store.length q.clientMap).Perm ((c, q.store.length) :: q.clientMap) :=
      mapInsert_perm (lookup_none h)
    have hlt : ∀ j < q.clVec.count, q.clVec.data.getD j 0 < q.store.length := fun j hj => by
      obtain ⟨e, he, he2⟩ := List.mem_map.mp (hi.data_mem j hj)
      exact he2 ▸ hi.lt_length e he
    have hget : ∀ j < q.clVec.count + 1, (q.findOrCreate c).1.clVec.data.getD j 0 =
        if j < q.clVec.count then q.clVec.data.getD j 0 else q.store.length := fun j hj => by
      rw [hdata, getD_concat (by rw [← hi.count_eq]; exact hj), hi.count_eq]
    refine ⟨findOrCreate_mapInv hi.toMapInv c, ?_, fun j hj => ?_, fun j hj => ?_, fun p hp => ?_⟩
    · rw [hdata, hcount, hi.count_eq, List.length_append, List.length_singleton]
    · rw [hcount] at hj
      rw [hget j hj]
      split
      · rw [hold _ (hlt j ‹_›)]; exact hi.slot j ‹_›
      · rw [hslot]; omega
    · rw [hcount] at hj
      rw [hget j hj, hmap, (hperm.map Prod.snd).mem_iff, List.map_cons]
      split
      · exact List.mem_cons_of_mem _ (hi.data_mem j ‹_›)
      · exact List.mem_cons_self _ _
    · rw [hmap, (hperm.map Prod.snd).mem_iff, List.map_cons] at hp
      rw [hdata]
      rcases List.mem_cons.mp hp with rfl | hp
      · exact List.mem_append_right _ (List.mem_singleton_self _)
      · exact List.mem_append_left _ (hi.mem_data p hp)

end FindOrCreate

/-! ## The vector's slots and `remove` -/

theorem exists_getD_eq {l : List Nat} {x : Nat} (h : x ∈ l) : ∃ k < l.length, l.getD k 0 = x := by
  obtain ⟨k, hk, rfl⟩ := List.mem_iff_getElem.mp h
  exact ⟨k, hk, by rw [List.getD_eq_getElem?_getD, List.getElem?_eq_getElem hk]; rfl⟩

/- When the slots' records know their slots, `remove(i)` takes out exactly slot `i`'s
   pointer. -/
section RemoveAt
variable {store : List ClientRec} {v : IndIntruVector} {i : Nat}
  (hc : v.count = v.data.length)
  (hslot : ∀ j < v.count, (deref store (v.data.getD j 0)).lookupVectorData = j)
  (hi : i < v.count)
include hc hslot hi

end RemoveAt

/-- An entry of the cleaner's walk that returns keeps the index: it marks a record idle, or
changes nothing. -/
theorem cleanEntry_sameIndex {ep ip : Nat} {q q' : PriorityQueueBase} {e : ClientId × Nat}
    (h : cleanEntry ep ip q e = .ok q') : SameIndex q q' := by
  rcases cleanEntry_eq_ok h with ⟨rfl, -⟩ | rfl
  · exact sameIndex_pullClosed.setRec _ _ _ rfl rfl
  · exact .refl _

/-- So does every `do_clean` that returns. -/
theorem doClean_sameIndex {now : ℚ} {q q' : PriorityQueueBase} (h : q.doClean now = .ok q') :
    SameIndex q q' :=
  doClean_rel q _ SameIndex.refl SameIndex.trans (fun _ => .of_eq rfl rfl rfl rfl rfl)
    cleanEntry_sameIndex h

/-! ## Every state of a run -/

/-- A property of states that the index-neutral changes and client creation keep is kept by
every operation. -/
theorem step_preserves (I : PriorityQueueBase → Prop) (hsame : ∀ {q q'}, SameIndex q q' → I q → I q')
    (hfind : ∀ q c, I q → I (q.findOrCreate c).1)
    {ht : HeapTop} {q q' : PriorityQueueBase} {op : Op} (hi : I q) (h : q.step ht op = .ok q') :
    I q' := by
  cases op with
  | addRequest request c reqParams time cost =>
    obtain ⟨q₁, h₁, rfl⟩ := Except.map_eq_ok.mp h
    have hs : SameIndex q { q with tick := q.tick + 1 } := .of_eq rfl rfl rfl rfl rfl
    have h₀ : I (findOrCreate { q with tick := q.tick + 1 } c).1 := hfind _ c (hsame hs hi)
    exact hsame (sameIndex_pullClosed.adjustAll _) (hsame (sameIndex_pullClosed.enqueue h₁)
      (hsame (sameIndex_pullClosed.reactivate _ _) h₀))
  | pullRequest now =>
    obtain ⟨r, hr, rfl⟩ := Except.map_eq_ok.mp h
    exact hsame (sameIndex_pullClosed.pullRequest ht hr) hi
  | removeByClient c => cases h; exact hsame (sameIndex_pullClosed.removeByClient c) hi
  | removeByReqFilter f b =>
    obtain ⟨r, hr, rfl⟩ := Except.map_eq_ok.mp h
    exact hsame (sameIndex_pullClosed.removeByReqFilter hr) hi
  | doClean now => exact hsame (doClean_sameIndex h) hi

theorem mapInv_make {f : ClientId → ClientInfo} {idleAge eraseAge checkTime : ℚ}
    {allowLimitBreak useHeap : Bool} {q : PriorityQueueBase}
    (h : make f idleAge eraseAge checkTime allowLimitBreak useHeap = .ok q) :
    q.clientMap = [] ∧ q.clVec = IndIntruVector.empty := by
  unfold make at h
  split at h
  · cases h
  · split at h
    · cases h
    · cases h; exact ⟨rfl, rfl⟩

/-- Every state of every run keeps the map's facts. -/
theorem mapInv_of_run {h : List Op} {q : PriorityQueueBase} (hr : Run h q) : MapInv q := by
  induction hr with
  | make hm =>
    have := (mapInv_make hm).1
    exact ⟨by simp [this], by simp [this], by simp [this], by simp [this]⟩
  | step _ hs ih =>
    exact step_preserves MapInv (fun h hi => h.mapInv hi) (fun q c hi => findOrCreate_mapInv hi c)
      ih hs

/-- Every state of every vector-mode run keeps the index invariant. -/
theorem indexInv_of_run {h : List Op} {q : PriorityQueueBase} (hr : Run h q)
    (hv : q.useHeap = false) : IndexInv q := by
  induction hr with
  | make hm =>
    obtain ⟨hmap, hvec⟩ := mapInv_make hm
    refine ⟨⟨by simp [hmap], by simp [hmap], by simp [hmap], by simp [hmap]⟩, ?_, ?_, ?_, ?_⟩ <;>
      simp [hmap, hvec, IndIntruVector.empty]
  | step _ hs ih =>
    have hu := (step_change _ _ hs).useHeap
    exact (step_preserves (fun q => IndexInv q ∧ q.useHeap = false)
      (fun h hi => ⟨h.indexInv hi.1, h.useHeap.trans hi.2⟩)
      (fun q c hi => ⟨findOrCreate_indexInv hi.1 hi.2 c,
        (findOrCreate_change q c : StateChange (.addRequest 0 0 {} 0 0) _ _).useHeap.trans hi.2⟩)
      ⟨ih (hu ▸ hv), hu ▸ hv⟩ hs).1

end PriorityQueueBase

end DmClock
