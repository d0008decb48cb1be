import DmClock.Vector
import Mathlib.Algebra.Order.Floor
import Mathlib.Data.Rat.Floor

/- `PriorityQueueBase`: the scheduler's state and the operations that change it, except the
   scheduling decision (`DmClock.Next`).

   The state is the record store (the objects the `shared_ptr<ClientRec>`s own, each
   designated by its index), `client_map` (a `std::map`, here a list of entries in key
   order), the indirect vector `cl_vec`, the tick, the counters and the cleaner's mark
   points. All calls that the source makes under `data_mtx` are modelled as functions of
   the state; the mutex, the cleaner's thread and the profiling timers are not.

   Heap mode (`use_heap = true`) keeps three `IndIntruHeap`s of the same records. Their
   code (`indirect_intrusive_heap.h`) is not among the repository's files, so the model
   takes the heaps' `top()` as a parameter (`HeapTop`): any record of the map, chosen
   afresh at every call. `push`, `adjust`, `promote`, `demote` and `remove` on a heap only
   reorder it, and a heap holds the records of the map, so they change nothing else here.

   Assertions and undefined behaviour (the front of an empty deque, the read of an erased
   `client_map` node in `do_clean`) end a call with `.error`; a run that reaches one stops.

   Durations and clocks are exact rationals in milliseconds: the constructor's arguments, as
   it compares them, and the clock `steady_clock::now()` that `do_clean` reads. The
   constructor keeps its durations truncated to whole milliseconds (`Duration`).

   Correspondence (C++ ↔ Lean):
     `PriorityQueueBase(...)`          ↔ `PriorityQueueBase.make`
     `empty()`                         ↔ `PriorityQueueBase.empty`
     `do_add_request`                  ↔ `doAddRequest`
     `pop_process_request` (both)      ↔ `popProcessRequest`
     `reduce_reservation_tags(C)`      ↔ `reduceReservationTags`
     `remove_by_client`                ↔ `removeByClient`
     `remove_by_req_filter`            ↔ `removeByReqFilter`
     `do_clean`                        ↔ `doClean`
     `duration_cast<Duration>`         ↔ `durationCast`
-/

namespace DmClock

/-- A cleaner mark point: the cleaner run's clock (in milliseconds) and the tick. -/
abbrev MarkPoint := ℚ × Nat

/-- `std::chrono::duration_cast<Duration>` of a duration of `d` milliseconds: whole
milliseconds, truncated toward zero. -/
def durationCast (d : ℚ) : Int := if 0 ≤ d then ⌊d⌋ else ⌈d⌉

theorem durationCast_mono {a b : ℚ} (h : a ≤ b) : durationCast a ≤ durationCast b := by
  unfold durationCast
  split_ifs with ha hb hb
  · exact Int.floor_mono h
  · exact absurd (ha.trans h) hb
  · exact (Int.ceil_le.mpr (by push_cast; linarith)).trans (Int.floor_nonneg.mpr hb)
  · exact Int.ceil_mono h

/-- `HeapId`: the view a decision dispatches from. -/
inductive HeapId
  | reservation
  | ready
  deriving DecidableEq, Repr

/-- The three views of the selection structure. -/
inductive View
  | reservation
  | ready
  | limit
  deriving DecidableEq, Repr

/-- The view a `HeapId` names. -/
def HeapId.view : HeapId → View
  | .reservation => .reservation
  | .ready => .ready

/-- `PriorityQueueBase`'s data. -/
structure PriorityQueueBase where
  clientInfoF : ClientId → ClientInfo
  store : List ClientRec
  clientMap : List (ClientId × Nat)
  clVec : IndIntruVector
  allowLimitBreak : Bool
  tick : Nat
  reservSchedCount : Nat
  propSchedCount : Nat
  limitBreakSchedCount : Nat
  idleAge : Int
  eraseAge : Int
  checkTime : Int
  cleanMarkPoints : List MarkPoint
  useHeap : Bool

/-- The heaps' `top()` in heap mode: a record of the map for each view. -/
structure HeapTop where
  top : View → PriorityQueueBase → Nat
  top_mem : ∀ v q, q.clientMap ≠ [] → top v q ∈ q.clientMap.map Prod.snd

/-- A heap choice that takes the first record of the map. -/
def HeapTop.first : HeapTop where
  top _ q := (q.clientMap.head?.map Prod.snd).getD 0
  top_mem _ q h := by cases hq : q.clientMap <;> simp_all

theorem Except.bind_eq_ok {ε α β : Type} {x : Except ε α} {f : α → Except ε β} {b : β} :
    x >>= f = .ok b ↔ ∃ a, x = .ok a ∧ f a = .ok b := by
  cases x <;> simp [bind, Except.bind]

theorem Except.map_eq_ok {ε α β : Type} {x : Except ε α} {f : α → β} {b : β} :
    x.map f = .ok b ↔ ∃ a, x = .ok a ∧ f a = b := by
  cases x <;> simp [Except.map]

/-- The comparator of a view's heap. -/
def View.compare : View → ClientRec → ClientRec → Bool
  | .reservation => resvCompare
  | .ready => readyCompare
  | .limit => limitCompare

/-- The selection a fold over the map makes: the last entry that strictly precedes every
earlier candidate. -/
theorem foldl_select_mem {α : Type} (prec : α → α → Bool) :
    ∀ (l : List (ClientId × α)) (a : α),
      l.foldl (fun p e => if prec e.2 p then e.2 else p) a ∈ a :: l.map Prod.snd
  | [], _ => List.mem_singleton_self _
  | e :: l, a => by
    rw [List.foldl_cons]
    split
    · exact List.mem_cons_of_mem _ (foldl_select_mem prec l e.2)
    · have := foldl_select_mem prec l a
      simp only [List.mem_cons, List.map_cons] at this ⊢
      tauto

/-- A heap whose `top()` is the first record of the map that no record strictly precedes in
the view: what a correctly ordered heap returns, up to ties. -/
def HeapTop.least : HeapTop where
  top v q := match q.clientMap with
    | [] => 0
    | e :: rest =>
      rest.foldl (fun p e' => if v.compare (deref q.store e'.2) (deref q.store p) then e'.2 else p) e.2
  top_mem v q h := by
    dsimp only
    split
    · contradiction
    · rename_i e rest hm
      rw [hm, List.map_cons]
      exact foldl_select_mem (fun a b => v.compare (deref q.store a) (deref q.store b)) rest e.2

/-! ## The client map -/

/-- `client_map[c] = p` for a key `c`, keeping the keys in order. -/
def mapInsert (c : ClientId) (p : Nat) : List (ClientId × Nat) → List (ClientId × Nat)
  | [] => [(c, p)]
  | e :: rest =>
    if c < e.1 then (c, p) :: e :: rest
    else if c = e.1 then (c, p) :: rest
    else e :: mapInsert c p rest

/-- The record after `reduce_reservation_tags`: every queued reservation tag and the
previous one lose `reservation_inv`. -/
def ClientRec.reduceReservation (c : ClientRec) : ClientRec :=
  let shift := ((-c.info.reservationInv : ℚ) : Tag)
  { c with
    requests := c.requests.map fun r =>
      { r with tag := { r.tag with reservation := r.tag.reservation + shift } },
    prevTag := { c.prevTag with reservation := c.prevTag.reservation + shift } }

namespace PriorityQueueBase
variable (ht : HeapTop)

/-- The constructor, given its durations in milliseconds. The two assertions, the `Except`,
compare the durations as given; the members keep them truncated (`duration_cast`). -/
def make (clientInfoF : ClientId → ClientInfo) (idleAge eraseAge checkTime : ℚ)
    (allowLimitBreak useHeap : Bool) : Except String PriorityQueueBase :=
  if eraseAge < idleAge then .error "assert(_erase_age >= _idle_age)"
  else if idleAge ≤ checkTime then .error "assert(_check_time < _idle_age)"
  else .ok ⟨clientInfoF, [], [], IndIntruVector.empty, allowLimitBreak, 0, 0, 0, 0,
    durationCast idleAge, durationCast eraseAge, durationCast checkTime, [], useHeap⟩

/-- The configuration the constructor fixes: `client_info_f`, `allow_limit_break`, the three
durations and `use_heap`. -/
def config (q : PriorityQueueBase) : (ClientId → ClientInfo) × Bool × Int × Int × Int × Bool :=
  (q.clientInfoF, q.allowLimitBreak, q.idleAge, q.eraseAge, q.checkTime, q.useHeap)

/-- The record a pointer designates. -/
def recOf (q : PriorityQueueBase) (p : Nat) : ClientRec := deref q.store p

/-- The state with the record at `p` replaced. -/
def setRec (q : PriorityQueueBase) (p : Nat) (c : ClientRec) : PriorityQueueBase :=
  { q with store := q.store.set p c }

@[simp] theorem recOf_setRec_self (q : PriorityQueueBase) {p : Nat} (hp : p < q.store.length)
    (c : ClientRec) : (q.setRec p c).recOf p = c :=
  deref_set_self hp c

theorem recOf_setRec_of_le (q : PriorityQueueBase) {p : Nat} (hp : q.store.length ≤ p)
    (c : ClientRec) : (q.setRec p c).recOf p = q.recOf p := by
  rw [recOf, setRec, List.set_eq_of_length_le hp]; rfl

/-- A record with a request is in the store. -/
theorem lt_length_of_requests {q : PriorityQueueBase} {p : Nat} (h : (q.recOf p).requests ≠ []) :
    p < q.store.length := by
  by_contra hp
  exact h (by rw [recOf, deref_of_le (not_lt.mp hp)]; rfl)

/-- The pointer `top()` of a view returns: the heap's top, or the vector's cursor. -/
def topPtr (q : PriorityQueueBase) : View → Nat
  | v => if q.useHeap then ht.top v q else
    match v with
    | .reservation => q.clVec.data.getD q.clVec.resv 0
    | .ready => q.clVec.data.getD q.clVec.ready 0
    | .limit => q.clVec.data.getD q.clVec.limit 0

/-- `resv_heap.top()` or `cl_vec.top_resv()`, and the other two views. -/
def topRec (q : PriorityQueueBase) (v : View) : ClientRec := q.recOf (q.topPtr ht v)

/-- The selection structure holds no record: `resv_heap.empty()` or `cl_vec.empty()`. -/
def noClients (q : PriorityQueueBase) : Bool :=
  if q.useHeap then q.clientMap.isEmpty else q.clVec.count == 0

/-- `empty()`. -/
def empty (q : PriorityQueueBase) : Bool :=
  q.noClients || !(q.topRec ht .reservation).hasRequest

/-- `client_count()`: the size of the reservation heap, whose records are the map's, or of the
vector. -/
def clientCount (q : PriorityQueueBase) : Nat :=
  if q.useHeap then q.clientMap.length else q.clVec.count

/-- `request_count()`: the queue lengths of the records the reservation heap holds (the map's),
or of the vector's slots below `size()`, summed. -/
def requestCount (q : PriorityQueueBase) : Nat :=
  if q.useHeap then (q.clientMap.map fun e => (q.recOf e.2).requests.length).sum
  else ((List.range q.clVec.count).map fun i => (q.clVec.slot q.store i).requests.length).sum

/-- After a change of records, vector mode runs `adjust`; a heap's `adjust` only reorders it. -/
def adjustAll (q : PriorityQueueBase) : PriorityQueueBase :=
  if q.useHeap then q else { q with clVec := q.clVec.adjust q.store }

/-- After a front is marked ready: `ready_heap.promote` and `limit_heap.demote`, or
`cl_vec.adjust_ready_limit()`. -/
def adjustReadyLimitAll (q : PriorityQueueBase) : PriorityQueueBase :=
  if q.useHeap then q else { q with clVec := q.clVec.adjustReadyLimit q.store }

/-- After the reservation tags are reduced: `resv_heap.promote`, or `cl_vec.adjust_resv()`. -/
def adjustResvAll (q : PriorityQueueBase) : PriorityQueueBase :=
  if q.useHeap then q else { q with clVec := q.clVec.adjustResv q.store }

/-! ## `do_add_request` -/

/-- The least `proportion + prop_delta` over the fronts of the map's clients that are not
idle, in map order; `none` is the `NaN` that marks it unset. -/
def lowestPropTag (q : PriorityQueueBase) : Option Tag :=
  q.clientMap.foldl (fun lowest e =>
    let c := q.recOf e.2
    if !c.idle then
      match c.requests with
      | r :: _ =>
        let p := r.tag.proportion + c.propDelta
        match lowest with
        | none => some p
        | some l => if p < l then some p else some l
      | [] => lowest
    else lowest) none

/-- The record of a client, created and pushed into the selection structure if the map does
not hold it: the state and the pointer. -/
def findOrCreate (q : PriorityQueueBase) (clientId : ClientId) : PriorityQueueBase × Nat :=
  match q.clientMap.lookup clientId with
  | some p => (q, p)
  | none =>
    let p := q.store.length
    let store := q.store ++ [ClientRec.make clientId (q.clientInfoF clientId) q.tick]
    let (store, clVec) := if q.useHeap then (store, q.clVec) else q.clVec.push store p
    ({ q with store := store, clVec := clVec, clientMap := mapInsert clientId p q.clientMap }, p)

/-- The idle reactivation of `do_add_request`: an idle client's `prop_delta` becomes the
least front `proportion + prop_delta` of the other active clients minus the arrival time,
if there is one, and the client is no longer idle. -/
def reactivate (q : PriorityQueueBase) (p : Nat) (time : ℚ) : PriorityQueueBase :=
  let client := q.recOf p
  if client.idle then
    let client := match q.lowestPropTag with
      | some lowest => { client with propDelta := lowest + ((-time : ℚ) : Tag) }
      | none => client
    q.setRec p { client with idle := false }
  else q

/-- The end of `do_add_request`: the tag computed from `prev_tag` (its assertion is the
`Except`), the request appended, and `prev_tag` and `last_tick` updated. -/
def enqueue (q : PriorityQueueBase) (p : Nat) (request : Request) (reqParams : ReqParams)
    (time : ℚ) (cost : ℚ) : Except String PriorityQueueBase :=
  let client := q.recOf p
  (requestTag client.prevTag client.info reqParams time cost).map fun tag =>
    q.setRec p ((client.addRequest tag client.client request).updateReqTag tag q.tick)

/-- `do_add_request`: `++tick`, the client's record (created if new), its reactivation if
idle, the new request, and the structure's adjustment. -/
def doAddRequest (q : PriorityQueueBase) (request : Request) (clientId : ClientId)
    (reqParams : ReqParams) (time : ℚ) (cost : ℚ) : Except String PriorityQueueBase :=
  let qp := findOrCreate { q with tick := q.tick + 1 } clientId
  ((reactivate qp.1 qp.2 time).enqueue qp.2 request reqParams time cost).map adjustAll

/-! ## Dispatch: `pop_process_request` and `reduce_reservation_tags` -/

/-- `pop_process_request`, both versions: the top of the view dispatched from loses its
front request; the state, the record's client and the popped request. -/
def popProcessRequest (q : PriorityQueueBase) (heapId : HeapId) :
    Except String (PriorityQueueBase × ClientId × ClientReq) :=
  let p := q.topPtr ht heapId.view
  let top := q.recOf p
  match top.requests with
  | [] => .error "front() of an empty deque"
  | first :: rest => .ok ((q.setRec p { top with requests := rest }).adjustAll, top.client, first)

/-- `reduce_reservation_tags(const C&)`: the map lookup is asserted. -/
def reduceReservationTags (q : PriorityQueueBase) (clientId : ClientId) :
    Except String PriorityQueueBase :=
  match q.clientMap.lookup clientId with
  | none => .error "assert(client_map.end() != client_it)"
  | some p =>
    .ok (q.setRec p (q.recOf p).reduceReservation).adjustResvAll

/-! ## Removal -/

/-- `remove_by_client`: the client's requests go to the collector, in queue order. -/
def removeByClient (q : PriorityQueueBase) (client : ClientId) :
    PriorityQueueBase × List Request :=
  match q.clientMap.lookup client with
  | none => (q, [])
  | some p =>
    ((q.setRec p { q.recOf p with requests := [] }).adjustAll,
      (q.recOf p).requests.map ClientReq.request)

/-- One client of `remove_by_req_filter`'s walk: its queue filtered, and the structure
adjusted if it lost a request. -/
def filterEntry (filter : Request → Bool) (visitBackwards : Bool)
    (acc : PriorityQueueBase × List Request × Bool) (e : ClientId × Nat) :
    Except String (PriorityQueueBase × List Request × Bool) :=
  let c := acc.1.recOf e.2
  (DmClock.removeByReqFilter filter c.requests acc.2.1 visitBackwards).map fun r =>
    let q := acc.1.setRec e.2 { c with requests := r.1 }
    if r.2.2 then (q.adjustAll, r.2.1, true) else (q, r.2.1, acc.2.2)

/-- `remove_by_req_filter`: each client of the map in key order; the state, the collector,
the result. -/
def removeByReqFilter (q : PriorityQueueBase) (filter : Request → Bool)
    (visitBackwards : Bool) : Except String (PriorityQueueBase × List Request × Bool) :=
  q.clientMap.foldlM (filterEntry filter visitBackwards) (q, [], false)

/-- A client's queue is empty once its requests are gone (here by `remove_by_client`).
`remove_by_req_filter(f, out, true)` then visits that client and starts its backward loop at
`--requests.end()` of an empty deque, for every filter and in either mode; the forward
variant returns `false`. -/
theorem removeByReqFilter_backwards_on_emptied_queue (f : Request → Bool) (useHeap : Bool) :
    let q := ((make (fun _ => ClientInfo.ofNat 0 1 0) 600000 900000 360000 false useHeap).bind
      fun q => q.doAddRequest 0 1 {} 0 0).map fun q => (q.removeByClient 1).1
    (q.bind fun q => (q.removeByReqFilter f true).map (·.2)) =
        .error "--requests.end() on an empty deque" ∧
      (q.bind fun q => (q.removeByReqFilter f false).map (·.2)) = .ok ([], false) := by
  cases useHeap <;> exact ⟨by with_unfolding_all rfl, by with_unfolding_all rfl⟩

/-! ## The cleaner -/

/-- The erase loop of `do_clean` from the front `point :: rest`: while the front is at
least `erase_age` old, note its tick, `pop_front()`, and read the new `front()`. -/
def eraseLoop (cut : ℚ) : Nat → List MarkPoint → Except String (Nat × List MarkPoint)
  | _, [] => .error "front() of an empty deque"
  | erasePoint, point :: rest =>
    if point.1 ≤ cut then eraseLoop cut point.2 rest else .ok (erasePoint, point :: rest)

/-- The idle scan of `do_clean`: the tick of the last mark point of the leading run that is
at least `idle_age` old. -/
def idleScan (cut : ℚ) : Nat → List MarkPoint → Nat
  | idlePoint, [] => idlePoint
  | idlePoint, i :: rest => if i.1 ≤ cut then idleScan cut i.2 rest else idlePoint

/-- The text of the undefined behaviour in `do_clean`'s erase branch. -/
def erasedNodeRead : String := "i2->second after client_map.erase(i2)"

/-- One entry of `do_clean`'s walk over the map: erase it, mark it idle, or leave it. The
erase branch runs `client_map.erase(i2)` and then `delete_from_heaps(i2->second)`, which
reads the map node that the erase has just destroyed: undefined behaviour. -/
def cleanEntry (erasePoint idlePoint : Nat) (q : PriorityQueueBase) (e : ClientId × Nat) :
    Except String PriorityQueueBase :=
  let c := q.recOf e.2
  if erasePoint ≠ 0 ∧ c.lastTick ≤ erasePoint then .error erasedNodeRead
  else if idlePoint ≠ 0 ∧ c.lastTick ≤ idlePoint then .ok (q.setRec e.2 { c with idle := true })
  else .ok q

/-- An entry of the walk that returns marked the record idle, under the idle condition, or
changed nothing. -/
theorem cleanEntry_eq_ok {ep ip : Nat} {q q' : PriorityQueueBase} {e : ClientId × Nat}
    (h : cleanEntry ep ip q e = .ok q') :
    (q' = q.setRec e.2 { q.recOf e.2 with idle := true } ∧ ip ≠ 0 ∧
      (q.recOf e.2).lastTick ≤ ip) ∨ q' = q := by
  unfold cleanEntry at h
  dsimp only at h
  split_ifs at h with h₁ h₂
  · exact .inl ⟨(Except.ok.inj h).symm, h₂⟩
  · exact .inr (Except.ok.inj h).symm

/-- An entry of the walk that fails reads the erased node, under the erase condition. -/
theorem cleanEntry_eq_error {ep ip : Nat} {q : PriorityQueueBase} {e : ClientId × Nat}
    {msg : String} (h : cleanEntry ep ip q e = .error msg) :
    msg = erasedNodeRead ∧ ep ≠ 0 ∧ (q.recOf e.2).lastTick ≤ ep := by
  unfold cleanEntry at h
  dsimp only at h
  split_ifs at h with h₁
  · exact ⟨(Except.error.inj h).symm, h₁⟩

/-- `do_clean` at clock `now`. -/
def doClean (q : PriorityQueueBase) (now : ℚ) : Except String PriorityQueueBase :=
  (eraseLoop (now - q.eraseAge) 0 (q.cleanMarkPoints ++ [(now, q.tick)])).bind fun r =>
    let idlePoint := idleScan (now - q.idleAge) 0 r.2
    let q := { q with cleanMarkPoints := r.2 }
    if r.1 > 0 ∨ idlePoint > 0 then q.clientMap.foldlM (cleanEntry r.1 idlePoint) q else .ok q

end PriorityQueueBase

end DmClock
