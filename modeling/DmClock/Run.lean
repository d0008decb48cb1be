import DmClock.Next
import Mathlib.Logic.Relation

/- Runs of the pull façade, and what one operation can do to a client record.

   An operation is a public call of `PullPriorityQueue` under its data lock, or a run of
   the cleaner. A run starts from a constructed queue and applies operations one after the
   other; heap mode's heap tops may differ at every call. `Run h q` says that the run whose
   operations are `h` (oldest first) ends in `q`.

   `RecChange op c c'` lists everything `op` can do to one record: give it a vector slot,
   reactivate it, enqueue a request, mark its front ready (only if the front's limit tag has
   passed at the call's time), pop its front, reduce its reservation tags, empty or filter its
   queue, or mark it idle. `StoreChange op` lifts it to the whole store, where a new record
   starts as `ClientRec.make`. Every property of single records that holds of a new record
   and survives each kind of change then holds of every record of every reachable state
   (`Run.forall_rec`).
-/

namespace DmClock

/-- A public operation of the pull façade, or a run of the cleaner at clock `now`. -/
inductive Op
  | addRequest (request : Request) (clientId : ClientId) (reqParams : ReqParams) (time : ℚ)
      (addlCost : ℚ)
  | pullRequest (now : ℚ)
  | removeByClient (client : ClientId)
  | removeByReqFilter (filter : Request → Bool) (visitBackwards : Bool)
  | doClean (now : ℚ)

namespace Op

/-- The time a call gives `do_next_request`; `min_tag` for calls that make no decision. -/
def decisionTime : Op → Tag
  | .pullRequest now => now
  | _ => minTag

/-- The cost a call adds to the reservation tag; `0` for calls that add no request. -/
def cost : Op → ℚ
  | .addRequest _ _ _ _ addlCost => addlCost
  | _ => 0

end Op

namespace PriorityQueueBase

/-- One operation on the state. -/
def step (ht : HeapTop) (q : PriorityQueueBase) : Op → Except String PriorityQueueBase
  | .addRequest request clientId reqParams time addlCost =>
    q.doAddRequest request clientId reqParams time addlCost
  | .pullRequest now => (q.pullRequest ht now).map Prod.fst
  | .removeByClient client => .ok (q.removeByClient client).1
  | .removeByReqFilter filter visitBackwards =>
    (q.removeByReqFilter filter visitBackwards).map Prod.fst
  | .doClean now => q.doClean now

end PriorityQueueBase

/-- `Run h q`: the operations `h`, oldest first, take a constructed queue to `q`. -/
inductive Run : List Op → PriorityQueueBase → Prop
  | make {f : ClientId → ClientInfo} {idleAge eraseAge checkTime : ℚ}
      {allowLimitBreak useHeap : Bool} {q : PriorityQueueBase} :
      PriorityQueueBase.make f idleAge eraseAge checkTime allowLimitBreak useHeap = .ok q →
      Run [] q
  | step {h : List Op} {q q' : PriorityQueueBase} {ht : HeapTop} {op : Op} :
      Run h q → q.step ht op = .ok q' → Run (h ++ [op]) q'

/-- A reachable state: the end of some run. -/
def Reachable (q : PriorityQueueBase) : Prop := ∃ h, Run h q

/-- The run of `ops` from the queue `make` builds, with the heap choice `ht` at every call. -/
def runOf (ht : HeapTop) (f : ClientId → ClientInfo) (idleAge eraseAge checkTime : ℚ)
    (allowLimitBreak useHeap : Bool) (ops : List Op) : Except String PriorityQueueBase :=
  (PriorityQueueBase.make f idleAge eraseAge checkTime allowLimitBreak useHeap).bind fun q =>
    ops.foldlM (fun q op => q.step ht op) q

theorem Run.foldlM {ht : HeapTop} {h : List Op} {q : PriorityQueueBase} (hr : Run h q) :
    ∀ {ops : List Op} {q' : PriorityQueueBase}, ops.foldlM (fun q op => q.step ht op) q = .ok q' →
      Run (h ++ ops) q'
  | [], _, hq => by cases hq; simpa using hr
  | op :: ops, _, hq => by
    obtain ⟨q₁, h₁, h₂⟩ := Except.bind_eq_ok.mp hq
    simpa using (hr.step h₁).foldlM h₂

/-- A run that `runOf` computes is a run. -/
theorem Run.of_runOf {ht : HeapTop} {f : ClientId → ClientInfo} {idleAge eraseAge checkTime : ℚ}
    {allowLimitBreak useHeap : Bool} {ops : List Op} {q : PriorityQueueBase}
    (h : runOf ht f idleAge eraseAge checkTime allowLimitBreak useHeap ops = .ok q) : Run ops q := by
  obtain ⟨q₀, h₀, h₁⟩ := Except.bind_eq_ok.mp h
  simpa using (Run.make h₀).foldlM h₁

/-! ## What an operation does to one record -/

/-- Everything `op` can do to a single record. -/
inductive RecChange : Op → ClientRec → ClientRec → Prop
  | slot {op : Op} {c : ClientRec} (i : Nat) : RecChange op c { c with lookupVectorData := i }
  | reactivate {request clientId reqParams time addlCost} {c : ClientRec} (d : Tag) :
      RecChange (.addRequest request clientId reqParams time addlCost) c
        { c with propDelta := d, idle := false }
  | enqueue {request clientId reqParams time addlCost} {c : ClientRec} {tag : RequestTag}
      (tick : Nat) :
      requestTag c.prevTag c.info reqParams time addlCost = .ok tag →
      RecChange (.addRequest request clientId reqParams time addlCost) c
        ((c.addRequest tag c.client request).updateReqTag tag tick)
  | promote {now : ℚ} {c : ClientRec} {r : ClientReq} {rest : List ClientReq} :
      c.requests = r :: rest → r.tag.ready = false → r.tag.limit ≤ (now : Tag) →
      RecChange (.pullRequest now) c
        { c with requests := { r with tag := { r.tag with ready := true } } :: rest }
  | pop {now : ℚ} {c : ClientRec} (first : ClientReq) (rest : List ClientReq) :
      c.requests = first :: rest → RecChange (.pullRequest now) c { c with requests := rest }
  | reduce {now : ℚ} {c : ClientRec} : RecChange (.pullRequest now) c c.reduceReservation
  | clear {client : ClientId} {c : ClientRec} :
      RecChange (.removeByClient client) c { c with requests := [] }
  | filter {f : Request → Bool} {b : Bool} {c : ClientRec} :
      RecChange (.removeByReqFilter f b) c { c with requests := keptBy f c.requests }
  | idle {now : ℚ} {c : ClientRec} : RecChange (.doClean now) c { c with idle := true }

/-- Several changes of one operation. -/
abbrev RecChanges (op : Op) : ClientRec → ClientRec → Prop :=
  Relation.ReflTransGen (RecChange op)

/-- What `op` does to the store: it only grows, every old record went through changes of
`op`, and every new one through changes of `op` from a freshly made record. -/
def StoreChange (op : Op) (s s' : List ClientRec) : Prop :=
  s.length ≤ s'.length ∧ ∀ p < s'.length,
    (p < s.length → RecChanges op (deref s p) (deref s' p)) ∧
    (s.length ≤ p → ∃ c info tick, RecChanges op (ClientRec.make c info tick) (deref s' p))

namespace StoreChange
variable {op : Op} {s s' s'' : List ClientRec}

theorem refl (op : Op) (s : List ClientRec) : StoreChange op s s :=
  ⟨le_rfl, fun _ hp => ⟨fun _ => .refl, fun h => absurd hp (by omega)⟩⟩

theorem trans (h₁ : StoreChange op s s') (h₂ : StoreChange op s' s'') :
    StoreChange op s s'' := by
  have l₁ := h₁.1
  refine ⟨h₁.1.trans h₂.1, fun p hp => ⟨fun hs => ?_, fun hs => ?_⟩⟩
  · exact ((h₁.2 p (by omega)).1 hs).trans ((h₂.2 p hp).1 (by omega))
  · by_cases hs' : p < s'.length
    · obtain ⟨c, info, tick, hc⟩ := (h₁.2 p hs').2 hs
      exact ⟨c, info, tick, hc.trans ((h₂.2 p hp).1 hs')⟩
    · exact (h₂.2 p hp).2 (by omega)

/-- Replacing a record by a change of it. -/
theorem set {p : Nat} {c : ClientRec} (h : RecChange op (deref s p) c) :
    StoreChange op s (s.set p c) := by
  refine ⟨by simp, fun p' hp' => ⟨fun _ => ?_, fun h' => absurd hp' (by rw [List.length_set]; omega)⟩⟩
  by_cases hpp : p = p'
  · subst hpp; rw [deref_set_self (by simpa using hp')]
    exact .single h
  · rw [deref_set_ne hpp]

/-- Appending a freshly made record. -/
theorem append_make (c : ClientId) (info : ClientInfo) (tick : Nat) :
    StoreChange op s (s ++ [ClientRec.make c info tick]) := by
  refine ⟨by simp, fun p hp => ⟨fun hs => ?_, fun hs => ⟨c, info, tick, ?_⟩⟩⟩
  · have : deref (s ++ [ClientRec.make c info tick]) p = deref s p := by
      simp [deref, List.getD_eq_getElem?_getD, List.getElem?_append_left hs]
    rw [this]
  · have : p = s.length := by rw [List.length_append, List.length_singleton] at hp; omega
    subst this; simp [deref, List.getD_eq_getElem?_getD]
    exact .refl

end StoreChange

end DmClock
