import DmClock.Tag

/- The per-client record `PriorityQueueBase::ClientRec` and its request queue.

   A record holds the client's id, the last tag it was given (`prev_tag`), the FIFO of its
   pending requests (a `std::deque`, here a list whose head is the front), the proportion
   correction `prop_delta`, its slot in the indirect vector, its `ClientInfo`, the `idle`
   flag and the tick of its last request.

   The two filter loops are modelled with their iterators as positions in the deque. The
   forward loop walks a position up from `begin()`; the backward loop starts at
   `--requests.end()` and walks down, and it stops when the position is `begin()`.
   Decrementing `begin()` and dereferencing a position outside the deque are undefined
   behaviour, and the model returns `.error` for them. What is proved:

     1. `removeByReqFilterForwards_eq`: the forward loop keeps the requests that fail the
        filter in order, appends the others to `out` in queue order, and reports whether
        there was one.
     2. `removeByReqFilterBackwards_eq`: on a nonempty queue the backward loop keeps the
        same requests, appends the matches in reverse queue order, and reports the same.
     3. `removeByReqFilterBackwards_nil`: on an empty queue the backward loop starts by
        decrementing `begin()`.
-/

namespace DmClock

/-- Client ids are opaque to the scheduler; `std::map` orders them. -/
abbrev ClientId := Nat

/-- Request payloads are opaque to the scheduler; only the filters read them. -/
abbrev Request := Nat

/-- `ClientReq`: a tagged request of a client. -/
structure ClientReq where
  tag : RequestTag
  clientId : ClientId
  request : Request
  deriving DecidableEq, Repr

/-- `ClientRec`. The heap modes' index handles (`reserv_heap_data` and the others) belong
to the heaps and are not modelled; `lookup_vector_data` is the record's vector slot. -/
structure ClientRec where
  client : ClientId
  prevTag : RequestTag
  requests : List ClientReq
  propDelta : Tag
  lookupVectorData : Nat
  info : ClientInfo
  idle : Bool
  lastTick : Nat

instance : Inhabited RequestTag := ⟨RequestTag.zero⟩

instance : Inhabited ClientRec :=
  ⟨⟨0, RequestTag.zero, [], (0 : ℚ), 0, default, true, 0⟩⟩

namespace ClientRec

/-- The constructor `ClientRec(client, info, current_tick)`. -/
def make (client : ClientId) (info : ClientInfo) (currentTick : Nat) : ClientRec :=
  ⟨client, RequestTag.zero, [], (0 : ℚ), 0, info, true, currentTick⟩

/-- `has_request`. -/
def hasRequest (r : ClientRec) : Bool := !r.requests.isEmpty

/-- `update_req_tag`. -/
def updateReqTag (r : ClientRec) (prev : RequestTag) (tick : Nat) : ClientRec :=
  { r with prevTag := prev, lastTick := tick }

/-- `add_request`: the request goes to the back of the deque. -/
def addRequest (r : ClientRec) (tag : RequestTag) (clientId : ClientId) (request : Request) :
    ClientRec :=
  { r with requests := r.requests ++ [⟨tag, clientId, request⟩] }

end ClientRec

/-! ## The two filter loops -/

section Filter
variable (filter : Request → Bool)

/-- `remove_by_req_filter_forwards`'s loop: `kept` is the deque before the iterator, the
list argument the deque from the iterator on. -/
def forwardsLoop : List ClientReq → List ClientReq → List Request → Bool →
    List ClientReq × List Request × Bool
  | [], kept, out, anyRemoved => (kept, out, anyRemoved)
  | r :: rest, kept, out, anyRemoved =>
    if filter r.request then forwardsLoop rest kept (out ++ [r.request]) true
    else forwardsLoop rest (kept ++ [r]) out anyRemoved

/-- `ClientRec::remove_by_req_filter_forwards`: the new deque, the collector, the result. -/
def removeByReqFilterForwards (requests : List ClientReq) (out : List Request) :
    List ClientReq × List Request × Bool :=
  forwardsLoop filter requests [] out false

/-- `remove_by_req_filter_backwards`'s loop at iterator position `i`: the body, then
`if (requests.begin() == i) break;` and `--i`. `requests.erase(i)` leaves the iterator at
position `i`. -/
def backwardsLoop : Nat → List ClientReq → List Request → Bool →
    Except String (List ClientReq × List Request × Bool)
  | i, requests, out, anyRemoved =>
    match requests[i]? with
    | none => .error "dereferencing an iterator outside the deque"
    | some r =>
      let (requests, out, anyRemoved) :=
        if filter r.request then (requests.eraseIdx i, out ++ [r.request], true)
        else (requests, out, anyRemoved)
      match i with
      | 0 => .ok (requests, out, anyRemoved)
      | i + 1 => backwardsLoop i requests out anyRemoved

/-- `ClientRec::remove_by_req_filter_backwards`. The loop starts at `--requests.end()`,
which on an empty deque decrements `begin()`. -/
def removeByReqFilterBackwards (requests : List ClientReq) (out : List Request) :
    Except String (List ClientReq × List Request × Bool) :=
  match requests.length with
  | 0 => .error "--requests.end() on an empty deque"
  | n + 1 => backwardsLoop filter n requests out false

/-- `ClientRec::remove_by_req_filter`. -/
def removeByReqFilter (requests : List ClientReq) (out : List Request) (visitBackwards : Bool) :
    Except String (List ClientReq × List Request × Bool) :=
  if visitBackwards then removeByReqFilterBackwards filter requests out
  else .ok (removeByReqFilterForwards filter requests out)

/-- What both loops should leave: the requests failing the filter, in order. -/
def keptBy (requests : List ClientReq) : List ClientReq :=
  requests.filter (fun r => !filter r.request)

/-- The matching requests' payloads, in queue order. -/
def matchedBy (requests : List ClientReq) : List Request :=
  (requests.filter (fun r => filter r.request)).map ClientReq.request

theorem forwardsLoop_eq : ∀ (requests kept : List ClientReq) (out : List Request) (b : Bool),
    forwardsLoop filter requests kept out b =
      (kept ++ keptBy filter requests, out ++ matchedBy filter requests,
        b || requests.any (fun r => filter r.request))
  | [], _, _, _ => by simp [forwardsLoop, keptBy, matchedBy]
  | r :: rest, kept, out, b => by
    by_cases h : filter r.request <;>
      simp [forwardsLoop, h, forwardsLoop_eq rest, keptBy, matchedBy]

theorem removeByReqFilterForwards_eq (requests : List ClientReq) (out : List Request) :
    removeByReqFilterForwards filter requests out =
      (keptBy filter requests, out ++ matchedBy filter requests,
        requests.any (fun r => filter r.request)) := by
  simp [removeByReqFilterForwards, forwardsLoop_eq]

/-- The backward loop from the last position of a prefix `pre` of the deque: it filters
`pre` and leaves the rest alone, appending `pre`'s matches back to front. -/
theorem backwardsLoop_eq : ∀ (i : Nat) (pre suf : List ClientReq) (out : List Request)
    (b : Bool), pre.length = i + 1 →
    backwardsLoop filter i (pre ++ suf) out b =
      .ok (keptBy filter pre ++ suf, out ++ matchedBy filter pre.reverse,
        b || pre.any (fun r => filter r.request)) := by
  intro i
  induction i with
  | zero =>
    intro pre suf out b hl
    obtain ⟨r, rfl⟩ : ∃ r, pre = [r] := List.length_eq_one.mp hl
    by_cases h : filter r.request <;> simp [backwardsLoop, h, keptBy, matchedBy]
  | succ j ih =>
    intro pre suf out b hl
    obtain ⟨pre', r, rfl⟩ : ∃ pre' r, pre = pre' ++ [r] :=
      ⟨pre.dropLast, pre.getLast (List.ne_nil_of_length_eq_add_one hl),
        (List.dropLast_concat_getLast _).symm⟩
    have hl' : pre'.length = j + 1 := by simpa using hl
    have hget : (pre' ++ [r] ++ suf)[j + 1]? = some r := by
      rw [List.append_assoc, List.getElem?_append_right (by omega)]; simp [hl']
    have herase : (pre' ++ [r] ++ suf).eraseIdx (j + 1) = pre' ++ suf := by
      rw [List.append_assoc, List.eraseIdx_append_of_length_le (by omega)]; simp [hl']
    rw [backwardsLoop, hget]
    by_cases h : filter r.request
    · simp only [h, if_true, herase]
      rw [ih pre' suf _ _ hl']
      simp [keptBy, matchedBy, h]
    · simp only [h, if_false, Bool.false_eq_true]
      rw [List.append_assoc, ih pre' ([r] ++ suf) _ _ hl']
      simp [keptBy, matchedBy, h]

/-- On a nonempty deque the backward loop agrees with the forward one, except that `out`
receives the matches in reverse queue order. -/
theorem removeByReqFilterBackwards_eq {requests : List ClientReq} (h : requests ≠ [])
    (out : List Request) :
    removeByReqFilterBackwards filter requests out =
      .ok (keptBy filter requests, out ++ (matchedBy filter requests).reverse,
        requests.any (fun r => filter r.request)) := by
  obtain ⟨n, hn⟩ : ∃ n, requests.length = n + 1 :=
    Nat.exists_eq_succ_of_ne_zero (by simpa using h)
  have := backwardsLoop_eq filter n requests [] out false hn
  simp only [List.append_nil] at this
  simp [removeByReqFilterBackwards, hn, this, matchedBy, List.filter_reverse]

theorem removeByReqFilterBackwards_nil (out : List Request) :
    removeByReqFilterBackwards filter [] out = .error "--requests.end() on an empty deque" :=
  rfl

/-- Whichever way it walks, a filter that completes leaves the requests failing it, and
reports whether a request passed it. -/
theorem removeByReqFilter_ok {requests : List ClientReq} {out : List Request} {b : Bool}
    {r : List ClientReq × List Request × Bool}
    (h : removeByReqFilter filter requests out b = .ok r) :
    r.1 = keptBy filter requests ∧ r.2.2 = requests.any (fun r => filter r.request) := by
  unfold removeByReqFilter at h
  split at h
  · cases requests with
    | nil => cases h
    | cons x xs =>
      rw [removeByReqFilterBackwards_eq filter (List.cons_ne_nil x xs)] at h; cases h
      exact ⟨rfl, rfl⟩
  · cases h; rw [removeByReqFilterForwards_eq]; exact ⟨rfl, rfl⟩

/-- A filter that reports no match leaves the deque as it was. -/
theorem removeByReqFilter_unchanged {requests : List ClientReq} {out : List Request} {b : Bool}
    {r : List ClientReq × List Request × Bool}
    (h : removeByReqFilter filter requests out b = .ok r) (hb : r.2.2 = false) :
    r.1 = requests := by
  obtain ⟨hk, hany⟩ := removeByReqFilter_ok filter h
  rw [hk, keptBy, List.filter_eq_self]
  simpa [hb] using hany.symm

end Filter

end DmClock
