import Mathlib

/-!
Software tag matching, `ucp/tag/tag_match.{h,inl,c}` and `ucp/tag/probe.c`, with tag offload
inactive.

Posted receives wait on the expected side: a receive whose mask is full sits in the hash
bucket of its tag, any other in the wildcard queue. Each gets a sequence number when it is
pushed, and a search that must look at both queues walks them in sequence-number order.
Messages that arrive before their receive wait on the unexpected side, on the list of all
of them and on the hash list of their tag.

Requests and descriptors are compared as the source compares pointers: each carries `id`, the
address of its structure, next to the fields the matching reads. Sequence numbers are natural
numbers: the `uint64_t` counter would need `2 ^ 64` posts to wrap.
-/

namespace UcxProofs.TagMatch

/-- `UCP_TAG_MASK_FULL`. -/
def ucpTagMaskFull : UInt64 := 0xffffffffffffffff

/-- An expected receive request: its tag and mask, its sequence number
(`req->recv.tag.sn`), and the flags `UCP_REQUEST_FLAG_BLOCK_OFFLOAD` and
`UCP_REQUEST_FLAG_OFFLOADED`. -/
structure UcpRequest where
  id : ℕ
  tag : UInt64
  tagMask : UInt64
  sn : ℕ
  blockOffload : Bool
  offloaded : Bool
  deriving DecidableEq, Repr

/-- A receive descriptor of an unexpected message: its tag (`ucp_rdesc_get_tag`), the flags
`UCP_RECV_DESC_FLAG_EAGER_ONLY` and `UCP_RECV_DESC_FLAG_RNDV`, its `length` and
`payload_offset`. -/
structure UcpRecvDesc where
  id : ℕ
  tag : UInt64
  eagerOnly : Bool
  rndv : Bool
  length : ℕ
  payloadOffset : ℕ
  deriving DecidableEq, Repr

/-- `ucp_request_queue_t`. -/
structure UcpRequestQueue where
  queue : List UcpRequest
  swCount : ℕ
  blockCount : ℕ
  deriving DecidableEq, Repr

/-- `ucp_tag_match_t`, its expected and unexpected parts. Both hash tables have
`ucs_roundup_pow2(UCP_TAG_MATCH_HASH_SIZE) = 1024` buckets. -/
structure UcpTagMatch where
  wildcard : UcpRequestQueue
  hash : Fin 1024 → UcpRequestQueue
  sn : ℕ
  swAllCount : ℕ
  unexpAll : List UcpRecvDesc
  unexpHash : Fin 1024 → List UcpRecvDesc

/-- `ucp_tag_match_init`. -/
def ucpTagMatchInit : UcpTagMatch :=
  ⟨⟨[], 0, 0⟩, fun _ => ⟨[], 0, 0⟩, 0, 0, [], fun _ => []⟩

/-- `ucp_tag_is_match`: the bits in which the tags differ all fall outside the mask. -/
def ucpTagIsMatch (tag expTag tagMask : UInt64) : Bool := (tag ^^^ expTag) &&& tagMask = 0

/-- `ucp_tag_match_calc_hash`: two 32-bit remainders modulo `UCP_TAG_MATCH_HASH_SIZE = 1021`,
combined with XOR. -/
def ucpTagMatchCalcHash (tag : UInt64) : Fin 1024 :=
  ⟨(tag.toUInt32.toNat % 1021) ^^^ ((tag >>> 32).toUInt32.toNat % 1021),
    Nat.xor_lt_two_pow (n := 10) (by omega) (by omega)⟩

/-- A queue of the expected side: the wildcard queue or a hash bucket. -/
inductive UcpQueueRef
  | wildcard
  | hash (bucket : Fin 1024)
  deriving DecidableEq, Repr

/-- The queue a reference names. -/
def UcpTagMatch.queue (tm : UcpTagMatch) : UcpQueueRef → UcpRequestQueue
  | .wildcard => tm.wildcard
  | .hash b => tm.hash b

/-- Replace the queue a reference names. -/
def UcpTagMatch.setQueue (tm : UcpTagMatch) : UcpQueueRef → UcpRequestQueue → UcpTagMatch
  | .wildcard, q => { tm with wildcard := q }
  | .hash b, q => { tm with hash := Function.update tm.hash b q }

section SetQueue

variable (tm : UcpTagMatch) (q q' : UcpQueueRef) (rq : UcpRequestQueue)

@[simp] lemma queue_setQueue_self : (tm.setQueue q rq).queue q = rq := by
  cases q <;> simp [UcpTagMatch.setQueue, UcpTagMatch.queue]

@[simp] lemma queue_setQueue_of_ne (h : q' ≠ q) : (tm.setQueue q rq).queue q' = tm.queue q' := by
  cases q <;> cases q' <;> simp_all [UcpTagMatch.setQueue, UcpTagMatch.queue, Function.update_of_ne]

@[simp] lemma setQueue_sn : (tm.setQueue q rq).sn = tm.sn := by cases q <;> rfl
@[simp] lemma setQueue_swAllCount : (tm.setQueue q rq).swAllCount = tm.swAllCount := by
  cases q <;> rfl
@[simp] lemma setQueue_unexpAll : (tm.setQueue q rq).unexpAll = tm.unexpAll := by cases q <;> rfl
@[simp] lemma setQueue_unexpHash : (tm.setQueue q rq).unexpHash = tm.unexpHash := by
  cases q <;> rfl

end SetQueue

/-- `ucp_tag_exp_get_queue`. -/
def ucpTagExpGetQueue (tag tagMask : UInt64) : UcpQueueRef :=
  if tagMask = ucpTagMaskFull then .hash (ucpTagMatchCalcHash tag) else .wildcard

/-- `ucp_tag_offload_try_post` with tag offload inactive: the request is counted as a
software request of its queue. -/
def ucpTagOffloadTryPost (tm : UcpTagMatch) (blockOffload : Bool) (q : UcpQueueRef) :
    UcpTagMatch :=
  let rq := tm.queue q
  { tm.setQueue q { rq with swCount := rq.swCount + 1,
                            blockCount := rq.blockCount + if blockOffload then 1 else 0 } with
    swAllCount := tm.swAllCount + 1 }

section TryPost

variable (tm : UcpTagMatch) (bo : Bool) (q q' : UcpQueueRef)

@[simp] lemma ucpTagOffloadTryPost_queue_self : (ucpTagOffloadTryPost tm bo q).queue q =
    { tm.queue q with swCount := (tm.queue q).swCount + 1,
                      blockCount := (tm.queue q).blockCount + if bo then 1 else 0 } := by
  cases q <;> simp [ucpTagOffloadTryPost, UcpTagMatch.setQueue, UcpTagMatch.queue]

@[simp] lemma ucpTagOffloadTryPost_queue_of_ne (h : q' ≠ q) :
    (ucpTagOffloadTryPost tm bo q).queue q' = tm.queue q' := by
  cases q <;> cases q' <;>
    simp_all [ucpTagOffloadTryPost, UcpTagMatch.setQueue, UcpTagMatch.queue, Function.update_of_ne]

@[simp] lemma ucpTagOffloadTryPost_sn : (ucpTagOffloadTryPost tm bo q).sn = tm.sn := by
  simp [ucpTagOffloadTryPost]
@[simp] lemma ucpTagOffloadTryPost_swAllCount :
    (ucpTagOffloadTryPost tm bo q).swAllCount = tm.swAllCount + 1 := rfl
@[simp] lemma ucpTagOffloadTryPost_unexpAll :
    (ucpTagOffloadTryPost tm bo q).unexpAll = tm.unexpAll := by simp [ucpTagOffloadTryPost]
@[simp] lemma ucpTagOffloadTryPost_unexpHash :
    (ucpTagOffloadTryPost tm bo q).unexpHash = tm.unexpHash := by simp [ucpTagOffloadTryPost]

end TryPost

/-- `ucp_tag_exp_push`: the request gets the next sequence number and joins the tail. -/
def ucpTagExpPush (tm : UcpTagMatch) (q : UcpQueueRef) (req : UcpRequest) :
    UcpRequest × UcpTagMatch :=
  let req := { req with sn := tm.sn }
  (req, { tm.setQueue q { tm.queue q with queue := (tm.queue q).queue ++ [req] } with
          sn := tm.sn + 1 })

section Push

variable (tm : UcpTagMatch) (q q' : UcpQueueRef) (req : UcpRequest)

@[simp] lemma ucpTagExpPush_queue_self : (ucpTagExpPush tm q req).2.queue q =
    { tm.queue q with queue := (tm.queue q).queue ++ [{ req with sn := tm.sn }] } := by
  cases q <;> simp [ucpTagExpPush, UcpTagMatch.setQueue, UcpTagMatch.queue]

@[simp] lemma ucpTagExpPush_queue_of_ne (h : q' ≠ q) :
    (ucpTagExpPush tm q req).2.queue q' = tm.queue q' := by
  cases q <;> cases q' <;>
    simp_all [ucpTagExpPush, UcpTagMatch.setQueue, UcpTagMatch.queue, Function.update_of_ne]

@[simp] lemma ucpTagExpPush_sn : (ucpTagExpPush tm q req).2.sn = tm.sn + 1 := rfl
@[simp] lemma ucpTagExpPush_swAllCount :
    (ucpTagExpPush tm q req).2.swAllCount = tm.swAllCount := by simp [ucpTagExpPush]
@[simp] lemma ucpTagExpPush_unexpAll : (ucpTagExpPush tm q req).2.unexpAll = tm.unexpAll := by
  simp [ucpTagExpPush]
@[simp] lemma ucpTagExpPush_unexpHash : (ucpTagExpPush tm q req).2.unexpHash = tm.unexpHash := by
  simp [ucpTagExpPush]

end Push

/-- `ucp_tag_exp_delete`. -/
def ucpTagExpDelete (req : UcpRequest) (tm : UcpTagMatch) (q : UcpQueueRef) : UcpTagMatch :=
  let rq := tm.queue q
  if !req.offloaded then
    { tm.setQueue q { queue := rq.queue.erase req, swCount := rq.swCount - 1,
                      blockCount := if req.blockOffload then rq.blockCount - 1 else rq.blockCount } with
      swAllCount := tm.swAllCount - 1 }
  else tm.setQueue q { rq with queue := rq.queue.erase req }

section Delete

variable (tm : UcpTagMatch) (q q' : UcpQueueRef) (req : UcpRequest)

/-- Deleting a software request takes it out of its queue and out of the counts. -/
lemma ucpTagExpDelete_queue_self (h : req.offloaded = false) :
    (ucpTagExpDelete req tm q).queue q =
      ⟨(tm.queue q).queue.erase req, (tm.queue q).swCount - 1,
        if req.blockOffload then (tm.queue q).blockCount - 1 else (tm.queue q).blockCount⟩ := by
  cases q <;> simp [ucpTagExpDelete, h, UcpTagMatch.setQueue, UcpTagMatch.queue]

@[simp] lemma ucpTagExpDelete_queue_of_ne (h : q' ≠ q) :
    (ucpTagExpDelete req tm q).queue q' = tm.queue q' := by
  unfold ucpTagExpDelete
  split <;> cases q <;> cases q' <;>
    simp_all [UcpTagMatch.setQueue, UcpTagMatch.queue, Function.update_of_ne]

lemma ucpTagExpDelete_swAllCount (h : req.offloaded = false) :
    (ucpTagExpDelete req tm q).swAllCount = tm.swAllCount - 1 := by
  simp [ucpTagExpDelete, h]
@[simp] lemma ucpTagExpDelete_sn : (ucpTagExpDelete req tm q).sn = tm.sn := by
  unfold ucpTagExpDelete; split <;> simp
@[simp] lemma ucpTagExpDelete_unexpAll : (ucpTagExpDelete req tm q).unexpAll = tm.unexpAll := by
  unfold ucpTagExpDelete; split <;> simp
@[simp] lemma ucpTagExpDelete_unexpHash :
    (ucpTagExpDelete req tm q).unexpHash = tm.unexpHash := by
  unfold ucpTagExpDelete; split <;> simp

end Delete

/-- `ucp_tag_exp_req_seq`: the sequence number at an iterator, `ULONG_MAX` past the end. -/
def ucpTagExpReqSeq : List UcpRequest → WithTop ℕ
  | [] => ⊤
  | req :: _ => req.sn

/-- The loop of `ucp_tag_exp_search_all`, for at most `fuel` rounds: the first request, in
sequence-number order over the bucket and the wildcard queue, that matches `tag`, and whether
it is in the wildcard queue. -/
def searchAllLoop (tag : UInt64) :
    ℕ → List UcpRequest → List UcpRequest → Option (UcpRequest × Bool)
  | 0, _, _ => none
  | fuel + 1, hashIter, wildIter =>
    if ucpTagExpReqSeq hashIter = ucpTagExpReqSeq wildIter then none
    else if ucpTagExpReqSeq hashIter < ucpTagExpReqSeq wildIter then
      match hashIter with
      | req :: rest =>
        if ucpTagIsMatch tag req.tag req.tagMask then some (req, false)
        else searchAllLoop tag fuel rest wildIter
      | [] => none
    else
      match wildIter with
      | req :: rest =>
        if ucpTagIsMatch tag req.tag req.tagMask then some (req, true)
        else searchAllLoop tag fuel hashIter rest
      | [] => none

/-- `ucp_tag_exp_search_all` over the bucket `b`. Every round moves one of the two iterators,
so the loop has fuel for every request of both queues. -/
def ucpTagExpSearchAll (tm : UcpTagMatch) (b : Fin 1024) (tag : UInt64) :
    Option UcpRequest × UcpTagMatch :=
  let hashQueue := (tm.hash b).queue
  let wildQueue := tm.wildcard.queue
  match searchAllLoop tag (hashQueue.length + wildQueue.length + 1) hashQueue wildQueue with
  | some (req, false) => (some req, ucpTagExpDelete req tm (.hash b))
  | some (req, true) => (some req, ucpTagExpDelete req tm .wildcard)
  | none => (none, tm)

/-- `ucp_tag_exp_search`: with an empty wildcard queue only the bucket of `tag` is searched. -/
def ucpTagExpSearch (tm : UcpTagMatch) (tag : UInt64) : Option UcpRequest × UcpTagMatch :=
  if tm.wildcard.queue ≠ [] then ucpTagExpSearchAll tm (ucpTagMatchCalcHash tag) tag
  else
    let q := UcpQueueRef.hash (ucpTagMatchCalcHash tag)
    match (tm.queue q).queue.find? (fun req => ucpTagIsMatch tag req.tag req.tagMask) with
    | some req => (some req, ucpTagExpDelete req tm q)
    | none => (none, tm)

/-- `ucp_tag_exp_remove`: remove the request if it is still queued. -/
def ucpTagExpRemove (tm : UcpTagMatch) (req : UcpRequest) : Bool × UcpTagMatch :=
  let q := ucpTagExpGetQueue req.tag req.tagMask
  if req ∈ (tm.queue q).queue then (true, ucpTagExpDelete req tm q) else (false, tm)

/-- `ucp_tag_unexp_recv`: the descriptor joins the tail of its hash list and of the list of
all unexpected descriptors. -/
def ucpTagUnexpRecv (tm : UcpTagMatch) (rdesc : UcpRecvDesc) (tag : UInt64) : UcpTagMatch :=
  let b := ucpTagMatchCalcHash tag
  { tm with unexpHash := Function.update tm.unexpHash b (tm.unexpHash b ++ [rdesc]),
            unexpAll := tm.unexpAll ++ [rdesc] }

@[simp] lemma ucpTagUnexpRecv_queue (tm : UcpTagMatch) (rdesc : UcpRecvDesc) (tag : UInt64)
    (q : UcpQueueRef) : (ucpTagUnexpRecv tm rdesc tag).queue q = tm.queue q := by
  cases q <;> rfl

/-- `ucp_tag_unexp_remove`: the descriptor leaves both of its lists; its hash list is that of
its tag. -/
def ucpTagUnexpRemove (tm : UcpTagMatch) (rdesc : UcpRecvDesc) : UcpTagMatch :=
  let b := ucpTagMatchCalcHash rdesc.tag
  { tm with unexpHash := Function.update tm.unexpHash b ((tm.unexpHash b).erase rdesc),
            unexpAll := tm.unexpAll.erase rdesc }

@[simp] lemma ucpTagUnexpRemove_queue (tm : UcpTagMatch) (rdesc : UcpRecvDesc) (q : UcpQueueRef) :
    (ucpTagUnexpRemove tm rdesc).queue q = tm.queue q := by
  cases q <;> rfl

/-- `ucp_tag_unexp_search`: the first unexpected descriptor that matches, removed when `rem`
is set. A full mask searches the hash list of the tag, any other mask the list of all. -/
def ucpTagUnexpSearch (tm : UcpTagMatch) (tag tagMask : UInt64) (rem : Bool) :
    Option UcpRecvDesc × UcpTagMatch :=
  if tm.unexpAll = [] then (none, tm)
  else
    let list := if tagMask = ucpTagMaskFull then tm.unexpHash (ucpTagMatchCalcHash tag)
      else tm.unexpAll
    match list.find? (fun rdesc => ucpTagIsMatch rdesc.tag tag tagMask) with
    | some rdesc => (some rdesc, if rem then ucpTagUnexpRemove tm rdesc else tm)
    | none => (none, tm)

/-- `ucp_tag_probe_nb`: the message found, removed when `rem` is set. The `info` it fills and
the feature check are left out. -/
def ucpTagProbeNb (tm : UcpTagMatch) (tag tagMask : UInt64) (rem : Bool) :
    Option UcpRecvDesc × UcpTagMatch :=
  match (ucpTagUnexpSearch tm tag tagMask false).1 with
  | some rdesc => (some rdesc, if rem then ucpTagUnexpRemove tm rdesc else tm)
  | none => (none, tm)

/-- The matching done for the first packet of a message (`ucp_eager_tagged_handler`, the
rendezvous RTS handler): the request it is delivered to, or else the descriptor joins the
unexpected lists. -/
def incomingFirst (tm : UcpTagMatch) (rdesc : UcpRecvDesc) : Option UcpRequest × UcpTagMatch :=
  match ucpTagExpSearch tm rdesc.tag with
  | (some req, tm) => (some req, tm)
  | (none, tm) => (none, ucpTagUnexpRecv tm rdesc rdesc.tag)

end UcxProofs.TagMatch
