import UcxProofs.Status
import UcxProofs.TagMatch

/-!
Posting a tag receive, `ucp_tag_recv_nbx`, `ucp_tag_msg_recv_nbx` and `ucp_tag_recv_common` of
`ucp/tag/tag_recv.c`, with tag offload inactive.

What the call does outside the matching state is an input: whether the feature and parameter
checks pass, the request the pool gives, what the datatype iterator reports, and whether a
matched rendezvous or multi-fragment message completed the request at once. The result is the
status pointer returned, the descriptors passed to `ucp_recv_desc_release`, and the matching
state after the call.
-/

namespace UcxProofs.TagRecv

open TagMatch

/-- `UCP_OP_ATTR_FIELD_REQUEST`. -/
def ucpOpAttrFieldRequest : UInt32 := (1 : UInt32) <<< 0

/-- `UCP_OP_ATTR_FLAG_NO_IMM_CMPL`. -/
def ucpOpAttrFlagNoImmCmpl : UInt32 := (1 : UInt32) <<< 16

/-- `UCP_OP_ATTR_FLAG_FORCE_IMM_CMPL`. -/
def ucpOpAttrFlagForceImmCmpl : UInt32 := (1 : UInt32) <<< 18

/-- The fields of `ucp_request_param_t` the receive reads: the attribute mask and the request
the user passes (its address, used with `UCP_OP_ATTR_FIELD_REQUEST`). -/
structure UcpRequestParam where
  opAttrMask : UInt32
  request : ℕ
  deriving DecidableEq, Repr

/-- The iterator `ucp_datatype_iter_init_unpack` builds: the length of the user's buffer and
whether its class is `UCP_DATATYPE_CONTIG`. -/
structure UcpDatatypeIter where
  length : ℕ
  contig : Bool
  deriving DecidableEq, Repr

/-- What the rest of the worker decides during one receive call. -/
structure UcpTagRecvEnv where
  /-- `UCP_CONTEXT_CHECK_FEATURE_FLAGS` and `UCP_REQUEST_CHECK_PARAM` pass. -/
  checksPass : Bool
  /-- `ucp_request_get` from the worker's pool, `none` when it is empty. -/
  requestGet : Option ℕ
  /-- The status of `ucp_datatype_iter_init_unpack` and the iterator it builds. -/
  initUnpack : UcsStatus
  dtIter : UcpDatatypeIter
  /-- The status of `ucp_datatype_iter_unpack` of a whole payload. -/
  unpack : UcsStatus
  /-- The completion status of the request after `ucp_tag_rndv_matched` or
  `ucp_tag_recv_eager_multi`, `none` while it is in progress. -/
  matchedCompletion : Option UcsStatus
  deriving DecidableEq, Repr

/-- `ucs_status_ptr_t`: a request, or a status (`UCS_OK` is `NULL`). -/
inductive UcsStatusPtr
  | request (req : ℕ)
  | status (s : UcsStatus)
  deriving DecidableEq, Repr

/-- `UCS_PTR_IS_ERR`. -/
def UcsStatusPtr.IsErr : UcsStatusPtr → Prop
  | .request _ => False
  | .status s => s.IsErr

instance : (p : UcsStatusPtr) → Decidable p.IsErr
  | .request _ => inferInstanceAs (Decidable False)
  | .status s => inferInstanceAs (Decidable s.IsErr)

/-- The outcome of a receive call. -/
structure UcpTagRecvResult where
  ret : UcsStatusPtr
  released : List UcpRecvDesc
  tm : UcpTagMatch

/-- `ucp_request_get_param`: the user's request, or one from the pool. -/
def ucpRequestGetParam (env : UcpTagRecvEnv) (param : UcpRequestParam) : Option ℕ :=
  if param.opAttrMask &&& ucpOpAttrFieldRequest = 0 then env.requestGet else some param.request

/-- `ucp_datatype_iter_unpack_single`: unpack a whole payload of `length` bytes. -/
def ucpDatatypeIterUnpackSingle (env : UcpTagRecvEnv) (length : ℕ) (truncation : Bool) :
    UcsStatus :=
  if env.initUnpack ≠ .ok then env.initUnpack
  else if truncation ∧ env.dtIter.length < length then .errMessageTruncated
  else env.unpack

/-- The request `ucp_tag_recv_common` queues: its tag, mask and flags. The sequence number is
set by `ucp_tag_exp_push`. -/
def ucpTagRecvRequest (env : UcpTagRecvEnv) (req : ℕ) (tag tagMask : UInt64) : UcpRequest :=
  ⟨req, tag, tagMask, 0, !env.dtIter.contig, false⟩

/-- The label `out_completed`: with `UCP_OP_ATTR_FLAG_NO_IMM_CMPL` the completed request is
returned, else its status. -/
def outCompleted (param : UcpRequestParam) (req : ℕ) (status : UcsStatus) : UcsStatusPtr :=
  if param.opAttrMask &&& ucpOpAttrFlagNoImmCmpl ≠ 0 then .request req else .status status

/-- `ucp_tag_recv_common`: receive into request `req` the message `rdesc`, already removed from
the unexpected lists, or queue the request when there is none. -/
def ucpTagRecvCommon (tm : UcpTagMatch) (env : UcpTagRecvEnv) (tag tagMask : UInt64) (req : ℕ)
    (rdesc : Option UcpRecvDesc) (param : UcpRequestParam) : UcpTagRecvResult :=
  match rdesc.filter (·.eagerOnly) with
  | some d =>
    -- the fast path: a single-fragment message is unpacked and released
    let recvLen := d.length - d.payloadOffset
    let status := ucpDatatypeIterUnpackSingle env recvLen true
    ⟨outCompleted param req status, [d], tm⟩
  | none =>
    if param.opAttrMask &&& ucpOpAttrFlagForceImmCmpl ≠ 0 then ⟨.status .errNoResource, [], tm⟩
    else if env.initUnpack ≠ .ok then ⟨.status env.initUnpack, [], tm⟩
    else
      match rdesc with
      | some d =>
        -- matched: `ucp_tag_rndv_matched` or `ucp_tag_recv_eager_multi` consume the descriptor
        match env.matchedCompletion with
        | some status => ⟨outCompleted param req status, [d], tm⟩
        | none => ⟨.request req, [d], tm⟩
      | none =>
        -- not found on the unexpected side: wait until it arrives
        let q := ucpTagExpGetQueue tag tagMask
        let tm := ucpTagOffloadTryPost tm (!env.dtIter.contig) q
        ⟨.request req, [], (ucpTagExpPush tm q (ucpTagRecvRequest env req tag tagMask)).2⟩

/-- `ucp_tag_recv_nbx`: take the first matching unexpected message, then receive it or queue
the request. -/
def ucpTagRecvNbx (tm : UcpTagMatch) (env : UcpTagRecvEnv) (tag tagMask : UInt64)
    (param : UcpRequestParam) : UcpTagRecvResult :=
  if !env.checksPass then ⟨.status .errInvalidParam, [], tm⟩
  else
    match ucpRequestGetParam env param with
    | none => ⟨.status .errNoMemory, [], tm⟩
    | some req =>
      let (rdesc, tm) := ucpTagUnexpSearch tm tag tagMask true
      ucpTagRecvCommon tm env tag tagMask req rdesc param

/-- What a receive does with the message it took off the unexpected lists: the fast path of a
single-fragment message releases it, and so does a matched receive; a receive that must complete
at once, or that cannot unpack into its datatype, releases nothing. -/
theorem ucpTagRecvCommon_released (tm : UcpTagMatch) (env : UcpTagRecvEnv) (tag tagMask : UInt64)
    (req : ℕ) (d : UcpRecvDesc) (param : UcpRequestParam) :
    (ucpTagRecvCommon tm env tag tagMask req (some d) param).released =
      if d.eagerOnly ∨ (param.opAttrMask &&& ucpOpAttrFlagForceImmCmpl = 0 ∧
          env.initUnpack = .ok) then [d] else [] := by
  unfold ucpTagRecvCommon
  cases he : d.eagerOnly
  · rw [Option.filter_some_neg he]
    dsimp only
    by_cases hf : param.opAttrMask &&& ucpOpAttrFlagForceImmCmpl = 0
    · by_cases hi : env.initUnpack = .ok
      · -- matched: the rendezvous or multi-fragment path consumes the descriptor
        simp only [hf, hi, ne_eq, not_true_eq_false, if_false, and_self, or_true, if_true]
        split <;> rfl
      · simp [hf, hi]
    · simp [hf]
  · rw [Option.filter_some_pos he]
    simp

/-- A receive call that finds a message hands it to `ucp_tag_recv_common`, already removed from
the unexpected lists. -/
lemma ucpTagRecvNbx_of_found {tm tm' : UcpTagMatch} {env : UcpTagRecvEnv} {tag tagMask : UInt64}
    {param : UcpRequestParam} {req : ℕ} {d : UcpRecvDesc} (hc : env.checksPass = true)
    (hreq : ucpRequestGetParam env param = some req)
    (hs : ucpTagUnexpSearch tm tag tagMask true = (some d, tm')) :
    ucpTagRecvNbx tm env tag tagMask param = ucpTagRecvCommon tm' env tag tagMask req (some d) param := by
  simp [ucpTagRecvNbx, hc, hreq, hs]

/-- **A receive that must complete at once loses a rendezvous message.** A rendezvous request to
send with tag 5 waits on the unexpected side. `ucp_tag_recv_nbx` of tag 5 with
`UCP_OP_ATTR_FLAG_FORCE_IMM_CMPL` takes it off both unexpected lists, then fails with
`UCS_ERR_NO_RESOURCE` without releasing it or receiving it: the unexpected side is empty after
the call, and a probe of tag 5 finds nothing. -/
theorem ucpTagRecvNbx_forceImmCmpl_drops_rndv :
    let env : UcpTagRecvEnv := ⟨true, some 1, .ok, ⟨64, true⟩, .ok, none⟩
    let param : UcpRequestParam := ⟨ucpOpAttrFlagForceImmCmpl, 0⟩
    let rts : UcpRecvDesc := ⟨2, 5, false, true, 40, 40⟩
    let tm := ucpTagUnexpRecv ucpTagMatchInit rts rts.tag
    let r := ucpTagRecvNbx tm env 5 ucpTagMaskFull param
    tm.unexpAll = [rts] ∧ r.ret = .status .errNoResource ∧ r.ret.IsErr ∧ r.released = [] ∧
      r.tm.unexpAll = [] ∧ (ucpTagProbeNb r.tm 5 ucpTagMaskFull false).1 = none := by
  intro env param rts tm r
  -- the search finds the rendezvous request in the bucket of tag 5 and removes it
  have hs : ucpTagUnexpSearch tm 5 ucpTagMaskFull true = (some rts, ucpTagUnexpRemove tm rts) := by
    have hne : tm.unexpAll ≠ [] := by decide
    have hfind : (tm.unexpHash (ucpTagMatchCalcHash 5)).find?
        (fun rdesc => ucpTagIsMatch rdesc.tag 5 ucpTagMaskFull) = some rts := by decide
    simp [ucpTagUnexpSearch, hne, hfind]
  have hreq : ucpRequestGetParam env param = some 1 := by decide
  have hr := ucpTagRecvNbx_of_found (rfl : env.checksPass = true) hreq hs
  -- the message is not eager-only and the receive must complete at once: nothing is released
  have hrel : r.released = [] := by
    change (ucpTagRecvNbx tm env 5 ucpTagMaskFull param).released = []
    rw [hr, ucpTagRecvCommon_released]
    decide
  exact ⟨by decide, by decide, by decide, hrel, by decide, by decide⟩

/-- `ucp_tag_msg_recv_nbx`: receive a message that `ucp_tag_probe_nb` removed. -/
def ucpTagMsgRecvNbx (tm : UcpTagMatch) (env : UcpTagRecvEnv) (message : UcpRecvDesc)
    (param : UcpRequestParam) : UcpTagRecvResult :=
  if !env.checksPass then ⟨.status .errInvalidParam, [], tm⟩
  else
    match ucpRequestGetParam env param with
    | none => ⟨.status .errNoMemory, [], tm⟩
    | some req => ucpTagRecvCommon tm env message.tag ucpTagMaskFull req (some message) param

/-- What happens to the matching state: a receive call, the first packet of a message, a probe,
a cancellation. -/
inductive TagEvent
  | recv (env : UcpTagRecvEnv) (tag tagMask : UInt64) (param : UcpRequestParam)
  | incoming (rdesc : UcpRecvDesc)
  | probe (tag tagMask : UInt64) (rem : Bool)
  | remove (req : UcpRequest)

/-- What an event answers: the receive a message went to, the message a probe found, whether a
cancellation removed its receive. A receive call answers through the state alone. -/
inductive TagObs
  | recv
  | incoming (req : Option UcpRequest)
  | probe (rdesc : Option UcpRecvDesc)
  | remove (removed : Bool)
  deriving DecidableEq, Repr

/-- One event on the worker's matching state. -/
def tagStep (tm : UcpTagMatch) : TagEvent → TagObs × UcpTagMatch
  | .recv env tag tagMask param => (.recv, (ucpTagRecvNbx tm env tag tagMask param).tm)
  | .incoming rdesc => (incomingFirst tm rdesc).map .incoming id
  | .probe tag tagMask rem => (ucpTagProbeNb tm tag tagMask rem).map .probe id
  | .remove req => (ucpTagExpRemove tm req).map .remove id

/-- A sequence of events: the answers and the matching state after. -/
def tagRun (tm : UcpTagMatch) : List TagEvent → List TagObs × UcpTagMatch
  | [] => ([], tm)
  | ev :: evs =>
    let (o, tm) := tagStep tm ev
    let (os, tm) := tagRun tm evs
    (o :: os, tm)

end UcxProofs.TagRecv
