import UcxProofs.Status
import UcxProofs.Lib.AddrBits

/-!
The pipelined rendezvous of `ucp/rndv/rndv_ppln.c`: the super request cuts a contiguous
message into fragments of at most `frag_size` bytes, each sent as a request of its own, and
counts the bytes of the fragments as they complete. A last piece shorter than the fragment
protocol's `min_length` is moved back over the piece before it
(`ucp_datatype_iter_next_slice_overlap`); the overlap is taken off `completed_size` and
`ack_data_size` when that fragment is created.

A run interleaves the rounds of the loop of `ucp_proto_rndv_ppln_progress` with the completions
of fragments in any order; a fragment that completes inside `ucp_request_send` completes right
after its round. Every fragment completes with the protocol's `send_ack`, and none aborts.
The stage `UCP_PROTO_RNDV_PPLN_STAGE_ACK` is recorded when it is set; what its progress sends is
left out, as is the memory of the fragments and the datatype (a slice is its offset and length).
-/

namespace UcxProofs.RndvPpln

open AddrBits

/-! ### The contiguous datatype iterator -/

/-- The fields of a contiguous `ucp_datatype_iter_t` that the pipeline reads. -/
structure UcpDatatypeIter where
  length : UInt64
  offset : UInt64
  deriving DecidableEq, Repr

/-- `ucp_datatype_iter_is_end`. -/
def ucpDatatypeIterIsEnd (dtIter : UcpDatatypeIter) : Bool := dtIter.offset == dtIter.length

/-- `ucp_datatype_iter_next`: the length of the next piece. -/
def ucpDatatypeIterNext (dtIter : UcpDatatypeIter) (maxLength : UInt64) : UInt64 :=
  min maxLength (dtIter.length - dtIter.offset)

/-- `ucp_datatype_iter_next_slice_overlap`: the overlap, the offset and length of the slice, and
the offset of `next_iter`. The overlap is the `ssize_t` value of `min_frag - length`. -/
def ucpDatatypeIterNextSliceOverlap (dtIter : UcpDatatypeIter) (maxLength minFrag : UInt64) :
    UInt64 × UInt64 × UInt64 × UInt64 :=
  let length := ucpDatatypeIterNext dtIter maxLength
  let next := dtIter.offset + length
  let overlap := minFrag - length
  if 0 < overlap.toInt64 then (overlap, dtIter.offset - overlap, length + overlap, next)
  else (0, dtIter.offset, length, next)

/-! ### The super request -/

/-- The fields of `ucp_proto_rndv_ppln_priv_t` the pipeline reads. -/
structure UcpProtoRndvPplnPriv where
  fragSize : UInt64
  fragProtoMinLength : UInt64
  deriving DecidableEq, Repr

/-- The stages of the super request. -/
inductive UcpProtoRndvPplnStage
  | send
  | ack
  deriving DecidableEq, Repr

/-- The fields of the super request: its iterator, `completed_size`, `rndv.ppln.ack_data_size`,
`rndv.remote_address`, `rndv.offset`, its stage, and whether it was completed. -/
structure UcpRndvPplnReq where
  dtIter : UcpDatatypeIter
  completedSize : UInt64
  ackDataSize : UInt64
  remoteAddress : UInt64
  rndvOffset : UInt64
  stage : UcpProtoRndvPplnStage
  completed : Bool
  deriving DecidableEq, Repr

/-- A fragment request: the offset of its slice in the message, its `dt_iter.length`, and its
`rndv.remote_address` and `rndv.offset`. -/
structure UcpRndvPplnFrag where
  offset : UInt64
  length : UInt64
  remoteAddress : UInt64
  rndvOffset : UInt64
  deriving DecidableEq, Repr

/-- The start of `ucp_proto_rndv_ppln_progress`. -/
def ucpProtoRndvPplnProgressInit (req : UcpRndvPplnReq) : UcpRndvPplnReq :=
  { req with completedSize := 0, ackDataSize := 0 }

/-- One round of the loop of `ucp_proto_rndv_ppln_progress`: the fragment it sends and the super
request after it, or `none` at the end of the message. -/
def ucpProtoRndvPplnProgressFrag (rpriv : UcpProtoRndvPplnPriv) (req : UcpRndvPplnReq) :
    Option (UcpRndvPplnFrag × UcpRndvPplnReq) :=
  if ucpDatatypeIterIsEnd req.dtIter then none
  else
    let (overlap, offset, length, next) :=
      ucpDatatypeIterNextSliceOverlap req.dtIter rpriv.fragSize rpriv.fragProtoMinLength
    some (⟨offset, length, req.remoteAddress + offset, req.rndvOffset + offset⟩,
      { req with ackDataSize := req.ackDataSize - overlap,
                 completedSize := req.completedSize - overlap,
                 dtIter := { req.dtIter with offset := next } })

/-- `ucp_proto_rndv_ppln_frag_complete` with `ucp_proto_rndv_frag_complete`, and what
`ucp_proto_rndv_ppln_send_frag_complete` and `ucp_proto_rndv_ppln_recv_frag_complete` do with
its result: when the last byte is counted, the stage moves to the ACK if `ack_data_size` is
positive, and the request completes otherwise. -/
def ucpProtoRndvPplnFragComplete (req : UcpRndvPplnReq) (frag : UcpRndvPplnFrag)
    (sendAck abort : Bool) : UcpRndvPplnReq :=
  let ackDataSize := if sendAck then req.ackDataSize + frag.length else req.ackDataSize
  let completedSize := req.completedSize + frag.length
  let req := { req with ackDataSize, completedSize }
  if completedSize ≠ req.dtIter.length then req
  else if !abort && 0 < ackDataSize then { req with stage := .ack }
  else { req with completed := true }

/-! ### Runs -/

/-- The super request, the fragments sent in order, and the indices of those not completed. -/
structure UcpRndvPplnState where
  req : UcpRndvPplnReq
  frags : List UcpRndvPplnFrag
  pending : List ℕ
  deriving DecidableEq, Repr

/-- What happens next: a round of the loop, or the completion of a fragment. -/
inductive UcpRndvPplnOp
  | sendFrag
  | fragComplete (i : ℕ)
  deriving DecidableEq, Repr

/-- One step of a run, `none` where it cannot happen. -/
def ucpRndvPplnStep (rpriv : UcpProtoRndvPplnPriv) (sendAck : Bool) (s : UcpRndvPplnState) :
    UcpRndvPplnOp → Option UcpRndvPplnState
  | .sendFrag => (ucpProtoRndvPplnProgressFrag rpriv s.req).map fun (frag, req) =>
      ⟨req, s.frags ++ [frag], s.pending ++ [s.frags.length]⟩
  | .fragComplete i =>
    match s.frags[i]? with
    | some frag =>
      if i ∈ s.pending then
        some ⟨ucpProtoRndvPplnFragComplete s.req frag sendAck false, s.frags, s.pending.erase i⟩
      else none
    | none => none

/-- A run of steps. -/
def ucpRndvPplnRun (rpriv : UcpProtoRndvPplnPriv) (sendAck : Bool) :
    UcpRndvPplnState → List UcpRndvPplnOp → Option UcpRndvPplnState
  | s, [] => some s
  | s, op :: ops => (ucpRndvPplnStep rpriv sendAck s op).bind (ucpRndvPplnRun rpriv sendAck · ops)

/-- The state when `ucp_proto_rndv_ppln_progress` starts on a request. -/
def ucpRndvPplnStart (req : UcpRndvPplnReq) : UcpRndvPplnState :=
  ⟨ucpProtoRndvPplnProgressInit req, [], []⟩

/-! ### One round -/

section Round

variable {dtIter : UcpDatatypeIter} {maxLength minFrag : UInt64}

lemma ucpDatatypeIterNext_toNat (h : dtIter.offset ≤ dtIter.length) :
    (ucpDatatypeIterNext dtIter maxLength).toNat =
      min maxLength.toNat (dtIter.length.toNat - dtIter.offset.toNat) := by
  rw [ucpDatatypeIterNext, toNat_min, UInt64.toNat_sub_of_le _ _ h]

/-- The slice of a round: the piece `min max_length (length - offset)`, moved back over the
previous bytes by what it lacks of `min_frag`. -/
lemma nextSliceOverlap_spec (hle : minFrag ≤ maxLength) (hmax : maxLength.toNat < 2 ^ 63)
    (hlt : dtIter.offset < dtIter.length)
    (hback : minFrag.toNat - min maxLength.toNat (dtIter.length.toNat - dtIter.offset.toNat) ≤
      dtIter.offset.toNat) :
    let piece := min maxLength.toNat (dtIter.length.toNat - dtIter.offset.toNat)
    let r := ucpDatatypeIterNextSliceOverlap dtIter maxLength minFrag
    r.1.toNat = minFrag.toNat - piece ∧
      r.2.1.toNat = dtIter.offset.toNat - (minFrag.toNat - piece) ∧
      r.2.2.1.toNat = piece + (minFrag.toNat - piece) ∧
      r.2.2.2.toNat = dtIter.offset.toNat + piece := by
  intro piece r
  have hpiece := @ucpDatatypeIterNext_toNat dtIter maxLength (UInt64.le_of_lt hlt)
  have hmf := UInt64.le_iff_toNat_le.mp hle
  have hol := UInt64.lt_iff_toNat_lt.mp hlt
  have hL := dtIter.length.toNat_lt
  have hnext : (dtIter.offset + ucpDatatypeIterNext dtIter maxLength).toNat =
      dtIter.offset.toNat + piece := by
    rw [UInt64.toNat_add, hpiece, Nat.mod_eq_of_lt (by omega)]
  by_cases hshort : piece < minFrag.toNat
  · -- the piece is short: it takes `min_frag - length` bytes before it
    have hov : (minFrag - ucpDatatypeIterNext dtIter maxLength).toNat = minFrag.toNat - piece := by
      rw [UInt64.toNat_sub_of_le _ _ (UInt64.le_iff_toNat_le.mpr (by omega)), hpiece]
    have hpos : 0 < (minFrag - ucpDatatypeIterNext dtIter maxLength).toInt64 := by
      rw [toInt64_pos_iff, hov]
      omega
    simp only [r, ucpDatatypeIterNextSliceOverlap, if_pos hpos]
    refine ⟨hov, ?_, ?_, hnext⟩
    · rw [UInt64.toNat_sub_of_le _ _ (UInt64.le_iff_toNat_le.mpr (by omega)), hov]
    · rw [UInt64.toNat_add, hov, hpiece, Nat.mod_eq_of_lt (by omega)]
  · -- `min_frag - length` is zero or wraps to a negative `ssize_t`
    have hneg : ¬ 0 < (minFrag - ucpDatatypeIterNext dtIter maxLength).toInt64 := by
      rw [toInt64_pos_iff, UInt64.toNat_sub, hpiece]
      omega
    simp only [r, ucpDatatypeIterNextSliceOverlap, if_neg hneg]
    refine ⟨?_, ?_, ?_, hnext⟩
    · rw [UInt64.toNat_zero]
      omega
    · omega
    · rw [hpiece]
      omega

end Round

/-! ### A fragment completes -/

section FragComplete

variable {req : UcpRndvPplnReq} {frag : UcpRndvPplnFrag} {sendAck abort : Bool}

@[simp] lemma fragComplete_dtIter :
    (ucpProtoRndvPplnFragComplete req frag sendAck abort).dtIter = req.dtIter := by
  dsimp only [ucpProtoRndvPplnFragComplete]
  split_ifs <;> rfl

@[simp] lemma fragComplete_remoteAddress :
    (ucpProtoRndvPplnFragComplete req frag sendAck abort).remoteAddress = req.remoteAddress := by
  dsimp only [ucpProtoRndvPplnFragComplete]
  split_ifs <;> rfl

@[simp] lemma fragComplete_rndvOffset :
    (ucpProtoRndvPplnFragComplete req frag sendAck abort).rndvOffset = req.rndvOffset := by
  dsimp only [ucpProtoRndvPplnFragComplete]
  split_ifs <;> rfl

@[simp] lemma fragComplete_completedSize :
    (ucpProtoRndvPplnFragComplete req frag sendAck abort).completedSize =
      req.completedSize + frag.length := by
  dsimp only [ucpProtoRndvPplnFragComplete]
  split_ifs <;> rfl

@[simp] lemma fragComplete_ackDataSize :
    (ucpProtoRndvPplnFragComplete req frag sendAck abort).ackDataSize =
      if sendAck then req.ackDataSize + frag.length else req.ackDataSize := by
  dsimp only [ucpProtoRndvPplnFragComplete]
  split_ifs <;> rfl

/-- Before the last byte is counted, the stage stays. -/
lemma fragComplete_of_ne (h : req.completedSize + frag.length ≠ req.dtIter.length) :
    (ucpProtoRndvPplnFragComplete req frag sendAck abort).stage = req.stage ∧
      (ucpProtoRndvPplnFragComplete req frag sendAck abort).completed = req.completed := by
  unfold ucpProtoRndvPplnFragComplete
  simp only [ne_eq, h, not_false_eq_true, if_true, and_self]

/-- At the last byte, the ACK stage if there is something to acknowledge, completion
otherwise. -/
lemma fragComplete_of_eq (h : req.completedSize + frag.length = req.dtIter.length) :
    let r := ucpProtoRndvPplnFragComplete req frag sendAck false
    (r.stage = .ack ∧ r.completed = req.completed ∧ 0 < r.ackDataSize) ∨
      (r.stage = req.stage ∧ r.completed = true ∧ r.ackDataSize = 0) := by
  dsimp only [ucpProtoRndvPplnFragComplete]
  rw [if_neg (not_not.mpr h)]
  generalize (if sendAck then req.ackDataSize + frag.length else req.ackDataSize) = ackDataSize
  split
  · rename_i hpos
    exact .inl ⟨rfl, rfl, by simpa using hpos⟩
  · rename_i hpos
    refine .inr ⟨rfl, rfl, ?_⟩
    simp only [Bool.not_false, Bool.true_and, decide_eq_true_eq, UInt64.lt_iff_toNat_lt,
      UInt64.toNat_zero] at hpos
    exact UInt64.toNat_inj.mp (by dsimp only; rw [UInt64.toNat_zero]; omega)

end FragComplete

/-! ### What a run keeps -/

/-- A configuration and a message length the pipeline is chosen for:
`1 ≤ frag_proto_min_length ≤ frag_size < length`, with the sizes far from `2 ^ 64`. -/
structure Admissible (rpriv : UcpProtoRndvPplnPriv) (length : UInt64) : Prop where
  minLength_pos : 0 < rpriv.fragProtoMinLength.toNat
  minLength_le : rpriv.fragProtoMinLength ≤ rpriv.fragSize
  fragSize_lt : rpriv.fragSize.toNat < length.toNat
  fragSize_small : rpriv.fragSize.toNat < 2 ^ 63
  length_small : length.toNat + rpriv.fragSize.toNat < 2 ^ 64

/-- The length of the last piece of `length` bytes cut every `fragSize` bytes. -/
def lastPiece (fragSize length : ℕ) : ℕ :=
  if length % fragSize = 0 then fragSize else length % fragSize

lemma lastPiece_eq {fragSize length n : ℕ} (h1 : n * fragSize < length)
    (h2 : length ≤ n * fragSize + fragSize) : lastPiece fragSize length = length - n * fragSize := by
  obtain ⟨r, rfl⟩ := Nat.exists_eq_add_of_lt h1
  have hmod : (n * fragSize + r + 1) % fragSize = (r + 1) % fragSize := by
    rw [Nat.add_assoc, Nat.mul_comm, Nat.mul_add_mod]
  unfold lastPiece
  rw [hmod]
  split
  · rename_i h0
    -- `r + 1` is a positive multiple of `fragSize` no larger than it
    obtain ⟨k, hk⟩ := Nat.dvd_of_mod_eq_zero h0
    rcases k with _ | _ | k <;> simp only [Nat.mul_add_one, Nat.mul_zero, Nat.zero_add] at hk <;>
      omega
  · rename_i h0
    have : r + 1 < fragSize := by
      rcases Nat.lt_or_ge (r + 1) fragSize with h | h
      · exact h
      · exfalso
        exact h0 (by rw [show r + 1 = fragSize by omega, Nat.mod_self])
    rw [Nat.mod_eq_of_lt this]
    omega

namespace UcpRndvPplnState

/-- The length of fragment `i`, `0` past the fragments. -/
def fragLength (s : UcpRndvPplnState) (i : ℕ) : ℕ := (s.frags[i]?.map (·.length.toNat)).getD 0

/-- The bytes of the fragments not completed. -/
def pendingBytes (s : UcpRndvPplnState) : ℕ := (s.pending.map s.fragLength).sum

/-- The bytes of the fragments sent. -/
def sentBytes (s : UcpRndvPplnState) : ℕ := (s.frags.map (·.length.toNat)).sum

lemma sum_range_getD {α : Type} (f : α → ℕ) (l : List α) :
    ((List.range l.length).map fun i => (l[i]?.map f).getD 0).sum = (l.map f).sum := by
  induction l with
  | nil => rfl
  | cons a l ih =>
    rw [List.length_cons, List.range_succ_eq_map, List.map_cons, List.map_map, List.sum_cons]
    simp only [Function.comp_def, List.getElem?_cons_succ, List.getElem?_cons_zero,
      Option.map_some, Option.getD_some, List.map_cons, List.sum_cons, ih]

variable {s : UcpRndvPplnState}

lemma pendingBytes_le_sentBytes (hlt : ∀ i ∈ s.pending, i < s.frags.length)
    (hnodup : s.pending.Nodup) : s.pendingBytes ≤ s.sentBytes := by
  have hsub : s.pending.Subperm (List.range s.frags.length) :=
    hnodup.subperm fun i hi => List.mem_range.mpr (hlt i hi)
  obtain ⟨l, hperm, hl⟩ := hsub
  calc s.pendingBytes = (l.map s.fragLength).sum := ((hperm.map _).sum_eq).symm
    _ ≤ ((List.range s.frags.length).map s.fragLength).sum :=
      (hl.map _).sum_le_sum fun _ _ => Nat.zero_le _
    _ = s.sentBytes := sum_range_getD _ _

lemma pendingBytes_erase {i : ℕ} (hi : i ∈ s.pending) :
    s.fragLength i + (((s.pending.erase i).map s.fragLength).sum) = s.pendingBytes :=
  List.sum_map_erase _ hi

lemma pos_pendingBytes (hlen : ∀ f ∈ s.frags, 0 < f.length.toNat)
    (hlt : ∀ i ∈ s.pending, i < s.frags.length) (hne : s.pending ≠ []) : 0 < s.pendingBytes := by
  obtain ⟨i, hi⟩ := List.exists_mem_of_ne_nil _ hne
  have hlen_i : 0 < s.fragLength i := by
    rw [fragLength, List.getElem?_eq_getElem (hlt i hi)]
    exact hlen _ (List.getElem_mem _)
  have := pendingBytes_erase hi
  omega

lemma fragLength_push (req : UcpRndvPplnReq) (frag : UcpRndvPplnFrag) (pending : List ℕ)
    {i : ℕ} (hi : i < s.frags.length) :
    (⟨req, s.frags ++ [frag], pending⟩ : UcpRndvPplnState).fragLength i = s.fragLength i := by
  simp only [fragLength, List.getElem?_append_left hi]

lemma pendingBytes_push (req : UcpRndvPplnReq) (frag : UcpRndvPplnFrag)
    (hlt : ∀ i ∈ s.pending, i < s.frags.length) :
    (⟨req, s.frags ++ [frag], s.pending ++ [s.frags.length]⟩ : UcpRndvPplnState).pendingBytes =
      s.pendingBytes + frag.length.toNat := by
  have hold : s.pending.map (⟨req, s.frags ++ [frag], s.pending ++ [s.frags.length]⟩ :
      UcpRndvPplnState).fragLength = s.pending.map s.fragLength :=
    List.map_congr_left fun i hi => fragLength_push req frag _ (hlt i hi)
  simp only [pendingBytes, List.map_append, hold, List.sum_append, List.map_cons, List.map_nil,
    List.sum_cons, List.sum_nil, fragLength, List.getElem?_append_right (Nat.le_refl _),
    Nat.sub_self, List.getElem?_cons_zero, Option.map_some, Option.getD_some, Nat.add_zero]

lemma sentBytes_push (req : UcpRndvPplnReq) (frag : UcpRndvPplnFrag) (pending : List ℕ) :
    (⟨req, s.frags ++ [frag], pending⟩ : UcpRndvPplnState).sentBytes =
      s.sentBytes + frag.length.toNat := by
  simp [sentBytes]

end UcpRndvPplnState

/-- What holds along a run from `ucpRndvPplnStart req₀`: the message is cut every `frag_size`
bytes, fragment `k` ends where piece `k` ends, the counters are what the pending fragments
leave of the offset, and the request leaves the send stage once the last fragment completes. -/
structure Inv (rpriv : UcpProtoRndvPplnPriv) (sendAck : Bool) (req₀ : UcpRndvPplnReq)
    (s : UcpRndvPplnState) : Prop where
  length_eq : s.req.dtIter.length = req₀.dtIter.length
  remoteAddress_eq : s.req.remoteAddress = req₀.remoteAddress
  rndvOffset_eq : s.req.rndvOffset = req₀.rndvOffset
  offset_eq : s.req.dtIter.offset.toNat =
    min (s.frags.length * rpriv.fragSize.toNat) req₀.dtIter.length.toNat
  frag_length : ∀ f ∈ s.frags, rpriv.fragProtoMinLength.toNat ≤ f.length.toNat ∧
    f.length.toNat ≤ rpriv.fragSize.toNat
  frag_end : ∀ k (hk : k < s.frags.length), s.frags[k].offset.toNat + s.frags[k].length.toNat =
    min ((k + 1) * rpriv.fragSize.toNat) req₀.dtIter.length.toNat
  frag_offset : ∀ k (hk : k < s.frags.length), s.frags[k].offset.toNat =
    k * rpriv.fragSize.toNat - (rpriv.fragProtoMinLength.toNat -
      min rpriv.fragSize.toNat (req₀.dtIter.length.toNat - k * rpriv.fragSize.toNat))
  frag_address : ∀ f ∈ s.frags, f.remoteAddress = req₀.remoteAddress + f.offset ∧
    f.rndvOffset = req₀.rndvOffset + f.offset
  sentBytes_eq : s.sentBytes = s.req.dtIter.offset.toNat +
    if s.req.dtIter.offset = s.req.dtIter.length then
      rpriv.fragProtoMinLength.toNat -
        lastPiece rpriv.fragSize.toNat req₀.dtIter.length.toNat
    else 0
  pending_lt : ∀ i ∈ s.pending, i < s.frags.length
  pending_nodup : s.pending.Nodup
  completedSize_eq : s.req.completedSize = s.req.dtIter.offset - s.pendingBytes.toUInt64
  ackDataSize_eq : s.req.ackDataSize =
    s.req.dtIter.offset - (if sendAck then s.pendingBytes else s.sentBytes).toUInt64
  stage_send : (s.req.dtIter.offset = s.req.dtIter.length → s.pending ≠ []) →
    s.req.stage = .send ∧ s.req.completed = false
  stage_end : s.req.dtIter.offset = s.req.dtIter.length → s.pending = [] →
    (s.req.stage = .ack ∧ s.req.completed = false ∧ 0 < s.req.ackDataSize) ∨
      (s.req.stage = .send ∧ s.req.completed = true ∧ s.req.ackDataSize = 0)

/-- A property of every piece by its index holds after one more piece that has it. -/
lemma forall_getElem_append_singleton {α : Type*} {l : List α} {x : α} {P : ℕ → α → Prop}
    (hl : ∀ k (hk : k < l.length), P k l[k]) (hx : P l.length x) :
    ∀ k (hk : k < (l ++ [x]).length), P k (l ++ [x])[k] := by
  intro k hk
  simp only [List.length_append, List.length_singleton] at hk
  rcases Nat.lt_or_ge k l.length with hk' | hk'
  · rw [List.getElem_append_left hk']
    exact hl k hk'
  · obtain rfl : k = l.length := by omega
    rw [List.getElem_append_right (Nat.le_refl _)]
    simpa using hx

/-- A round takes its overlap off a counter that reads `offset - pending`. -/
lemma sub_push {o o' d : UInt64} {p piece : ℕ} (ho : o'.toNat = o.toNat + piece) :
    o' - (p + (piece + d.toNat)).toUInt64 = o - p.toUInt64 - d := by
  apply UInt64.toNat_inj.mp
  have := o'.toNat_lt
  have := d.toNat_lt
  simp only [UInt64.toNat_sub, Nat.toUInt64_eq, UInt64.toNat_ofNat', ho]
  omega

/-- A completion adds the fragment's length to a counter that reads `offset - pending`. -/
lemma sub_pop {o l : UInt64} {p : ℕ} (h : l.toNat ≤ p) :
    o - p.toUInt64 + l = o - (p - l.toNat).toUInt64 := by
  apply UInt64.toNat_inj.mp
  have := o.toNat_lt
  have := l.toNat_lt
  simp only [UInt64.toNat_sub, UInt64.toNat_add, Nat.toUInt64_eq, UInt64.toNat_ofNat']
  omega

section Runs

variable {rpriv : UcpProtoRndvPplnPriv} {sendAck : Bool} {req₀ : UcpRndvPplnReq}
  (ha : Admissible rpriv req₀.dtIter.length)

include ha in
/-- The round that cuts piece `n`: the piece is `min frag_size (length - n * frag_size)`, and its
fragment takes what the piece lacks of `min_length` from before it. -/
lemma progressFrag_spec {req : UcpRndvPplnReq} {n : ℕ}
    (hlen : req.dtIter.length = req₀.dtIter.length)
    (hoff : req.dtIter.offset.toNat = n * rpriv.fragSize.toNat)
    (hlt : n * rpriv.fragSize.toNat < req₀.dtIter.length.toNat) :
    let piece := min rpriv.fragSize.toNat (req₀.dtIter.length.toNat - n * rpriv.fragSize.toNat)
    let ov := rpriv.fragProtoMinLength.toNat - piece
    ∃ frag overlap next, ucpProtoRndvPplnProgressFrag rpriv req = some (frag,
        { req with ackDataSize := req.ackDataSize - overlap,
                   completedSize := req.completedSize - overlap,
                   dtIter := ⟨req.dtIter.length, next⟩ }) ∧
      overlap.toNat = ov ∧ ov ≤ n * rpriv.fragSize.toNat ∧
      next.toNat = n * rpriv.fragSize.toNat + piece ∧
      frag.offset.toNat = n * rpriv.fragSize.toNat - ov ∧ frag.length.toNat = piece + ov ∧
      frag.remoteAddress = req.remoteAddress + frag.offset ∧
      frag.rndvOffset = req.rndvOffset + frag.offset := by
  intro piece ov
  have hmin := UInt64.le_iff_toNat_le.mp ha.minLength_le
  have hltU : req.dtIter.offset < req.dtIter.length := by
    rw [UInt64.lt_iff_toNat_lt, hoff, hlen]
    exact hlt
  -- the first piece is whole, so only a later one can reach back
  have hback : rpriv.fragProtoMinLength.toNat -
      min rpriv.fragSize.toNat (req.dtIter.length.toNat - req.dtIter.offset.toNat) ≤
        req.dtIter.offset.toNat := by
    rw [hoff, hlen]
    rcases n with _ | n
    · have := ha.fragSize_lt
      omega
    · have : rpriv.fragSize.toNat ≤ (n + 1) * rpriv.fragSize.toNat :=
        Nat.le_mul_of_pos_left _ (Nat.succ_pos n)
      omega
  obtain ⟨h1, h2, h3, h4⟩ := nextSliceOverlap_spec ha.minLength_le ha.fragSize_small hltU hback
  rw [hoff, hlen] at h1 h2 h3 h4 hback
  have hend : ucpDatatypeIterIsEnd req.dtIter = false := by
    simp only [ucpDatatypeIterIsEnd, beq_eq_false_iff_ne, ne_eq]
    exact UInt64.ne_of_lt hltU
  let r := ucpDatatypeIterNextSliceOverlap req.dtIter rpriv.fragSize rpriv.fragProtoMinLength
  refine ⟨⟨r.2.1, r.2.2.1, req.remoteAddress + r.2.1, req.rndvOffset + r.2.1⟩, r.1, r.2.2.2, ?_,
    h1, hback, h4, h2, h3, rfl, rfl⟩
  simp only [ucpProtoRndvPplnProgressFrag, hend, Bool.false_eq_true, if_false]
  rfl

include ha in
lemma Inv.start (hoff : req₀.dtIter.offset = 0) (hstage : req₀.stage = .send)
    (hcompleted : req₀.completed = false) :
    Inv rpriv sendAck req₀ (ucpRndvPplnStart req₀) := by
  have hL := ha.fragSize_lt
  have hne : req₀.dtIter.offset ≠ req₀.dtIter.length := fun h =>
    absurd (congrArg UInt64.toNat (hoff.symm.trans h)) (by rw [UInt64.toNat_zero]; omega)
  refine ⟨rfl, rfl, rfl, ?_, by simp [ucpRndvPplnStart], by simp [ucpRndvPplnStart],
    by simp [ucpRndvPplnStart], by simp [ucpRndvPplnStart], ?_, by simp [ucpRndvPplnStart],
    List.nodup_nil, ?_, ?_, ?_, ?_⟩
  · show req₀.dtIter.offset.toNat = _
    simp [ucpRndvPplnStart, hoff]
  · show 0 = req₀.dtIter.offset.toNat +
      if req₀.dtIter.offset = req₀.dtIter.length then _ else 0
    rw [if_neg hne, hoff]
    rfl
  · simp [ucpRndvPplnStart, ucpProtoRndvPplnProgressInit, UcpRndvPplnState.pendingBytes, hoff]
  · simp [ucpRndvPplnStart, ucpProtoRndvPplnProgressInit, UcpRndvPplnState.pendingBytes,
      UcpRndvPplnState.sentBytes, hoff]
  · intro _
    exact ⟨hstage, hcompleted⟩
  · intro h
    exact absurd h hne

include ha in
/-- A round keeps the invariant: it cuts the next piece and pushes its fragment. -/
lemma Inv.sendFrag {s s' : UcpRndvPplnState} (hinv : Inv rpriv sendAck req₀ s)
    (h : ucpRndvPplnStep rpriv sendAck s .sendFrag = some s') : Inv rpriv sendAck req₀ s' := by
  have hFL := ha.fragSize_lt
  have hm := UInt64.le_iff_toNat_le.mp ha.minLength_le
  -- the loop goes on only short of the end
  have hne : s.req.dtIter.offset ≠ s.req.dtIter.length := by
    intro heq
    simp [ucpRndvPplnStep, ucpProtoRndvPplnProgressFrag, ucpDatatypeIterIsEnd, heq] at h
  have hoffL : s.req.dtIter.offset.toNat ≠ req₀.dtIter.length.toNat := fun h' =>
    hne (UInt64.toNat_inj.mp (by rw [h', hinv.length_eq]))
  have hoff := hinv.offset_eq
  have hlt : s.frags.length * rpriv.fragSize.toNat < req₀.dtIter.length.toNat := by omega
  have hoff' : s.req.dtIter.offset.toNat = s.frags.length * rpriv.fragSize.toNat := by omega
  obtain ⟨frag, overlap, next, hpf, hov, hovle, hnext, hfoff, hflen, hfra, hfro⟩ :=
    progressFrag_spec ha hinv.length_eq hoff' hlt
  simp only [ucpRndvPplnStep, hpf, Option.map_some, Option.some.injEq] at h
  subst h
  have hsucc : (s.frags.length + 1) * rpriv.fragSize.toNat =
      s.frags.length * rpriv.fragSize.toNat + rpriv.fragSize.toNat := Nat.succ_mul _ _
  have hsent := hinv.sentBytes_eq
  rw [if_neg hne] at hsent
  have hflen' : frag.length.toNat =
      min rpriv.fragSize.toNat (req₀.dtIter.length.toNat - s.frags.length * rpriv.fragSize.toNat) +
        overlap.toNat := by rw [hflen, hov]
  refine ⟨hinv.length_eq, hinv.remoteAddress_eq, hinv.rndvOffset_eq, ?_, ?_, ?_, ?_, ?_, ?_, ?_,
    ?_, ?_, ?_, ?_, ?_⟩
  · -- the offset moves to the end of the piece
    simp only [List.length_append, List.length_singleton]
    rw [hnext, hsucc]
    omega
  · intro f hf
    rcases List.mem_append.mp hf with hf | hf
    · exact hinv.frag_length f hf
    · rw [List.mem_singleton.mp hf, hflen]
      omega
  · refine forall_getElem_append_singleton (P := fun k (f : UcpRndvPplnFrag) => f.offset.toNat + f.length.toNat =
      min ((k + 1) * rpriv.fragSize.toNat) req₀.dtIter.length.toNat) hinv.frag_end ?_
    rw [hfoff, hflen, hsucc]
    omega
  · exact forall_getElem_append_singleton (P := fun k (f : UcpRndvPplnFrag) => f.offset.toNat =
      k * rpriv.fragSize.toNat - (rpriv.fragProtoMinLength.toNat -
        min rpriv.fragSize.toNat (req₀.dtIter.length.toNat - k * rpriv.fragSize.toNat)))
      hinv.frag_offset hfoff
  · intro f hf
    rcases List.mem_append.mp hf with hf | hf
    · exact hinv.frag_address f hf
    · rw [List.mem_singleton.mp hf, hfra, hfro, hinv.remoteAddress_eq, hinv.rndvOffset_eq]
      exact ⟨rfl, rfl⟩
  · -- the bytes sent pass the offset by the overlap of the last piece only
    rw [UcpRndvPplnState.sentBytes_push, hsent, hflen]
    dsimp only
    by_cases hend : next = s.req.dtIter.length
    · have hlast : s.frags.length * rpriv.fragSize.toNat + min rpriv.fragSize.toNat
          (req₀.dtIter.length.toNat - s.frags.length * rpriv.fragSize.toNat) =
            req₀.dtIter.length.toNat := by
        rw [← hnext, hend, hinv.length_eq]
      rw [if_pos hend, hnext, lastPiece_eq hlt (by omega)]
      omega
    · have hnotlast : s.frags.length * rpriv.fragSize.toNat + min rpriv.fragSize.toNat
          (req₀.dtIter.length.toNat - s.frags.length * rpriv.fragSize.toNat) ≠
            req₀.dtIter.length.toNat := fun h' =>
        hend (UInt64.toNat_inj.mp (by rw [hnext, h', hinv.length_eq]))
      rw [if_neg hend, hnext]
      omega
  · intro i hi
    simp only [List.length_append, List.length_singleton]
    rcases List.mem_append.mp hi with hi | hi
    · exact Nat.lt_succ_of_lt (hinv.pending_lt i hi)
    · rw [List.mem_singleton.mp hi]
      exact Nat.lt_succ_self _
  · refine List.nodup_append.mpr ⟨hinv.pending_nodup, List.nodup_singleton _, ?_⟩
    intro i hi j hj
    rw [List.mem_singleton.mp hj]
    exact Nat.ne_of_lt (hinv.pending_lt i hi)
  · dsimp only
    rw [UcpRndvPplnState.pendingBytes_push _ _ hinv.pending_lt, hflen', hinv.completedSize_eq]
    exact (sub_push (hnext.trans (by rw [hoff']))).symm
  · dsimp only
    rw [hinv.ackDataSize_eq]
    cases sendAck with
    | true =>
      rw [if_pos rfl, if_pos rfl, UcpRndvPplnState.pendingBytes_push _ _ hinv.pending_lt, hflen']
      exact (sub_push (hnext.trans (by rw [hoff']))).symm
    | false =>
      rw [if_neg Bool.false_ne_true, if_neg Bool.false_ne_true, UcpRndvPplnState.sentBytes_push,
        hflen']
      exact (sub_push (hnext.trans (by rw [hoff']))).symm
  · intro _
    exact hinv.stage_send fun h' => absurd h' hne
  · intro _ hp
    simp at hp

/-- The counter after a completion is short of the length unless the last byte came in. -/
lemma sub_ne_length {o len : UInt64} {p sent m : ℕ} (hoL : o.toNat ≤ len.toNat)
    (hsent : sent = o.toNat + if o = len then m else 0) (hp : p ≤ sent)
    (hmL : len.toNat + m < 2 ^ 64) (hnot : ¬ (o = len ∧ p = 0)) : o - p.toUInt64 ≠ len := by
  intro heq
  have htoNat := congrArg UInt64.toNat heq
  simp only [UInt64.toNat_sub, Nat.toUInt64_eq, UInt64.toNat_ofNat'] at htoNat
  split at hsent
  · rename_i hend
    have hp0 : p ≠ 0 := fun h0 => hnot ⟨hend, h0⟩
    rw [hend] at hsent htoNat
    omega
  · rename_i hend
    have : o.toNat ≠ len.toNat := fun h' => hend (UInt64.toNat_inj.mp h')
    omega

include ha in
/-- A completion keeps the invariant: it counts the fragment's bytes, and moves the stage at the
last of them only. -/
lemma Inv.fragComplete {s s' : UcpRndvPplnState} {i : ℕ} (hinv : Inv rpriv sendAck req₀ s)
    (h : ucpRndvPplnStep rpriv sendAck s (.fragComplete i) = some s') :
    Inv rpriv sendAck req₀ s' := by
  simp only [ucpRndvPplnStep] at h
  split at h
  · rename_i frag hfrag
    split_ifs at h with hi
    simp only [Option.some.injEq] at h
    subst h
    set s' : UcpRndvPplnState :=
      ⟨ucpProtoRndvPplnFragComplete s.req frag sendAck false, s.frags, s.pending.erase i⟩
      with hs'
    have hlen_i : s.fragLength i = frag.length.toNat := by
      simp [UcpRndvPplnState.fragLength, hfrag]
    -- the state after: the same fragments, one fewer pending
    have hpb : s'.pendingBytes + frag.length.toNat = s.pendingBytes := by
      have herase := UcpRndvPplnState.pendingBytes_erase hi
      have : s'.pendingBytes = ((s.pending.erase i).map s.fragLength).sum := rfl
      omega
    have hsent : s'.sentBytes = s.sentBytes := rfl
    have hdt : s'.req.dtIter = s.req.dtIter := fragComplete_dtIter
    have hlt' : ∀ j ∈ s'.pending, j < s'.frags.length := fun j hj =>
      hinv.pending_lt j (List.mem_of_mem_erase hj)
    have hnodup' : s'.pending.Nodup := hinv.pending_nodup.erase i
    have hc' : s'.req.completedSize = s.req.completedSize + frag.length :=
      fragComplete_completedSize
    have hcomp : s'.req.completedSize = s'.req.dtIter.offset - s'.pendingBytes.toUInt64 := by
      rw [hc', hdt, hinv.completedSize_eq, sub_pop (by omega)]
      congr 2
      omega
    have hsend := hinv.stage_send fun _ => List.ne_nil_of_mem hi
    refine ⟨by rw [hdt]; exact hinv.length_eq, ?_, ?_, by rw [hdt]; exact hinv.offset_eq,
      hinv.frag_length, hinv.frag_end, hinv.frag_offset, hinv.frag_address,
      by rw [hsent, hdt]; exact hinv.sentBytes_eq,
      hlt', hnodup', hcomp, ?_, ?_, ?_⟩
    · rw [hs', fragComplete_remoteAddress]
      exact hinv.remoteAddress_eq
    · rw [hs', fragComplete_rndvOffset]
      exact hinv.rndvOffset_eq
    · have hack' : s'.req.ackDataSize =
          if sendAck then s.req.ackDataSize + frag.length else s.req.ackDataSize :=
        fragComplete_ackDataSize
      rw [hack', hdt, hinv.ackDataSize_eq]
      cases sendAck with
      | true =>
        rw [if_pos rfl, if_pos rfl, if_pos rfl, sub_pop (by omega)]
        congr 2
        omega
      | false => rfl
    · -- short of the last byte the stage stays
      intro hnotend
      have hne : s'.req.completedSize ≠ s'.req.dtIter.length := by
        rw [hcomp, hdt]
        have hoL : s.req.dtIter.offset.toNat ≤ s.req.dtIter.length.toNat := by
          rw [hinv.offset_eq, hinv.length_eq]
          exact Nat.min_le_right _ _
        refine sub_ne_length hoL hinv.sentBytes_eq
          (hsent ▸ UcpRndvPplnState.pendingBytes_le_sentBytes hlt' hnodup')
          (by
            have := ha.length_small
            have := UInt64.le_iff_toNat_le.mp ha.minLength_le
            rw [hinv.length_eq]
            omega) ?_
        rintro ⟨hend, hzero⟩
        have hpos := UcpRndvPplnState.pos_pendingBytes (s := s')
          (fun f hf => by have := (hinv.frag_length f hf).1; have := ha.minLength_pos; omega)
          hlt' (hnotend (by rw [hdt]; exact hend))
        omega
      obtain ⟨hstage, hcompleted⟩ := @fragComplete_of_ne s.req frag sendAck false
        (by rw [hdt, hc'] at hne; exact hne)
      exact ⟨hstage.trans hsend.1, hcompleted.trans hsend.2⟩
    · -- at the last byte the stage moves
      intro hend hnil
      have hzero : s'.pendingBytes = 0 := by
        simp [UcpRndvPplnState.pendingBytes, hnil]
      have heq : s.req.completedSize + frag.length = s.req.dtIter.length := by
        have := hcomp
        rw [hzero, hdt, hc'] at this
        rw [this]
        simpa using hdt ▸ hend
      rcases @fragComplete_of_eq s.req frag sendAck heq with ⟨h1, h2, h3⟩ | ⟨h1, h2, h3⟩
      · exact .inl ⟨h1, h2.trans hsend.2, h3⟩
      · exact .inr ⟨h1.trans hsend.1, h2, h3⟩
  · cases h

include ha in
lemma Inv.step {s s' : UcpRndvPplnState} {op : UcpRndvPplnOp} (hinv : Inv rpriv sendAck req₀ s)
    (h : ucpRndvPplnStep rpriv sendAck s op = some s') : Inv rpriv sendAck req₀ s' := by
  cases op with
  | sendFrag => exact hinv.sendFrag ha h
  | fragComplete i => exact hinv.fragComplete ha h

include ha in
lemma Inv.run {s s' : UcpRndvPplnState} {ops : List UcpRndvPplnOp}
    (hinv : Inv rpriv sendAck req₀ s) (h : ucpRndvPplnRun rpriv sendAck s ops = some s') :
    Inv rpriv sendAck req₀ s' := by
  -- induction on the steps, from any state that keeps the invariant
  induction ops generalizing s with
  | nil =>
    simp only [ucpRndvPplnRun, Option.some.injEq] at h
    exact h ▸ hinv
  | cons op ops ih =>
    simp only [ucpRndvPplnRun] at h
    obtain ⟨t, ht, hrun⟩ := Option.bind_eq_some_iff.mp h
    exact ih (hinv.step ha ht) hrun

include ha in
/-- After a completion the counter holds the bytes completed, at most the length: the overlap
it took off is less than the fragment it counts. -/
lemma Inv.completedSize_le {s s' : UcpRndvPplnState} {i : ℕ} (hinv : Inv rpriv sendAck req₀ s)
    (h : ucpRndvPplnStep rpriv sendAck s (.fragComplete i) = some s') :
    s'.req.completedSize.toNat ≤ req₀.dtIter.length.toNat := by
  have hinv' := hinv.fragComplete ha h
  simp only [ucpRndvPplnStep] at h
  split at h
  · rename_i frag hfrag
    split_ifs at h with hi
    simp only [Option.some.injEq] at h
    subst h
    have hfm := (hinv.frag_length frag (List.mem_of_getElem? hfrag)).1
    have herase := UcpRndvPplnState.pendingBytes_erase hi
    have hlen_i : s.fragLength i = frag.length.toNat := by
      simp [UcpRndvPplnState.fragLength, hfrag]
    have hle := UcpRndvPplnState.pendingBytes_le_sentBytes hinv.pending_lt hinv.pending_nodup
    have hoL : s.req.dtIter.offset.toNat ≤ req₀.dtIter.length.toNat := by
      rw [hinv.offset_eq]
      exact Nat.min_le_right _ _
    have hsent := hinv.sentBytes_eq
    have hlp : rpriv.fragProtoMinLength.toNat -
        lastPiece rpriv.fragSize.toNat req₀.dtIter.length.toNat ≤ rpriv.fragProtoMinLength.toNat :=
      Nat.sub_le _ _
    -- what stays pending is no more than the offset, so the counter does not wrap
    have hp : ((s.pending.erase i).map s.fragLength).sum ≤ s.req.dtIter.offset.toNat := by
      split at hsent <;> omega
    rw [hinv'.completedSize_eq]
    simp only [UInt64.toNat_sub, Nat.toUInt64_eq, UInt64.toNat_ofNat', fragComplete_dtIter]
    show (2 ^ 64 - ((s.pending.erase i).map s.fragLength).sum % 2 ^ 64 +
      s.req.dtIter.offset.toNat) % 2 ^ 64 ≤ _
    have := s.req.dtIter.offset.toNat_lt
    omega
  · cases h

include ha in
/-- At the end of a run every byte of the message lies in a fragment. -/
lemma Inv.covers {s : UcpRndvPplnState} (hinv : Inv rpriv sendAck req₀ s)
    (hend : s.req.dtIter.offset = s.req.dtIter.length) {a : ℕ}
    (ha' : a < req₀.dtIter.length.toNat) :
    ∃ k, ∃ hk : k < s.frags.length, s.frags[k].offset.toNat ≤ a ∧
      a < s.frags[k].offset.toNat + s.frags[k].length.toNat := by
  have hF : 0 < rpriv.fragSize.toNat :=
    lt_of_lt_of_le ha.minLength_pos (UInt64.le_iff_toNat_le.mp ha.minLength_le)
  have hoff := hinv.offset_eq
  rw [hend, hinv.length_eq] at hoff
  -- the piece of `a` is piece `a / frag_size`
  have hk : a / rpriv.fragSize.toNat < s.frags.length :=
    (Nat.div_lt_iff_lt_mul hF).mpr (by omega)
  have hdiv := Nat.div_mul_le_self a rpriv.fragSize.toNat
  have hsucc := Nat.lt_div_mul_add (a := a) hF
  refine ⟨_, hk, ?_, ?_⟩
  · rw [hinv.frag_offset _ hk]
    omega
  · rw [hinv.frag_end _ hk, Nat.succ_mul]
    omega

end Runs

/-! ### The counters at the end -/

section Ends

variable {rpriv : UcpProtoRndvPplnPriv} {req₀ : UcpRndvPplnReq}

/-- **A last fragment that overlaps makes a request without ACK bytes send an ACK.** When the
fragments complete with `send_ack = 0`, as the RTR fragments do, and the last piece is shorter
than `min_length`, `ack_data_size` ends at `0` less the overlap, wrapped: for every order of the
rounds and completions, when the last fragment completes the request moves to the ACK stage and
is not completed, with `2 ^ 64 - overlap` bytes to acknowledge. -/
theorem ucpRndvPpln_overlap_enters_ack_stage (ha : Admissible rpriv req₀.dtIter.length)
    (hoff : req₀.dtIter.offset = 0) (hstage : req₀.stage = .send)
    (hcompleted : req₀.completed = false)
    (hshort : lastPiece rpriv.fragSize.toNat req₀.dtIter.length.toNat <
      rpriv.fragProtoMinLength.toNat)
    {ops : List UcpRndvPplnOp} {s : UcpRndvPplnState}
    (hrun : ucpRndvPplnRun rpriv false (ucpRndvPplnStart req₀) ops = some s)
    (hend : s.req.dtIter.offset = s.req.dtIter.length) (hnil : s.pending = []) :
    s.req.stage = .ack ∧ s.req.completed = false ∧
      s.req.ackDataSize.toNat = 2 ^ 64 - (rpriv.fragProtoMinLength.toNat -
        lastPiece rpriv.fragSize.toNat req₀.dtIter.length.toNat) := by
  have hstart : Inv rpriv false req₀ (ucpRndvPplnStart req₀) := Inv.start ha hoff hstage hcompleted
  have hinv := hstart.run ha hrun
  have hm := UInt64.le_iff_toNat_le.mp ha.minLength_le
  have hsent := hinv.sentBytes_eq
  rw [if_pos hend] at hsent
  have hL : s.req.dtIter.offset.toNat = req₀.dtIter.length.toNat := by
    rw [hend, hinv.length_eq]
  -- `ack_data_size` is the offset less every byte sent: the overlap below zero
  have hack : s.req.ackDataSize.toNat = 2 ^ 64 - (rpriv.fragProtoMinLength.toNat -
      lastPiece rpriv.fragSize.toNat req₀.dtIter.length.toNat) := by
    rw [hinv.ackDataSize_eq, if_neg Bool.false_ne_true]
    simp only [UInt64.toNat_sub, Nat.toUInt64_eq, UInt64.toNat_ofNat', hsent]
    have := ha.length_small
    have := ha.fragSize_small
    omega
  rcases hinv.stage_end hend hnil with ⟨h1, h2, -⟩ | ⟨-, -, h3⟩
  · exact ⟨h1, h2, hack⟩
  · rw [h3, UInt64.toNat_zero] at hack
    have := ha.fragSize_small
    omega

/-- **The pipeline's accounting.** In every run from the start of
`ucp_proto_rndv_ppln_progress`, in any order of rounds and completions: fragment `k` is of
`min_length` to `frag_size` bytes, starts at `k * frag_size` less what piece `k` lacks of
`min_length`, ends where piece `k` ends, and carries the remote address and offset of its own
start; after every completion `completed_size` is at most the length; and the request stays in
the send stage, not completed, until the last fragment completes. Then the fragments cover the
message, `completed_size` is the length, with `send_ack` the request is in the ACK stage with
the whole length to acknowledge, and without it the request completes when the last piece is
no shorter than `min_length`. -/
theorem ucpRndvPpln_run_accounting (ha : Admissible rpriv req₀.dtIter.length) {sendAck : Bool}
    (hoff : req₀.dtIter.offset = 0) (hstage : req₀.stage = .send)
    (hcompleted : req₀.completed = false) {ops : List UcpRndvPplnOp} {s : UcpRndvPplnState}
    (hrun : ucpRndvPplnRun rpriv sendAck (ucpRndvPplnStart req₀) ops = some s) :
    (∀ k (hk : k < s.frags.length),
      rpriv.fragProtoMinLength.toNat ≤ s.frags[k].length.toNat ∧
      s.frags[k].length.toNat ≤ rpriv.fragSize.toNat ∧
      s.frags[k].offset.toNat = k * rpriv.fragSize.toNat - (rpriv.fragProtoMinLength.toNat -
        min rpriv.fragSize.toNat (req₀.dtIter.length.toNat - k * rpriv.fragSize.toNat)) ∧
      s.frags[k].offset.toNat + s.frags[k].length.toNat =
        min ((k + 1) * rpriv.fragSize.toNat) req₀.dtIter.length.toNat ∧
      s.frags[k].remoteAddress = req₀.remoteAddress + s.frags[k].offset ∧
      s.frags[k].rndvOffset = req₀.rndvOffset + s.frags[k].offset) ∧
    (∀ i s', ucpRndvPplnStep rpriv sendAck s (.fragComplete i) = some s' →
      s'.req.completedSize.toNat ≤ req₀.dtIter.length.toNat) ∧
    (¬ (s.req.dtIter.offset = s.req.dtIter.length ∧ s.pending = []) →
      s.req.stage = .send ∧ s.req.completed = false) ∧
    (s.req.dtIter.offset = s.req.dtIter.length → s.pending = [] →
      (∀ a < req₀.dtIter.length.toNat, ∃ k, ∃ hk : k < s.frags.length,
        s.frags[k].offset.toNat ≤ a ∧ a < s.frags[k].offset.toNat + s.frags[k].length.toNat) ∧
      s.req.completedSize = req₀.dtIter.length ∧
      (sendAck = true → s.req.stage = .ack ∧ s.req.ackDataSize = req₀.dtIter.length) ∧
      (sendAck = false → rpriv.fragProtoMinLength.toNat ≤
        lastPiece rpriv.fragSize.toNat req₀.dtIter.length.toNat → s.req.completed = true)) := by
  have hstart : Inv rpriv sendAck req₀ (ucpRndvPplnStart req₀) :=
    Inv.start ha hoff hstage hcompleted
  have hinv := hstart.run ha hrun
  refine ⟨fun k hk => ?_, fun i s' h => hinv.completedSize_le ha h,
    fun h => hinv.stage_send fun hend => fun hnil => h ⟨hend, hnil⟩, fun hend hnil => ?_⟩
  · have hl := hinv.frag_length _ (List.getElem_mem hk)
    have haddr := hinv.frag_address _ (List.getElem_mem hk)
    exact ⟨hl.1, hl.2, hinv.frag_offset k hk, hinv.frag_end k hk, haddr.1, haddr.2⟩
  -- at the end nothing is pending, so both counters read the offset, which is the length
  have hlen : s.req.dtIter.length = req₀.dtIter.length := hinv.length_eq
  have hzero : s.pendingBytes = 0 := by simp [UcpRndvPplnState.pendingBytes, hnil]
  have hcomp : s.req.completedSize = req₀.dtIter.length := by
    rw [hinv.completedSize_eq, hzero, hend, hlen]
    simp
  refine ⟨fun a ha' => hinv.covers ha hend ha', hcomp, fun hack => ?_, fun hack hlong => ?_⟩
  · have hackEq : s.req.ackDataSize = req₀.dtIter.length := by
      rw [hinv.ackDataSize_eq, if_pos hack, hzero, hend, hlen]
      simp
    rcases hinv.stage_end hend hnil with ⟨h1, -, -⟩ | ⟨-, -, h3⟩
    · exact ⟨h1, hackEq⟩
    · -- the ACK size is the whole length, which is positive
      have := ha.fragSize_lt
      rw [hackEq] at h3
      rw [h3, UInt64.toNat_zero] at this
      omega
  · have hsent := hinv.sentBytes_eq
    rw [if_pos hend, Nat.sub_eq_zero_of_le hlong, Nat.add_zero] at hsent
    have hackEq : s.req.ackDataSize = 0 := by
      rw [hinv.ackDataSize_eq, if_neg (by rw [hack]; exact Bool.false_ne_true), hsent]
      simp
    rcases hinv.stage_end hend hnil with ⟨-, -, h3⟩ | ⟨-, h2, -⟩
    · rw [hackEq] at h3
      exact absurd h3 (by decide)
    · exact h2

end Ends

/-! ### The configuration of a 9-byte message -/

/-- Fragments of 8 bytes for a fragment protocol of `min_length` 4. -/
def rprivEight : UcpProtoRndvPplnPriv := ⟨8, 4⟩

/-- A 9-byte message at remote address `0x1000`, before the pipeline starts. -/
def reqNine : UcpRndvPplnReq := ⟨⟨9, 0⟩, 0, 0, 0x1000, 0, .send, false⟩

theorem ucpRndvPpln_run_accounting_nine :
    ∃ s, ucpRndvPplnRun rprivEight true (ucpRndvPplnStart reqNine)
        [.sendFrag, .fragComplete 0, .sendFrag, .fragComplete 1] = some s ∧
      s.req.completedSize = 9 ∧ s.req.stage = .ack ∧ s.req.ackDataSize = 9 := by
  refine ⟨_, rfl, ?_⟩
  have ha : Admissible rprivEight reqNine.dtIter.length :=
    ⟨by decide, by decide, by decide, by decide, by decide⟩
  obtain ⟨-, -, -, hend⟩ := @ucpRndvPpln_run_accounting rprivEight reqNine ha true rfl rfl rfl
    [.sendFrag, .fragComplete 0, .sendFrag, .fragComplete 1] _ rfl
  obtain ⟨-, hcomp, hack, -⟩ := hend rfl rfl
  exact ⟨hcomp, hack rfl⟩

theorem ucpRndvPpln_overlap_enters_ack_stage_nine :
    ∃ s, ucpRndvPplnRun rprivEight false (ucpRndvPplnStart reqNine)
        [.sendFrag, .sendFrag, .fragComplete 1, .fragComplete 0] = some s ∧
      s.req.stage = .ack ∧ s.req.completed = false ∧ s.req.ackDataSize.toNat = 2 ^ 64 - 3 := by
  refine ⟨_, rfl, ?_⟩
  have ha : Admissible rprivEight reqNine.dtIter.length :=
    ⟨by decide, by decide, by decide, by decide, by decide⟩
  exact @ucpRndvPpln_overlap_enters_ack_stage rprivEight reqNine ha rfl rfl rfl (by decide)
    [.sendFrag, .sendFrag, .fragComplete 1, .fragComplete 0] _ rfl rfl rfl

end UcxProofs.RndvPpln
