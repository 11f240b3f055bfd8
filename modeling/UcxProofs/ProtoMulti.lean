import UcxProofs.Status
import UcxProofs.Lib.AddrBits

/-!
Multi-lane fragmentation, `ucp/proto/proto_multi.{c,inl}`: a message is sent in fragments over
the lanes of the protocol in turn, each fragment as long as `ucp_proto_multi_max_payload` allows
for its lane. The lane's share of the message is its `weight`, a fixed-point fraction with
16 bits after the point, and the share is taken of the whole length in 64-bit arithmetic.

The send function packs `max_payload` bytes on the current lane through
`ucp_datatype_iter_next_pack` and succeeds, keeping `lane_shift` at `1`; the datatype is seen
through its flat offset only. Of `ucp_proto_multi_lane_priv_t` the model keeps the fields
`max_payload` reads.
-/

namespace UcxProofs.ProtoMulti

/-- `UCP_PROTO_MULTI_WEIGHT_SHIFT`. -/
def ucpProtoMultiWeightShift : UInt64 := 16

/-- `UCP_PROTO_MULTI_WEIGHT_MAX`, `UCS_BIT(UCP_PROTO_MULTI_WEIGHT_SHIFT)`. -/
def ucpProtoMultiWeightMax : UInt64 := 0x10000

/-- The fields of `ucp_proto_multi_lane_priv_t` that `ucp_proto_multi_max_payload` reads. -/
structure UcpProtoMultiLanePriv where
  maxFrag : UInt64
  weight : UInt32
  minEndOffset : UInt64
  deriving DecidableEq, Repr

/-- `ucp_proto_multi_scaled_length`: the lane's share of `length`, rounded up, computed in
`size_t`. -/
def ucpProtoMultiScaledLength (weight : UInt32) (length : UInt64) : UInt64 :=
  (weight.toUInt64 * length + ucpProtoMultiWeightMax - 1) >>> ucpProtoMultiWeightShift

/-- `ucp_proto_multi_max_payload` for a message of `length` bytes at `offset`. Its local
`offset` is the number of bytes left. -/
def ucpProtoMultiMaxPayload (length offset : UInt64) (lpriv : UcpProtoMultiLanePriv)
    (hdrSize : UInt64) : UInt64 :=
  let remaining := length - offset
  if lpriv.maxFrag ≤ hdrSize then 0
  else
    let maxFrag := lpriv.maxFrag - hdrSize
    if remaining < lpriv.minEndOffset then maxFrag
    else min (ucpProtoMultiScaledLength lpriv.weight length) maxFrag

/-- The state of a request that `ucp_proto_multi_progress` moves: the iterator's `length` and
`offset`, and `multi_lane_idx`. -/
structure UcpProtoMultiReq where
  length : UInt64
  offset : UInt64
  multiLaneIdx : ℕ
  deriving DecidableEq, Repr

/-- `ucp_proto_multi_advance_lane_idx`. -/
def ucpProtoMultiAdvanceLaneIdx (multiLaneIdx numLanes laneShift : ℕ) : ℕ :=
  if numLanes ≤ multiLaneIdx + laneShift then 0 else multiLaneIdx + laneShift

/-- A fragment: the lane it went on, its offset and its length. -/
structure Frag where
  lane : ℕ
  offset : UInt64
  length : UInt64
  deriving DecidableEq, Repr

/-- `ucp_proto_multi_progress`: the fragment sent and the request after it, which is `none`
when the request completed. A lane index past the lanes has no lane to read (`none`). -/
def ucpProtoMultiProgress (lanes : List UcpProtoMultiLanePriv) (hdrSize : UInt64)
    (req : UcpProtoMultiReq) : Option (Frag × Option UcpProtoMultiReq) :=
  lanes[req.multiLaneIdx]?.map fun lpriv =>
    let maxPayload := ucpProtoMultiMaxPayload req.length req.offset lpriv hdrSize
    -- `ucp_datatype_iter_next_pack` packs at most what is left
    let length := min (req.length - req.offset) maxPayload
    let frag : Frag := ⟨req.multiLaneIdx, req.offset, length⟩
    let offset := req.offset + length
    let multiLaneIdx := ucpProtoMultiAdvanceLaneIdx req.multiLaneIdx lanes.length 1
    if offset = req.length then (frag, none)
    else (frag, some ⟨req.length, offset, multiLaneIdx⟩)

/-- The fragments of `n` calls of `ucp_proto_multi_progress` and the request after them, which
is `none` once it completed. -/
def ucpProtoMultiRun (lanes : List UcpProtoMultiLanePriv) (hdrSize : UInt64) :
    ℕ → UcpProtoMultiReq → Option (List Frag × Option UcpProtoMultiReq)
  | 0, req => some ([], some req)
  | n + 1, req => do
    let (frag, next) ← ucpProtoMultiProgress lanes hdrSize req
    match next with
    | none => some ([frag], none)
    | some req =>
      let (frags, last) ← ucpProtoMultiRun lanes hdrSize n req
      some (frag :: frags, last)

/-! ### Lengths whose shares do not wrap -/

/-- A lane as `ucp_proto_multi_init_priv` asserts it (`weight > 0`), whose fragments hold more
than the header and whose share of `length` does not wrap. -/
structure UcpProtoMultiLanePriv.Fits (hdrSize length : UInt64) (lpriv : UcpProtoMultiLanePriv) :
    Prop where
  hdrSize_lt : hdrSize < lpriv.maxFrag
  weight_pos : 0 < lpriv.weight
  no_wrap : lpriv.weight.toNat * length.toNat + 0x10000 ≤ 2 ^ 64

/-- The fragments are not empty and follow each other from `offset` to `length`. -/
def Tiles : ℕ → List Frag → ℕ → Prop
  | offset, [], length => offset = length
  | offset, frag :: frags, length =>
    frag.offset.toNat = offset ∧ 0 < frag.length.toNat ∧
      Tiles (offset + frag.length.toNat) frags length

lemma toNat_scaledLength {weight : UInt32} {length : UInt64}
    (h : weight.toNat * length.toNat + 0x10000 ≤ 2 ^ 64) :
    (ucpProtoMultiScaledLength weight length).toNat =
      (weight.toNat * length.toNat + 0xffff) / 0x10000 := by
  have hmul : (weight.toUInt64 * length).toNat = weight.toNat * length.toNat := by
    rw [UInt64.toNat_mul, UInt32.toNat_toUInt64, Nat.mod_eq_of_lt (by omega)]
  -- the sum may reach `2 ^ 64` and wrap to `0`; the `- 1` then wraps back
  have hsum : (weight.toUInt64 * length + ucpProtoMultiWeightMax - 1).toNat =
      weight.toNat * length.toNat + 0xffff := by
    rw [UInt64.toNat_sub, UInt64.toNat_add, hmul]
    simp only [ucpProtoMultiWeightMax, UInt64.reduceToNat]
    omega
  rw [ucpProtoMultiScaledLength, UInt64.toNat_shiftRight, hsum]
  exact Nat.shiftRight_eq_div_pow _ 16

lemma scaledLength_pos {weight : UInt32} {length : UInt64}
    (h : weight.toNat * length.toNat + 0x10000 ≤ 2 ^ 64) (hw : 0 < weight) (hl : 0 < length) :
    0 < (ucpProtoMultiScaledLength weight length).toNat := by
  have hpos : 0 < weight.toNat * length.toNat :=
    Nat.mul_pos (UInt32.lt_iff_toNat_lt.mp hw) (UInt64.lt_iff_toNat_lt.mp hl)
  rw [toNat_scaledLength h]
  omega

/-- With the lane as it fits, `max_payload` is positive and leaves room for the header. -/
lemma maxPayload_pos_le {length offset hdrSize : UInt64} {lpriv : UcpProtoMultiLanePriv}
    (hfits : lpriv.Fits hdrSize length) (hoff : offset < length) :
    0 < (ucpProtoMultiMaxPayload length offset lpriv hdrSize).toNat ∧
      (ucpProtoMultiMaxPayload length offset lpriv hdrSize).toNat ≤
        lpriv.maxFrag.toNat - hdrSize.toNat := by
  have hhdr := UInt64.lt_iff_toNat_lt.mp hfits.hdrSize_lt
  have hfrag : (lpriv.maxFrag - hdrSize).toNat = lpriv.maxFrag.toNat - hdrSize.toNat :=
    UInt64.toNat_sub_of_le _ _ (UInt64.le_of_lt hfits.hdrSize_lt)
  have hl : 0 < length := UInt64.lt_of_le_of_lt UInt64.zero_le hoff
  unfold ucpProtoMultiMaxPayload
  rw [if_neg (UInt64.not_le.mpr hfits.hdrSize_lt)]
  split
  · rw [hfrag]
    omega
  · have := scaledLength_pos hfits.no_wrap hfits.weight_pos hl
    rw [AddrBits.toNat_min, hfrag]
    omega

lemma advanceLaneIdx_one {multiLaneIdx numLanes : ℕ} (h : multiLaneIdx < numLanes) :
    ucpProtoMultiAdvanceLaneIdx multiLaneIdx numLanes 1 = (multiLaneIdx + 1) % numLanes := by
  unfold ucpProtoMultiAdvanceLaneIdx
  split
  · rename_i hle
    rw [show multiLaneIdx + 1 = numLanes by omega, Nat.mod_self]
  · rename_i hlt
    rw [Nat.mod_eq_of_lt (by omega)]

section Run

variable {lanes : List UcpProtoMultiLanePriv} {hdrSize : UInt64} {req : UcpProtoMultiReq}

/-- One call of `ucp_proto_multi_progress`: a fragment of positive length that fits its lane
and the message, sent at the iterator's offset on the current lane, after which the lane
index moves round the lanes. -/
lemma ucpProtoMultiProgress_spec (hfits : ∀ lpriv ∈ lanes, lpriv.Fits hdrSize req.length)
    (hidx : req.multiLaneIdx < lanes.length) (hoff : req.offset < req.length) :
    ∃ lpriv length, lanes[req.multiLaneIdx]? = some lpriv ∧ 0 < length.toNat ∧
      req.offset.toNat + length.toNat ≤ req.length.toNat ∧
      length.toNat ≤ lpriv.maxFrag.toNat - hdrSize.toNat ∧
      (req.offset + length).toNat = req.offset.toNat + length.toNat ∧
      ucpProtoMultiProgress lanes hdrSize req = some (⟨req.multiLaneIdx, req.offset, length⟩,
        if req.offset + length = req.length then none
        else some ⟨req.length, req.offset + length, (req.multiLaneIdx + 1) % lanes.length⟩) := by
  have hget := List.getElem?_eq_getElem hidx
  obtain ⟨hpos, hle⟩ := maxPayload_pos_le (hfits _ (List.getElem_mem hidx)) hoff
  have hrem : (req.length - req.offset).toNat = req.length.toNat - req.offset.toNat :=
    UInt64.toNat_sub_of_le _ _ (UInt64.le_of_lt hoff)
  have hlt := UInt64.lt_iff_toNat_lt.mp hoff
  have hmin := AddrBits.toNat_min (req.length - req.offset)
    (ucpProtoMultiMaxPayload req.length req.offset lanes[req.multiLaneIdx] hdrSize)
  refine ⟨_, min (req.length - req.offset)
    (ucpProtoMultiMaxPayload req.length req.offset lanes[req.multiLaneIdx] hdrSize),
    hget, ?_, ?_, ?_, ?_, ?_⟩
  · omega
  · omega
  · omega
  · rw [UInt64.toNat_add, Nat.mod_eq_of_lt (by have := req.length.toNat_lt; omega)]
  · simp only [ucpProtoMultiProgress, hget, Option.map_some, advanceLaneIdx_one hidx]
    split_ifs <;> rfl

lemma tiles_singleton {offset length : ℕ} {frag : Frag} (ho : frag.offset.toNat = offset)
    (hpos : 0 < frag.length.toNat) (hend : offset + frag.length.toNat = length) :
    Tiles offset [frag] length :=
  ⟨ho, hpos, hend⟩

/-- **Without a wrapped share the message is sent whole, in order and round the lanes.** When
every lane fits and the lane index is a lane, the calls of `ucp_proto_multi_progress` from any
offset short of the end complete the request within as many calls as bytes are left; their
fragments are not empty, follow each other to the end of the message, go to the lanes in turn
and each fits its lane's `max_frag` after the header. -/
theorem ucpProtoMultiRun_sends_message (n : ℕ)
    (hfits : ∀ lpriv ∈ lanes, lpriv.Fits hdrSize req.length)
    (hidx : req.multiLaneIdx < lanes.length) (hoff : req.offset < req.length)
    (hn : req.length.toNat - req.offset.toNat ≤ n) :
    ∃ frags, ucpProtoMultiRun lanes hdrSize n req = some (frags, none) ∧
      Tiles req.offset.toNat frags req.length.toNat ∧
      (∀ i (hi : i < frags.length), frags[i].lane = (req.multiLaneIdx + i) % lanes.length) ∧
      ∀ frag ∈ frags, ∃ lpriv, lanes[frag.lane]? = some lpriv ∧
        frag.length.toNat ≤ lpriv.maxFrag.toNat - hdrSize.toNat := by
  -- induction on the calls left, over every request of the message
  induction n generalizing req with
  | zero =>
    have := UInt64.lt_iff_toNat_lt.mp hoff
    omega
  | succ n ih =>
    obtain ⟨lpriv, length, hget, hpos, hle, hmax, hadd, hstep⟩ :=
      ucpProtoMultiProgress_spec hfits hidx hoff
    by_cases hend : req.offset + length = req.length
    · -- the last fragment
      refine ⟨[⟨req.multiLaneIdx, req.offset, length⟩], ?_, ?_, ?_, ?_⟩
      · simp only [ucpProtoMultiRun, hstep, if_pos hend, Option.bind_eq_bind, Option.bind_some]
      · exact tiles_singleton rfl hpos (by rw [← hadd, hend])
      · intro i hi
        simp only [List.length_singleton, Nat.lt_one_iff] at hi
        subst hi
        exact (Nat.mod_eq_of_lt hidx).symm
      · simpa using ⟨lpriv, hget, hmax⟩
    · -- a fragment in the middle: the rest of the message is sent by the calls left
      have hlen : 0 < lanes.length := by omega
      have hne : req.offset.toNat + length.toNat ≠ req.length.toNat := by
        rw [← hadd]
        exact fun h => hend (UInt64.toNat_inj.mp h)
      obtain ⟨frags, hrun, htiles, hlanes, hfrags⟩ :=
        @ih ⟨req.length, req.offset + length, (req.multiLaneIdx + 1) % lanes.length⟩ hfits
          (Nat.mod_lt _ hlen) (UInt64.lt_iff_toNat_lt.mpr (by simp only; omega))
          (by simp only; omega)
      refine ⟨⟨req.multiLaneIdx, req.offset, length⟩ :: frags, ?_, ?_, ?_, ?_⟩
      · simp only [ucpProtoMultiRun, hstep, if_neg hend, Option.bind_eq_bind, Option.bind_some,
          hrun]
      · rw [hadd] at htiles
        exact ⟨rfl, hpos, htiles⟩
      · intro i hi
        cases i with
        | zero => exact (Nat.mod_eq_of_lt hidx).symm
        | succ i =>
          simp only [List.getElem_cons_succ]
          rw [hlanes i (by simpa using hi), Nat.mod_add_mod]
          congr 1
          omega
      · exact List.forall_mem_cons.mpr ⟨⟨lpriv, hget, hmax⟩, hfrags⟩

end Run

/-- Two lanes of equal weight, 8 KiB fragments after a 64-byte header. -/
def twoLanes : List UcpProtoMultiLanePriv := [⟨8256, 0x8000, 8256⟩, ⟨8256, 0x8000, 8256⟩]

theorem ucpProtoMultiRun_sends_message_two_lanes :
    ∃ frags, ucpProtoMultiRun twoLanes 64 20000 ⟨20000, 0, 0⟩ = some (frags, none) ∧
      Tiles 0 frags 20000 ∧
      (∀ i (hi : i < frags.length), frags[i].lane = (0 + i) % twoLanes.length) ∧
      ∀ frag ∈ frags, ∃ lpriv, twoLanes[frag.lane]? = some lpriv ∧
        frag.length.toNat ≤ lpriv.maxFrag.toNat - (64 : UInt64).toNat := by
  have hfits : ∀ lpriv ∈ twoLanes, lpriv.Fits 64 20000 := by
    intro lpriv hmem
    simp only [twoLanes, List.mem_cons, List.not_mem_nil, or_false, or_self] at hmem
    subst hmem
    exact ⟨by decide, by decide, by decide⟩
  exact ucpProtoMultiRun_sends_message 20000 hfits (by decide) (by decide) (by decide)

/-! ### A length whose share wraps -/

/-- One lane with the whole weight, as `ucp_proto_multi_init_priv` gives a protocol of one
lane, with 8 KiB fragments after a 64-byte header. -/
def oneLane : List UcpProtoMultiLanePriv := [⟨8256, 0x10000, 8256⟩]

/-- From offset `0`, a message of `2 ^ 48` bytes gets no byte: `weight * length` is `2 ^ 64`,
which wraps to `0`. -/
lemma ucpProtoMultiProgress_oneLane_wraps :
    ucpProtoMultiProgress oneLane 64 ⟨0x1000000000000, 0, 0⟩ =
      some (⟨0, 0, 0⟩, some ⟨0x1000000000000, 0, 0⟩) := by
  decide

/-- **The share of a long message wraps and the send never ends.** With one lane of the whole
weight, a message of `2 ^ 48` bytes makes `weight * length` wrap to `0` in `size_t`, so
`max_payload` is `0`: every call of `ucp_proto_multi_progress` sends an empty fragment, the
iterator stays at offset `0`, and after any number of calls the request is not complete. -/
theorem ucpProtoMultiRun_wraps_never_ends (n : ℕ) :
    ucpProtoMultiRun oneLane 64 n ⟨0x1000000000000, 0, 0⟩ =
      some (List.replicate n ⟨0, 0, 0⟩, some ⟨0x1000000000000, 0, 0⟩) := by
  induction n with
  | zero => rfl
  | succ n ih =>
    rw [ucpProtoMultiRun, ucpProtoMultiProgress_oneLane_wraps]
    simp only [Option.bind_eq_bind, Option.bind_some, ih, List.replicate_succ]

end UcxProofs.ProtoMulti
