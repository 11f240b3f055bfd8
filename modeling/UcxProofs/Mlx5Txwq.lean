import UcxProofs.FragList

/-!
The send work queue of an mlx5 RC endpoint, `uct/ib/mlx5`. The queue is a ring of `qp_length`
basic blocks (BBs) of 64 bytes from `qstart` to `qend`. `sw_pi` counts the BBs posted and
`prev_sw_pi` is where the last WQE started, both modulo `2 ^ 16`, and `curr` points at the BB
of `sw_pi`. A completion reports `hw_ci`, the first BB of the WQE completed. The endpoint's
`txqp->available` counts credits: a post is admitted while it is positive and is charged the BBs
of the WQE before it (`uct_ib_mlx5_post_send` returns `sw_pi - prev_sw_pi`), and a completion
sets it back to `bb_max - (prev_sw_pi - hw_ci)`.

Beside the queue, the model keeps the BB counts without wrapping: `pi` for `sw_pi`, `prev1` for
`prev_sw_pi + 1`, `ci1` for `hw_ci + 1`, and the first BBs of the WQEs posted and not yet
passed by a completion (`Mlx5RcEp`). The invariant `Mlx5RcEp.Inv` reads every 16-bit field
off them. From it every assertion of `uct_ib_mlx5_txwq_validate_always` holds at every post,
and every completion releases a positive number of BBs, in every run, once the queue has more
than `2 * UCT_IB_MLX5_MAX_BB` BBs. The payload copies (`inline_copy`, `inline_iov_copy`, and
`wrap_none`, `wrap_exact` and `wrap_data` for a WQE's segments) write inside the BBs of the WQE
and do not move the queue; they are left out, as are the doorbell record, the BlueFlame register
and signaling. `wrap_any` is kept, where the doorbell path moves `curr` with it.
-/

namespace UcxProofs.Mlx5Txwq

open FragList

def uctIbMlx5MaxBb : ℕ := 4
def mlx5SendWqeBb : ℕ := 64

/-- `uct_ib_mlx5_mmio_mode_t`. -/
inductive UctIbMlx5MmioMode
  | bfPost
  | bfPostMt
  | db
  | dbLock
  deriving DecidableEq, Repr

/-- `uct_ib_mlx5_txwq_t`, with the `hw_ci` of the assertion build; pointers are byte
addresses, and `mode` is `reg->mode`. -/
structure UctIbMlx5Txwq where
  swPi : UInt16
  prevSwPi : UInt16
  curr : ℕ
  qstart : ℕ
  qend : ℕ
  bbMax : UInt16
  hwCi : UInt16
  mode : UctIbMlx5MmioMode
  deriving DecidableEq, Repr

/-- `uct_ib_mlx5_txwq_reset`. -/
def uctIbMlx5TxwqReset (txwq : UctIbMlx5Txwq) : UctIbMlx5Txwq :=
  { txwq with curr := txwq.qstart, swPi := 0, prevSwPi := 0xFFFF, hwCi := 0xFFFF }

/-- The queue `uct_ib_mlx5_txwq_init` sets up over the `wqe_cnt` BBs at `qstart`: `none` where a
check fails, `wqe_cnt` not a power of two or `bb_max = wqe_cnt - 2 * UCT_IB_MLX5_MAX_BB`, taken
in 16 bits, zero. -/
def uctIbMlx5TxwqInit (qstart wqeCnt : ℕ) (mode : UctIbMlx5MmioMode) : Option UctIbMlx5Txwq :=
  let bbMax := UInt16.ofNat wqeCnt - UInt16.ofNat (2 * uctIbMlx5MaxBb)
  if wqeCnt.isPowerOfTwo ∧ 0 < bbMax then
    some (uctIbMlx5TxwqReset
      { swPi := 0
        prevSwPi := 0
        curr := qstart
        qstart := qstart
        qend := qstart + mlx5SendWqeBb * wqeCnt
        bbMax := bbMax
        hwCi := 0
        mode := mode })
  else none

/-- `uct_ib_mlx5_txwq_wrap_any`. -/
def uctIbMlx5TxwqWrapAny (txwq : UctIbMlx5Txwq) (seg : ℕ) : ℕ :=
  if seg ≥ txwq.qend then seg - (txwq.qend - txwq.qstart) else seg

/-- The source pointer of `uct_ib_mlx5_bf_copy` after `numBb` BBs, wrapped at `qend`. -/
def uctIbMlx5BfCopy (wq : UctIbMlx5Txwq) : ℕ → ℕ → ℕ
  | 0, src => src
  | n + 1, src =>
    let src := src + mlx5SendWqeBb
    uctIbMlx5BfCopy wq n (if src = wq.qend then wq.qstart else src)

/-- `uct_ib_mlx5_txwq_ring_doorbell`: the pointer past the WQE at `ctrl`. -/
def uctIbMlx5TxwqRingDoorbell (wq : UctIbMlx5Txwq) (ctrl numBb : ℕ) : ℕ :=
  match wq.mode with
  | .bfPost | .bfPostMt => uctIbMlx5BfCopy wq numBb ctrl
  | .db | .dbLock => uctIbMlx5TxwqWrapAny wq (ctrl + numBb * mlx5SendWqeBb)

/-- `num_bb = ucs_div_round_up(wqe_size, MLX5_SEND_WQE_BB)`, a `uint16_t`. -/
def numBbOf (wqeSize : ℕ) : UInt16 :=
  UInt16.ofNat ((wqeSize + mlx5SendWqeBb - 1) / mlx5SendWqeBb)

/-- `uct_ib_mlx5_post_send` of a WQE of `wqeSize` bytes at `wq->curr`: the queue after, and the
BBs of the WQE before it, which it returns. -/
def uctIbMlx5PostSend (wq : UctIbMlx5Txwq) (wqeSize : ℕ) : UctIbMlx5Txwq × UInt16 :=
  let numBb := numBbOf wqeSize
  let swPi := wq.swPi + numBb
  let src := uctIbMlx5TxwqRingDoorbell wq wq.curr numBb.toNat
  let resCount := wq.swPi - wq.prevSwPi
  ({ wq with curr := src, prevSwPi := wq.prevSwPi + resCount, swPi := swPi }, resCount)

/-- `qp_length` of `uct_ib_mlx5_txwq_validate_always`, a `uint16_t`. -/
def qpLength (wq : UctIbMlx5Txwq) : UInt16 := UInt16.ofNat ((wq.qend - wq.qstart) / mlx5SendWqeBb)

/-- The assertions of `uct_ib_mlx5_txwq_validate_always`. -/
structure UctIbMlx5TxwqValidateAlways (wq : UctIbMlx5Txwq) (numBb : UInt16) (hwCiUpdated : Bool) :
    Prop where
  numBb_pos : 0 < numBb
  numBb_le : numBb.toNat ≤ uctIbMlx5MaxBb
  bbMax_lt : wq.bbMax < qpLength wq
  curr_sync : UInt16.ofNat ((wq.curr - wq.qstart) / mlx5SendWqeBb) = wq.swPi % qpLength wq
  swPi_ahead : 0 < ucsCircularCompare16 wq.swPi wq.prevSwPi
  hwCi_le : hwCiUpdated = true → ucsCircularCompare16 wq.hwCi wq.prevSwPi ≤ 0
  no_overrun : hwCiUpdated = true →
    ucsCircularCompare16 (wq.swPi + numBb - 1) (wq.hwCi + qpLength wq) ≤ 0

/-- `uct_ib_mlx5_txwq_update_bb`. -/
def uctIbMlx5TxwqUpdateBb (wq : UctIbMlx5Txwq) (hwCi : UInt16) : UctIbMlx5Txwq × UInt16 :=
  ({ wq with hwCi := hwCi }, wq.bbMax - (wq.prevSwPi - hwCi))

@[simp] lemma uctIbMlx5TxwqUpdateBb_fst (wq : UctIbMlx5Txwq) (hwCi : UInt16) :
    (uctIbMlx5TxwqUpdateBb wq hwCi).1 = { wq with hwCi := hwCi } := rfl

/-- `uct_rc_txqp_t`: `available`, an `int16_t`, as its bits. -/
structure UctRcTxqp where
  available : UInt16
  deriving DecidableEq, Repr

/-- `uct_rc_txqp_available`. -/
def uctRcTxqpAvailable (txqp : UctRcTxqp) : ℤ := txqp.available.toBitVec.toInt

/-- `uct_rc_txqp_posted`. -/
def uctRcTxqpPosted (txqp : UctRcTxqp) (resCount : UInt16) : UctRcTxqp :=
  ⟨txqp.available - resCount⟩

/-- `uct_rc_mlx5_iface_update_tx_res`: the queue and credits after, and `bb_num`. -/
def uctRcMlx5IfaceUpdateTxRes (wq : UctIbMlx5Txwq) (txqp : UctRcTxqp) (hwCi : UInt16) :
    UctIbMlx5Txwq × UctRcTxqp × UInt16 :=
  let r := uctIbMlx5TxwqUpdateBb wq hwCi
  let bbNum := r.2 - txqp.available
  (r.1, ⟨txqp.available + bbNum⟩, bbNum)

/-! ### Where the queue pointer goes -/

section Ring

variable {wq : UctIbMlx5Txwq} {L : ℕ}

/-- Copying BBs through the BlueFlame register moves the source pointer around the ring. -/
lemma uctIbMlx5BfCopy_eq (hq : wq.qend = wq.qstart + mlx5SendWqeBb * L) :
    ∀ (n j : ℕ), j < L →
      uctIbMlx5BfCopy wq n (wq.qstart + mlx5SendWqeBb * j) =
        wq.qstart + mlx5SendWqeBb * ((j + n) % L) := by
  intro n
  induction n with
  | zero => intro j hj; simp [uctIbMlx5BfCopy, Nat.mod_eq_of_lt hj]
  | succ n ih =>
    intro j hj
    simp only [uctIbMlx5BfCopy, hq]
    by_cases hend : j + 1 = L
    · -- the BB copied was the last of the ring
      have h0 := ih 0 (by omega)
      simp only [mul_zero, add_zero, zero_add] at h0
      rw [if_pos (by rw [← hend]; ring), h0, ← hend,
        show j + (n + 1) = n + (j + 1) by ring, Nat.add_mod_right]
    · rw [if_neg (by simp only [mlx5SendWqeBb]; omega),
        show wq.qstart + mlx5SendWqeBb * j + mlx5SendWqeBb = wq.qstart + mlx5SendWqeBb * (j + 1)
          by ring, ih (j + 1) (by omega)]
      rw [show j + 1 + n = j + (n + 1) by ring]

/-- **Ringing the doorbell leaves `curr` on the BB after the WQE**, in every mode: `numBb` BBs
further on the ring. -/
lemma uctIbMlx5TxwqRingDoorbell_eq (hq : wq.qend = wq.qstart + mlx5SendWqeBb * L) {j n : ℕ}
    (hj : j < L) (hn : n ≤ L) :
    uctIbMlx5TxwqRingDoorbell wq (wq.qstart + mlx5SendWqeBb * j) n =
      wq.qstart + mlx5SendWqeBb * ((j + n) % L) := by
  unfold uctIbMlx5TxwqRingDoorbell
  split
  · exact uctIbMlx5BfCopy_eq hq n j hj
  · exact uctIbMlx5BfCopy_eq hq n j hj
  all_goals
    -- past `qend` the pointer is taken back by the length of the ring, once
    unfold uctIbMlx5TxwqWrapAny
    rw [hq]
    by_cases hw : L ≤ j + n
    · rw [if_pos (by simp only [mlx5SendWqeBb]; omega), Nat.mod_eq_sub_mod hw,
        Nat.mod_eq_of_lt (by omega)]
      simp only [mlx5SendWqeBb]
      omega
    · rw [if_neg (by simp only [mlx5SendWqeBb]; omega), Nat.mod_eq_of_lt (by omega)]
      ring

end Ring

/-! ### The endpoint and its runs -/

/-- An RC mlx5 endpoint's send queue and credits, with the ghost BB counts: `pi` counts the BBs
posted, `prev1` is one past the first BB of the last WQE, `ci1` one past the BB of the last
completion, and `pending` holds the first BBs of the WQEs posted and not yet passed by a
completion, in posting order. -/
structure Mlx5RcEp where
  txwq : UctIbMlx5Txwq
  txqp : UctRcTxqp
  pi : ℕ
  prev1 : ℕ
  ci1 : ℕ
  pending : List ℕ
  deriving DecidableEq, Repr

/-- The endpoint `uct_rc_mlx5_ep_t` creates over a queue of `wqeCnt` BBs: `bb_max` lowered to
the interface's `tx.bb_max`, and as many credits (`uct_rc_txqp_available_set`). -/
def mlx5RcEpInit (qstart wqeCnt : ℕ) (mode : UctIbMlx5MmioMode) (ifaceBbMax : UInt16) :
    Option Mlx5RcEp :=
  (uctIbMlx5TxwqInit qstart wqeCnt mode).map fun wq =>
    let wq := { wq with bbMax := min wq.bbMax ifaceBbMax }
    ⟨wq, ⟨wq.bbMax⟩, 0, 0, 0, []⟩

/-- What happens to the endpoint. -/
inductive Mlx5Op
  /-- a WQE of `wqeSize` bytes written at `curr` and posted by `uct_ib_mlx5_post_send`, then
  charged by `uct_rc_txqp_posted` -/
  | post (wqeSize : ℕ)
  /-- the CQE of the `k`-th pending WQE, handled by `uct_rc_mlx5_iface_update_tx_res` -/
  | complete (k : ℕ)
  deriving DecidableEq, Repr

/-- When an operation may happen: a post while `uct_rc_txqp_available` is positive, of a WQE of
one to `UCT_IB_MLX5_MAX_BB` BBs; a completion of a WQE that is pending. -/
def Mlx5Op.Admitted (ep : Mlx5RcEp) : Mlx5Op → Prop
  | .post wqeSize =>
    0 < uctRcTxqpAvailable ep.txqp ∧ 0 < wqeSize ∧ wqeSize ≤ uctIbMlx5MaxBb * mlx5SendWqeBb
  | .complete k => k < ep.pending.length

instance (ep : Mlx5RcEp) (op : Mlx5Op) : Decidable (op.Admitted ep) := by
  cases op <;> unfold Mlx5Op.Admitted <;> infer_instance

/-- One operation on the endpoint. A completion reports the first BB of its WQE as `hw_ci`. -/
def mlx5RcEpStep (ep : Mlx5RcEp) : Mlx5Op → Mlx5RcEp
  | .post wqeSize =>
    let r := uctIbMlx5PostSend ep.txwq wqeSize
    { ep with
      txwq := r.1
      txqp := uctRcTxqpPosted ep.txqp r.2
      pi := ep.pi + (numBbOf wqeSize).toNat
      prev1 := ep.pi + 1
      pending := ep.pending ++ [ep.pi] }
  | .complete k =>
    let first := ep.pending.getD k 0
    let r := uctRcMlx5IfaceUpdateTxRes ep.txwq ep.txqp (UInt16.ofNat first)
    { ep with
      txwq := r.1
      txqp := r.2.1
      ci1 := first + 1
      pending := ep.pending.drop (k + 1) }

/-- The states an endpoint reaches from its creation by admitted operations. -/
inductive Mlx5RcEp.Reachable (qstart wqeCnt : ℕ) (mode : UctIbMlx5MmioMode) (ifaceBbMax : UInt16) :
    Mlx5RcEp → Prop
  | init {ep : Mlx5RcEp} : mlx5RcEpInit qstart wqeCnt mode ifaceBbMax = some ep →
      Mlx5RcEp.Reachable qstart wqeCnt mode ifaceBbMax ep
  | step {ep : Mlx5RcEp} {op : Mlx5Op} : Mlx5RcEp.Reachable qstart wqeCnt mode ifaceBbMax ep →
      op.Admitted ep → Mlx5RcEp.Reachable qstart wqeCnt mode ifaceBbMax (mlx5RcEpStep ep op)

/-! ### The 16-bit counters read off the ghost counts -/

section Counters

lemma toNat_ofNat_sub_ofNat {x y : ℕ} (h : y ≤ x) (hlt : x - y < 2 ^ 16) :
    (UInt16.ofNat x - UInt16.ofNat y).toNat = x - y := by
  rw [← UInt16.ofNat_sub h, UInt16.toNat_ofNat', Nat.mod_eq_of_lt hlt]

/-- A difference of two counts below half the circle, read as an `int16_t`. -/
lemma toInt_ofNat_sub_ofNat {x y : ℕ} (hx : x < 2 ^ 15) (hy : y ≤ 2 ^ 15) :
    (UInt16.ofNat x - UInt16.ofNat y).toBitVec.toInt = (x : ℤ) - y := by
  rw [BitVec.toInt_eq_toNat_cond, UInt16.toNat_toBitVec, UInt16.toNat_sub, UInt16.toNat_ofNat',
    UInt16.toNat_ofNat', Nat.mod_eq_of_lt (by omega : x < 2 ^ 16),
    Nat.mod_eq_of_lt (by omega : y < 2 ^ 16)]
  split <;> omega

lemma ofNat_add_one (x : ℕ) : UInt16.ofNat (x + 1) = UInt16.ofNat x + 1 :=
  UInt16.ofNat_add x 1

/-- A ring of a power of two BBs that `sw_pi` can count divides the circle of `2 ^ 16`. -/
lemma dvd_of_isPowerOfTwo {L : ℕ} (hL : L.isPowerOfTwo) (hlt : L < 2 ^ 16) : L ∣ 2 ^ 16 := by
  obtain ⟨k, rfl⟩ := hL
  exact pow_dvd_pow 2 ((Nat.pow_lt_pow_iff_right (by decide)).mp hlt).le

lemma le_of_isPowerOfTwo {L : ℕ} (hL : L.isPowerOfTwo) (hlt : L < 2 ^ 16) : L ≤ 2 ^ 15 := by
  obtain ⟨k, rfl⟩ := hL
  exact Nat.pow_le_pow_right (by decide) (Nat.lt_succ_iff.mp
    ((Nat.pow_lt_pow_iff_right (by decide)).mp hlt))

/-- A WQE of at most `UCT_IB_MLX5_MAX_BB` BBs has one to `UCT_IB_MLX5_MAX_BB` of them. -/
lemma numBbOf_toNat {wqeSize : ℕ} (h0 : 0 < wqeSize)
    (h : wqeSize ≤ uctIbMlx5MaxBb * mlx5SendWqeBb) :
    1 ≤ (numBbOf wqeSize).toNat ∧ (numBbOf wqeSize).toNat ≤ uctIbMlx5MaxBb := by
  unfold numBbOf
  rw [UInt16.toNat_ofNat', Nat.mod_eq_of_lt]
  all_goals simp only [uctIbMlx5MaxBb, mlx5SendWqeBb] at h ⊢; omega

end Counters

/-- The queue `uct_ib_mlx5_txwq_init` sets up is reset, over `wqeCnt` BBs. -/
lemma uctIbMlx5TxwqInit_eq_some {qstart wqeCnt : ℕ} {mode : UctIbMlx5MmioMode}
    {wq : UctIbMlx5Txwq} (h : uctIbMlx5TxwqInit qstart wqeCnt mode = some wq) :
    wq = ⟨0, 0xFFFF, qstart, qstart, qstart + mlx5SendWqeBb * wqeCnt,
      UInt16.ofNat wqeCnt - UInt16.ofNat (2 * uctIbMlx5MaxBb), 0xFFFF, mode⟩ := by
  unfold uctIbMlx5TxwqInit at h
  dsimp only at h
  split_ifs at h
  exact (Option.some.inj h).symm

/-! ### The invariant -/

/-- The state of an endpoint over a ring of `L` BBs, read off its ghost counts. The 16-bit
counters are the counts modulo `2 ^ 16`, `curr` is at the BB of `pi`, the credits are `bb_max`
less the BBs from the last completion to the last WQE, and these are fewer than
`bb_max + UCT_IB_MLX5_MAX_BB`. The last WQE takes one to `UCT_IB_MLX5_MAX_BB` BBs. -/
structure Mlx5RcEp.Inv (L : ℕ) (ep : Mlx5RcEp) : Prop where
  qend : ep.txwq.qend = ep.txwq.qstart + mlx5SendWqeBb * L
  bbMax_le : ep.txwq.bbMax.toNat + 2 * uctIbMlx5MaxBb ≤ L
  swPi : ep.txwq.swPi = UInt16.ofNat ep.pi
  prevSwPi : ep.txwq.prevSwPi + 1 = UInt16.ofNat ep.prev1
  hwCi : ep.txwq.hwCi + 1 = UInt16.ofNat ep.ci1
  curr : ep.txwq.curr = ep.txwq.qstart + mlx5SendWqeBb * (ep.pi % L)
  available : ep.txqp.available + UInt16.ofNat (ep.prev1 - ep.ci1) = ep.txwq.bbMax
  prev_le : ep.prev1 ≤ ep.pi
  pi_lt : ep.pi < ep.prev1 + uctIbMlx5MaxBb
  ci_le : ep.ci1 ≤ ep.prev1
  inflight : ep.prev1 - ep.ci1 < ep.txwq.bbMax.toNat + uctIbMlx5MaxBb
  sorted : ep.pending.Pairwise (· < ·)
  pending : ∀ x ∈ ep.pending, ep.ci1 ≤ x ∧ x < ep.prev1

namespace Mlx5RcEp.Inv

variable {L : ℕ} {ep : Mlx5RcEp}

lemma swPi_sub_prevSwPi (h : ep.Inv L) :
    ep.txwq.swPi - ep.txwq.prevSwPi = UInt16.ofNat (ep.pi + 1 - ep.prev1) := by
  rw [UInt16.ofNat_sub (by have := h.prev_le; omega), ofNat_add_one, ← h.swPi, ← h.prevSwPi]
  grind

lemma prevSwPi_sub_ofNat (h : ep.Inv L) {x : ℕ} (hx : x < ep.prev1) :
    ep.txwq.prevSwPi - UInt16.ofNat x = UInt16.ofNat (ep.prev1 - (x + 1)) := by
  rw [UInt16.ofNat_sub (by omega), ofNat_add_one, ← h.prevSwPi]
  grind

lemma prevSwPi_sub_hwCi (h : ep.Inv L) :
    ep.txwq.prevSwPi - ep.txwq.hwCi = UInt16.ofNat (ep.prev1 - ep.ci1) := by
  rw [UInt16.ofNat_sub h.ci_le, ← h.prevSwPi, ← h.hwCi]
  grind

lemma available_eq (h : ep.Inv L) :
    ep.txqp.available = UInt16.ofNat ep.txwq.bbMax.toNat - UInt16.ofNat (ep.prev1 - ep.ci1) := by
  rw [UInt16.ofNat_toNat, ← h.available]
  grind

/-- A created endpoint satisfies the invariant, with no BB in flight. -/
theorem init {qstart : ℕ} {mode : UctIbMlx5MmioMode} {ifaceBbMax : UInt16}
    (hL8 : 2 * uctIbMlx5MaxBb < L) (hL16 : L < 2 ^ 16)
    (h : mlx5RcEpInit qstart L mode ifaceBbMax = some ep) : ep.Inv L := by
  unfold mlx5RcEpInit at h
  obtain ⟨wq, hwq, rfl⟩ := Option.map_eq_some_iff.mp h
  have hB : (UInt16.ofNat L - UInt16.ofNat (2 * uctIbMlx5MaxBb)).toNat =
      L - 2 * uctIbMlx5MaxBb := toNat_ofNat_sub_ofNat (by omega) (by omega)
  obtain rfl := uctIbMlx5TxwqInit_eq_some hwq
  refine ⟨rfl, ?_, rfl, ?_, ?_, by simp, by simp, le_rfl, by simp [uctIbMlx5MaxBb], le_rfl, ?_,
    List.Pairwise.nil, by simp⟩
  · -- the interface's limit only lowers `bb_max`
    dsimp only
    rw [UInt16.toNat_min, hB]
    omega
  -- `prev_sw_pi` and `hw_ci` start one BB before the first
  · dsimp only; decide
  · dsimp only; decide
  · simp [uctIbMlx5MaxBb]

/-- The WQEs pending after the `k`-th start past it. -/
lemma lt_of_mem_drop (h : ep.Inv L) {k : ℕ} (hk : k < ep.pending.length) {y : ℕ}
    (hy : y ∈ ep.pending.drop (k + 1)) : ep.pending[k] < y := by
  have hd : (ep.pending.drop k).Pairwise (· < ·) := h.sorted.sublist (List.drop_sublist _ _)
  rw [List.drop_eq_getElem_cons hk] at hd
  exact List.rel_of_pairwise_cons hd hy

/-- The credits `uct_ib_mlx5_txwq_update_bb` gives back for a completion of a WQE posted. -/
lemma updateBb_eq (h : ep.Inv L) {x : ℕ} (hxP : x < ep.prev1) :
    (uctIbMlx5TxwqUpdateBb ep.txwq (UInt16.ofNat x)).2 =
      ep.txwq.bbMax - UInt16.ofNat (ep.prev1 - (x + 1)) := by
  rw [uctIbMlx5TxwqUpdateBb, h.prevSwPi_sub_ofNat hxP]

/-- **`bb_num` of a completion** is the BBs from the last completion to the WQE completed. -/
lemma bbNum_eq (h : ep.Inv L) {x : ℕ} (hx : ep.ci1 ≤ x) (hxP : x < ep.prev1) :
    (uctRcMlx5IfaceUpdateTxRes ep.txwq ep.txqp (UInt16.ofNat x)).2.2 =
      UInt16.ofNat (x + 1 - ep.ci1) := by
  dsimp only [uctRcMlx5IfaceUpdateTxRes]
  rw [h.updateBb_eq hxP, ← h.available,
    show ep.prev1 - ep.ci1 = (ep.prev1 - (x + 1)) + (x + 1 - ep.ci1) by omega, UInt16.ofNat_add]
  grind

/-- **A completion of a pending WQE keeps the invariant.** `hw_ci` moves to its first BB and the
credits are set back to `bb_max` less the BBs from there to the last WQE. -/
theorem complete (h : ep.Inv L) {k : ℕ} (hadm : (Mlx5Op.complete k).Admitted ep) :
    (mlx5RcEpStep ep (.complete k)).Inv L := by
  have hk : k < ep.pending.length := hadm
  have hget : ep.pending.getD k 0 = ep.pending[k] := List.getD_eq_getElem _ _ hk
  obtain ⟨hx, hxP⟩ := h.pending _ (List.getElem_mem hk)
  have hI := h.inflight
  refine ⟨h.qend, h.bbMax_le, h.swPi, h.prevSwPi, ?hwCi, h.curr, ?available, h.prev_le, h.pi_lt,
    ?ci_le, ?inflight, ?sorted, ?pending⟩
  all_goals simp only [mlx5RcEpStep, uctRcMlx5IfaceUpdateTxRes, uctIbMlx5TxwqUpdateBb_fst, hget]
  case hwCi => rw [ofNat_add_one]
  case available =>
    rw [h.updateBb_eq hxP]
    grind
  case ci_le => omega
  case inflight => omega
  case sorted => exact h.sorted.sublist (List.drop_sublist _ _)
  case pending =>
    intro y hy
    have hlt := h.lt_of_mem_drop hk hy
    have := h.pending y (List.mem_of_mem_drop hy)
    omega

lemma qpLength_eq (h : ep.Inv L) : qpLength ep.txwq = UInt16.ofNat L := by
  unfold qpLength
  rw [h.qend, Nat.add_sub_cancel_left, Nat.mul_div_cancel_left _ (by decide : 0 < mlx5SendWqeBb)]

/-- The room the overrun check sees, from the last BB of the WQE to `hw_ci + qp_length`. -/
lemma room_eq (h : ep.Inv L) {numBb : UInt16} (hle : ep.pi + numBb.toNat ≤ ep.ci1 + L) :
    ep.txwq.hwCi + UInt16.ofNat L - (ep.txwq.swPi + numBb - 1) =
      UInt16.ofNat (ep.ci1 + L - (ep.pi + numBb.toNat)) := by
  rw [UInt16.ofNat_sub hle, UInt16.ofNat_add, UInt16.ofNat_add, UInt16.ofNat_toNat, ← h.swPi,
    ← h.hwCi]
  grind

section Len

variable (hL : L.isPowerOfTwo) (hL16 : L < 2 ^ 16)
include hL hL16

/-- **The credits the source reads** are `bb_max` less the BBs in flight, without wrapping. -/
theorem available_toInt (h : ep.Inv L) :
    uctRcTxqpAvailable ep.txqp = (ep.txwq.bbMax.toNat : ℤ) - (ep.prev1 - ep.ci1 : ℕ) := by
  have hlen := le_of_isPowerOfTwo hL hL16
  have hB := h.bbMax_le
  have hI := h.inflight
  unfold uctRcTxqpAvailable
  rw [h.available_eq, toInt_ofNat_sub_ofNat (by simp only [uctIbMlx5MaxBb] at hB; omega)
    (by simp only [uctIbMlx5MaxBb] at hB hI; omega)]

/-- A post is admitted only while fewer than `bb_max` BBs are in flight. -/
lemma inflight_lt_of_admitted (h : ep.Inv L) (hadm : 0 < uctRcTxqpAvailable ep.txqp) :
    ep.prev1 - ep.ci1 < ep.txwq.bbMax.toNat := by
  rw [h.available_toInt hL hL16] at hadm
  omega

/-- **An admitted post keeps the invariant.** The WQE takes the BBs from `pi`; the credits are
charged the BBs of the WQE before it, so the BBs in flight grow by at most `MAX_BB` from fewer
than `bb_max`. -/
theorem post (h : ep.Inv L) {wqeSize : ℕ} (hadm : (Mlx5Op.post wqeSize).Admitted ep) :
    (mlx5RcEpStep ep (.post wqeSize)).Inv L := by
  obtain ⟨havail, hw0, hw⟩ := hadm
  have hin := h.inflight_lt_of_admitted hL hL16 havail
  obtain ⟨hn1, hn4⟩ := numBbOf_toNat hw0 hw
  have hlen : uctIbMlx5MaxBb ≤ L := by have := h.bbMax_le; omega
  have hsub := h.swPi_sub_prevSwPi
  have hle := h.prev_le
  have hlt := h.pi_lt
  have hci := h.ci_le
  refine ⟨h.qend, h.bbMax_le, ?swPi, ?prevSwPi, h.hwCi, ?curr, ?available, ?prev_le, ?pi_lt,
    ?ci_le, ?inflight, ?sorted, ?pending⟩
  all_goals dsimp only [mlx5RcEpStep, uctIbMlx5PostSend, uctRcTxqpPosted]
  case swPi =>
    rw [UInt16.ofNat_add, UInt16.ofNat_toNat, h.swPi]
  case prevSwPi =>
    rw [ofNat_add_one, ← h.swPi]
    grind
  case curr =>
    -- the doorbell leaves `curr` past the WQE, on the ring
    rw [h.curr, uctIbMlx5TxwqRingDoorbell_eq h.qend (Nat.mod_lt _ (by omega)) (by omega),
      Nat.mod_add_mod]
  case available =>
    -- the WQE before this one is charged now
    rw [hsub, ← h.available,
      show ep.pi + 1 - ep.ci1 = (ep.pi + 1 - ep.prev1) + (ep.prev1 - ep.ci1) by omega,
      UInt16.ofNat_add]
    grind
  case prev_le => omega
  case pi_lt => omega
  case ci_le => omega
  case inflight => omega
  case sorted =>
    refine List.pairwise_append.mpr ⟨h.sorted, List.pairwise_singleton _ _, ?_⟩
    intro x hx y hy
    rw [List.mem_singleton.mp hy]
    have := (h.pending x hx).2
    omega
  case pending =>
    intro x hx
    rcases List.mem_append.mp hx with hx | hx
    · have := h.pending x hx
      omega
    · rw [List.mem_singleton.mp hx]
      omega

/-- Every admitted operation keeps the invariant. -/
theorem step (h : ep.Inv L) {op : Mlx5Op} (hadm : op.Admitted ep) : (mlx5RcEpStep ep op).Inv L := by
  cases op with
  | post wqeSize => exact h.post hL hL16 hadm
  | complete k => exact h.complete hadm

/-- **Every assertion of `uct_ib_mlx5_txwq_validate_always` holds at an admitted post**, whether
or not `hw_ci` was updated: fewer than `bb_max` BBs are in flight, so the WQE ends at least
`2 * UCT_IB_MLX5_MAX_BB - 1` BBs before the completed one comes round again. -/
theorem validate (h : ep.Inv L) {wqeSize : ℕ} (hadm : (Mlx5Op.post wqeSize).Admitted ep)
    (hwCiUpdated : Bool) : UctIbMlx5TxwqValidateAlways ep.txwq (numBbOf wqeSize) hwCiUpdated := by
  obtain ⟨havail, hw0, hw⟩ := hadm
  have hin := h.inflight_lt_of_admitted hL hL16 havail
  obtain ⟨hn1, hn4⟩ := numBbOf_toNat hw0 hw
  have hlen := le_of_isPowerOfTwo hL hL16
  have hB := h.bbMax_le
  have hle := h.prev_le
  have hlt := h.pi_lt
  have hci := h.ci_le
  simp only [uctIbMlx5MaxBb] at hn4 hB hlt
  refine ⟨?numBb_pos, hn4, ?bbMax_lt, ?curr_sync, ?swPi_ahead, fun _ => ?hwCi_le,
    fun _ => ?no_overrun⟩
  case numBb_pos =>
    rw [UInt16.lt_iff_toNat_lt, UInt16.toNat_zero]
    omega
  case bbMax_lt =>
    rw [h.qpLength_eq, UInt16.lt_iff_toNat_lt, UInt16.toNat_ofNat', Nat.mod_eq_of_lt hL16]
    omega
  case curr_sync =>
    -- `sw_pi` wraps at `2 ^ 16`, a multiple of the ring's length
    have hmod : ep.pi % L < L := Nat.mod_lt _ (by omega)
    rw [h.curr, h.qpLength_eq, h.swPi, Nat.add_sub_cancel_left,
      Nat.mul_div_cancel_left _ (by decide : 0 < mlx5SendWqeBb)]
    apply UInt16.toNat_inj.mp
    rw [UInt16.toNat_mod, UInt16.toNat_ofNat', UInt16.toNat_ofNat', UInt16.toNat_ofNat',
      Nat.mod_eq_of_lt hL16, Nat.mod_mod_of_dvd _ (dvd_of_isPowerOfTwo hL hL16),
      Nat.mod_eq_of_lt (by omega)]
  case swPi_ahead =>
    rw [ucsCircularCompare16_pos_iff, h.swPi_sub_prevSwPi, UInt16.toNat_ofNat',
      Nat.mod_eq_of_lt (by omega)]
    omega
  case hwCi_le =>
    apply ucsCircularCompare16_nonpos_of_lt
    rw [h.prevSwPi_sub_hwCi, UInt16.toNat_ofNat', Nat.mod_eq_of_lt (by omega)]
    omega
  case no_overrun =>
    apply ucsCircularCompare16_nonpos_of_lt
    rw [h.qpLength_eq, h.room_eq (by omega), UInt16.toNat_ofNat', Nat.mod_eq_of_lt (by omega)]
    omega

end Len

end Mlx5RcEp.Inv

/-- **Every reachable endpoint satisfies the invariant**, over a ring of a power of two BBs,
more than `2 * UCT_IB_MLX5_MAX_BB` and fewer than `2 ^ 16`. -/
theorem Mlx5RcEp.Reachable.inv {L qstart : ℕ} {mode : UctIbMlx5MmioMode} {ifaceBbMax : UInt16}
    {ep : Mlx5RcEp} (hL : L.isPowerOfTwo) (hL16 : L < 2 ^ 16) (hL8 : 2 * uctIbMlx5MaxBb < L)
    (hr : Mlx5RcEp.Reachable qstart L mode ifaceBbMax ep) : ep.Inv L := by
  induction hr with
  | init h => exact Mlx5RcEp.Inv.init hL8 hL16 h
  | step _ hadm ih => exact ih.step hL hL16 hadm

/-- **The send queue never overruns.** In every run of an endpoint over a ring of `L` BBs, a
power of two above `2 * UCT_IB_MLX5_MAX_BB` and below `2 ^ 16`, every admitted post passes every
assertion of `uct_ib_mlx5_txwq_validate_always`, the credits stay between
`-UCT_IB_MLX5_MAX_BB` and `bb_max`, and a completion of any pending WQE releases a positive
`bb_num`. -/
theorem mlx5RcEp_txwq_never_overruns {L qstart : ℕ} {mode : UctIbMlx5MmioMode}
    {ifaceBbMax : UInt16} {ep : Mlx5RcEp} (hL : L.isPowerOfTwo) (hL16 : L < 2 ^ 16)
    (hL8 : 2 * uctIbMlx5MaxBb < L) (hr : Mlx5RcEp.Reachable qstart L mode ifaceBbMax ep) :
    (∀ wqeSize, (Mlx5Op.post wqeSize).Admitted ep → ∀ hwCiUpdated,
        UctIbMlx5TxwqValidateAlways ep.txwq (numBbOf wqeSize) hwCiUpdated) ∧
      -(uctIbMlx5MaxBb : ℤ) ≤ uctRcTxqpAvailable ep.txqp ∧
      uctRcTxqpAvailable ep.txqp ≤ ep.txwq.bbMax.toNat ∧
      ∀ k, (Mlx5Op.complete k).Admitted ep →
        0 < (uctRcMlx5IfaceUpdateTxRes ep.txwq ep.txqp (UInt16.ofNat (ep.pending.getD k 0))).2.2 := by
  have h := hr.inv hL hL16 hL8
  have havail := h.available_toInt hL hL16
  have hI := h.inflight
  have hB := h.bbMax_le
  refine ⟨fun _ hadm b => h.validate hL hL16 hadm b, ?_, ?_, fun k hk => ?_⟩
  · rw [havail]
    simp only [uctIbMlx5MaxBb] at hI ⊢
    omega
  · rw [havail]
    omega
  · -- the WQE completed is past the last completion and before the last WQE
    have hk : k < ep.pending.length := hk
    obtain ⟨hx, hxP⟩ := h.pending _ (List.getElem_mem hk)
    rw [List.getD_eq_getElem _ _ hk, h.bbNum_eq hx hxP, UInt16.lt_iff_toNat_lt, UInt16.toNat_zero,
      UInt16.toNat_ofNat', Nat.mod_eq_of_lt (by omega)]
    omega

/-- After two posts on a ring of 16 BBs, a third post of four BBs passes every assertion. -/
theorem mlx5RcEp_txwq_never_overruns_sixteen :
    Nat.isPowerOfTwo 16 ∧
      Mlx5RcEp.Reachable 0 16 .db 0xFFFF (mlx5RcEpStep (mlx5RcEpStep
        ⟨⟨0, 0xFFFF, 0, 0, 1024, 8, 0xFFFF, .db⟩, ⟨8⟩, 0, 0, 0, []⟩ (.post 64)) (.post 200)) ∧
      UctIbMlx5TxwqValidateAlways (mlx5RcEpStep (mlx5RcEpStep
        ⟨⟨0, 0xFFFF, 0, 0, 1024, 8, 0xFFFF, .db⟩, ⟨8⟩, 0, 0, 0, []⟩ (.post 64)) (.post 200)).txwq
        (numBbOf 256) true := by
  have hL : Nat.isPowerOfTwo 16 := ⟨4, rfl⟩
  have hr : Mlx5RcEp.Reachable 0 16 .db 0xFFFF (mlx5RcEpStep (mlx5RcEpStep
      ⟨⟨0, 0xFFFF, 0, 0, 1024, 8, 0xFFFF, .db⟩, ⟨8⟩, 0, 0, 0, []⟩ (.post 64)) (.post 200)) :=
    .step (.step (.init (by decide)) (by decide)) (by decide)
  exact ⟨hL, hr,
    (@mlx5RcEp_txwq_never_overruns 16 0 .db 0xFFFF _ hL (by decide) (by decide) hr).1 256
      (by decide) true⟩

/-- A ring of two BBs passes `uct_ib_mlx5_txwq_init`: `bb_max = 2 - 8` wraps to 65530, and the
credits of the new endpoint read as -6. -/
theorem mlx5RcEp_available_below_at_two_bbs :
    Nat.isPowerOfTwo 2 ∧
      Mlx5RcEp.Reachable 0 2 .db 0xFFFF
        ⟨⟨0, 0xFFFF, 0, 0, 128, 65530, 0xFFFF, .db⟩, ⟨65530⟩, 0, 0, 0, []⟩ ∧
      uctRcTxqpAvailable (⟨65530⟩ : UctRcTxqp) < -(uctIbMlx5MaxBb : ℤ) :=
  ⟨⟨1, rfl⟩, .init (by decide), by decide⟩

end UcxProofs.Mlx5Txwq
