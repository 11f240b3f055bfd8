import UcxProofs.UdEp

/-!
The ACK request of the UD sender, `uct_ud_ep_req_ack`: a packet asks for an ACK when it is sent
at the quarter point of the window, at its last psn, or while an ACK_REQ is pending.

The source takes the quarter point as `(acked_psn * 3 + max_psn) >> 2` on the `int`s the psns
are promoted to. With the window `W = max_psn - acked_psn` on the circle this is
`acked_psn + W / 4` while `max_psn` is not below `acked_psn` as a number, and a quarter of the
circle earlier once `max_psn` has passed zero and `acked_psn` has not (`quarter_eq`). Every
psn passes zero once in `2 ^ 16`, and the sender gets there from a reset: rounds of one send
and its ACK (`run_sendAckRounds`) carry `acked_psn` around the circle with nothing in flight.
-/

namespace UcxProofs.UdEp

open FragList

/-! ### The quarter point -/

lemma ucsCircularCompare16_add_one (x : UInt16) : ucsCircularCompare16 (x + 1) x = 1 := by
  rw [@ucsCircularCompare16_eq_sub (x + 1) x x (by simp) (by simp)]
  simp

/-- **The quarter point the source computes**: `W / 4` past `acked_psn`, less a quarter of the
circle when `max_psn` has wrapped below `acked_psn`. -/
lemma quarter_eq (a m : UInt16) :
    UInt16.ofNat ((a.toNat * 3 + m.toNat) >>> 2) =
      a + (m - a) / 4 - if m < a then 16384 else 0 := by
  apply UInt16.toNat_inj.mp
  have ha := a.toNat_lt
  have hm := m.toNat_lt
  simp only [Nat.shiftRight_eq_div_pow, UInt16.toNat_ofNat, UInt16.toNat_sub, UInt16.toNat_add,
    UInt16.toNat_div, apply_ite UInt16.toNat, UInt16.lt_iff_toNat_lt]
  split
  · -- `max_psn` wrapped: the sum on the integers is a whole circle short
    rw [Nat.mod_eq_of_lt (show 2 ^ 16 - a.toNat + m.toNat < 2 ^ 16 by omega)]
    simp
    omega
  · have hq : (a.toNat * 3 + m.toNat) / 2 ^ 2 = a.toNat + (m.toNat - a.toNat) / 4 := by omega
    rw [hq, show 2 ^ 16 - a.toNat + m.toNat = (m.toNat - a.toNat) + 2 ^ 16 by omega,
      Nat.add_mod_right, Nat.mod_eq_of_lt (show m.toNat - a.toNat < 2 ^ 16 by omega)]
    simp

/-- **Which packets ask for an ACK**, on every state. -/
theorem uctUdEpReqAck_iff (ep : UctUdEp) (ackReqPending : Bool) :
    uctUdEpReqAck ep ackReqPending = true ↔
      ep.txPsn = ep.txAckedPsn + (ep.txMaxPsn - ep.txAckedPsn) / 4 -
          (if ep.txMaxPsn < ep.txAckedPsn then 16384 else 0) ∨
        ep.txPsn + 1 = ep.txMaxPsn ∨ ackReqPending = true := by
  simp only [uctUdEpReqAck, Bool.or_eq_true, decide_eq_true_eq, ucsCircularCompare16_eq_zero_iff,
    quarter_eq, or_assoc]

/-! ### Rounds of a send and its ACK -/

/-- A sender with nothing in flight: `psn` one past `acked_psn`, `max_psn` `cwnd` past it, and
no resend in progress. -/
structure Idle (ep : UctUdEp) : Prop where
  window_nil : ep.txWindow = []
  psn_eq : ep.txPsn = ep.txAckedPsn + 1
  maxPsn_eq : ep.txMaxPsn = ep.txAckedPsn + ep.caCwnd
  cwnd_ge : 2 ≤ ep.caCwnd.toNat
  cwnd_le : ep.caCwnd ≤ ep.caWmax
  wmax_le : ep.caWmax.toNat ≤ 1025
  resend_done : 0 < ucsCircularCompare16 ep.resendPsn ep.resendMaxPsn

/-- A send with room in the window takes the next psn. -/
lemma step_send_of_lt {ep : UctUdEp} (h0 : 0 < (ep.txMaxPsn - ep.txPsn).toNat)
    (h15 : (ep.txMaxPsn - ep.txPsn).toNat < 2 ^ 15) :
    uctUdEpStep ep .send = uctUdIfaceCompleteTxSkb ep := by
  have hcmp := @ucsCircularCompare16_eq_sub ep.txPsn ep.txMaxPsn ep.txPsn (by simp) h15
  have hno : uctUdEpNoWindow ep = false := by
    simp only [uctUdEpNoWindow, hcmp, UInt16.sub_self, UInt16.toNat_zero, Nat.cast_zero,
      zero_sub, decide_eq_false_iff_not, Left.nonneg_neg_iff, not_le, Nat.cast_pos]
    exact h0
  simp [uctUdEpStep, hno]

/-- The cwnd after one ACK. -/
def cwndAfterAck (ep : UctUdEp) : UInt16 :=
  if ep.caCwnd < ep.caWmax then ep.caCwnd + uctUdCaAiValue else ep.caCwnd

/-- **One round from an idle sender**: the send takes `psn`, its ACK releases it, and the window
grows by one up to `wmax`. -/
lemma round_eq {ep : UctUdEp} (h : Idle ep) :
    uctUdEpRun ep [.send, .processAck (ep.txAckedPsn + 1)] =
      { ep with
        txPsn := ep.txPsn + 1
        txAckedPsn := ep.txAckedPsn + 1
        caCwnd := cwndAfterAck ep
        txMaxPsn := ep.txAckedPsn + 1 + cwndAfterAck ep
        nextSkbId := ep.nextSkbId + 1 } := by
  have hc := UInt16.le_iff_toNat_le.mp h.cwnd_le
  have hroom : (ep.txMaxPsn - ep.txPsn).toNat = ep.caCwnd.toNat - 1 := by
    rw [h.psn_eq, h.maxPsn_eq,
      @toNat_sub_of_le_sub _ _ ep.txAckedPsn (by simp; have := h.cwnd_ge; omega)]
    simp
  have hsend := step_send_of_lt (by rw [hroom]; have := h.cwnd_ge; omega)
    (by rw [hroom]; have := h.wmax_le; omega)
  rw [uctUdEpRun_cons, uctUdEpRun_cons, uctUdEpRun_nil, hsend]
  -- the ACK is one past `acked_psn` and one behind the new `psn`
  have h10 : ¬ (1 : ℤ) ≤ 0 := by decide
  simp only [uctUdEpStep, uctUdEpProcessAck, uctUdIfaceCompleteTxSkb, h.psn_eq,
    ucsCircularCompare16_add_one, if_neg h10, h.window_nil, List.nil_append]
  -- the release takes out the one skb sent, which its ACK covers
  simp only [uctUdEpWindowReleaseInline, windowReleaseLoop, uctUdSkbIsCompleted,
    ucsCircularCompare16, SerialNumber.diff_self, le_refl, decide_true, Bool.not_false,
    Bool.and_self, if_true, Bool.false_and, Bool.false_eq_true, if_false]
  simp only [uctUdEpCaAck, uctUdEpResendAck, if_pos h.resend_done, cwndAfterAck]

lemma Idle.round {ep : UctUdEp} (h : Idle ep) :
    Idle (uctUdEpRun ep [.send, .processAck (ep.txAckedPsn + 1)]) := by
  rw [round_eq h]
  have hc := h.cwnd_le
  have hw := h.wmax_le
  rw [UInt16.le_iff_toNat_le] at hc
  refine ⟨h.window_nil, by rw [h.psn_eq], rfl, ?_, ?_, hw, h.resend_done⟩
  · have := h.cwnd_ge
    unfold cwndAfterAck
    split
    · rw [uctUdCaAiValue, UInt16.toNat_add]; simp; omega
    · exact this
  · unfold cwndAfterAck
    split
    · rename_i hlt
      rw [UInt16.lt_iff_toNat_lt] at hlt
      rw [UInt16.le_iff_toNat_le, uctUdCaAiValue, UInt16.toNat_add]
      simp only [UInt16.reduceToNat]
      omega
    · exact UInt16.le_iff_toNat_le.mpr hc

lemma cwndAfterAck_toNat {ep : UctUdEp} (h : Idle ep) :
    (cwndAfterAck ep).toNat = min (ep.caCwnd.toNat + 1) ep.caWmax.toNat := by
  have hc := UInt16.le_iff_toNat_le.mp h.cwnd_le
  have hw := h.wmax_le
  unfold cwndAfterAck
  split
  · rename_i hlt
    rw [UInt16.lt_iff_toNat_lt] at hlt
    rw [uctUdCaAiValue, UInt16.toNat_add]
    simp only [UInt16.reduceToNat]
    omega
  · rename_i hlt
    rw [UInt16.lt_iff_toNat_lt] at hlt
    omega

/-- `n` rounds of a send and the ACK of the psn it took, from `acked_psn = a`. -/
def sendAckRounds (a : UInt16) : ℕ → List UctUdEpOp
  | 0 => []
  | n + 1 => .send :: .processAck (a + 1) :: sendAckRounds (a + 1) n

/-- **Rounds from an idle sender** keep it idle, move `acked_psn` by their number and grow
`cwnd` by one each up to `wmax`. -/
lemma run_sendAckRounds (n : ℕ) :
    ∀ {ep : UctUdEp}, Idle ep →
      let ep' := uctUdEpRun ep (sendAckRounds ep.txAckedPsn n)
      Idle ep' ∧ ep'.txAckedPsn.toNat = (ep.txAckedPsn.toNat + n) % 2 ^ 16 ∧
        ep'.caCwnd.toNat = min (ep.caCwnd.toNat + n) ep.caWmax.toNat ∧ ep'.caWmax = ep.caWmax := by
  induction n with
  | zero =>
    intro ep h
    have := UInt16.le_iff_toNat_le.mp h.cwnd_le
    have := ep.txAckedPsn.toNat_lt
    exact ⟨h, by dsimp only [sendAckRounds, uctUdEpRun_nil]; omega,
      by dsimp only [sendAckRounds, uctUdEpRun_nil]; omega, rfl⟩
  | succ n ih =>
    intro ep h
    have hround := round_eq h
    -- the rest of the rounds start from the state after the first
    have hrun : uctUdEpRun ep (sendAckRounds ep.txAckedPsn (n + 1)) =
        uctUdEpRun (uctUdEpRun ep [.send, .processAck (ep.txAckedPsn + 1)])
          (sendAckRounds (ep.txAckedPsn + 1) n) := rfl
    obtain ⟨h', hacked, hcwnd, hwmax⟩ := @ih _ h.round
    rw [hround] at h' hacked hcwnd hwmax
    rw [hrun, hround]
    refine ⟨h', ?_, ?_, hwmax⟩
    · rw [hacked]
      dsimp only
      rw [UInt16.toNat_add, UInt16.toNat_one, Nat.mod_add_mod]
      omega
    · rw [hcwnd]
      dsimp only
      rw [cwndAfterAck_toNat h]
      omega

/-- Sends with room in the window take the next psns one after the other. -/
lemma run_sends (k : ℕ) :
    ∀ {ep : UctUdEp}, k < (ep.txMaxPsn - ep.txPsn).toNat → (ep.txMaxPsn - ep.txPsn).toNat < 2 ^ 15 →
      let ep' := uctUdEpRun ep (List.replicate k .send)
      ep'.txPsn.toNat = (ep.txPsn.toNat + k) % 2 ^ 16 ∧ ep'.txAckedPsn = ep.txAckedPsn ∧
        ep'.txMaxPsn = ep.txMaxPsn := by
  induction k with
  | zero =>
    intro ep _ _
    exact ⟨(Nat.mod_eq_of_lt ep.txPsn.toNat_lt).symm, rfl, rfl⟩
  | succ k ih =>
    intro ep hk h15
    have hsend := step_send_of_lt (by omega) h15
    -- one psn less of room after the send
    have hroom : (ep.txMaxPsn - (ep.txPsn + 1)).toNat = (ep.txMaxPsn - ep.txPsn).toNat - 1 := by
      rw [@toNat_sub_of_le_sub ep.txMaxPsn (ep.txPsn + 1) ep.txPsn (by simp; omega)]
      simp
    have hrun : uctUdEpRun ep (List.replicate (k + 1) .send) =
        uctUdEpRun (uctUdIfaceCompleteTxSkb ep) (List.replicate k .send) := by
      rw [List.replicate_succ, uctUdEpRun_cons, hsend]
    obtain ⟨hpsn, hacked, hmax⟩ := @ih (uctUdIfaceCompleteTxSkb ep)
      (by simp only [uctUdIfaceCompleteTxSkb]; omega) (by simp only [uctUdIfaceCompleteTxSkb]; omega)
    rw [hrun]
    refine ⟨?_, hacked, hmax⟩
    rw [hpsn]
    simp only [uctUdIfaceCompleteTxSkb]
    rw [UInt16.toNat_add, UInt16.toNat_one, Nat.mod_add_mod]
    omega

/-! ### The quarter point after a wrap -/

/-- **The ACK request misses the quarter point of a window that wraps.** From a reset with the
largest window, 65001 rounds of a send and its ACK and then 255 sends leave `acked_psn = 65001`,
`max_psn = 490` and `psn = 65257`: the window is 1025, `psn` is its quarter point
`acked_psn + 256`, and the packet asks for no ACK, as the quarter point the source computes is
`48873`. -/
theorem uctUdEpReqAck_misses_quarter_after_wrap :
    ∃ (ops : List UctUdEpOp) (ep : UctUdEp), ep = uctUdEpRun (uctUdEpReset uctUdCaMaxWindow) ops ∧
      uctUdCaMinWindow ≤ ep.txMaxPsn - ep.txAckedPsn ∧
      ep.txMaxPsn - ep.txAckedPsn ≤ uctUdCaMaxWindow ∧
      ep.txPsn = ep.txAckedPsn + (ep.txMaxPsn - ep.txAckedPsn) / 4 ∧
      uctUdEpReqAck ep false = false := by
  -- the first round leaves the sender idle with `acked_psn = 1` and `cwnd = 3`
  have h₁ : Idle (uctUdEpRun (uctUdEpReset uctUdCaMaxWindow) [.send, .processAck 1]) :=
    ⟨by decide, by decide, by decide, by decide, by decide, by decide, by decide⟩
  obtain ⟨h₂, hacked, hcwnd, -⟩ := run_sendAckRounds 65000 h₁
  have hA : (uctUdEpRun (uctUdEpReset uctUdCaMaxWindow) [.send, .processAck 1]).txAckedPsn = 1 := by
    decide
  rw [hA] at h₂ hacked hcwnd
  set ep₂ := uctUdEpRun (uctUdEpRun (uctUdEpReset uctUdCaMaxWindow) [.send, .processAck 1])
    (sendAckRounds 1 65000) with hep₂
  have hacked₂ : ep₂.txAckedPsn = 65001 := UInt16.toNat_inj.mp (by rw [hacked]; decide)
  have hcwnd₂ : ep₂.caCwnd = 1025 := UInt16.toNat_inj.mp (by rw [hcwnd]; decide)
  have hpsn₂ : ep₂.txPsn = 65002 := by rw [h₂.psn_eq, hacked₂]; decide
  have hmax₂ : ep₂.txMaxPsn = 490 := by rw [h₂.maxPsn_eq, hacked₂, hcwnd₂]; decide
  obtain ⟨hpsn, hacked₃, hmax⟩ :=
    @run_sends 255 ep₂ (by rw [hpsn₂, hmax₂]; decide) (by rw [hpsn₂, hmax₂]; decide)
  have hpsn₃ : (uctUdEpRun ep₂ (List.replicate 255 .send)).txPsn = 65257 :=
    UInt16.toNat_inj.mp (by rw [hpsn, hpsn₂]; decide)
  refine ⟨[.send, .processAck 1] ++ sendAckRounds 1 65000 ++ List.replicate 255 .send,
    uctUdEpRun ep₂ (List.replicate 255 .send), ?_, ?_⟩
  · have hrun : ∀ (ep : UctUdEp) (l₁ l₂ : List UctUdEpOp),
        uctUdEpRun ep (l₁ ++ l₂) = uctUdEpRun (uctUdEpRun ep l₁) l₂ :=
      fun ep l₁ l₂ => List.foldl_append
    rw [hrun, hrun]
  · rw [Bool.eq_false_iff, ne_eq, uctUdEpReqAck_iff, hpsn₃, hacked₃, hmax, hacked₂, hmax₂]
    decide

end UcxProofs.UdEp
