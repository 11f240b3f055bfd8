import UcxProofs.FragList

/-!
The sending side of the UD transport's reliability protocol, `uct/ib/ud/base/ud_ep.c`.

`tx.psn` is the next packet sequence number, `tx.acked_psn` the last one the peer
acknowledged and `tx.max_psn` the end of the congestion window: a send is allowed while `psn`
is behind `max_psn` on the circle of 16-bit numbers (`uct_ud_ep_no_window`). Sent skbs wait
in `tx.window` until an ACK covers them. `ca.cwnd` grows by one on each ACK up to `ca.wmax`
and halves on a timeout, which also starts a resend: `uct_ud_ep_resend` walks the window from
`resend.pos`, one skb a call, and marks the skb it retransmits RESENDING until the send
completion of the control skb that carries it. A flush with a completion adds a dummy skb
that repeats the last psn.

Each skb carries an `id` standing for its address, so that `resend.pos`, a pointer to the
window's head or to the `next` field of an skb, is followed as the source follows it; a
position whose skb has left the window reads as the end of the window. Payloads, lengths,
user completions, timers and the pending-operation arbiter are left out. The length test of
`uct_ud_ep_resend` (an skb longer than a CREQ before any NACK) is an argument of the resend
step, and a control-skb completion names the skb it resent, if any.
-/

namespace UcxProofs.UdEp

open FragList

def uctUdCaMinWindow : UInt16 := 2
def uctUdCaMaxWindow : UInt16 := 1025
def uctUdCaAiValue : UInt16 := 1
def uctUdCaMdFactor : UInt16 := 2
def uctUdInitialPsn : UInt16 := 1

/-- An skb of `tx.window`: its address, `neth->psn`, whether it is the dummy of a flush and
the `UCT_UD_SEND_SKB_FLAG_RESENDING` flag. -/
structure UctUdSendSkb where
  id : ℕ
  psn : UInt16
  dummy : Bool
  resending : Bool
  deriving DecidableEq, Repr

/-- A queue iterator: the window's head pointer, or the `queue.next` field of the skb `id`. -/
inductive UcsQueueIter
  | head
  | next (id : ℕ)
  deriving DecidableEq, Repr

/-- The skb an iterator points at; `none` is `ucs_queue_iter_end`. -/
def ucsQueueIterElem (window : List UctUdSendSkb) : UcsQueueIter → Option UctUdSendSkb
  | .head => window.head?
  | .next id => ((window.dropWhile (fun skb => skb.id != id)).drop 1).head?

structure UctUdEp where
  txPsn : UInt16
  txMaxPsn : UInt16
  txAckedPsn : UInt16
  txWindow : List UctUdSendSkb
  caCwnd : UInt16
  caWmax : UInt16
  resendPos : UcsQueueIter
  resendPsn : UInt16
  resendMaxPsn : UInt16
  /-- `UCT_UD_EP_OP_RESEND` is in `tx.pending.ops`. -/
  opResend : Bool
  /-- The address the next skb taken from the pool gets. -/
  nextSkbId : ℕ
  deriving DecidableEq, Repr

def uctUdEpResetMaxPsn (ep : UctUdEp) : UctUdEp :=
  { ep with txMaxPsn := ep.txPsn + ep.caCwnd }

/-- `uct_ud_ep_reset`, with `wmax` from `config.max_window`. -/
def uctUdEpReset (maxWindow : UInt16) : UctUdEp :=
  uctUdEpResetMaxPsn
    { txPsn := uctUdInitialPsn
      txMaxPsn := 0
      txAckedPsn := uctUdInitialPsn - 1
      txWindow := []
      caCwnd := uctUdCaMinWindow
      caWmax := maxWindow
      resendPos := .head
      resendPsn := uctUdInitialPsn
      resendMaxPsn := uctUdInitialPsn - 1
      opResend := false
      nextSkbId := 0 }

def uctUdEpNoWindow (ep : UctUdEp) : Bool :=
  decide (0 ≤ ucsCircularCompare16 ep.txPsn ep.txMaxPsn)

/-- `uct_ud_ep_req_ack`; `ackReqPending` is `uct_ud_ep_ctl_op_check(ep, UCT_UD_EP_OP_ACK_REQ)`.
The quarter point `(acked_psn * 3 + max_psn) >> 2` is computed on the `int`s the psns are
promoted to, and compared with `psn` on the circle. -/
def uctUdEpReqAck (ep : UctUdEp) (ackReqPending : Bool) : Bool :=
  decide (ucsCircularCompare16 ep.txPsn
      (UInt16.ofNat ((ep.txAckedPsn.toNat * 3 + ep.txMaxPsn.toNat) >>> 2)) = 0) ||
    decide (ucsCircularCompare16 (ep.txPsn + 1) ep.txMaxPsn = 0) || ackReqPending

def uctUdEpTxStop (ep : UctUdEp) : UctUdEp :=
  { ep with txMaxPsn := ep.txPsn }

def uctUdEpResendStart (ep : UctUdEp) : UctUdEp :=
  { ep with
    resendMaxPsn := ep.txPsn - 1
    resendPsn := ep.txAckedPsn + 1
    resendPos := .head
    opResend := true }

def uctUdEpResendEnd (ep : UctUdEp) : UctUdEp :=
  { ep with opResend := false }

def uctUdEpResendAck (ep : UctUdEp) : UctUdEp :=
  if 0 < ucsCircularCompare16 ep.resendPsn ep.resendMaxPsn then ep
  else if ucsCircularCompare16 ep.txAckedPsn ep.resendMaxPsn < 0 then
    -- an ACK inside the resend window: restart from the head if it passed `resend.psn`
    let ep := if ucsCircularCompare16 ep.resendPsn ep.txAckedPsn ≤ 0 then
      { ep with resendPos := .head, resendPsn := ep.txAckedPsn + 1 } else ep
    { ep with opResend := true }
  else uctUdEpResendEnd { ep with resendPsn := ep.resendMaxPsn + 1 }

def uctUdEpCaDrop (ep : UctUdEp) : UctUdEp :=
  let cwnd := ep.caCwnd / uctUdCaMdFactor
  let cwnd := if cwnd < uctUdCaMinWindow then uctUdCaMinWindow else cwnd
  let ep := { ep with caCwnd := cwnd, txMaxPsn := ep.txAckedPsn + cwnd }
  if 0 < ucsCircularCompare16 ep.txMaxPsn ep.txPsn then uctUdEpTxStop ep else ep

def uctUdEpCaAck (ep : UctUdEp) : UctUdEp :=
  let cwnd := if ep.caCwnd < ep.caWmax then ep.caCwnd + uctUdCaAiValue else ep.caCwnd
  { ep with caCwnd := cwnd, txMaxPsn := ep.txAckedPsn + cwnd }

def uctUdSkbIsCompleted (skb : UctUdSendSkb) (ackPsn : UInt16) : Bool :=
  decide (ucsCircularCompare16 skb.psn ackPsn ≤ 0) && !skb.resending

/-- The loop of `uct_ud_ep_window_release_inline`: extract skbs from the head while they are
completed, moving `resend.pos` back to the head when it points into an extracted skb and
`invalidate_resend` is set. Returns the window left, `resend.pos` and `resend.psn`. -/
def windowReleaseLoop (ackPsn ackedPsn : UInt16) (invalidateResend : Bool) :
    List UctUdSendSkb → UcsQueueIter → UInt16 → List UctUdSendSkb × UcsQueueIter × UInt16
  | [], pos, psn => ([], pos, psn)
  | skb :: window, pos, psn =>
    if uctUdSkbIsCompleted skb ackPsn then
      if invalidateResend && pos == .next skb.id then
        windowReleaseLoop ackPsn ackedPsn invalidateResend window .head (ackedPsn + 1)
      else windowReleaseLoop ackPsn ackedPsn invalidateResend window pos psn
    else (skb :: window, pos, psn)

def uctUdEpWindowReleaseInline (ep : UctUdEp) (ackPsn : UInt16) (invalidateResend : Bool) :
    UctUdEp :=
  let r := windowReleaseLoop ackPsn ep.txAckedPsn invalidateResend ep.txWindow ep.resendPos
    ep.resendPsn
  { ep with txWindow := r.1, resendPos := r.2.1, resendPsn := r.2.2 }

def uctUdEpWindowRelease (ep : UctUdEp) : UctUdEp :=
  uctUdEpWindowReleaseInline ep ep.txAckedPsn false

def uctUdEpWindowReleaseCompleted (ep : UctUdEp) : UctUdEp :=
  uctUdEpWindowReleaseInline ep ep.txAckedPsn true

def uctUdEpProcessAck (ep : UctUdEp) (ackPsn : UInt16) : UctUdEp :=
  -- a duplicate ACK, and a stale one for a psn not sent yet, are ignored
  if ucsCircularCompare16 ackPsn ep.txAckedPsn ≤ 0 then ep
  else if ucsCircularCompare16 ep.txPsn ackPsn ≤ 0 then ep
  else
    uctUdEpResendAck
      (uctUdEpCaAck (uctUdEpWindowReleaseInline { ep with txAckedPsn := ackPsn } ackPsn false))

/-- A send that passed `uct_ud_ep_no_window`: the skb was given `tx.psn` by
`uct_ud_neth_init_data`, and `uct_ud_iface_complete_tx_skb` increments `tx.psn` and pushes it. -/
def uctUdIfaceCompleteTxSkb (ep : UctUdEp) : UctUdEp :=
  { ep with
    txPsn := ep.txPsn + 1
    txWindow := ep.txWindow ++ [⟨ep.nextSkbId, ep.txPsn, false, false⟩]
    nextSkbId := ep.nextSkbId + 1 }

/-- `uct_ud_ep_comp_skb_add`: a dummy skb with the psn of the last skb sent goes to a non-empty
window; on an empty one it goes to the asynchronous completions, outside the window. -/
def uctUdEpCompSkbAdd (ep : UctUdEp) : UctUdEp :=
  if ep.txWindow.isEmpty then ep
  else
    { ep with
      txWindow := ep.txWindow ++ [⟨ep.nextSkbId, ep.txPsn - 1, true, false⟩]
      nextSkbId := ep.nextSkbId + 1 }

/-- `uct_ud_ep_flush_nolock` with a completion, on a connected endpoint. -/
def uctUdEpFlushNolock (ep : UctUdEp) : UctUdEp :=
  if uctUdEpNoWindow ep then ep else uctUdEpCompSkbAdd ep

def uctUdSkbSetResending (id : ℕ) (resending : Bool) (skb : UctUdSendSkb) : UctUdSendSkb :=
  if skb.id = id then { skb with resending } else skb

/-- One call of `uct_ud_ep_resend`; `tooLongWithoutNack` is its test that the skb at the
position is longer than a CREQ while no NACK came. -/
def uctUdEpResend (ep : UctUdEp) (tooLongWithoutNack : Bool) : UctUdEp :=
  if ucsCircularCompare16 ep.resendMaxPsn ep.txAckedPsn ≤ 0 then uctUdEpResendEnd ep
  else
    match ucsQueueIterElem ep.txWindow ep.resendPos with
    | none => uctUdEpResendEnd ep
    | some sentSkb =>
      if 0 ≤ ucsCircularCompare16 sentSkb.psn ep.txMaxPsn then uctUdEpResendEnd ep
      else if tooLongWithoutNack then uctUdEpResendEnd ep
      else
        let ep := { ep with resendPos := .next sentSkb.id }
        -- an skb already being resent, and a flush dummy, are skipped
        if sentSkb.resending || sentSkb.dummy then ep
        else
          let ep :=
            { ep with
              txWindow := ep.txWindow.map (uctUdSkbSetResending sentSkb.id true)
              resendPsn := sentSkb.psn }
          if ucsCircularCompare16 ep.resendPsn ep.resendMaxPsn = 0 then
            uctUdEpResendEnd { ep with resendPsn := ep.resendMaxPsn + 1 }
          else ep

/-- `uct_ud_iface_ctl_skb_complete` for a control skb of this endpoint, which resent the skb
`resentSkb` or was an ACK. -/
def uctUdIfaceCtlSkbComplete (ep : UctUdEp) (resentSkb : Option ℕ) : UctUdEp :=
  let ep := match resentSkb with
    | none => ep
    | some id => { ep with txWindow := ep.txWindow.map (uctUdSkbSetResending id false) }
  uctUdEpWindowReleaseCompleted ep

/-- `uct_ud_ep_purge_outstanding`: every outstanding control skb of the endpoint completes.
Each resending skb of the window has one; the completions are taken together. -/
def uctUdEpPurgeOutstanding (ep : UctUdEp) : UctUdEp :=
  uctUdEpWindowReleaseCompleted
    { ep with txWindow := ep.txWindow.map (fun skb => { skb with resending := false }) }

def uctUdEpPurge (ep : UctUdEp) : UctUdEp :=
  let ep := uctUdEpPurgeOutstanding (uctUdEpResetMaxPsn ep)
  uctUdEpWindowRelease { ep with opResend := false, txAckedPsn := ep.txPsn - 1 }

/-- What can happen to an endpoint's send side. -/
inductive UctUdEpOp
  | send
  | flush
  | processAck (ackPsn : UInt16)
  | caDrop
  | resendStart
  | resend (tooLongWithoutNack : Bool)
  | ctlSkbComplete (resentSkb : Option ℕ)
  | purge
  deriving DecidableEq, Repr

def uctUdEpStep (ep : UctUdEp) : UctUdEpOp → UctUdEp
  | .send => if uctUdEpNoWindow ep then ep else uctUdIfaceCompleteTxSkb ep
  | .flush => uctUdEpFlushNolock ep
  | .processAck ackPsn => uctUdEpProcessAck ep ackPsn
  | .caDrop => uctUdEpCaDrop ep
  | .resendStart => uctUdEpResendStart ep
  -- the pending-operation dispatcher calls the resend only while the operation is scheduled
  | .resend b => if ep.opResend then uctUdEpResend ep b else ep
  | .ctlSkbComplete r => uctUdIfaceCtlSkbComplete ep r
  | .purge => uctUdEpPurge ep

def uctUdEpRun (ep : UctUdEp) (ops : List UctUdEpOp) : UctUdEp :=
  ops.foldl uctUdEpStep ep

@[simp] lemma uctUdEpRun_nil (ep : UctUdEp) : uctUdEpRun ep [] = ep := rfl

@[simp] lemma uctUdEpRun_cons (ep : UctUdEp) (op : UctUdEpOp) (ops : List UctUdEpOp) :
    uctUdEpRun ep (op :: ops) = uctUdEpRun (uctUdEpStep ep op) ops := rfl

/-! ### The window -/

/-- An skb follows the one before it in the window: a sent skb takes the next psn, a flush
dummy repeats the psn before it. -/
def SkbFollows (a b : UctUdSendSkb) : Prop := b.psn = a.psn + if b.dummy then 0 else 1

/-- The window's psns run from its head to `psn - 1`, each skb following the one before. -/
def WindowFollows (psn : UInt16) (window : List UctUdSendSkb) : Prop :=
  window.IsChain SkbFollows ∧ ∀ skb ∈ window.getLast?, skb.psn = psn - 1

/-- What of an skb the window invariant reads. -/
def UctUdSendSkb.shape (skb : UctUdSendSkb) : UInt16 × Bool := (skb.psn, skb.dummy)

lemma shape_uctUdSkbSetResending (id : ℕ) (b : Bool) :
    UctUdSendSkb.shape ∘ uctUdSkbSetResending id b = UctUdSendSkb.shape := by
  funext skb
  by_cases h : skb.id = id <;> simp [uctUdSkbSetResending, h, UctUdSendSkb.shape]

namespace WindowFollows

variable {psn : UInt16} {window : List UctUdSendSkb}

theorem of_shape {window' : List UctUdSendSkb} (h : WindowFollows psn window)
    (hs : window'.map UctUdSendSkb.shape = window.map UctUdSendSkb.shape) :
    WindowFollows psn window' := by
  -- both parts read the window only through `shape`
  have hchain : ∀ w : List UctUdSendSkb, w.IsChain SkbFollows ↔
      (w.map UctUdSendSkb.shape).IsChain (fun p q => q.1 = p.1 + if q.2 then 0 else 1) :=
    fun w => by rw [List.isChain_map]; rfl
  have hlast : ∀ w : List UctUdSendSkb, (∀ skb ∈ w.getLast?, skb.psn = psn - 1) ↔
      ∀ p ∈ (w.map UctUdSendSkb.shape).getLast?, p.1 = psn - 1 := by
    intro w
    simp [List.getLast?_map, UctUdSendSkb.shape]
  obtain ⟨hc, hl⟩ := h
  exact ⟨(hchain _).mpr (hs ▸ (hchain _).mp hc), (hlast _).mpr (hs ▸ (hlast _).mp hl)⟩

theorem drop (h : WindowFollows psn window) (k : ℕ) : WindowFollows psn (window.drop k) := by
  obtain ⟨hc, hl⟩ := h
  refine ⟨hc.drop k, fun skb hskb => hl skb ?_⟩
  rw [List.getLast?_drop] at hskb
  split at hskb
  · simp at hskb
  · exact hskb

theorem push (h : WindowFollows psn window) (skb : UctUdSendSkb)
    (hs : skb.psn = psn - 1 + if skb.dummy then 0 else 1) :
    WindowFollows (skb.psn + 1) (window ++ [skb]) := by
  obtain ⟨hc, hl⟩ := h
  refine ⟨List.isChain_append.mpr ⟨hc, List.isChain_singleton _, fun x hx y hy => ?_⟩, ?_⟩
  · simp only [List.head?_cons, Option.mem_def, Option.some.injEq] at hy
    subst hy
    rw [SkbFollows, hs, hl x hx]
  · simp

end WindowFollows

/-! ### The invariant -/

/-- The counters and the window of the send side, all the window invariant reads. -/
def UctUdEp.txShape (ep : UctUdEp) :
    UInt16 × UInt16 × UInt16 × UInt16 × UInt16 × List (UInt16 × Bool) :=
  (ep.txPsn, ep.txAckedPsn, ep.txMaxPsn, ep.caCwnd, ep.caWmax,
    ep.txWindow.map UctUdSendSkb.shape)

/-- The sender's window invariant: `cwnd` within its bounds, at most `wmax` psns in flight,
`max_psn` at most `cwnd + 1` past `acked_psn`, and the window's psns running up to `psn - 1`.
Distances are taken from `acked_psn` modulo `2 ^ 16`. -/
structure Inv (ep : UctUdEp) : Prop where
  wmax_ge : 2 ≤ ep.caWmax.toNat
  wmax_le : ep.caWmax.toNat ≤ 1025
  cwnd_ge : 2 ≤ ep.caCwnd.toNat
  cwnd_le : ep.caCwnd.toNat ≤ ep.caWmax.toNat
  psn_pos : 0 < (ep.txPsn - ep.txAckedPsn).toNat
  psn_le : (ep.txPsn - ep.txAckedPsn).toNat ≤ ep.caWmax.toNat + 1
  maxPsn_le : (ep.txMaxPsn - ep.txAckedPsn).toNat ≤ ep.caCwnd.toNat + 1
  window : WindowFollows ep.txPsn ep.txWindow

namespace Inv

variable {ep : UctUdEp}

theorem of_txShape {ep' : UctUdEp} (h : Inv ep) (hs : ep'.txShape = ep.txShape) : Inv ep' := by
  simp only [UctUdEp.txShape, Prod.mk.injEq] at hs
  obtain ⟨hpsn, hacked, hmax, hcwnd, hwmax, hw⟩ := hs
  obtain ⟨h1, h2, h3, h4, h5, h6, h7, h8⟩ := h
  rw [← hpsn, ← hacked, ← hmax, ← hcwnd, ← hwmax] at *
  exact ⟨h1, h2, h3, h4, h5, h6, h7, h8.of_shape hw⟩

end Inv

/-! ### What each operation does to the counters and the window -/

lemma windowReleaseLoop_fst (ackPsn ackedPsn : UInt16) (invalidateResend : Bool)
    (window : List UctUdSendSkb) (pos : UcsQueueIter) (psn : UInt16) :
    ∃ k, (windowReleaseLoop ackPsn ackedPsn invalidateResend window pos psn).1 =
      window.drop k := by
  induction window generalizing pos psn with
  | nil => exact ⟨0, rfl⟩
  | cons skb window ih =>
    unfold windowReleaseLoop
    split
    · split
      · obtain ⟨k, hk⟩ := ih .head (ackedPsn + 1)
        exact ⟨k + 1, hk⟩
      · obtain ⟨k, hk⟩ := ih pos psn
        exact ⟨k + 1, hk⟩
    · exact ⟨0, rfl⟩

section Release

variable (ep : UctUdEp) (ackPsn : UInt16) (invalidateResend : Bool)

@[simp] lemma uctUdEpWindowReleaseInline_txPsn :
    (uctUdEpWindowReleaseInline ep ackPsn invalidateResend).txPsn = ep.txPsn := rfl
@[simp] lemma uctUdEpWindowReleaseInline_txAckedPsn :
    (uctUdEpWindowReleaseInline ep ackPsn invalidateResend).txAckedPsn = ep.txAckedPsn := rfl
@[simp] lemma uctUdEpWindowReleaseInline_txMaxPsn :
    (uctUdEpWindowReleaseInline ep ackPsn invalidateResend).txMaxPsn = ep.txMaxPsn := rfl
@[simp] lemma uctUdEpWindowReleaseInline_caCwnd :
    (uctUdEpWindowReleaseInline ep ackPsn invalidateResend).caCwnd = ep.caCwnd := rfl
@[simp] lemma uctUdEpWindowReleaseInline_caWmax :
    (uctUdEpWindowReleaseInline ep ackPsn invalidateResend).caWmax = ep.caWmax := rfl

/-- A release drops skbs from the head of the window, and besides moves only the resend
position and psn. -/
lemma uctUdEpWindowReleaseInline_eq :
    ∃ k pos psn, uctUdEpWindowReleaseInline ep ackPsn invalidateResend =
      { ep with txWindow := ep.txWindow.drop k, resendPos := pos, resendPsn := psn } := by
  obtain ⟨k, hk⟩ := windowReleaseLoop_fst ackPsn ep.txAckedPsn invalidateResend ep.txWindow
    ep.resendPos ep.resendPsn
  exact ⟨k, _, _, by rw [uctUdEpWindowReleaseInline, hk]⟩

theorem WindowFollows.release {psn : UInt16} (h : WindowFollows psn ep.txWindow) :
    WindowFollows psn (uctUdEpWindowReleaseInline ep ackPsn invalidateResend).txWindow := by
  obtain ⟨k, pos, psn', hrel⟩ := uctUdEpWindowReleaseInline_eq ep ackPsn invalidateResend
  rw [hrel]
  exact h.drop k

end Release

lemma txShape_uctUdEpResendAck (ep : UctUdEp) : (uctUdEpResendAck ep).txShape = ep.txShape := by
  unfold uctUdEpResendAck
  split_ifs <;> rfl

lemma txShape_uctUdEpResend (ep : UctUdEp) (tooLongWithoutNack : Bool) :
    (uctUdEpResend ep tooLongWithoutNack).txShape = ep.txShape := by
  unfold uctUdEpResend
  split
  · rfl
  · split
    · rfl
    · -- the skb resent is only flagged
      dsimp only
      split_ifs <;>
        simp [UctUdEp.txShape, uctUdEpResendEnd, List.map_map, shape_uctUdSkbSetResending]

namespace Inv

variable {ep : UctUdEp}

theorem reset {maxWindow : UInt16} (hmin : uctUdCaMinWindow ≤ maxWindow)
    (hmax : maxWindow ≤ uctUdCaMaxWindow) : Inv (uctUdEpReset maxWindow) := by
  rw [UInt16.le_iff_toNat_le] at hmin hmax
  have hmin' : 2 ≤ maxWindow.toNat := hmin
  refine ⟨hmin', hmax, le_refl _, hmin', ?_, ?_, ?_, List.isChain_nil,
    by simp [uctUdEpReset, uctUdEpResetMaxPsn]⟩
  · show 0 < (uctUdInitialPsn - (uctUdInitialPsn - 1)).toNat
    decide
  · show (uctUdInitialPsn - (uctUdInitialPsn - 1)).toNat ≤ maxWindow.toNat + 1
    simp only [uctUdInitialPsn, UInt16.reduceSub, UInt16.reduceToNat]
    omega
  · show (uctUdInitialPsn + uctUdCaMinWindow - (uctUdInitialPsn - 1)).toNat ≤
      uctUdCaMinWindow.toNat + 1
    decide

theorem drop (h : Inv ep) (k : ℕ) (pos : UcsQueueIter) (psn : UInt16) :
    Inv { ep with txWindow := ep.txWindow.drop k, resendPos := pos, resendPsn := psn } :=
  ⟨h.wmax_ge, h.wmax_le, h.cwnd_ge, h.cwnd_le, h.psn_pos, h.psn_le, h.maxPsn_le, h.window.drop k⟩

theorem windowReleaseInline (h : Inv ep) (ackPsn : UInt16) (invalidateResend : Bool) :
    Inv (uctUdEpWindowReleaseInline ep ackPsn invalidateResend) := by
  obtain ⟨k, pos, psn, hrel⟩ := uctUdEpWindowReleaseInline_eq ep ackPsn invalidateResend
  rw [hrel]
  exact h.drop k pos psn

/-- A send is allowed only while `psn` is behind `max_psn`, so it stays within `cwnd + 1` of
`acked_psn`. -/
theorem send (h : Inv ep) (hw : uctUdEpNoWindow ep = false) : Inv (uctUdIfaceCompleteTxSkb ep) := by
  obtain ⟨h1, h2, h3, h4, h5, h6, h7, h8⟩ := h
  have hlt : (ep.txPsn - ep.txAckedPsn).toNat < (ep.txMaxPsn - ep.txAckedPsn).toNat := by
    have hcmp := ucsCircularCompare16_eq_sub (a := ep.txPsn) (b := ep.txMaxPsn)
      (c := ep.txAckedPsn) (by omega) (by omega)
    simp only [uctUdEpNoWindow, decide_eq_false_iff_not, not_le] at hw
    omega
  have hnext := toNat_add_one_sub (x := ep.txPsn) (c := ep.txAckedPsn) (by omega)
  refine ⟨h1, h2, h3, h4, ?_, ?_, h7, ?_⟩
  · show 0 < (ep.txPsn + 1 - ep.txAckedPsn).toNat
    omega
  · show (ep.txPsn + 1 - ep.txAckedPsn).toNat ≤ ep.caWmax.toNat + 1
    omega
  · exact h8.push ⟨ep.nextSkbId, ep.txPsn, false, false⟩ (by simp)

theorem flushNolock (h : Inv ep) : Inv (uctUdEpFlushNolock ep) := by
  unfold uctUdEpFlushNolock uctUdEpCompSkbAdd
  split_ifs
  · exact h
  · exact h
  · -- the dummy repeats `psn - 1`
    obtain ⟨h1, h2, h3, h4, h5, h6, h7, h8⟩ := h
    have hw := h8.push ⟨ep.nextSkbId, ep.txPsn - 1, true, false⟩ (by simp)
    simp only [sub_add_cancel] at hw
    exact ⟨h1, h2, h3, h4, h5, h6, h7, hw⟩

theorem caDrop (h : Inv ep) : Inv (uctUdEpCaDrop ep) := by
  obtain ⟨h1, h2, h3, h4, h5, h6, h7, h8⟩ := h
  unfold uctUdEpCaDrop uctUdEpTxStop
  dsimp only
  generalize hc : (if ep.caCwnd / uctUdCaMdFactor < uctUdCaMinWindow then uctUdCaMinWindow
    else ep.caCwnd / uctUdCaMdFactor) = cwnd
  -- the halved window, raised to the minimum, stays within `[2, wmax]`
  have hcwnd : 2 ≤ cwnd.toNat ∧ cwnd.toNat ≤ ep.caWmax.toNat := by
    subst hc
    split_ifs with hlt
    · exact ⟨le_refl _, h1⟩
    · rw [UInt16.lt_iff_toNat_lt, UInt16.toNat_div] at hlt
      rw [UInt16.toNat_div]
      simp only [uctUdCaMdFactor, uctUdCaMinWindow, UInt16.reduceToNat] at hlt ⊢
      omega
  have hmax : (ep.txAckedPsn + cwnd - ep.txAckedPsn).toNat = cwnd.toNat := by
    rw [add_sub_cancel_left]
  split_ifs with hstop
  · -- `uct_ud_ep_tx_stop`: `max_psn` was past `psn`, so `psn` is within `cwnd`
    have hcmp := ucsCircularCompare16_eq_sub (a := ep.txAckedPsn + cwnd) (b := ep.txPsn)
      (c := ep.txAckedPsn) (by omega) (by omega)
    refine ⟨h1, h2, hcwnd.1, hcwnd.2, h5, h6, ?_, h8⟩
    show (ep.txPsn - ep.txAckedPsn).toNat ≤ cwnd.toNat + 1
    omega
  · refine ⟨h1, h2, hcwnd.1, hcwnd.2, h5, h6, ?_, h8⟩
    show (ep.txAckedPsn + cwnd - ep.txAckedPsn).toNat ≤ cwnd.toNat + 1
    omega

/-- An ACK of a psn in flight moves `acked_psn` up to it, and `uct_ud_ep_ca_ack` reopens the
window `cwnd` past it. -/
theorem ack (h : Inv ep) {ackPsn : UInt16}
    (hack : (ackPsn - ep.txAckedPsn).toNat < (ep.txPsn - ep.txAckedPsn).toNat) :
    Inv (uctUdEpCaAck { ep with txAckedPsn := ackPsn }) := by
  obtain ⟨h1, h2, h3, h4, h5, h6, h7, h8⟩ := h
  have hpsn := toNat_sub_of_le_sub (x := ep.txPsn) (a := ackPsn) (c := ep.txAckedPsn) (by omega)
  unfold uctUdEpCaAck
  dsimp only
  generalize hc : (if ep.caCwnd < ep.caWmax then ep.caCwnd + uctUdCaAiValue
    else ep.caCwnd) = cwnd
  have hcwnd : 2 ≤ cwnd.toNat ∧ cwnd.toNat ≤ ep.caWmax.toNat := by
    subst hc
    split_ifs with hlt
    · rw [UInt16.lt_iff_toNat_lt] at hlt
      have : (ep.caCwnd + uctUdCaAiValue).toNat = ep.caCwnd.toNat + 1 := by
        simp only [UInt16.toNat_add, uctUdCaAiValue, UInt16.reduceToNat]
        omega
      omega
    · exact ⟨h3, h4⟩
  refine ⟨h1, h2, hcwnd.1, hcwnd.2, ?_, ?_, ?_, h8⟩
  · show 0 < (ep.txPsn - ackPsn).toNat
    omega
  · show (ep.txPsn - ackPsn).toNat ≤ ep.caWmax.toNat + 1
    omega
  · show (ackPsn + cwnd - ackPsn).toNat ≤ cwnd.toNat + 1
    rw [add_sub_cancel_left]
    omega

theorem processAck (h : Inv ep) (ackPsn : UInt16) : Inv (uctUdEpProcessAck ep ackPsn) := by
  unfold uctUdEpProcessAck
  split_ifs with hdup hstale
  · exact h
  · exact h
  · -- the ACK passed both checks: it is for a psn in flight
    have hA := ucsCircularCompare16_pos_iff.mp (lt_of_not_ge hdup)
    have hcmp := ucsCircularCompare16_eq_sub (a := ep.txPsn) (b := ackPsn) (c := ep.txAckedPsn)
      (by have := h.psn_le; have := h.wmax_le; omega) hA.2
    have hack : (ackPsn - ep.txAckedPsn).toNat < (ep.txPsn - ep.txAckedPsn).toNat := by omega
    obtain ⟨k, pos, psn, hrel⟩ :=
      uctUdEpWindowReleaseInline_eq { ep with txAckedPsn := ackPsn } ackPsn false
    refine Inv.of_txShape ?_ (txShape_uctUdEpResendAck _)
    rw [hrel]
    exact (h.drop k pos psn).ack hack

theorem ctlSkbComplete (h : Inv ep) (resentSkb : Option ℕ) :
    Inv (uctUdIfaceCtlSkbComplete ep resentSkb) := by
  unfold uctUdIfaceCtlSkbComplete uctUdEpWindowReleaseCompleted
  apply windowReleaseInline
  cases resentSkb with
  | none => exact h
  | some id =>
    -- clearing the flag leaves the psns and dummies as they are
    exact h.of_txShape (by simp [UctUdEp.txShape, List.map_map, shape_uctUdSkbSetResending])

theorem purge (h : Inv ep) : Inv (uctUdEpPurge ep) := by
  obtain ⟨h1, h2, h3, h4, h5, h6, h7, h8⟩ := h
  -- the outstanding completions clear the flags and drop skbs from the head
  have hw : WindowFollows ep.txPsn (uctUdEpPurgeOutstanding (uctUdEpResetMaxPsn ep)).txWindow := by
    unfold uctUdEpPurgeOutstanding uctUdEpWindowReleaseCompleted
    refine WindowFollows.release _ _ _ (h8.of_shape ?_)
    simp [uctUdEpResetMaxPsn, List.map_map, Function.comp_def, UctUdSendSkb.shape]
  unfold uctUdEpPurge uctUdEpWindowRelease
  apply windowReleaseInline
  -- `acked_psn` is now `psn - 1` and `max_psn` is `psn + cwnd`
  have hone : ep.txPsn - (ep.txPsn - 1) = 1 := sub_sub_cancel _ _
  have hmax : ep.txPsn + ep.caCwnd - (ep.txPsn - 1) = ep.caCwnd + 1 := by grind
  refine ⟨h1, h2, h3, h4, ?_, ?_, ?_, hw⟩
  · show 0 < (ep.txPsn - (ep.txPsn - 1)).toNat
    rw [hone]
    decide
  · show (ep.txPsn - (ep.txPsn - 1)).toNat ≤ ep.caWmax.toNat + 1
    rw [hone, UInt16.toNat_one]
    omega
  · show (ep.txPsn + ep.caCwnd - (ep.txPsn - 1)).toNat ≤ ep.caCwnd.toNat + 1
    rw [hmax, UInt16.toNat_add, UInt16.toNat_one]
    omega

theorem step (h : Inv ep) (op : UctUdEpOp) : Inv (uctUdEpStep ep op) := by
  cases op with
  | send =>
    show Inv (if uctUdEpNoWindow ep then ep else uctUdIfaceCompleteTxSkb ep)
    split
    · exact h
    · exact h.send (Bool.eq_false_iff.mpr ‹_›)
  | flush => exact h.flushNolock
  | processAck ackPsn => exact h.processAck ackPsn
  | caDrop => exact h.caDrop
  | resendStart => exact h.of_txShape rfl
  | resend b =>
    show Inv (if ep.opResend then uctUdEpResend ep b else ep)
    split
    · exact h.of_txShape (txShape_uctUdEpResend ep b)
    · exact h
  | ctlSkbComplete r => exact h.ctlSkbComplete r
  | purge => exact h.purge

theorem run (h : Inv ep) (ops : List UctUdEpOp) : Inv (uctUdEpRun ep ops) := by
  induction ops generalizing ep with
  | nil => exact h
  | cons op ops ih => exact ih (h.step op)

end Inv

/-- From `uct_ud_ep_reset`, with `max_window` as `ud_iface.c` validates it: `cwnd` stays within
`[UCT_UD_CA_MIN_WINDOW, wmax]`, at most `wmax` psns are in flight, `max_psn` is at most
`cwnd + 1` past `acked_psn`, so that `UCT_UD_PSN_COMPARE` among `psn`, `acked_psn` and
`max_psn` is the order of their distances from `acked_psn`, and the window's psns run up to
`psn - 1`, each skb following the one before it. -/
theorem uctUdEpRun_window_invariant (maxWindow : UInt16) (hmin : uctUdCaMinWindow ≤ maxWindow)
    (hmax : maxWindow ≤ uctUdCaMaxWindow) (ops : List UctUdEpOp) :
    let ep := uctUdEpRun (uctUdEpReset maxWindow) ops
    (uctUdCaMinWindow ≤ ep.caCwnd ∧ ep.caCwnd ≤ ep.caWmax) ∧
    ((ep.txPsn - ep.txAckedPsn - 1).toNat ≤ ep.caWmax.toNat ∧
      (ep.txMaxPsn - ep.txAckedPsn).toNat ≤ ep.caCwnd.toNat + 1 ∧
      ∀ x ∈ [ep.txPsn, ep.txAckedPsn, ep.txMaxPsn], ∀ y ∈ [ep.txPsn, ep.txAckedPsn, ep.txMaxPsn],
        ucsCircularCompare16 x y = ((x - ep.txAckedPsn).toNat : ℤ) - (y - ep.txAckedPsn).toNat) ∧
    (ep.txWindow.IsChain SkbFollows ∧ ∀ skb ∈ ep.txWindow.getLast?, skb.psn = ep.txPsn - 1) := by
  intro ep
  have h : Inv ep := (Inv.reset hmin hmax).run ops
  obtain ⟨h1, h2, h3, h4, h5, h6, h7, hc, hl⟩ := h
  -- the three counters lie less than half the circle ahead of `acked_psn`
  have hnear : ∀ x ∈ [ep.txPsn, ep.txAckedPsn, ep.txMaxPsn], (x - ep.txAckedPsn).toNat < 2 ^ 15 := by
    simp only [List.mem_cons, List.not_mem_nil, or_false]
    rintro x (rfl | rfl | rfl)
    · omega
    · simp
    · omega
  have hflight : (ep.txPsn - ep.txAckedPsn - 1).toNat = (ep.txPsn - ep.txAckedPsn).toNat - 1 := by
    rw [UInt16.toNat_sub (ep.txPsn - ep.txAckedPsn) 1, UInt16.toNat_one]
    omega
  refine ⟨⟨UInt16.le_iff_toNat_le.mpr h3, UInt16.le_iff_toNat_le.mpr h4⟩,
    ⟨by omega, h7, fun x hx y hy => ucsCircularCompare16_eq_sub (hnear x hx) (hnear y hy)⟩, hc, hl⟩

theorem uctUdEpRun_window_invariant_send_flush :
    uctUdCaMinWindow ≤ uctUdCaMaxWindow ∧ uctUdCaMaxWindow ≤ uctUdCaMaxWindow ∧
    let ep := uctUdEpRun (uctUdEpReset uctUdCaMaxWindow) [.send, .flush]
    (uctUdCaMinWindow ≤ ep.caCwnd ∧ ep.caCwnd ≤ ep.caWmax) ∧
    ((ep.txPsn - ep.txAckedPsn - 1).toNat ≤ ep.caWmax.toNat ∧
      (ep.txMaxPsn - ep.txAckedPsn).toNat ≤ ep.caCwnd.toNat + 1 ∧
      ∀ x ∈ [ep.txPsn, ep.txAckedPsn, ep.txMaxPsn], ∀ y ∈ [ep.txPsn, ep.txAckedPsn, ep.txMaxPsn],
        ucsCircularCompare16 x y = ((x - ep.txAckedPsn).toNat : ℤ) - (y - ep.txAckedPsn).toNat) ∧
    (ep.txWindow.IsChain SkbFollows ∧ ∀ skb ∈ ep.txWindow.getLast?, skb.psn = ep.txPsn - 1) :=
  ⟨by decide, by decide,
    uctUdEpRun_window_invariant uctUdCaMaxWindow (by decide) (by decide) [.send, .flush]⟩

/-- Two sends, a timeout (`uct_ud_ep_ca_drop` and `uct_ud_ep_resend_start`) and one resend step
leave `resend.pos` on the second skb while `resend.psn` is the psn of the first, the one just
resent. An ACK of psn 1 then leaves that first skb, still RESENDING, in the window with
`psn = acked_psn`, and a flush adds a dummy that repeats psn 2. Below `UCT_UD_CA_MIN_WINDOW`
a `wmax` is under `cwnd` from the reset on. -/
theorem uctUdEpRun_resend_trace :
    let ep₁ := uctUdEpRun (uctUdEpReset uctUdCaMaxWindow)
      [.send, .send, .caDrop, .resendStart, .resend false]
    let ep₂ := uctUdEpRun ep₁ [.processAck 1, .flush]
    (ep₁.opResend = true ∧ ep₁.resendPsn = 1 ∧ ep₁.txWindow.map (·.psn) = [1, 2] ∧
      ucsQueueIterElem ep₁.txWindow ep₁.resendPos = ep₁.txWindow[1]?) ∧
    (ep₂.txAckedPsn = 1 ∧ ep₂.txPsn = 3 ∧
      ep₂.txWindow.map (fun skb => (skb.psn, skb.dummy, skb.resending)) =
        [(1, false, true), (2, false, false), (2, true, false)]) ∧
    (uctUdEpReset 1).caWmax < (uctUdEpReset 1).caCwnd := by
  decide

end UcxProofs.UdEp
