import UcxProofs.Lib.Lists
import UcxProofs.TagQueues

/-!
The matching state of the worker refines the two lists of `TagQueues`.

`Represents tm s` says where each list lives in `tm`: a posted receive sits in the queue
`ucp_tag_exp_get_queue` picks for its tag and mask, in post order, with the counters of the
queue matching its contents; a waiting message sits on the list of all waiting messages and on
the hash list of its tag, in arrival order on both. Every operation keeps the relation and
answers as the lists do. The one that needs an argument is `ucp_tag_exp_search_all`: its merge
walk by sequence number meets the receives of a bucket and of the wildcard queue in post order
(`searchAllLoop_filter`).
-/

namespace UcxProofs.TagMatch

open TagRecv

/-- The queue a request is kept in. -/
def queueOf (p : UcpRequest) : UcpQueueRef := ucpTagExpGetQueue p.tag p.tagMask

/-- Under the full mask a tag matches only itself. -/
lemma ucpTagIsMatch_maskFull {tag expTag : UInt64} :
    ucpTagIsMatch tag expTag ucpTagMaskFull = true ↔ tag = expTag := by
  unfold ucpTagIsMatch ucpTagMaskFull
  rw [show (0xffffffffffffffff : UInt64) = -1 from rfl]
  simp

/-- A request that a tag matches is in the wildcard queue or in the bucket of that tag. -/
lemma queueOf_of_match {tag : UInt64} {p : UcpRequest}
    (h : ucpTagIsMatch tag p.tag p.tagMask = true) :
    queueOf p = .wildcard ∨ queueOf p = .hash (ucpTagMatchCalcHash tag) := by
  unfold queueOf ucpTagExpGetQueue
  split_ifs with hfull
  · rw [hfull, ucpTagIsMatch_maskFull] at h
    exact .inr (by rw [h])
  · exact .inl rfl

/-- A message that a receive under the full mask matches carries the receive's tag, so it is on
the hash list of that tag. -/
lemma calcHash_of_match_full {tag : UInt64} {u : UcpRecvDesc}
    (h : ucpTagIsMatch u.tag tag ucpTagMaskFull = true) :
    ucpTagMatchCalcHash u.tag = ucpTagMatchCalcHash tag := by
  rw [ucpTagIsMatch_maskFull.mp h]

/-! ## The representation -/

/-- The receives of `posted` that belong in queue `q`, in post order. -/
def postedIn (posted : List UcpRequest) (q : UcpQueueRef) : List UcpRequest :=
  posted.filter fun p => queueOf p = q

/-- The waiting messages of `unexp` on the hash list `b`, in arrival order. -/
def unexpIn (unexp : List UcpRecvDesc) (b : Fin 1024) : List UcpRecvDesc :=
  unexp.filter fun u => ucpTagMatchCalcHash u.tag = b

/-- A request queue holds `reqs`, and its counters count them: all of them in `sw_count` (none is
offloaded), those that block offload in `block_count`. -/
structure QueueHolds (rq : UcpRequestQueue) (reqs : List UcpRequest) : Prop where
  queue : rq.queue = reqs
  swCount : rq.swCount = reqs.length
  blockCount : rq.blockCount = (reqs.filter (·.blockOffload)).length

/-- The worker's matching state `tm` keeps the lists `s`. -/
structure Represents (tm : UcpTagMatch) (s : TagQueues) : Prop where
  ordered : s.Ordered
  queues : ∀ q, QueueHolds (tm.queue q) (postedIn s.posted q)
  swAllCount : tm.swAllCount = s.posted.length
  sn : tm.sn = s.sn
  unexpAll : tm.unexpAll = s.unexp
  unexpHash : ∀ b, tm.unexpHash b = unexpIn s.unexp b

lemma represents_init : Represents ucpTagMatchInit TagQueues.empty where
  ordered := TagQueues.ordered_empty
  queues q := by cases q <;> exact ⟨rfl, rfl, rfl⟩
  swAllCount := rfl
  sn := rfl
  unexpAll := rfl
  unexpHash _ := rfl

/-! ## Taking a request out and putting one in -/

lemma QueueHolds.erase {rq : UcpRequestQueue} {reqs : List UcpRequest} (h : QueueHolds rq reqs)
    {p : UcpRequest} (hp : p ∈ reqs) :
    QueueHolds ⟨rq.queue.erase p, rq.swCount - 1,
      if p.blockOffload then rq.blockCount - 1 else rq.blockCount⟩ (reqs.erase p) where
  queue := by rw [h.queue]
  swCount := by rw [h.swCount, List.length_erase_of_mem hp]
  blockCount := by
    rw [← List.erase_filter, h.blockCount]
    split_ifs with hb
    · rw [List.length_erase_of_mem (List.mem_filter.mpr ⟨hp, hb⟩)]
    · rw [List.erase_of_not_mem (fun hm => hb (List.mem_filter.mp hm).2)]

lemma QueueHolds.push {rq : UcpRequestQueue} {reqs : List UcpRequest} (h : QueueHolds rq reqs)
    (p : UcpRequest) :
    QueueHolds ⟨rq.queue ++ [p], rq.swCount + 1,
      rq.blockCount + if p.blockOffload then 1 else 0⟩ (reqs ++ [p]) where
  queue := by rw [h.queue]
  swCount := by rw [h.swCount, List.length_append, List.length_singleton]
  blockCount := by
    rw [h.blockCount, List.filter_append, List.length_append]
    cases hb : p.blockOffload <;> simp [hb]

/-- Only the queue of `p` changes when `p` leaves the posted list. -/
lemma postedIn_erase_of_ne {posted : List UcpRequest} {p : UcpRequest} {q : UcpQueueRef}
    (hq : q ≠ queueOf p) : postedIn (posted.erase p) q = postedIn posted q := by
  exact List.filter_erase_of_neg (by simpa using Ne.symm hq)

lemma postedIn_append_of_ne {posted : List UcpRequest} {p : UcpRequest} {q : UcpQueueRef}
    (hq : q ≠ queueOf p) : postedIn (posted ++ [p]) q = postedIn posted q := by
  simp [postedIn, List.filter_append, Ne.symm hq]

/-- `ucp_tag_exp_delete` of a posted receive from its queue takes it off the posted list. -/
theorem ucpTagExpDelete_represents {tm : UcpTagMatch} {s : TagQueues} (h : Represents tm s)
    {p : UcpRequest} (hp : p ∈ s.posted) :
    Represents (ucpTagExpDelete p tm (queueOf p)) { s with posted := s.posted.erase p } := by
  have hoff : p.offloaded = false := h.ordered.notOffloaded p hp
  have hpq : p ∈ postedIn s.posted (queueOf p) := List.mem_filter.mpr ⟨hp, by simp⟩
  refine ⟨h.ordered.erase p, fun q => ?_, ?_, by simpa using h.sn, by simpa using h.unexpAll,
    by simpa using h.unexpHash⟩
  · by_cases hq : q = queueOf p
    · -- the queue of `p` loses it and its counts
      subst hq
      rw [ucpTagExpDelete_queue_self _ _ _ hoff]
      simpa [postedIn, ← List.erase_filter] using (h.queues (queueOf p)).erase hpq
    · simpa [hq, postedIn_erase_of_ne hq] using h.queues q
  · simp [ucpTagExpDelete_swAllCount _ _ _ hoff, h.swAllCount, List.length_erase_of_mem hp]

/-- `ucp_tag_offload_try_post` then `ucp_tag_exp_push` of a request into its queue posts it. -/
theorem ucpTagExpPush_represents {tm : UcpTagMatch} {s : TagQueues} (h : Represents tm s)
    {req : UcpRequest} (hreq : req.offloaded = false) :
    Represents
      (ucpTagExpPush (ucpTagOffloadTryPost tm req.blockOffload (queueOf req)) (queueOf req) req).2
      (s.post req) := by
  refine ⟨h.ordered.post hreq, fun q => ?_, ?_, ?_, by simpa [TagQueues.post] using h.unexpAll,
    by simpa [TagQueues.post] using h.unexpHash⟩
  · by_cases hq : q = queueOf req
    · -- the queue of `req` gains it at the tail, with its counts
      subst hq
      have hin : postedIn (s.post req).posted (queueOf req) =
          postedIn s.posted (queueOf req) ++ [{ req with sn := s.sn }] := by
        simp [TagQueues.post, postedIn, List.filter_append, queueOf]
      rw [hin]
      simpa [h.sn] using (h.queues (queueOf req)).push { req with sn := s.sn }
    · have hq' : q ≠ queueOf { req with sn := s.sn } := hq
      simpa [hq, TagQueues.post, postedIn_append_of_ne hq'] using h.queues q
  · simp [TagQueues.post, h.swAllCount]
  · simp [TagQueues.post, h.sn]

/-! ## The unexpected side -/

lemma unexpIn_erase_of_ne {unexp : List UcpRecvDesc} {rdesc : UcpRecvDesc} {b : Fin 1024}
    (hb : b ≠ ucpTagMatchCalcHash rdesc.tag) : unexpIn (unexp.erase rdesc) b = unexpIn unexp b :=
  List.filter_erase_of_neg (by simpa using Ne.symm hb)

/-- `ucp_tag_unexp_recv` of a message under its own tag puts it at the tail of the waiting
list. -/
theorem ucpTagUnexpRecv_represents {tm : UcpTagMatch} {s : TagQueues} (h : Represents tm s)
    (rdesc : UcpRecvDesc) :
    Represents (ucpTagUnexpRecv tm rdesc rdesc.tag) { s with unexp := s.unexp ++ [rdesc] } where
  ordered := h.ordered.withUnexp _
  queues q := by simpa using h.queues q
  swAllCount := h.swAllCount
  sn := h.sn
  unexpAll := by simp [ucpTagUnexpRecv, h.unexpAll]
  unexpHash b := by
    by_cases hb : b = ucpTagMatchCalcHash rdesc.tag
    · -- the hash list of the tag gains the message at its tail
      subst hb
      simp [ucpTagUnexpRecv, h.unexpHash, unexpIn, List.filter_append]
    · simp [ucpTagUnexpRecv, Function.update_of_ne hb, h.unexpHash, unexpIn, List.filter_append,
        Ne.symm hb]

/-- `ucp_tag_unexp_remove` takes a message off the waiting list. -/
theorem ucpTagUnexpRemove_represents {tm : UcpTagMatch} {s : TagQueues} (h : Represents tm s)
    (rdesc : UcpRecvDesc) :
    Represents (ucpTagUnexpRemove tm rdesc) { s with unexp := s.unexp.erase rdesc } where
  ordered := h.ordered.withUnexp _
  queues q := by simpa using h.queues q
  swAllCount := h.swAllCount
  sn := h.sn
  unexpAll := by simp [ucpTagUnexpRemove, h.unexpAll]
  unexpHash b := by
    by_cases hb : b = ucpTagMatchCalcHash rdesc.tag
    · subst hb
      simp [ucpTagUnexpRemove, h.unexpHash, unexpIn, List.erase_filter]
    · simp [ucpTagUnexpRemove, Function.update_of_ne hb, h.unexpHash, unexpIn_erase_of_ne hb]

/-! ## Searching the expected side -/

/-- `ucp_tag_exp_req_seq` of a queue whose requests all come after `p` is later than `p`. -/
lemma sn_lt_ucpTagExpReqSeq {p : UcpRequest} {l : List UcpRequest} (h : ∀ r ∈ l, p.sn < r.sn) :
    (p.sn : WithTop ℕ) < ucpTagExpReqSeq l := by
  cases l with
  | nil => exact WithTop.coe_lt_top _
  | cons r l => exact WithTop.coe_lt_coe.mpr (h r List.mem_cons_self)

@[simp] lemma ucpTagExpReqSeq_cons (p : UcpRequest) (l : List UcpRequest) :
    ucpTagExpReqSeq (p :: l) = p.sn := rfl

/-- **The merge walk of `ucp_tag_exp_search_all`.** On two queues cut out of one list ordered by
sequence number, with fuel for every request of both, the walk returns the first request of the
list in either queue that the tag matches, and whether it came from the second queue. The
induction is on the list: its head heads one of the queues, or neither, and the head of the
other queue comes later. -/
lemma searchAllLoop_filter {tag : UInt64} {f g : UcpRequest → Bool} {l : List UcpRequest}
    (hsorted : l.Pairwise (·.sn < ·.sn)) (hdisj : ∀ p ∈ l, f p = true → g p = false)
    {fuel : ℕ} (hfuel : (l.filter f).length + (l.filter g).length < fuel) :
    searchAllLoop tag fuel (l.filter f) (l.filter g) =
      (l.find? fun p => (f p || g p) && ucpTagIsMatch tag p.tag p.tagMask).map
        fun p => (p, g p) := by
  induction l generalizing fuel with
  | nil =>
    obtain ⟨fuel, rfl⟩ := Nat.exists_eq_add_of_lt hfuel
    simp [searchAllLoop]
  | cons x l ih =>
    obtain ⟨hx, hl⟩ := List.pairwise_cons.mp hsorted
    have ih' := @ih hl fun p hp => hdisj p (List.mem_cons_of_mem x hp)
    have hafter : ∀ h : UcpRequest → Bool, ∀ r ∈ l.filter h, x.sn < r.sn :=
      fun h r hr => hx r (List.mem_filter.mp hr).1
    cases hf : f x with
    | true =>
      -- `x` heads the bucket and comes before the head of the wildcard queue
      have hg : g x = false := hdisj x List.mem_cons_self hf
      simp only [List.filter_cons, hf, hg, if_true, Bool.false_eq_true, if_false,
        List.length_cons] at hfuel ⊢
      obtain ⟨fuel, rfl⟩ : ∃ n, fuel = n + 1 := ⟨fuel - 1, by omega⟩
      have hlt := sn_lt_ucpTagExpReqSeq (hafter g)
      by_cases hm : ucpTagIsMatch tag x.tag x.tagMask = true
      · simp [searchAllLoop, hlt.ne, hlt, hm, hf, hg]
      · simp [searchAllLoop, hlt.ne, hlt, hm, hf, @ih' fuel (by omega)]
    | false =>
      cases hg : g x with
      | true =>
        -- `x` heads the wildcard queue and comes before the head of the bucket
        simp only [List.filter_cons, hf, hg, if_true, Bool.false_eq_true, if_false,
          List.length_cons] at hfuel ⊢
        obtain ⟨fuel, rfl⟩ : ∃ n, fuel = n + 1 := ⟨fuel - 1, by omega⟩
        have hlt := sn_lt_ucpTagExpReqSeq (hafter f)
        have hnlt := not_lt.mpr hlt.le
        by_cases hm : ucpTagIsMatch tag x.tag x.tagMask = true
        · simp [searchAllLoop, hlt.ne', hnlt, hm, hf, hg]
        · simp [searchAllLoop, hlt.ne', hnlt, hm, hg, @ih' fuel (by omega)]
      | false =>
        -- `x` is in neither queue
        simp only [List.filter_cons, hf, hg, Bool.false_eq_true, if_false] at hfuel ⊢
        simp [hf, hg, ih' hfuel]
/-- The walk of `ucp_tag_exp_search_all` over the bucket of the tag and the wildcard queue. -/
lemma ucpTagExpSearchAll_of_represents {tm : UcpTagMatch} {s : TagQueues} (h : Represents tm s)
    (tag : UInt64) :
    ucpTagExpSearchAll tm (ucpTagMatchCalcHash tag) tag = match s.matchPosted tag with
      | some p => (some p, ucpTagExpDelete p tm (queueOf p))
      | none => (none, tm) := by
  set b := ucpTagMatchCalcHash tag with hbdef
  have hb : (tm.hash b).queue = s.posted.filter fun p => decide (queueOf p = .hash b) :=
    (h.queues (.hash b)).queue
  have hw : tm.wildcard.queue = s.posted.filter fun p => decide (queueOf p = .wildcard) :=
    (h.queues .wildcard).queue
  -- a request the tag matches is in one of the two queues
  have hpred : (fun p : UcpRequest => (decide (queueOf p = .hash b) || decide (queueOf p = .wildcard))
      && ucpTagIsMatch tag p.tag p.tagMask) = fun p => ucpTagIsMatch tag p.tag p.tagMask := by
    funext p
    cases hm : ucpTagIsMatch tag p.tag p.tagMask
    · simp
    · rcases queueOf_of_match hm with hq | hq <;> simp [hq, hbdef]
  have hwalk := @searchAllLoop_filter tag (fun p => decide (queueOf p = .hash b))
    (fun p => decide (queueOf p = .wildcard)) s.posted h.ordered.sorted
    (by intro p _ hf; simp_all) _ (Nat.lt_add_one _)
  rw [hpred, ← TagQueues.matchPosted] at hwalk
  unfold ucpTagExpSearchAll
  dsimp only
  rw [hb, hw, hwalk]
  cases hm : s.matchPosted tag with
  | none => rfl
  | some p =>
    have hmatch := (TagQueues.matchPosted_spec hm).2
    by_cases hq : queueOf p = .wildcard
    · simp [hq]
    · have hq' : queueOf p = .hash b := (queueOf_of_match hmatch).resolve_left hq
      simp [hq']

/-- **`ucp_tag_exp_search` finds the earliest posted receive that the tag matches** and deletes it
from its queue, on the fast path as on the walk. -/
theorem ucpTagExpSearch_of_represents {tm : UcpTagMatch} {s : TagQueues} (h : Represents tm s)
    (tag : UInt64) :
    ucpTagExpSearch tm tag = match s.matchPosted tag with
      | some p => (some p, ucpTagExpDelete p tm (queueOf p))
      | none => (none, tm) := by
  unfold ucpTagExpSearch
  split_ifs with hwild
  · exact ucpTagExpSearchAll_of_represents h tag
  · -- the fast path: with no wildcard receive the bucket holds every receive the tag matches
    have hnw : ∀ p ∈ s.posted, queueOf p ≠ .wildcard := by
      have hempty : postedIn s.posted .wildcard = [] := by
        rw [← (h.queues .wildcard).queue]
        exact not_not.mp hwild
      intro p hp hq
      simp only [postedIn, List.filter_eq_nil_iff] at hempty
      exact hempty p hp (by simpa using hq)
    have hfind : (tm.queue (.hash (ucpTagMatchCalcHash tag))).queue.find? (fun req => ucpTagIsMatch tag req.tag req.tagMask)
        = s.matchPosted tag := by
      rw [(h.queues _).queue, postedIn, List.find?_filter, TagQueues.matchPosted]
      apply List.find?_congr
      intro p hp
      cases hm : ucpTagIsMatch tag p.tag p.tagMask
      · simp
      · simp [(queueOf_of_match hm).resolve_left (hnw p hp)]
    dsimp only
    rw [hfind]
    cases hm : s.matchPosted tag with
    | none => rfl
    | some p =>
      obtain ⟨hp, hmatch⟩ := TagQueues.matchPosted_spec hm
      have hq : queueOf p = .hash (ucpTagMatchCalcHash tag) := (queueOf_of_match hmatch).resolve_left (hnw p hp)
      simp [hq]

/-- `ucp_tag_exp_remove` finds a request exactly when it is still posted. -/
theorem ucpTagExpRemove_of_represents {tm : UcpTagMatch} {s : TagQueues} (h : Represents tm s)
    (req : UcpRequest) :
    ucpTagExpRemove tm req =
      if req ∈ s.posted then (true, ucpTagExpDelete req tm (queueOf req)) else (false, tm) := by
  have hmem : req ∈ (tm.queue (ucpTagExpGetQueue req.tag req.tagMask)).queue ↔
      req ∈ s.posted := by
    have hq := (h.queues (queueOf req)).queue
    unfold queueOf at hq
    simp [hq, postedIn, queueOf]
  unfold ucpTagExpRemove
  dsimp only
  by_cases hp : req ∈ s.posted
  · rw [if_pos (hmem.mpr hp), if_pos hp]
    rfl
  · rw [if_neg (mt hmem.mp hp), if_neg hp]

/-! ## Searching the unexpected side -/

/-- **`ucp_tag_unexp_search` finds the earliest waiting message that the receive matches**, on the
hash list of the tag under the full mask and on the list of all otherwise. -/
theorem ucpTagUnexpSearch_of_represents {tm : UcpTagMatch} {s : TagQueues} (h : Represents tm s)
    (tag tagMask : UInt64) (rem : Bool) :
    ucpTagUnexpSearch tm tag tagMask rem = match s.matchUnexp tag tagMask with
      | some u => (some u, if rem then ucpTagUnexpRemove tm u else tm)
      | none => (none, tm) := by
  -- the list searched has the same first match as the list of all
  have hfind : (if tagMask = ucpTagMaskFull then tm.unexpHash (ucpTagMatchCalcHash tag)
      else tm.unexpAll).find? (fun rdesc => ucpTagIsMatch rdesc.tag tag tagMask) =
      s.matchUnexp tag tagMask := by
    split_ifs with hfull
    · subst hfull
      rw [h.unexpHash, unexpIn, List.find?_filter, TagQueues.matchUnexp]
      apply List.find?_congr
      intro u _
      cases hm : ucpTagIsMatch u.tag tag ucpTagMaskFull
      · simp
      · simp [calcHash_of_match_full hm]
    · rw [h.unexpAll, TagQueues.matchUnexp]
  unfold ucpTagUnexpSearch
  by_cases hempty : tm.unexpAll = []
  · -- nothing waits at all
    have hnone : s.matchUnexp tag tagMask = none := by
      simp [TagQueues.matchUnexp, ← h.unexpAll, hempty]
    rw [if_pos hempty, hnone]
  · rw [if_neg hempty]
    dsimp only
    cases hm : s.matchUnexp tag tagMask <;> simp only [hfind, hm]

/-- `ucp_tag_probe_nb` answers as the probe of the lists. -/
theorem ucpTagProbeNb_of_represents {tm : UcpTagMatch} {s : TagQueues} (h : Represents tm s)
    (tag tagMask : UInt64) (rem : Bool) :
    ucpTagProbeNb tm tag tagMask rem = match s.matchUnexp tag tagMask with
      | some u => (some u, if rem then ucpTagUnexpRemove tm u else tm)
      | none => (none, tm) := by
  unfold ucpTagProbeNb
  rw [ucpTagUnexpSearch_of_represents h]
  cases s.matchUnexp tag tagMask <;> rfl

/-! ## Each event, and every run -/

/-- The first packet of a message goes to the earliest receive it matches, or waits. -/
theorem incomingFirst_refines {tm : UcpTagMatch} {s : TagQueues} (h : Represents tm s)
    (rdesc : UcpRecvDesc) :
    (incomingFirst tm rdesc).1 = (s.incoming rdesc).1 ∧
      Represents (incomingFirst tm rdesc).2 (s.incoming rdesc).2 := by
  unfold incomingFirst TagQueues.incoming
  rw [ucpTagExpSearch_of_represents h]
  cases hm : s.matchPosted rdesc.tag with
  | some p =>
    exact ⟨rfl, ucpTagExpDelete_represents h (TagQueues.matchPosted_spec hm).1⟩
  | none => exact ⟨rfl, ucpTagUnexpRecv_represents h rdesc⟩

/-- A probe finds the earliest waiting message that matches. -/
theorem ucpTagProbeNb_refines {tm : UcpTagMatch} {s : TagQueues} (h : Represents tm s)
    (tag tagMask : UInt64) (rem : Bool) :
    (ucpTagProbeNb tm tag tagMask rem).1 = (s.probe tag tagMask rem).1 ∧
      Represents (ucpTagProbeNb tm tag tagMask rem).2 (s.probe tag tagMask rem).2 := by
  rw [ucpTagProbeNb_of_represents h]
  cases hm : s.matchUnexp tag tagMask with
  | none => simpa [TagQueues.probe, hm] using h
  | some u =>
    simp only [TagQueues.probe, hm, true_and]
    cases rem
    · exact h
    · exact ucpTagUnexpRemove_represents h u

/-- A cancellation removes its receive exactly when it is still posted. -/
theorem ucpTagExpRemove_refines {tm : UcpTagMatch} {s : TagQueues} (h : Represents tm s)
    (req : UcpRequest) :
    (ucpTagExpRemove tm req).1 = (s.remove req).1 ∧
      Represents (ucpTagExpRemove tm req).2 (s.remove req).2 := by
  rw [ucpTagExpRemove_of_represents h]
  unfold TagQueues.remove
  by_cases hp : req ∈ s.posted
  · rw [if_pos hp, if_pos hp]
    exact ⟨rfl, ucpTagExpDelete_represents h hp⟩
  · rw [if_neg hp, if_neg hp]
    exact ⟨rfl, h⟩

/-- What `ucp_tag_recv_common` does to the matching state: it queues the request when no message
was found and the call may wait, and changes nothing else. -/
lemma ucpTagRecvCommon_tm (tm : UcpTagMatch) (env : UcpTagRecvEnv) (tag tagMask : UInt64)
    (req : ℕ) (rdesc : Option UcpRecvDesc) (param : UcpRequestParam) :
    (ucpTagRecvCommon tm env tag tagMask req rdesc param).tm =
      if rdesc = none ∧ param.opAttrMask &&& ucpOpAttrFlagForceImmCmpl = 0 ∧
          env.initUnpack = .ok then
        (ucpTagExpPush (ucpTagOffloadTryPost tm (!env.dtIter.contig) (ucpTagExpGetQueue tag tagMask))
          (ucpTagExpGetQueue tag tagMask) (ucpTagRecvRequest env req tag tagMask)).2
      else tm := by
  cases rdesc with
  | none =>
    unfold ucpTagRecvCommon
    by_cases hf : param.opAttrMask &&& ucpOpAttrFlagForceImmCmpl = 0 <;>
      by_cases hi : env.initUnpack = .ok <;> simp [hf, hi]
  | some d =>
    -- a message was found: every path leaves the queues alone
    rw [if_neg (fun hc => Option.some_ne_none d hc.1)]
    unfold ucpTagRecvCommon
    cases he : d.eagerOnly
    · rw [Option.filter_some_neg he]
      dsimp only
      split_ifs
      · rfl
      · rfl
      · split <;> rfl
    · rw [Option.filter_some_pos he]

/-- **A receive call takes the earliest waiting message that matches, or posts the receive
unless it must complete at once or cannot unpack.** -/
theorem ucpTagRecvNbx_refines {tm : UcpTagMatch} {s : TagQueues} (h : Represents tm s)
    (env : UcpTagRecvEnv) (tag tagMask : UInt64) (param : UcpRequestParam) :
    Represents (ucpTagRecvNbx tm env tag tagMask param).tm (s.recv env tag tagMask param) := by
  unfold ucpTagRecvNbx TagQueues.recv
  by_cases hc : env.checksPass = true
  · simp only [hc, Bool.not_true, Bool.false_eq_true, if_false]
    cases ucpRequestGetParam env param with
    | none => exact h
    | some req =>
      rw [ucpTagUnexpSearch_of_represents h]
      unfold TagQueues.probe
      cases s.matchUnexp tag tagMask with
      | some u =>
        -- the receive takes the message
        simpa [ucpTagRecvCommon_tm] using ucpTagUnexpRemove_represents h u
      | none =>
        dsimp only
        rw [ucpTagRecvCommon_tm]
        by_cases hpost : param.opAttrMask &&& ucpOpAttrFlagForceImmCmpl = 0 ∧
            env.initUnpack = .ok
        · -- nothing matched and the call may wait: the receive is posted
          rw [if_pos ⟨rfl, hpost⟩, if_pos hpost]
          exact ucpTagExpPush_represents h rfl
        · rw [if_neg (fun hc => hpost hc.2), if_neg hpost]
          exact h
  · simp only [hc, Bool.not_false, if_true]
    exact h

/-- One event keeps the representation and answers as on the lists. -/
theorem tagStep_refines {tm : UcpTagMatch} {s : TagQueues} (h : Represents tm s)
    (ev : TagEvent) :
    (tagStep tm ev).1 = (s.step ev).1 ∧ Represents (tagStep tm ev).2 (s.step ev).2 := by
  cases ev with
  | recv env tag tagMask param => exact ⟨rfl, ucpTagRecvNbx_refines h env tag tagMask param⟩
  | incoming rdesc =>
    obtain ⟨hobs, hrep⟩ := incomingFirst_refines h rdesc
    exact ⟨by simp [tagStep, TagQueues.step, hobs], hrep⟩
  | probe tag tagMask rem =>
    obtain ⟨hobs, hrep⟩ := ucpTagProbeNb_refines h tag tagMask rem
    exact ⟨by simp [tagStep, TagQueues.step, hobs], hrep⟩
  | remove req =>
    obtain ⟨hobs, hrep⟩ := ucpTagExpRemove_refines h req
    exact ⟨by simp [tagStep, TagQueues.step, hobs], hrep⟩

/-- From any state that keeps the lists, a run answers as on the lists and keeps them. -/
theorem tagRun_refines_from {tm : UcpTagMatch} {s : TagQueues} (h : Represents tm s)
    (evs : List TagEvent) :
    (tagRun tm evs).1 = (s.run evs).1 ∧ Represents (tagRun tm evs).2 (s.run evs).2 := by
  induction evs generalizing tm s with
  | nil => exact ⟨rfl, h⟩
  | cons ev evs ih =>
    obtain ⟨hobs, hrep⟩ := tagStep_refines h ev
    obtain ⟨hobs', hrep'⟩ := ih hrep
    refine ⟨?_, hrep'⟩
    simp only [tagRun, TagQueues.run, hobs, hobs']

/-- **Software tag matching is ordered matching.** From a fresh worker, over any sequence of
receive calls, first packets of messages, probes and cancellations, the worker's matching state
keeps the posted and the waiting lists of `TagQueues`, and every event answers as it does on the
lists. -/
theorem ucpTagMatch_refines_queues (evs : List TagEvent) :
    (tagRun ucpTagMatchInit evs).1 = (TagQueues.empty.run evs).1 ∧
      Represents (tagRun ucpTagMatchInit evs).2 (TagQueues.empty.run evs).2 :=
  tagRun_refines_from represents_init evs

/-- A receive that must complete at once is not posted. With
`UCP_OP_ATTR_FLAG_FORCE_IMM_CMPL` and no message waiting, `ucp_tag_recv_nbx` of tag 5 fails with
`UCS_ERR_NO_RESOURCE`, and a message with tag 5 that arrives next finds no receive and waits on
the unexpected side. -/
theorem ucpTagRecvNbx_forceImmCmpl_not_posted :
    let env : UcpTagRecvEnv := ⟨true, some 1, .ok, ⟨64, true⟩, .ok, none⟩
    let param : UcpRequestParam := ⟨ucpOpAttrFlagForceImmCmpl, 0⟩
    let rdesc : UcpRecvDesc := ⟨2, 5, true, false, 24, 16⟩
    (ucpTagRecvNbx ucpTagMatchInit env 5 ucpTagMaskFull param).ret = .status .errNoResource ∧
      (tagRun ucpTagMatchInit [.recv env 5 ucpTagMaskFull param, .incoming rdesc]).1 =
        [.recv, .incoming none] ∧
      (tagRun ucpTagMatchInit [.recv env 5 ucpTagMaskFull param, .incoming rdesc]).2.unexpAll =
        [rdesc] := by
  decide

end UcxProofs.TagMatch
