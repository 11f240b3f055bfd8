import UcxProofs.TagRecv

/-!
What tag matching is for: two first-in first-out lists, the receives posted and not yet
matched, in post order, and the messages arrived and not yet received, in arrival order. A
message goes to the earliest posted receive it matches; a receive takes the earliest message it
matches; whatever finds no partner joins the tail of its list.

A posted receive keeps the number of its post in `sn`, and `sn` of the lists counts the posts
so far. The lists are ordered by these numbers (`TagQueues.Ordered`), which is what lets the
implementation keep them in many queues and still find the earliest match.
-/

namespace UcxProofs.TagMatch

open TagRecv

/-- Posted receives in post order, unexpected messages in arrival order, and the number of
receives posted so far. -/
structure TagQueues where
  posted : List UcpRequest
  unexp : List UcpRecvDesc
  sn : ℕ

/-- No receive posted, no message waiting. -/
def TagQueues.empty : TagQueues := ⟨[], [], 0⟩

namespace TagQueues

/-- The earliest posted receive that a message with tag `tag` matches. -/
def matchPosted (s : TagQueues) (tag : UInt64) : Option UcpRequest :=
  s.posted.find? fun p => ucpTagIsMatch tag p.tag p.tagMask

/-- The earliest waiting message that a receive of `tag` under `tagMask` matches. -/
def matchUnexp (s : TagQueues) (tag tagMask : UInt64) : Option UcpRecvDesc :=
  s.unexp.find? fun u => ucpTagIsMatch u.tag tag tagMask

/-- The receive `matchPosted` finds is posted and matches the tag. -/
lemma matchPosted_spec {s : TagQueues} {tag : UInt64} {p : UcpRequest}
    (h : s.matchPosted tag = some p) : p ∈ s.posted ∧ ucpTagIsMatch tag p.tag p.tagMask = true := by
  have hmatch := List.find?_some h
  exact ⟨List.mem_of_find?_eq_some h, hmatch⟩

/-- A message arrives: it goes to the earliest receive it matches, or waits. -/
def incoming (s : TagQueues) (rdesc : UcpRecvDesc) : Option UcpRequest × TagQueues :=
  match s.matchPosted rdesc.tag with
  | some p => (some p, { s with posted := s.posted.erase p })
  | none => (none, { s with unexp := s.unexp ++ [rdesc] })

/-- A receive is posted: it joins the tail with the next post number. -/
def post (s : TagQueues) (req : UcpRequest) : TagQueues :=
  { s with posted := s.posted ++ [{ req with sn := s.sn }], sn := s.sn + 1 }

/-- A probe: the earliest message that matches, taken away when `rem` is set. -/
def probe (s : TagQueues) (tag tagMask : UInt64) (rem : Bool) :
    Option UcpRecvDesc × TagQueues :=
  match s.matchUnexp tag tagMask with
  | some u => (some u, if rem then { s with unexp := s.unexp.erase u } else s)
  | none => (none, s)

/-- A receive call: once it passes its checks and has a request, it takes the earliest message
that matches. When there is none, the receive is posted, unless it must complete at once
(`UCP_OP_ATTR_FLAG_FORCE_IMM_CMPL`) or its datatype cannot be unpacked to. -/
def recv (s : TagQueues) (env : UcpTagRecvEnv) (tag tagMask : UInt64)
    (param : UcpRequestParam) : TagQueues :=
  if !env.checksPass then s
  else
    match ucpRequestGetParam env param with
    | none => s
    | some req =>
      match s.probe tag tagMask true with
      | (some _, s) => s
      | (none, s) =>
        if param.opAttrMask &&& ucpOpAttrFlagForceImmCmpl = 0 ∧ env.initUnpack = .ok then
          s.post (ucpTagRecvRequest env req tag tagMask)
        else s

/-- A posted receive is cancelled: it leaves the list if it is still there. -/
def remove (s : TagQueues) (req : UcpRequest) : Bool × TagQueues :=
  if req ∈ s.posted then (true, { s with posted := s.posted.erase req }) else (false, s)

end TagQueues

namespace TagQueues

/-- One event on the abstract lists. -/
def step (s : TagQueues) : TagEvent → TagObs × TagQueues
  | .recv env tag tagMask param => (.recv, s.recv env tag tagMask param)
  | .incoming rdesc => (s.incoming rdesc).map .incoming id
  | .probe tag tagMask rem => (s.probe tag tagMask rem).map .probe id
  | .remove req => (s.remove req).map .remove id

/-- A sequence of events: the answers and the lists after. -/
def run (s : TagQueues) : List TagEvent → List TagObs × TagQueues
  | [] => ([], s)
  | ev :: evs =>
    let (o, s) := s.step ev
    let (os, s) := s.run evs
    (o :: os, s)

/-- Posted receives are in the order of their post numbers, all below the count of posts, and
none is offloaded. -/
structure Ordered (s : TagQueues) : Prop where
  sorted : s.posted.Pairwise (·.sn < ·.sn)
  snBound : ∀ p ∈ s.posted, p.sn < s.sn
  notOffloaded : ∀ p ∈ s.posted, p.offloaded = false

lemma ordered_empty : empty.Ordered := ⟨List.Pairwise.nil, by simp [empty], by simp [empty]⟩

/-- The order does not look at the waiting messages. -/
lemma Ordered.withUnexp {s : TagQueues} (h : s.Ordered) (unexp : List UcpRecvDesc) :
    { s with unexp := unexp }.Ordered :=
  ⟨h.sorted, h.snBound, h.notOffloaded⟩

/-- Taking a receive out keeps the order. -/
lemma Ordered.erase {s : TagQueues} (h : s.Ordered) (p : UcpRequest) :
    { s with posted := s.posted.erase p }.Ordered where
  sorted := h.sorted.erase p
  snBound q hq := h.snBound q (List.mem_of_mem_erase hq)
  notOffloaded q hq := h.notOffloaded q (List.mem_of_mem_erase hq)

/-- Posting a receive that is not offloaded keeps the order: it has the largest number. -/
lemma Ordered.post {s : TagQueues} (h : s.Ordered) {req : UcpRequest}
    (hreq : req.offloaded = false) : (s.post req).Ordered where
  sorted := List.pairwise_append.mpr
    ⟨h.sorted, List.pairwise_singleton _ _, fun p hp q hq => by
      rw [List.mem_singleton.mp hq]
      exact h.snBound p hp⟩
  snBound p hp := by
    rcases List.mem_append.mp hp with hp | hp
    · exact Nat.lt_succ_of_lt (h.snBound p hp)
    · simp [List.mem_singleton.mp hp, TagQueues.post]
  notOffloaded p hp := by
    rcases List.mem_append.mp hp with hp | hp
    · exact h.notOffloaded p hp
    · simpa [List.mem_singleton.mp hp] using hreq

end TagQueues

end UcxProofs.TagMatch
