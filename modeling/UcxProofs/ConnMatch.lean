import UcxProofs.Hlist

/-!
Connection matching (`ucs/datastruct/conn_match.c`).

The context keeps one peer per address in a hash; a peer holds the next connection sequence
number to hand out and two detached-head lists, of expected and of unexpected connections.
`UcsConnMatchCtx` is the context with the hash read as a map from addresses, and
`UcsConnMatchOps` gives what `get_address` and `get_conn_sn` return for each element at the
moment: the caller may change them while an element is not queued, which the run models as a
`setElem` step.

`ConnMatchSpec` is what the context is for: per address a counter and two queues of elements,
`get_elem` taking the first element of the sequence number asked for, expected queue before
unexpected one. `ConnMatchRefine` proves that the context refines it.
-/

namespace UcxProofs.ConnMatch

open Function Hlist

/-- `ucs_conn_match_queue_type_t`; `any` is `UCS_CONN_MATCH_QUEUE_ANY`, which equals
`UCS_CONN_MATCH_QUEUE_LAST`, one past the peer's two queues. -/
inductive UcsConnMatchQueueType
  | exp
  | unexp
  | any
  deriving DecidableEq, Repr

/-- The `get_address` and `get_conn_sn` callbacks of `ucs_conn_match_ops_t`, as functions of
the element. -/
structure UcsConnMatchOps (A E : Type) where
  getAddress : E → A
  getConnSn : E → UInt64

/-- `ucs_conn_match_peer_t`; the address is the hash key. -/
structure UcsConnMatchPeer (E : Type) where
  connQ : UcsConnMatchQueueType → Option E
  nextConnSn : UInt64

/-- `ucs_conn_match_ctx_t`, with the links of all elements beside it. -/
structure UcsConnMatchCtx (A E : Type) where
  hash : A → Option (UcsConnMatchPeer E)
  links : UcsListLinks E
  maxConnSn : UInt64
  ops : UcsConnMatchOps A E

variable {A E : Type} [DecidableEq A] [DecidableEq E]

/-- `ucs_conn_match_init`; the elements' links hold whatever they held. -/
def ucsConnMatchInit (maxConnSn : UInt64) (ops : UcsConnMatchOps A E) (links : UcsListLinks E) :
    UcsConnMatchCtx A E :=
  ⟨fun _ => none, links, maxConnSn, ops⟩

/-- A peer from `ucs_calloc` whose queues `ucs_conn_match_get_conn` has initialised. -/
def ucsConnMatchPeerInit : UcsConnMatchPeer E := ⟨fun _ => none, 0⟩

/-- Storing through the peer pointer that the hash holds for `address`. -/
def setPeer (ctx : UcsConnMatchCtx A E) (address : A) (peer : UcsConnMatchPeer E) :
    UcsConnMatchCtx A E :=
  { ctx with hash := update ctx.hash address (some peer) }

/-- Storing the head `r.1` of a relinked list as queue `i` of the peer of `address`, with the
links `r.2`. -/
def setPeerQueue (ctx : UcsConnMatchCtx A E) (address : A) (peer : UcsConnMatchPeer E)
    (i : UcsConnMatchQueueType) (r : Option E × UcsListLinks E) : UcsConnMatchCtx A E :=
  { setPeer ctx address { peer with connQ := update peer.connQ i r.1 } with links := r.2 }

/-- `ucs_conn_match_get_conn`: the peer of `address`, put in the hash on first use. -/
def ucsConnMatchGetConn (ctx : UcsConnMatchCtx A E) (address : A) :
    UcsConnMatchCtx A E × UcsConnMatchPeer E :=
  match ctx.hash address with
  | some peer => (ctx, peer)
  | none => (setPeer ctx address ucsConnMatchPeerInit, ucsConnMatchPeerInit)

/-- `ucs_conn_match_get_next_sn`. -/
def ucsConnMatchGetNextSn (ctx : UcsConnMatchCtx A E) (address : A) :
    UcsConnMatchCtx A E × UInt64 :=
  let (ctx, peer) := ucsConnMatchGetConn ctx address
  if peer.nextConnSn ≠ ctx.maxConnSn then
    (setPeer ctx address { peer with nextConnSn := peer.nextConnSn + 1 }, peer.nextConnSn)
  else (ctx, peer.nextConnSn)

/-- `ucs_conn_match_insert`. -/
def ucsConnMatchInsert (ctx : UcsConnMatchCtx A E) (address : A) (connSn : UInt64)
    (connMatch : E) (connQueueType : UcsConnMatchQueueType) : UcsConnMatchCtx A E × ℕ :=
  let (ctx, peer) := ucsConnMatchGetConn ctx address
  if connSn = ctx.maxConnSn then (ctx, 0)
  else
    (setPeerQueue ctx address peer connQueueType
      (ucsHlistAddTail (peer.connQ connQueueType) ctx.links connMatch), 1)

/-- The queues from `start_q` to `end_q`. -/
def searchedQueues (connQueueType : UcsConnMatchQueueType) : List UcsConnMatchQueueType :=
  if connQueueType = .any then [.exp, .unexp] else [connQueueType]

/-- The loop of `ucs_conn_match_get_elem` over the queues `is` of `peer`. -/
def getElemLoop (fuel : ℕ) (ctx : UcsConnMatchCtx A E) (address : A) (peer : UcsConnMatchPeer E)
    (connSn : UInt64) (deleteFromQueue : Bool) :
    List UcsConnMatchQueueType → UcsConnMatchCtx A E × Option E
  | [] => (ctx, none)
  | i :: is =>
    match ucsHlistFind (peer.connQ i) ctx.links (fun elem => ctx.ops.getConnSn elem == connSn)
        fuel with
    | none => getElemLoop fuel ctx address peer connSn deleteFromQueue is
    | some elem =>
      if deleteFromQueue then
        (setPeerQueue ctx address peer i (ucsHlistDel (peer.connQ i) ctx.links elem), some elem)
      else (ctx, some elem)

/-- `ucs_conn_match_get_elem`; the temporary peer it allocates for the lookup is freed
before the stored one is used, so the lookup reads the hash only. -/
def ucsConnMatchGetElem (fuel : ℕ) (ctx : UcsConnMatchCtx A E) (address : A) (connSn : UInt64)
    (connQueueType : UcsConnMatchQueueType) (deleteFromQueue : Bool) :
    UcsConnMatchCtx A E × Option E :=
  if connSn = ctx.maxConnSn then (ctx, none)
  else
    match ctx.hash address with
    | none => (ctx, none)
    | some peer =>
      getElemLoop fuel ctx address peer connSn deleteFromQueue (searchedQueues connQueueType)

/-- `ucs_conn_match_remove_elem`; `none` is the `ucs_fatal` of an address missing from the
hash. The `ucs_assert` on the sequence number is not part of a release build. -/
def ucsConnMatchRemoveElem (ctx : UcsConnMatchCtx A E) (elem : E)
    (connQueueType : UcsConnMatchQueueType) : Option (UcsConnMatchCtx A E) :=
  let address := ctx.ops.getAddress elem
  match ctx.hash address with
  | none => none
  | some peer =>
    some (setPeerQueue ctx address peer connQueueType
      (ucsHlistDel (peer.connQ connQueueType) ctx.links elem))

/-! ### Runs -/

/-- The four operations, and the caller rewriting what the callbacks read of an element. -/
inductive ConnMatchOp (A E : Type)
  | getNextSn (address : A)
  | insert (address : A) (connSn : UInt64) (elem : E) (queueType : UcsConnMatchQueueType)
  | getElem (address : A) (connSn : UInt64) (queueType : UcsConnMatchQueueType)
      (deleteFromQueue : Bool)
  | removeElem (elem : E) (queueType : UcsConnMatchQueueType)
  | setElem (elem : E) (address : A) (connSn : UInt64)

inductive ConnMatchOut (E : Type)
  | sn (connSn : UInt64)
  | inserted (ret : ℕ)
  | elem (elem : Option E)
  | done
  deriving DecidableEq

/-- Whether the operation is `get_next_sn` of `address`. -/
def ConnMatchOp.isGetNextSn (address : A) : ConnMatchOp A E → Bool
  | .getNextSn a => a == address
  | _ => false

/-- The callbacks after the caller set `elem`'s address and sequence number. -/
def UcsConnMatchOps.set (ops : UcsConnMatchOps A E) (elem : E) (address : A) (connSn : UInt64) :
    UcsConnMatchOps A E :=
  ⟨update ops.getAddress elem address, update ops.getConnSn elem connSn⟩

def ucsConnMatchStep (fuel : ℕ) (ctx : UcsConnMatchCtx A E) :
    ConnMatchOp A E → Option (UcsConnMatchCtx A E × ConnMatchOut E)
  | .getNextSn address =>
    let r := ucsConnMatchGetNextSn ctx address
    some (r.1, .sn r.2)
  | .insert address connSn elem q =>
    let r := ucsConnMatchInsert ctx address connSn elem q
    some (r.1, .inserted r.2)
  | .getElem address connSn q deleteFromQueue =>
    let r := ucsConnMatchGetElem fuel ctx address connSn q deleteFromQueue
    some (r.1, .elem r.2)
  | .removeElem elem q => (ucsConnMatchRemoveElem ctx elem q).map (·, .done)
  | .setElem elem address connSn => some ({ ctx with ops := ctx.ops.set elem address connSn }, .done)

def ucsConnMatchRun (fuel : ℕ) :
    UcsConnMatchCtx A E → List (ConnMatchOp A E) → Option (UcsConnMatchCtx A E × List (ConnMatchOut E))
  | ctx, [] => some (ctx, [])
  | ctx, op :: ops =>
    match ucsConnMatchStep fuel ctx op with
    | none => none
    | some (ctx', out) => (ucsConnMatchRun fuel ctx' ops).map fun r => (r.1, out :: r.2)

/-! ### Peers -/

/-- The peer stored for `address`, or the one `ucs_conn_match_get_conn` would store. -/
def peerOf (ctx : UcsConnMatchCtx A E) (address : A) : UcsConnMatchPeer E :=
  (ctx.hash address).getD ucsConnMatchPeerInit

/-- Queue `i` of `address`; NULL without a peer. -/
def peerHead (ctx : UcsConnMatchCtx A E) (address : A) (i : UcsConnMatchQueueType) : Option E :=
  (ctx.hash address).bind (·.connQ i)

/-- The next sequence number of `address`; zero without a peer. -/
def peerNextSn (ctx : UcsConnMatchCtx A E) (address : A) : UInt64 :=
  ((ctx.hash address).map (·.nextConnSn)).getD 0

omit [DecidableEq E] in
@[simp] lemma setPeer_links (ctx : UcsConnMatchCtx A E) (address : A) (peer : UcsConnMatchPeer E) :
    (setPeer ctx address peer).links = ctx.links := rfl

omit [DecidableEq E] in
@[simp] lemma setPeer_maxConnSn (ctx : UcsConnMatchCtx A E) (address : A)
    (peer : UcsConnMatchPeer E) : (setPeer ctx address peer).maxConnSn = ctx.maxConnSn := rfl

omit [DecidableEq E] in
@[simp] lemma setPeer_ops (ctx : UcsConnMatchCtx A E) (address : A) (peer : UcsConnMatchPeer E) :
    (setPeer ctx address peer).ops = ctx.ops := rfl

lemma ne_any_of_mem_searchedQueues {q i : UcsConnMatchQueueType} (h : i ∈ searchedQueues q) :
    i ≠ .any := by
  unfold searchedQueues at h
  split_ifs at h with hq
  · simp at h
    rcases h with rfl | rfl <;> simp
  · rw [List.mem_singleton] at h
    rwa [h]

omit [DecidableEq E] in
/-- `ucs_conn_match_get_conn` acts as if it stored the peer it returns. -/
theorem ucsConnMatchGetConn_eq (ctx : UcsConnMatchCtx A E) (address : A) :
    ucsConnMatchGetConn ctx address = (setPeer ctx address (peerOf ctx address), peerOf ctx address) := by
  unfold ucsConnMatchGetConn peerOf
  rcases h : ctx.hash address with _ | peer
  · rfl
  · simp only [Option.getD_some, setPeer, Prod.mk.injEq, and_true]
    rw [update_eq_self_iff.2 h.symm]

omit [DecidableEq A] [DecidableEq E] in
@[simp] lemma peerOf_connQ (ctx : UcsConnMatchCtx A E) (address : A) (i : UcsConnMatchQueueType) :
    (peerOf ctx address).connQ i = peerHead ctx address i := by
  unfold peerOf peerHead
  cases ctx.hash address <;> rfl

omit [DecidableEq A] [DecidableEq E] in
@[simp] lemma peerOf_nextConnSn (ctx : UcsConnMatchCtx A E) (address : A) :
    (peerOf ctx address).nextConnSn = peerNextSn ctx address := by
  unfold peerOf peerNextSn
  cases ctx.hash address <;> rfl

omit [DecidableEq A] [DecidableEq E] in
lemma peerOf_of_hash {ctx : UcsConnMatchCtx A E} {address : A} {peer : UcsConnMatchPeer E}
    (h : ctx.hash address = some peer) : peerOf ctx address = peer := by
  simp [peerOf, h]

omit [DecidableEq E] in
@[simp] lemma peerHead_setPeer (ctx : UcsConnMatchCtx A E) (address a : A)
    (peer : UcsConnMatchPeer E) (i : UcsConnMatchQueueType) :
    peerHead (setPeer ctx address peer) a i = if a = address then peer.connQ i else peerHead ctx a i := by
  by_cases h : a = address
  · subst h
    simp [peerHead, setPeer]
  · simp [peerHead, setPeer, h]

omit [DecidableEq E] in
@[simp] lemma peerNextSn_setPeer (ctx : UcsConnMatchCtx A E) (address a : A)
    (peer : UcsConnMatchPeer E) :
    peerNextSn (setPeer ctx address peer) a = if a = address then peer.nextConnSn else peerNextSn ctx a := by
  by_cases h : a = address
  · subst h
    simp [peerNextSn, setPeer]
  · simp [peerNextSn, setPeer, h]

omit [DecidableEq E] in
@[simp] lemma setPeer_setPeer (ctx : UcsConnMatchCtx A E) (address : A)
    (peer peer' : UcsConnMatchPeer E) :
    setPeer (setPeer ctx address peer) address peer' = setPeer ctx address peer' := by
  simp [setPeer]

omit [DecidableEq E] in
@[simp] lemma peerHead_setPeerQueue (ctx : UcsConnMatchCtx A E) (address a : A)
    (peer : UcsConnMatchPeer E) (i j : UcsConnMatchQueueType) (r : Option E × UcsListLinks E) :
    peerHead (setPeerQueue ctx address peer i r) a j =
      if a = address then update peer.connQ i r.1 j else peerHead ctx a j :=
  peerHead_setPeer ctx address a _ j

omit [DecidableEq E] in
@[simp] lemma peerNextSn_setPeerQueue (ctx : UcsConnMatchCtx A E) (address a : A)
    (peer : UcsConnMatchPeer E) (i : UcsConnMatchQueueType) (r : Option E × UcsListLinks E) :
    peerNextSn (setPeerQueue ctx address peer i r) a =
      if a = address then peer.nextConnSn else peerNextSn ctx a :=
  peerNextSn_setPeer ctx address a _

omit [DecidableEq E] in
@[simp] lemma setPeerQueue_links (ctx : UcsConnMatchCtx A E) (address : A)
    (peer : UcsConnMatchPeer E) (i : UcsConnMatchQueueType) (r : Option E × UcsListLinks E) :
    (setPeerQueue ctx address peer i r).links = r.2 := rfl

omit [DecidableEq E] in
@[simp] lemma setPeerQueue_maxConnSn (ctx : UcsConnMatchCtx A E) (address : A)
    (peer : UcsConnMatchPeer E) (i : UcsConnMatchQueueType) (r : Option E × UcsListLinks E) :
    (setPeerQueue ctx address peer i r).maxConnSn = ctx.maxConnSn := rfl

omit [DecidableEq E] in
@[simp] lemma setPeerQueue_ops (ctx : UcsConnMatchCtx A E) (address : A)
    (peer : UcsConnMatchPeer E) (i : UcsConnMatchQueueType) (r : Option E × UcsListLinks E) :
    (setPeerQueue ctx address peer i r).ops = ctx.ops := rfl

omit [DecidableEq E] in
@[simp] lemma setPeerQueue_setPeer (ctx : UcsConnMatchCtx A E) (address : A)
    (peer peer' : UcsConnMatchPeer E) (i : UcsConnMatchQueueType) (r : Option E × UcsListLinks E) :
    setPeerQueue (setPeer ctx address peer) address peer' i r = setPeerQueue ctx address peer' i r := by
  simp [setPeerQueue, setPeer]

omit [DecidableEq E] in
theorem ucsConnMatchGetNextSn_eq (ctx : UcsConnMatchCtx A E) (address : A) :
    ucsConnMatchGetNextSn ctx address =
      if peerNextSn ctx address = ctx.maxConnSn then
        (setPeer ctx address (peerOf ctx address), peerNextSn ctx address)
      else
        (setPeer ctx address { peerOf ctx address with nextConnSn := peerNextSn ctx address + 1 },
          peerNextSn ctx address) := by
  unfold ucsConnMatchGetNextSn
  rw [ucsConnMatchGetConn_eq]
  by_cases h : peerNextSn ctx address = ctx.maxConnSn <;> simp [h]

theorem ucsConnMatchInsert_eq (ctx : UcsConnMatchCtx A E) (address : A) (connSn : UInt64)
    (connMatch : E) (q : UcsConnMatchQueueType) :
    ucsConnMatchInsert ctx address connSn connMatch q =
      if connSn = ctx.maxConnSn then (setPeer ctx address (peerOf ctx address), 0)
      else (setPeerQueue ctx address (peerOf ctx address) q
        (ucsHlistAddTail (peerHead ctx address q) ctx.links connMatch), 1) := by
  unfold ucsConnMatchInsert
  rw [ucsConnMatchGetConn_eq]
  by_cases h : connSn = ctx.maxConnSn <;> simp [h]

/-! ### The abstract model -/

/-- Per address a sequence number counter and the queue of each type. -/
structure ConnMatchSpec (A E : Type) where
  maxConnSn : UInt64
  ops : UcsConnMatchOps A E
  nextSn : A → UInt64
  queues : A → UcsConnMatchQueueType → List E

namespace ConnMatchSpec

variable (s : ConnMatchSpec A E)

def init (maxConnSn : UInt64) (ops : UcsConnMatchOps A E) : ConnMatchSpec A E :=
  ⟨maxConnSn, ops, fun _ => 0, fun _ _ => []⟩

def setQueue (address : A) (i : UcsConnMatchQueueType) (q : List E) : ConnMatchSpec A E :=
  { s with queues := update s.queues address (update (s.queues address) i q) }

/-- The number handed out is the counter, which counts up to `max_conn_sn` and stays there. -/
def getNextSn (address : A) : ConnMatchSpec A E × UInt64 :=
  (if s.nextSn address = s.maxConnSn then s
    else { s with nextSn := update s.nextSn address (s.nextSn address + 1) }, s.nextSn address)

/-- An element of any sequence number but the maximal one goes to the end of its queue. -/
def insert (address : A) (connSn : UInt64) (elem : E) (i : UcsConnMatchQueueType) :
    ConnMatchSpec A E × ℕ :=
  if connSn = s.maxConnSn then (s, 0) else (s.setQueue address i (s.queues address i ++ [elem]), 1)

/-- The queued elements of `address` in the order `get_elem` considers them, each with its
queue. -/
def candidates (address : A) (connQueueType : UcsConnMatchQueueType) :
    List (UcsConnMatchQueueType × E) :=
  (searchedQueues connQueueType).flatMap fun i => (s.queues address i).map (i, ·)

/-- The first candidate of sequence number `connSn`. -/
def found (address : A) (connSn : UInt64) (connQueueType : UcsConnMatchQueueType) :
    Option (UcsConnMatchQueueType × E) :=
  (s.candidates address connQueueType).find? fun x => s.ops.getConnSn x.2 == connSn

/-- What taking the element found does to the queues. -/
def take (address : A) (deleteFromQueue : Bool) : Option (UcsConnMatchQueueType × E) → ConnMatchSpec A E
  | some (i, elem) =>
    if deleteFromQueue then s.setQueue address i ((s.queues address i).erase elem) else s
  | none => s

def getElem (address : A) (connSn : UInt64) (connQueueType : UcsConnMatchQueueType)
    (deleteFromQueue : Bool) : ConnMatchSpec A E × Option E :=
  if connSn = s.maxConnSn then (s, none)
  else (s.take address deleteFromQueue (s.found address connSn connQueueType),
    (s.found address connSn connQueueType).map Prod.snd)

def removeElem (elem : E) (i : UcsConnMatchQueueType) : ConnMatchSpec A E :=
  s.setQueue (s.ops.getAddress elem) i ((s.queues (s.ops.getAddress elem) i).erase elem)

def step : ConnMatchOp A E → ConnMatchSpec A E × ConnMatchOut E
  | .getNextSn address => ((s.getNextSn address).1, .sn (s.getNextSn address).2)
  | .insert address connSn elem i =>
    ((s.insert address connSn elem i).1, .inserted (s.insert address connSn elem i).2)
  | .getElem address connSn q deleteFromQueue =>
    ((s.getElem address connSn q deleteFromQueue).1, .elem (s.getElem address connSn q deleteFromQueue).2)
  | .removeElem elem i => (s.removeElem elem i, .done)
  | .setElem elem address connSn => ({ s with ops := s.ops.set elem address connSn }, .done)

def run : ConnMatchSpec A E → List (ConnMatchOp A E) → ConnMatchSpec A E × List (ConnMatchOut E)
  | s, [] => (s, [])
  | s, op :: ops => ((run (s.step op).1 ops).1, (s.step op).2 :: (run (s.step op).1 ops).2)

/-- `elem` is in some queue. -/
def Queued (elem : E) : Prop := ∃ address i, elem ∈ s.queues address i

/-- What the callers guarantee: an element is queued at most once, into one of the two
queues; it is removed from the queue it is in; and what the callbacks read of it changes only
while it is not queued. -/
def Allowed : ConnMatchOp A E → Prop
  | .getNextSn _ => True
  | .insert _ connSn elem i => connSn ≠ s.maxConnSn → i ≠ .any ∧ ¬ s.Queued elem
  | .getElem .. => True
  | .removeElem elem i => i ≠ .any ∧ elem ∈ s.queues (s.ops.getAddress elem) i
  | .setElem elem _ _ => ¬ s.Queued elem

def AllowedRun : ConnMatchSpec A E → List (ConnMatchOp A E) → Prop
  | _, [] => True
  | s, op :: ops => s.Allowed op ∧ AllowedRun (s.step op).1 ops

end ConnMatchSpec

/-! ### The model's invariant and counters -/

namespace ConnMatchSpec

variable {s : ConnMatchSpec A E} {address : A} {i : UcsConnMatchQueueType}

omit [DecidableEq E] in
@[simp] lemma setQueue_queues (q : List E) (a : A) (j : UcsConnMatchQueueType) :
    (s.setQueue address i q).queues a j = if a = address ∧ j = i then q else s.queues a j := by
  by_cases ha : a = address
  · subst ha
    by_cases hj : j = i
    · subst hj
      simp [setQueue]
    · simp [setQueue, hj]
  · simp [setQueue, ha]

omit [DecidableEq E] in
@[simp] lemma setQueue_nextSn (q : List E) : (s.setQueue address i q).nextSn = s.nextSn := rfl
omit [DecidableEq E] in
@[simp] lemma setQueue_maxConnSn (q : List E) :
    (s.setQueue address i q).maxConnSn = s.maxConnSn := rfl
omit [DecidableEq E] in
@[simp] lemma setQueue_ops (q : List E) : (s.setQueue address i q).ops = s.ops := rfl

/-- No element is in two queues, and nothing is ever in the queue `any` names. -/
structure Inv (s : ConnMatchSpec A E) : Prop where
  any : ∀ address, s.queues address .any = []
  disjoint : ∀ elem a j a' j', elem ∈ s.queues a j → elem ∈ s.queues a' j' → a = a' ∧ j = j'

omit [DecidableEq E] in
theorem Inv.setQueue_sublist (h : s.Inv) {q : List E} (hq : q.Sublist (s.queues address i)) :
    (s.setQueue address i q).Inv := by
  -- every queue of the new state is a sublist of the same queue before
  have hsub : ∀ a j, ((s.setQueue address i q).queues a j).Sublist (s.queues a j) := by
    intro a j
    rw [setQueue_queues]
    split_ifs with hc
    · rw [hc.1, hc.2]
      exact hq
    · exact List.Sublist.refl _
  refine ⟨fun a => List.eq_nil_of_sublist_nil (h.any a ▸ hsub a .any), ?_⟩
  intro elem a j a' j' h₁ h₂
  exact h.disjoint elem a j a' j' ((hsub a j).subset h₁) ((hsub a' j').subset h₂)

omit [DecidableEq E] in
theorem Inv.setQueue_append (h : s.Inv) (hi : i ≠ .any) {elem : E} (he : ¬ s.Queued elem) :
    (s.setQueue address i (s.queues address i ++ [elem])).Inv := by
  have hmem : ∀ x a j, x ∈ (s.setQueue address i (s.queues address i ++ [elem])).queues a j →
      x ∈ s.queues a j ∨ (x = elem ∧ a = address ∧ j = i) := by
    intro x a j hx
    rw [setQueue_queues] at hx
    split_ifs at hx with hc
    · rw [hc.1, hc.2]
      simpa using hx
    · exact .inl hx
  refine ⟨fun a => ?_, ?_⟩
  · rw [setQueue_queues, if_neg (fun hc => hi hc.2.symm)]
    exact h.any a
  · intro x a j a' j' h₁ h₂
    rcases hmem x a j h₁ with h₁ | ⟨hx, ha, hj⟩ <;>
      rcases hmem x a' j' h₂ with h₂ | ⟨hx', ha', hj'⟩
    · exact h.disjoint x a j a' j' h₁ h₂
    · exact absurd ⟨a, j, hx' ▸ h₁⟩ he
    · exact absurd ⟨a', j', hx ▸ h₂⟩ he
    · exact ⟨ha.trans ha'.symm, hj.trans hj'.symm⟩

lemma take_eq (address : A) (deleteFromQueue : Bool) (found : Option (UcsConnMatchQueueType × E)) :
    s.take address deleteFromQueue found = s ∨
      ∃ j elem, s.take address deleteFromQueue found =
        s.setQueue address j ((s.queues address j).erase elem) := by
  rcases found with _ | ⟨j, elem⟩
  · exact .inl rfl
  · cases deleteFromQueue
    · exact .inl rfl
    · exact .inr ⟨j, elem, rfl⟩

theorem Inv.step (h : s.Inv) {op : ConnMatchOp A E} (hop : s.Allowed op) : (s.step op).1.Inv := by
  cases op with
  | getNextSn a =>
    show (s.getNextSn a).1.Inv
    unfold getNextSn
    split_ifs
    · exact h
    · exact ⟨h.any, h.disjoint⟩
  | insert a connSn elem j =>
    show (s.insert a connSn elem j).1.Inv
    unfold insert
    split_ifs with hsn
    · exact h
    · exact h.setQueue_append (hop hsn).1 (hop hsn).2
  | getElem a connSn q deleteFromQueue =>
    show (s.getElem a connSn q deleteFromQueue).1.Inv
    unfold getElem
    split_ifs
    · exact h
    · rcases s.take_eq a deleteFromQueue (s.found a connSn q) with he | ⟨j, elem, he⟩
      · rw [he]
        exact h
      · rw [he]
        exact h.setQueue_sublist List.erase_sublist
  | removeElem elem j => exact h.setQueue_sublist List.erase_sublist
  | setElem elem a connSn => exact ⟨h.any, h.disjoint⟩

omit [DecidableEq E] in
lemma length_setQueue_le {n : ℕ} (hn : ∀ a j, (s.queues a j).length ≤ n) {q : List E}
    (hq : q.length ≤ n + 1) (a : A) (j : UcsConnMatchQueueType) :
    ((s.setQueue address i q).queues a j).length ≤ n + 1 := by
  rw [setQueue_queues]
  split_ifs
  · exact hq
  · exact (hn a j).trans (Nat.le_succ n)

/-- A step puts at most one more element in any queue. -/
theorem length_step {n : ℕ} (hn : ∀ a j, (s.queues a j).length ≤ n) (op : ConnMatchOp A E)
    (a : A) (j : UcsConnMatchQueueType) : ((s.step op).1.queues a j).length ≤ n + 1 := by
  have hsucc := (hn a j).trans (Nat.le_succ n)
  have herase : ∀ a' j' elem, ((s.queues a' j').erase elem).length ≤ n + 1 := fun a' j' _ =>
    List.length_erase_le.trans ((hn a' j').trans (Nat.le_succ n))
  cases op with
  | getNextSn a' =>
    show ((s.getNextSn a').1.queues a j).length ≤ n + 1
    unfold getNextSn
    split_ifs <;> exact hsucc
  | insert a' connSn elem j' =>
    show ((s.insert a' connSn elem j').1.queues a j).length ≤ n + 1
    unfold insert
    split_ifs
    · exact hsucc
    · exact length_setQueue_le hn (by simpa using hn a' j') a j
  | getElem a' connSn q deleteFromQueue =>
    show ((s.getElem a' connSn q deleteFromQueue).1.queues a j).length ≤ n + 1
    unfold getElem
    split_ifs
    · exact hsucc
    · rcases s.take_eq a' deleteFromQueue (s.found a' connSn q) with he | ⟨j', elem, he⟩
      · rw [he]
        exact hsucc
      · rw [he]
        exact length_setQueue_le hn (herase a' j' elem) a j
  | removeElem elem j' => exact length_setQueue_le hn (herase _ j' elem) a j
  | setElem elem a' connSn => exact hsucc

/-! The sequence numbers an address is handed. -/

@[simp] lemma step_maxConnSn (op : ConnMatchOp A E) : (s.step op).1.maxConnSn = s.maxConnSn := by
  cases op with
  | getNextSn a =>
    show (s.getNextSn a).1.maxConnSn = _
    unfold getNextSn
    split_ifs <;> rfl
  | insert a connSn elem j =>
    show (s.insert a connSn elem j).1.maxConnSn = _
    unfold insert
    split_ifs <;> rfl
  | getElem a connSn q deleteFromQueue =>
    show (s.getElem a connSn q deleteFromQueue).1.maxConnSn = _
    unfold getElem
    split_ifs
    · rfl
    · rcases s.take_eq a deleteFromQueue (s.found a connSn q) with he | ⟨j, elem, he⟩ <;> simp [he]
  | removeElem elem j => rfl
  | setElem elem a connSn => rfl

lemma step_nextSn_of_isGetNextSn_eq_false {op : ConnMatchOp A E}
    (hop : op.isGetNextSn address = false) : (s.step op).1.nextSn address = s.nextSn address := by
  cases op with
  | getNextSn a =>
    have ha : a ≠ address := by simpa [ConnMatchOp.isGetNextSn] using hop
    show (s.getNextSn a).1.nextSn address = _
    unfold getNextSn
    split_ifs
    · rfl
    · exact update_of_ne (Ne.symm ha) ..
  | insert a connSn elem j =>
    show (s.insert a connSn elem j).1.nextSn address = _
    unfold insert
    split_ifs <;> rfl
  | getElem a connSn q deleteFromQueue =>
    show (s.getElem a connSn q deleteFromQueue).1.nextSn address = _
    unfold getElem
    split_ifs
    · rfl
    · rcases s.take_eq a deleteFromQueue (s.found a connSn q) with he | ⟨j, elem, he⟩ <;> simp [he]
  | removeElem elem j => rfl
  | setElem elem a connSn => rfl

omit [DecidableEq E] in
/-- One call: the counter `n` is handed out and moves on unless it is at the maximum. -/
lemma getNextSn_nextSn (h : s.nextSn address ≤ s.maxConnSn) :
    (s.getNextSn address).1.maxConnSn = s.maxConnSn ∧
      (s.getNextSn address).1.nextSn address ≤ s.maxConnSn ∧
      ∀ j : ℕ, min (((s.getNextSn address).1.nextSn address).toNat + j) s.maxConnSn.toNat =
        min ((s.nextSn address).toNat + (j + 1)) s.maxConnSn.toNat := by
  unfold getNextSn
  split_ifs with hmax
  · refine ⟨rfl, h, fun j => ?_⟩
    rw [hmax]
    omega
  · -- below the maximum the increment does not wrap
    have hlt : (s.nextSn address).toNat < s.maxConnSn.toNat := by
      have hle := UInt64.le_iff_toNat_le.1 h
      have hne : (s.nextSn address).toNat ≠ s.maxConnSn.toNat := fun he =>
        hmax (UInt64.toNat_inj.1 he)
      omega
    have hsucc : (s.nextSn address + 1).toNat = (s.nextSn address).toNat + 1 := by
      rw [UInt64.toNat_add, UInt64.toNat_one]
      exact Nat.mod_eq_of_lt (by have := UInt64.toNat_lt s.maxConnSn; omega)
    refine ⟨rfl, ?_, fun j => ?_⟩
    · simp only [update_self]
      exact UInt64.le_iff_toNat_le.2 (by omega)
    · simp only [update_self, hsucc]
      omega

/-- From a counter `n` at most `max_conn_sn`, the calls of `get_next_sn` for one address hand
out `n`, `n + 1`, … up to `max_conn_sn`, and `max_conn_sn` from then on, whatever else runs
in between. -/
theorem run_getNextSn (address : A) :
    ∀ (s : ConnMatchSpec A E) (ops : List (ConnMatchOp A E)), s.nextSn address ≤ s.maxConnSn →
      ((ops.zip (s.run ops).2).filter fun x => x.1.isGetNextSn address).map Prod.snd =
        (List.range (ops.countP (·.isGetNextSn address))).map fun j =>
          ConnMatchOut.sn (UInt64.ofNat (min ((s.nextSn address).toNat + j) s.maxConnSn.toNat))
  | s, [], _ => rfl
  | s, op :: ops, h => by
    cases hop : op.isGetNextSn address with
    | false =>
      have ih := run_getNextSn address (s.step op).1 ops
        (by rw [step_nextSn_of_isGetNextSn_eq_false hop, step_maxConnSn]; exact h)
      rw [step_nextSn_of_isGetNextSn_eq_false hop, step_maxConnSn] at ih
      simp [run, hop, ih]
    | true =>
      -- the operation is `get_next_sn` of `address` itself
      obtain rfl : op = .getNextSn address := by
        cases op <;> simp_all [ConnMatchOp.isGetNextSn]
      obtain ⟨hmax, hle, hshift⟩ := getNextSn_nextSn h
      have ih := run_getNextSn address (s.getNextSn address).1 ops (hmax ▸ hle)
      rw [hmax] at ih
      simp only [run, step, List.zip_cons_cons, List.filter_cons, hop, if_true, List.map_cons, ih,
        List.countP_cons, if_true, List.range_succ_eq_map, List.map_map]
      refine congrArg₂ _ ?_ (List.map_congr_left fun j _ => by simp [hshift j])
      simp [getNextSn, Nat.min_eq_left (UInt64.le_iff_toNat_le.1 h)]

end ConnMatchSpec

end UcxProofs.ConnMatch
