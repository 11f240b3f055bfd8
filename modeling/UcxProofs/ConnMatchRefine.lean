import UcxProofs.ConnMatch

/-!
The connection matching context refines `ConnMatchSpec`.

`Represents ctx s` reads the model off the context: the peer of an address holds the model's
counter and, for each of the two queue types, a detached-head list holding the model's queue;
an address without a peer stands for a zero counter and empty queues. Each operation keeps
the representation and returns what the model returns (`Represents.getNextSn`, `.insert`,
`.getElem`, `.removeElem`); the lists of all peers share the elements' links, so each
operation that relinks one list also shows the others untouched, from the model's invariant
that no element is in two queues (`Represents.setQueue`). `Represents.run` carries this over
a whole run, with a walk bound for `ucs_hlist_for_each` no smaller than the run is long.
-/

namespace UcxProofs.ConnMatch

open Function Hlist ConnMatchSpec

variable {A E : Type} [DecidableEq A] [DecidableEq E]

structure Represents (ctx : UcsConnMatchCtx A E) (s : ConnMatchSpec A E) : Prop where
  maxConnSn : ctx.maxConnSn = s.maxConnSn
  ops : ctx.ops = s.ops
  nextSn : ∀ address, peerNextSn ctx address = s.nextSn address
  queues : ∀ address i, i ≠ .any →
    HlistRepr (peerHead ctx address i) ctx.links (s.queues address i)

variable {ctx : UcsConnMatchCtx A E} {s : ConnMatchSpec A E} {address : A}

omit [DecidableEq A] [DecidableEq E] in
theorem represents_init (maxConnSn : UInt64) (ops : UcsConnMatchOps A E) (links : UcsListLinks E) :
    Represents (ucsConnMatchInit maxConnSn ops links) (ConnMatchSpec.init maxConnSn ops) where
  maxConnSn := rfl
  ops := rfl
  nextSn _ := rfl
  queues _ _ _ := hlistRepr_none.2 rfl

omit [DecidableEq A] [DecidableEq E] in
theorem inv_init (maxConnSn : UInt64) (ops : UcsConnMatchOps A E) :
    (ConnMatchSpec.init maxConnSn ops).Inv where
  any _ := rfl
  disjoint _ _ _ _ _ h := absurd h List.not_mem_nil

omit [DecidableEq E] in
/-- Storing a peer with the same lists sets the model's counter to the peer's. -/
theorem Represents.storePeer (h : Represents ctx s) {peer : UcsConnMatchPeer E}
    (hq : ∀ i, i ≠ .any → peer.connQ i = peerHead ctx address i) :
    Represents (setPeer ctx address peer)
      { s with nextSn := update s.nextSn address peer.nextConnSn } where
  maxConnSn := h.maxConnSn
  ops := h.ops
  nextSn a := by
    rw [peerNextSn_setPeer]
    split_ifs with ha
    · subst ha
      simp
    · simp [update_of_ne ha, h.nextSn a]
  queues a i hi := by
    rw [peerHead_setPeer]
    split_ifs with ha
    · subst ha
      rw [hq i hi]
      exact h.queues a i hi
    · exact h.queues a i hi

omit [DecidableEq E] in
/-- `ucs_conn_match_get_conn` changes nothing the model sees. -/
theorem Represents.getConn (h : Represents ctx s) (address : A) :
    Represents (ucsConnMatchGetConn ctx address).1 s := by
  have hs : { s with nextSn := update s.nextSn address (peerOf ctx address).nextConnSn } = s := by
    rw [peerOf_nextConnSn, h.nextSn, update_eq_self]
  rw [ucsConnMatchGetConn_eq]
  simpa only [hs] using h.storePeer (fun i _ => peerOf_connQ ctx address i)

omit [DecidableEq E] in
/-- Relinking one list of one peer: if the new list holds `q` and the links that changed are
those of the old list's elements and of `q`'s, the context represents the model with that
queue set to `q`. The other lists keep their links because the model's invariant, before and
after, keeps their elements out of both. -/
theorem Represents.setQueue (h : Represents ctx s) (hinv : s.Inv) {i : UcsConnMatchQueueType}
    {q : List E} (hinv' : (s.setQueue address i q).Inv) {r : Option E × UcsListLinks E}
    (hq : HlistRepr r.1 r.2 q)
    (hlinks : ∀ x, x ∉ s.queues address i → x ∉ q →
      r.2.next x = ctx.links.next x ∧ r.2.prev x = ctx.links.prev x) :
    Represents (setPeerQueue ctx address (peerOf ctx address) i r) (s.setQueue address i q) where
  maxConnSn := h.maxConnSn
  ops := h.ops
  nextSn a := by
    rw [peerNextSn_setPeerQueue, setQueue_nextSn]
    split_ifs with ha
    · subst ha
      exact (peerOf_nextConnSn ctx a).trans (h.nextSn a)
    · exact h.nextSn a
  queues a j hj := by
    rw [peerHead_setPeerQueue, setQueue_queues, setPeerQueue_links]
    by_cases hc : a = address ∧ j = i
    · obtain ⟨rfl, rfl⟩ := hc
      simpa using hq
    · -- another list: its head is as before, and none of its elements was relinked
      have hhead : (if a = address then update (peerOf ctx address).connQ i r.1 j
          else peerHead ctx a j) = peerHead ctx a j := by
        split_ifs with ha
        · subst ha
          rw [update_of_ne (fun hji => hc ⟨rfl, hji⟩), peerOf_connQ]
        · rfl
      rw [hhead, if_neg hc]
      refine (h.queues a j hj).congr fun x hx => hlinks x ?_ ?_
      · exact fun hx' => hc (hinv.disjoint x a j address i hx hx')
      · intro hx'
        have h₁ : x ∈ (s.setQueue address i q).queues a j := by
          rw [setQueue_queues, if_neg hc]
          exact hx
        have h₂ : x ∈ (s.setQueue address i q).queues address i := by
          simpa using hx'
        exact hc (hinv'.disjoint x a j address i h₁ h₂)

/-! ### The operations -/

omit [DecidableEq E] in
theorem Represents.getNextSn (h : Represents ctx s) (address : A) :
    (ucsConnMatchGetNextSn ctx address).2 = (s.getNextSn address).2 ∧
      Represents (ucsConnMatchGetNextSn ctx address).1 (s.getNextSn address).1 := by
  have hconn := h.getConn address
  rw [ucsConnMatchGetConn_eq] at hconn
  rw [ucsConnMatchGetNextSn_eq, h.nextSn, h.maxConnSn]
  unfold ConnMatchSpec.getNextSn
  split_ifs with hmax
  · exact ⟨rfl, hconn⟩
  · exact ⟨rfl, h.storePeer fun i _ => peerOf_connQ ctx address i⟩

theorem Represents.insert (h : Represents ctx s) (hinv : s.Inv) {connSn : UInt64} {elem : E}
    {i : UcsConnMatchQueueType} (hop : s.Allowed (.insert address connSn elem i)) :
    (ucsConnMatchInsert ctx address connSn elem i).2 = (s.insert address connSn elem i).2 ∧
      Represents (ucsConnMatchInsert ctx address connSn elem i).1
        (s.insert address connSn elem i).1 := by
  have hconn := h.getConn address
  rw [ucsConnMatchGetConn_eq] at hconn
  rw [ucsConnMatchInsert_eq, h.maxConnSn]
  unfold ConnMatchSpec.insert
  split_ifs with hsn
  · exact ⟨rfl, hconn⟩
  · obtain ⟨hi, he⟩ := hop hsn
    have hrepr := h.queues address i hi
    have hnot : elem ∉ s.queues address i := fun hmem => he ⟨address, i, hmem⟩
    refine ⟨rfl, h.setQueue hinv (hinv.setQueue_append hi he) (hrepr.addTail hnot) ?_⟩
    intro x _ hx
    exact hrepr.addTail_links (fun hmem => hx (List.mem_append_left _ hmem))
      (fun hxe => hx (by simp [hxe]))

/-- The loop over the searched queues finds the first candidate of the sequence number, and
with `delete_from_queue` erases it from its queue. -/
theorem Represents.getElemLoop (h : Represents ctx s) (hinv : s.Inv) {peer : UcsConnMatchPeer E}
    (hpeer : ctx.hash address = some peer) {fuel : ℕ}
    (hfuel : ∀ i, (s.queues address i).length ≤ fuel) (connSn : UInt64) (deleteFromQueue : Bool) :
    ∀ is : List UcsConnMatchQueueType, (∀ i ∈ is, i ≠ .any) →
      (getElemLoop fuel ctx address peer connSn deleteFromQueue is).2 =
          ((is.flatMap fun i => (s.queues address i).map (i, ·)).find?
            fun x => s.ops.getConnSn x.2 == connSn).map Prod.snd ∧
        Represents (getElemLoop fuel ctx address peer connSn deleteFromQueue is).1
          (s.take address deleteFromQueue ((is.flatMap fun i => (s.queues address i).map (i, ·)).find?
            fun x => s.ops.getConnSn x.2 == connSn))
  | [], _ => ⟨rfl, h⟩
  | i :: is, his => by
    have hi := his i List.mem_cons_self
    have hrepr := h.queues address i hi
    rw [show peerHead ctx address i = peer.connQ i by simp [peerHead, hpeer]] at hrepr
    -- the walk over queue `i` finds what `List.find?` finds
    have hfind := hrepr.find (fun elem => ctx.ops.getConnSn elem == connSn) (hfuel i)
    rw [h.ops] at hfind
    have hfound : ((s.queues address i).map (i, ·)).find? (fun x => s.ops.getConnSn x.2 == connSn) =
        ((s.queues address i).find? fun elem => s.ops.getConnSn elem == connSn).map (i, ·) := by
      rw [List.find?_map]
      rfl
    unfold ConnMatch.getElemLoop
    rw [h.ops, hfind, List.flatMap_cons, List.find?_append, hfound]
    rcases hq : (s.queues address i).find? fun elem => s.ops.getConnSn elem == connSn with
      _ | elem
    · simpa using Represents.getElemLoop h hinv hpeer hfuel connSn deleteFromQueue is
        fun j hj => his j (List.mem_cons_of_mem i hj)
    · have hmem : elem ∈ s.queues address i := List.mem_of_find?_eq_some hq
      cases deleteFromQueue
      · exact ⟨rfl, h⟩
      · refine ⟨rfl, ?_⟩
        rw [← peerOf_of_hash hpeer] at hrepr ⊢
        exact h.setQueue hinv (hinv.setQueue_sublist List.erase_sublist) (hrepr.del hmem)
          fun x hx _ => hrepr.del_links hmem hx

omit [DecidableEq A] [DecidableEq E] in
/-- Without a peer every queue of the address is empty, and nothing is found. -/
lemma found_of_hash_eq_none (h : Represents ctx s) (hinv : s.Inv) (hpeer : ctx.hash address = none)
    (connSn : UInt64) (q : UcsConnMatchQueueType) : s.found address connSn q = none := by
  have hempty : ∀ i, s.queues address i = [] := by
    intro i
    by_cases hi : i = .any
    · rw [hi]
      exact hinv.any address
    · have := h.queues address i hi
      rw [show peerHead ctx address i = none by simp [peerHead, hpeer]] at this
      exact hlistRepr_none.1 this
  simp [found, candidates, hempty]

theorem Represents.getElem (h : Represents ctx s) (hinv : s.Inv) {fuel : ℕ}
    (hfuel : ∀ i, (s.queues address i).length ≤ fuel) (connSn : UInt64)
    (q : UcsConnMatchQueueType) (deleteFromQueue : Bool) :
    (ucsConnMatchGetElem fuel ctx address connSn q deleteFromQueue).2 =
        (s.getElem address connSn q deleteFromQueue).2 ∧
      Represents (ucsConnMatchGetElem fuel ctx address connSn q deleteFromQueue).1
        (s.getElem address connSn q deleteFromQueue).1 := by
  unfold ucsConnMatchGetElem ConnMatchSpec.getElem
  rw [h.maxConnSn]
  split_ifs with hsn
  · exact ⟨rfl, h⟩
  · rcases hpeer : ctx.hash address with _ | peer
    · rw [found_of_hash_eq_none h hinv hpeer]
      exact ⟨rfl, h⟩
    · exact h.getElemLoop hinv hpeer hfuel connSn deleteFromQueue (searchedQueues q)
        fun i hi => ne_any_of_mem_searchedQueues hi

theorem Represents.removeElem (h : Represents ctx s) (hinv : s.Inv) {elem : E}
    {i : UcsConnMatchQueueType} (hop : s.Allowed (.removeElem elem i)) :
    ∃ ctx', ucsConnMatchRemoveElem ctx elem i = some ctx' ∧ Represents ctx' (s.removeElem elem i) := by
  obtain ⟨hi, hmem⟩ := hop
  have hrepr := h.queues (s.ops.getAddress elem) i hi
  unfold ucsConnMatchRemoveElem ConnMatchSpec.removeElem
  rw [h.ops]
  dsimp only
  rcases hpeer : ctx.hash (s.ops.getAddress elem) with _ | peer
  · -- a queued element has a peer, so `ucs_fatal` is not reached
    rw [show peerHead ctx (s.ops.getAddress elem) i = none by simp [peerHead, hpeer]] at hrepr
    exact absurd (hlistRepr_none.1 hrepr ▸ hmem) List.not_mem_nil
  · refine ⟨_, rfl, ?_⟩
    rw [← peerOf_of_hash hpeer, peerOf_connQ]
    exact h.setQueue hinv (hinv.setQueue_sublist List.erase_sublist) (hrepr.del hmem)
      fun x hx _ => hrepr.del_links hmem hx

/-! ### Runs -/

theorem Represents.step (h : Represents ctx s) (hinv : s.Inv) {fuel : ℕ}
    (hfuel : ∀ a i, (s.queues a i).length ≤ fuel) {op : ConnMatchOp A E} (hop : s.Allowed op) :
    ∃ ctx', ucsConnMatchStep fuel ctx op = some (ctx', (s.step op).2) ∧
      Represents ctx' (s.step op).1 := by
  cases op with
  | getNextSn a =>
    obtain ⟨hout, hrep⟩ := h.getNextSn a
    exact ⟨_, by simp [ucsConnMatchStep, ConnMatchSpec.step, hout], hrep⟩
  | insert a connSn elem i =>
    obtain ⟨hout, hrep⟩ := h.insert hinv hop
    exact ⟨_, by simp [ucsConnMatchStep, ConnMatchSpec.step, hout], hrep⟩
  | getElem a connSn q deleteFromQueue =>
    obtain ⟨hout, hrep⟩ := h.getElem hinv (hfuel a) connSn q deleteFromQueue
    exact ⟨_, by simp [ucsConnMatchStep, ConnMatchSpec.step, hout], hrep⟩
  | removeElem elem i =>
    obtain ⟨ctx', hctx', hrep⟩ := h.removeElem hinv hop
    exact ⟨ctx', by simp [ucsConnMatchStep, ConnMatchSpec.step, hctx'], hrep⟩
  | setElem elem a connSn =>
    refine ⟨_, rfl, ⟨h.maxConnSn, ?_, h.nextSn, h.queues⟩⟩
    show ctx.ops.set elem a connSn = s.ops.set elem a connSn
    rw [h.ops]

/-- Over a run the model allows, with queues of at most `n` elements at the start and a walk
bound of `n` more than the run is long, the context returns what the model returns and ends
representing it. -/
theorem Represents.run (fuel : ℕ) :
    ∀ (ops : List (ConnMatchOp A E)) (ctx : UcsConnMatchCtx A E) (s : ConnMatchSpec A E) (n : ℕ),
      Represents ctx s → s.Inv → (∀ a i, (s.queues a i).length ≤ n) → n + ops.length ≤ fuel →
        s.AllowedRun ops →
          ∃ ctx', ucsConnMatchRun fuel ctx ops = some (ctx', (s.run ops).2) ∧
            Represents ctx' (s.run ops).1
  | [], ctx, _, _, h, _, _, _, _ => ⟨ctx, rfl, h⟩
  | op :: ops, ctx, s, n, h, hinv, hn, hfuel, hops => by
    have hlen : ∀ a i, (s.queues a i).length ≤ fuel := fun a i =>
      (hn a i).trans (show n ≤ fuel by simp at hfuel; omega)
    obtain ⟨ctx₁, hstep, h₁⟩ := h.step hinv hlen hops.1
    obtain ⟨ctx', hrun, h'⟩ := Represents.run fuel ops ctx₁ (s.step op).1 (n + 1) h₁ (hinv.step hops.1)
      (length_step hn op) (by simp at hfuel; omega) hops.2
    refine ⟨ctx', ?_, h'⟩
    simp [ucsConnMatchRun, hstep, hrun, ConnMatchSpec.run]

/-- From `ucs_conn_match_init`, over any run of `get_next_sn`, `insert`, `get_elem` and
`remove_elem` calls that the model allows, the context returns what the per-address model
returns and represents it at the end; and the calls of `get_next_sn` for any one address
return `0`, `1`, `2`, … up to `max_conn_sn` and `max_conn_sn` from then on. -/
theorem ucsConnMatch_refines_spec (maxConnSn : UInt64) (ops : UcsConnMatchOps A E)
    (links : UcsListLinks E) (trace : List (ConnMatchOp A E)) (fuel : ℕ)
    (hfuel : trace.length ≤ fuel) (htrace : (ConnMatchSpec.init maxConnSn ops).AllowedRun trace) :
    ∃ ctx outs, ucsConnMatchRun fuel (ucsConnMatchInit maxConnSn ops links) trace = some (ctx, outs) ∧
      outs = ((ConnMatchSpec.init maxConnSn ops).run trace).2 ∧
      Represents ctx ((ConnMatchSpec.init maxConnSn ops).run trace).1 ∧
      ∀ address, ((trace.zip outs).filter fun x => x.1.isGetNextSn address).map Prod.snd =
        (List.range (trace.countP (·.isGetNextSn address))).map fun j =>
          ConnMatchOut.sn (UInt64.ofNat (min j maxConnSn.toNat)) := by
  obtain ⟨ctx, hrun, hrep⟩ := Represents.run fuel trace _ _ 0 (represents_init maxConnSn ops links)
    (inv_init maxConnSn ops) (fun _ _ => le_rfl) (by omega) htrace
  refine ⟨ctx, _, hrun, rfl, hrep, fun address => ?_⟩
  have := run_getNextSn address (ConnMatchSpec.init maxConnSn ops) trace UInt64.zero_le
  simpa [ConnMatchSpec.init] using this

/-- A number handed out to address `0`, an element inserted under it into the expected queue,
and found and taken again when any queue is searched. -/
theorem ucsConnMatch_refines_spec_exp :
    ∃ ctx, ucsConnMatchRun 3 (ucsConnMatchInit 5 ⟨fun _ => (0 : ℕ), fun _ => 0⟩ ⟨id, id⟩)
        [.getNextSn 0, .insert 0 0 (7 : ℕ) .exp, .getElem 0 0 .any true] =
      some (ctx, [.sn 0, .inserted 1, .elem (some 7)]) := by
  obtain ⟨ctx, outs, hrun, houts, -, -⟩ := ucsConnMatch_refines_spec 5
    ⟨fun _ => (0 : ℕ), fun _ => 0⟩ ⟨id, id⟩ [.getNextSn 0, .insert 0 0 (7 : ℕ) .exp,
      .getElem 0 0 .any true] 3 le_rfl
    (by simp [ConnMatchSpec.AllowedRun, ConnMatchSpec.Allowed, ConnMatchSpec.Queued,
      ConnMatchSpec.step, ConnMatchSpec.getNextSn, ConnMatchSpec.init])
  refine ⟨ctx, ?_⟩
  rw [hrun, houts]
  congr 2

end UcxProofs.ConnMatch
