import UcxProofs.IntervalRbRun

/-!
The red-black invariant of `ucs/datastruct/interval_tree.c` under the code's own precondition.

`ucs_interval_tree_insert` asserts `range.start <= range.end + 1` in 64 bits, which a range that
ends at `UINT64_MAX` passes only from `0`. The list model's refinement (`IntervalRbRun`) needs
ranges that end below `UINT64_MAX`; here the tree in memory is followed over every run whose
ranges pass the assertion, wrap included. What it needs of the ranges is that the nodes and the
merged range pass it too: then a node left after the merge loop that starts where the merged range
does would touch it, so the new node's start is fresh and the search order on start stays strict.
-/

namespace UcxProofs.IntervalTree

/-- The assertion of `ucs_interval_tree_insert`: `range.start <= range.end + 1`, in 64 bits. -/
def UcsIntervalTreeRange.Asserted (range : UcsIntervalTreeRange) : Prop :=
  range.start ≤ range.end + 1

instance (range : UcsIntervalTreeRange) : Decidable range.Asserted :=
  inferInstanceAs (Decidable (_ ≤ _))

/-- A call whose range, if it has one, passes the assertion. -/
def UcsIntervalTreeOp.Asserted : UcsIntervalTreeOp → Prop
  | .insert range => range.Asserted
  | .popAny => True

instance : DecidablePred UcsIntervalTreeOp.Asserted
  | .insert range => inferInstanceAs (Decidable range.Asserted)
  | .popAny => inferInstanceAs (Decidable True)

variable {range node : UcsIntervalTreeRange}

/-- The hull of two ranges that pass the assertion passes it: a hull that ends at `UINT64_MAX`
takes that end from a range that starts at `0`. -/
lemma hull_asserted (hr : range.Asserted) (hn : node.Asserted) :
    (⟨min range.start node.start, max range.end node.end⟩ : UcsIntervalTreeRange).Asserted := by
  simp only [UcsIntervalTreeRange.Asserted, UInt64.le_iff_toNat_le, UInt64.toNat_add,
    AddrBits.toNat_min, AddrBits.toNat_max, UInt64.toNat_one] at hr hn ⊢
  have := range.start.toNat_lt
  have := range.end.toNat_lt
  have := node.start.toNat_lt
  have := node.end.toNat_lt
  omega

/-- Two ranges that pass the assertion and start at the same point touch. -/
lemma touches_of_start_eq_of_asserted (hr : range.Asserted) (hn : node.Asserted)
    (h : node.start = range.start) : ucsIntervalTouches range node = true := by
  simp only [ucsIntervalTouches, Bool.and_eq_true, decide_eq_true_eq]
  exact ⟨h ▸ hn, h.symm ▸ hr⟩

lemma popAny_nodes_subset (t : UcsIntervalTree) : (ucsIntervalTreePopAny t).2.nodes ⊆ t.nodes := by
  unfold ucsIntervalTreePopAny
  split
  · exact List.Subset.refl _
  · exact List.erase_subset

lemma UcsIntervalTree.Counted.popAny {t : UcsIntervalTree} (h : t.Counted) :
    (ucsIntervalTreePopAny t).2.Counted := by
  unfold ucsIntervalTreePopAny
  split
  · exact h
  · next node rest hn => exact h.removeNode (hn ▸ List.mem_cons_self)

end UcxProofs.IntervalTree

namespace UcxProofs.IntervalRb

open RBTree RBTree.RBNode RBColor UcxProofs.RedBlack UcsIntervalTree
open UcxProofs.IntervalTree (UcsIntervalTreeRange ucsIntervalTouches UcsIntervalTreeOp hull_asserted
  touches_of_start_eq_of_asserted)

/-- The tree in memory is a valid red-black tree, every range it holds passes the assertion, and
`total_size` adds up their sizes. -/
structure UcsIntervalTree.Sound (tree : UcsIntervalTree) (T : RBNode Ptr) : Prop where
  valid : tree.Valid T
  asserted : ∀ s ∈ (tree.abs T).nodes, s.Asserted
  counted : (tree.abs T).Counted

variable {tree : UcsIntervalTree} {T : RBNode Ptr} {range : UcsIntervalTreeRange}

lemma UcsIntervalTree.Sound.asserted_of_mem (h : tree.Sound T) {z : Ptr} (hz : z ∈ T) :
    (tree.rangeOf z).Asserted :=
  h.asserted _ (List.mem_map.mpr ⟨z, mem_toList.mpr hz, rfl⟩)

/-- **The merge loop under the assertion**: it returns, with a sound tree and a merged range that
passes the assertion and touches no node left; the nodes taken out go to the pool. -/
theorem removeOverlapping_sound : ∀ (fuel : ℕ) {tree : UcsIntervalTree} {T : RBNode Ptr}
    {range : UcsIntervalTreeRange}, tree.Sound T → range.Asserted → T.size < fuel →
    ∃ tree' T' merged, ucsIntervalTreeRemoveOverlapping fuel tree range = some (tree', merged) ∧
      tree'.Sound T' ∧ merged.Asserted ∧
      (∀ z ∈ T', ucsIntervalTouches merged (tree'.rangeOf z) = false) ∧
      (T'.toList ++ tree'.mpool).Perm (T.toList ++ tree.mpool)
  | 0, _, _, _, _, _, hf => absurd hf (Nat.not_lt_zero _)
  | fuel + 1, tree, T, range, h, hr, hf => by
    obtain ⟨r, hfind, hmem, hnone⟩ := ucsIntervalTreeFindOverlap_spec range h.valid
    cases r with
    | none =>
      exact ⟨tree, T, range, by simp [ucsIntervalTreeRemoveOverlapping, hfind], h, hr,
        fun z hz => hnone rfl z hz, .refl _⟩
    | some ov =>
      -- the node found goes, and the range widens over it
      obtain ⟨hov, -⟩ := hmem ov rfl
      obtain ⟨tree₁, T₁, hrm, hv₁, habs, hperm⟩ := ucsIntervalTreeRemoveNode_valid h.valid hov
      obtain ⟨hlen, -⟩ := length_of_removeNode habs hperm hov
      have hovl : tree.rangeOf ov ∈ (tree.abs T).nodes :=
        List.mem_map.mpr ⟨ov, mem_toList.mpr hov, rfl⟩
      have h₁ : tree₁.Sound T₁ := ⟨hv₁, fun s hs => h.asserted s (by
        rw [habs] at hs
        exact List.erase_subset hs), habs ▸ h.counted.removeNode hovl⟩
      obtain ⟨tree', T', merged, hrec, h', hm, hdone, hperm'⟩ :=
        removeOverlapping_sound fuel h₁ (hull_asserted hr (h.asserted _ hovl))
          (by rw [size_eq] at hf ⊢; omega)
      exact ⟨tree', T', merged,
        by simp only [ucsIntervalTreeRemoveOverlapping, hfind, hrm]; exact hrec, h', hm, hdone,
        hperm'.trans hperm⟩

/-- **`insert_slow` under the assertion** returns with a sound tree, the pool empty or not. -/
theorem insertSlow_sound (h : tree.Sound T) (hr : range.Asserted) :
    ∃ (status : UcsStatus) (tree' : UcsIntervalTree) (T' : RBNode Ptr),
      ucsIntervalTreeInsertSlow tree range = some (status, tree') ∧ tree'.Sound T' ∧
      (T'.toList ++ tree'.mpool).Perm (T.toList ++ tree.mpool) := by
  obtain ⟨tree₁, T₁, merged, hro, h₁, hm, hdone, hperm₁⟩ :=
    removeOverlapping_sound (tree.numNodes + 1) h hr (by rw [h.valid.numNodes]; omega)
  cases hc : ucsIntervalTreeNodeCreate tree₁ merged.start merged.end with
  | none =>
    exact ⟨.errNoMemory, tree₁, T₁, by simp [ucsIntervalTreeInsertSlow, hro, hc], h₁, hperm₁⟩
  | some p =>
    obtain ⟨tree₂, n⟩ := p
    -- a node left that starts where the merged range does would touch it
    have hfresh : ∀ z ∈ T₁, startKey tree₁ z ≠ merged.start.toNat := fun z hz hs => by
      have ht := touches_of_start_eq_of_asserted hm (h₁.asserted_of_mem hz) (UInt64.toNat_inj.mp hs)
      rw [hdone z hz] at ht
      exact absurd ht (by decide)
    obtain ⟨tree₃, root₃, tree', T', L, R, hins, hfx, hv', hl, hLR, -, -, hperm, hrel⟩ :=
      insertCreated_spec h₁.valid hc hfresh
    obtain ⟨hrn, hoff⟩ := rangeOf_created hc hrel
    obtain ⟨-, -, -, -, htot₂⟩ := nodeCreate_eq hc
    have hnd : (L ++ n :: R).Nodup := hl ▸ (List.nodup_append.mp hv'.nodup).1
    rw [List.nodup_middle, List.nodup_cons, List.mem_append, not_or] at hnd
    -- the new node holds the merged range, every other node the range it had
    have hmap : ∀ l : List Ptr, n ∉ l → l.map tree'.rangeOf = l.map tree₁.rangeOf := fun l hn =>
      List.map_congr_left fun z hz => hoff z fun h' => hn (h' ▸ hz)
    have hnodes : (tree'.abs T').nodes =
        L.map tree₁.rangeOf ++ merged :: R.map tree₁.rangeOf := by
      rw [UcsIntervalTree.abs, hl, List.map_append, List.map_cons, hmap L hnd.1.1,
        hmap R hnd.1.2, hrn]
    have hold : ∀ s, s ∈ L.map tree₁.rangeOf ∨ s ∈ R.map tree₁.rangeOf → s.Asserted :=
      fun s hs => h₁.asserted s (by
        rw [UcsIntervalTree.abs, ← hLR, List.map_append, List.mem_append]
        exact hs)
    refine ⟨.ok, tree', T', by simp [ucsIntervalTreeInsertSlow, hro, hc, hins, hfx], ⟨hv', ?_, ?_⟩,
      hperm.trans hperm₁⟩
    · rw [hnodes]
      simp only [List.mem_append, List.mem_cons]
      rintro s (hs | rfl | hs)
      · exact hold s (.inl hs)
      · exact hm
      · exact hold s (.inr hs)
    · have hc₁ := h₁.counted
      simp only [IntervalTree.UcsIntervalTree.Counted, UcsIntervalTree.abs, ← hLR, List.map_append,
        List.sum_append] at hc₁
      simp only [IntervalTree.UcsIntervalTree.Counted, hnodes, List.map_append, List.map_cons,
        List.sum_append, List.sum_cons]
      rw [show (tree'.abs T').totalSize = tree'.totalSize from rfl, hrel.totalSize, htot₂, hc₁]
      abel

/-- **`ucs_interval_tree_insert` under the assertion** returns with a sound tree. -/
theorem insert_sound (h : tree.Sound T) (hr : range.Asserted) :
    ∃ (status : UcsStatus) (tree' : UcsIntervalTree) (T' : RBNode Ptr),
      ucsIntervalTreeInsert tree range = some (status, tree') ∧ tree'.Sound T' ∧
      (T'.toList ++ tree'.mpool).Perm (T.toList ++ tree.mpool) := by
  by_cases hfast : ∃ root, tree.root = some root ∧ tree.numNodes = 1 ∧
      ucsIntervalTouches range (tree.rangeOf root) = true
  · -- the only node is widened over the range
    obtain ⟨root, hroot, hnum, ht⟩ := hfast
    obtain ⟨c, rfl⟩ := h.valid.eq_node_of_numNodes hroot hnum
    obtain ⟨tree', hins, hv', hrange, hmp, -, htot⟩ := insert_fast h.valid hroot hnum ht
    have hnodes : (tree'.abs (node c nil root nil)).nodes = [tree'.rangeOf root] := rfl
    have hc := h.counted
    simp only [IntervalTree.UcsIntervalTree.Counted, UcsIntervalTree.abs, toList_node, toList_nil,
      List.nil_append, List.map_cons, List.map_nil, List.sum_cons, List.sum_nil, add_zero,
      rangeOf] at hc
    refine ⟨.ok, tree', _, hins, ⟨hv', ?_, ?_⟩, by rw [hmp]⟩
    · rw [hnodes]
      rintro s hs
      rw [List.mem_singleton.mp hs, hrange]
      exact hull_asserted (h.asserted_of_mem (mem_node.mpr (.inl rfl))) hr
    · simp only [IntervalTree.UcsIntervalTree.Counted, hnodes, List.map_cons, List.map_nil,
        List.sum_cons, List.sum_nil, add_zero, hrange]
      rw [show (tree'.abs (node c nil root nil)).totalSize = tree'.totalSize from rfl, htot, hc]
      abel
  · rw [insert_eq_slow hfast]
    exact insertSlow_sound h hr

/-- **`ucs_interval_tree_pop_any`** leaves a sound tree. -/
theorem popAny_sound (h : tree.Sound T) :
    ∃ r tree' T', ucsIntervalTreePopAny tree = some (r, tree') ∧ tree'.Sound T' ∧
      (T'.toList ++ tree'.mpool).Perm (T.toList ++ tree.mpool) := by
  obtain ⟨r, tree', T', hpop, hv', habs, hperm, -⟩ := ucsIntervalTreePopAny_refines h.valid
  have habs' : tree'.abs T' = (IntervalTree.ucsIntervalTreePopAny (tree.abs T)).2 :=
    congrArg Prod.snd habs
  refine ⟨r, tree', T', hpop, ⟨hv', fun s hs => h.asserted s ?_, habs' ▸ h.counted.popAny⟩, hperm⟩
  rw [habs'] at hs
  exact IntervalTree.popAny_nodes_subset _ hs

theorem UcsIntervalTree.Sound.step (h : tree.Sound T) {op : UcsIntervalTreeOp} (hop : op.Asserted) :
    ∃ tree' T', ucsIntervalTreeStep tree op = some tree' ∧ tree'.Sound T' ∧
      (T'.toList ++ tree'.mpool).Perm (T.toList ++ tree.mpool) := by
  cases op with
  | insert range =>
    obtain ⟨_, tree', T', hi, h', hp⟩ := insert_sound h hop
    exact ⟨tree', T', by simp [ucsIntervalTreeStep, hi], h', hp⟩
  | popAny =>
    obtain ⟨_, tree', T', hpop, h', hp⟩ := popAny_sound h
    exact ⟨tree', T', by simp [ucsIntervalTreeStep, hpop], h', hp⟩

theorem UcsIntervalTree.Sound.run : ∀ (ops : List UcsIntervalTreeOp) {tree : UcsIntervalTree}
    {T : RBNode Ptr}, tree.Sound T → (∀ op ∈ ops, op.Asserted) →
    ∃ tree' T', ucsIntervalTreeRun tree ops = some tree' ∧ tree'.Sound T' ∧
      (T'.toList ++ tree'.mpool).Perm (T.toList ++ tree.mpool)
  | [], tree, T, h, _ => ⟨tree, T, rfl, h, .refl _⟩
  | op :: ops, _, _, h, hops => by
    obtain ⟨tree₁, T₁, h₁, hs₁, hp₁⟩ := h.step (hops op List.mem_cons_self)
    obtain ⟨tree', T', h', hs', hp'⟩ :=
      UcsIntervalTree.Sound.run ops hs₁ fun op' hm => hops op' (List.mem_cons_of_mem op hm)
    exact ⟨tree', T', by simp [ucsIntervalTreeRun, h₁, h'], hs', hp'.trans hp₁⟩

/-- The tree after `ucs_interval_tree_init` over a pool of distinct nodes is sound. -/
lemma sound_init {nodes : Ptr → UcsIntervalNode} {mpool : List Ptr} (hmp : mpool.Nodup) :
    (ucsIntervalTreeInit nodes mpool).Sound nil :=
  ⟨⟨rfl, by simpa [ucsIntervalTreeInit] using hmp, List.Pairwise.nil, ⟨0, .nil⟩, rfl⟩,
    by simp [UcsIntervalTree.abs], rfl⟩

/-- **The tree in memory stays a red-black search tree on start.** From `ucs_interval_tree_init`
over a pool of distinct nodes, after any run of `ucs_interval_tree_insert` and
`ucs_interval_tree_pop_any` whose ranges pass the assertion of insert, the nodes from
`tree->root` form a tree `T`: every node's children are its children in `T`, its parent link
points to the node whose child it is (`NULL` at the root), and its colour is its colour in `T`.
The starts increase strictly in order. `T` has a black root, no red node with a red child, and
one number of black nodes on every path down; `num_nodes` is its size, and its height is at
most `2 log2 (num_nodes + 1)`. -/
theorem ucsIntervalTreeRun_redBlack (nodes : Ptr → UcsIntervalNode) (mpool : List Ptr)
    (ops : List UcsIntervalTreeOp) (hmp : mpool.Nodup) (hops : ∀ op ∈ ops, op.Asserted) :
    ∃ tree T, ucsIntervalTreeRun (ucsIntervalTreeInit nodes mpool) ops = some tree ∧
      tree.Stores T ∧ T.toList.Pairwise (fun a b => (tree.nodes a).start < (tree.nodes b).start) ∧
      (∃ n, T.Balanced black n) ∧ tree.numNodes = T.size ∧
      T.depth ≤ 2 * (tree.numNodes + 1).log2 := by
  obtain ⟨tree, T, hrun, h, -⟩ := UcsIntervalTree.Sound.run ops (sound_init hmp) hops
  obtain ⟨n, hb⟩ := h.valid.balanced
  refine ⟨tree, T, hrun, h.valid.stores, h.valid.sorted.imp UInt64.lt_iff_toNat_lt.mpr, ⟨n, hb⟩,
    h.valid.numNodes, ?_⟩
  rw [h.valid.numNodes]
  exact hb.depth_bound

/-- A range that ends at `UINT64_MAX`, a range inside it that the touch test misses, and a pop,
over a pool of two nodes. -/
theorem ucsIntervalTreeRun_redBlack_wrapping :
    [0, 1].Nodup ∧
      (∀ op ∈ [.insert ⟨0, 0xFFFFFFFFFFFFFFFF⟩, .insert ⟨5, 6⟩, .popAny],
        UcsIntervalTreeOp.Asserted op) ∧
      ∃ tree T, ucsIntervalTreeRun (ucsIntervalTreeInit (fun _ => ⟨none, none, none, 0, 0, .red⟩)
          [0, 1]) [.insert ⟨0, 0xFFFFFFFFFFFFFFFF⟩, .insert ⟨5, 6⟩, .popAny] = some tree ∧
        tree.Stores T ∧
        T.toList.Pairwise (fun a b => (tree.nodes a).start < (tree.nodes b).start) ∧
        (∃ n, T.Balanced black n) ∧ tree.numNodes = T.size ∧
        T.depth ≤ 2 * (tree.numNodes + 1).log2 := by
  have hops : ∀ op ∈ [UcsIntervalTreeOp.insert ⟨0, 0xFFFFFFFFFFFFFFFF⟩, .insert ⟨5, 6⟩, .popAny],
      UcsIntervalTreeOp.Asserted op := by decide
  exact ⟨by decide, hops, ucsIntervalTreeRun_redBlack _ _ _ (by decide) hops⟩

/-! ### `ucs_interval_tree_cleanup` -/

/-- **`ucs_interval_tree_cleanup_recursive` frees a subtree**: with fuel above its depth, every
node of the subtree goes to the front of the free list and out of the counters; no node is
written, so the right subtree stands as it did once the left one is freed. -/
lemma cleanupRecursive_spec : ∀ {t : RBNode Ptr} (tree : UcsIntervalTree) {par q : Option Ptr}
    {fuel : ℕ}, SubtreeAt tree.nodes par t q → t.depth < fuel →
    ∃ l, ucsIntervalTreeCleanupRecursive fuel tree q = some { tree with
        mpool := l ++ tree.mpool, numNodes := tree.numNodes - t.size,
        totalSize := tree.totalSize -
          (t.toList.map fun z => (tree.nodes z).end - (tree.nodes z).start).sum } ∧
      l.Perm t.toList
  | nil, tree, _, q, fuel, hq, hf => by
    obtain ⟨fuel, rfl⟩ : ∃ f, fuel = f + 1 := ⟨fuel - 1, by simp [depth] at hf; omega⟩
    rw [show q = none from hq]
    exact ⟨[], by simp [ucsIntervalTreeCleanupRecursive], .nil⟩
  | node c a y b, tree, par, q, fuel, ⟨hq, _, _, ha, hb⟩, hf => by
    obtain ⟨fuel, rfl⟩ : ∃ f, fuel = f + 1 := ⟨fuel - 1, by simp [depth] at hf; omega⟩
    subst hq
    have hda : a.depth < fuel := by simp only [depth] at hf; omega
    have hdb : b.depth < fuel := by simp only [depth] at hf; omega
    obtain ⟨la, hla, hpa⟩ := cleanupRecursive_spec tree ha hda
    obtain ⟨lb, hlb, hpb⟩ := cleanupRecursive_spec { tree with
      mpool := la ++ tree.mpool, numNodes := tree.numNodes - a.size,
      totalSize := tree.totalSize -
        (a.toList.map fun z => (tree.nodes z).end - (tree.nodes z).start).sum } hb hdb
    refine ⟨y :: (lb ++ la), ?_, by
      rw [toList_node]
      exact (((hpb.append hpa).trans List.perm_append_comm).cons y).trans List.perm_middle.symm⟩
    simp only [ucsIntervalTreeCleanupRecursive, hla, Option.bind_some, hlb, Option.map_some,
      Option.some.injEq]
    simp only [ucsIntervalTreeDeleteNode, UcsIntervalTree.mk.injEq, toList_node, size,
      List.map_append, List.map_cons, List.sum_append, List.sum_cons, List.cons_append,
      List.append_assoc, true_and]
    refine ⟨by omega, ?_⟩
    abel

/-- `ucs_interval_tree_cleanup` on a sound tree: its nodes go to the free list and the counters
come to zero; `tree->root` is not reset. -/
lemma ucsIntervalTreeCleanup_eq (h : tree.Sound T) :
    ∃ l, ucsIntervalTreeCleanup tree = some { tree with
        mpool := l ++ tree.mpool, numNodes := 0, totalSize := 0 } ∧ l.Perm T.toList := by
  have hd : T.depth < tree.numNodes + 1 := by
    have := depth_le_size T
    rw [h.valid.numNodes]
    omega
  obtain ⟨l, hl, hp⟩ := cleanupRecursive_spec tree h.valid.stores hd
  have hc := h.counted
  simp only [IntervalTree.UcsIntervalTree.Counted, UcsIntervalTree.abs, List.map_map,
    Function.comp_def, rangeOf] at hc
  refine ⟨l, ?_, hp⟩
  rw [ucsIntervalTreeCleanup, hl, h.valid.numNodes, Nat.sub_self, ← hc, sub_self]

/-- **A run ended by `ucs_interval_tree_cleanup` gives the pool back.** From
`ucs_interval_tree_init` over a pool of distinct nodes, after any run of calls whose ranges pass
the assertion of insert, `ucs_interval_tree_cleanup` returns every node to the free list: the
free list is then the initial pool up to order, each node on it once. `num_nodes` and
`total_size` come to zero. `tree->root` keeps its value, which is then a node on the free list. -/
theorem ucsIntervalTreeCleanup_returns_pool (nodes : Ptr → UcsIntervalNode) (mpool : List Ptr)
    (ops : List UcsIntervalTreeOp) (hmp : mpool.Nodup) (hops : ∀ op ∈ ops, op.Asserted) :
    ∃ tree tree', ucsIntervalTreeRun (ucsIntervalTreeInit nodes mpool) ops = some tree ∧
      ucsIntervalTreeCleanup tree = some tree' ∧ tree'.mpool.Perm mpool ∧
      tree'.numNodes = 0 ∧ tree'.totalSize = 0 ∧ tree'.root = tree.root ∧
      ∀ r, tree'.root = some r → r ∈ tree'.mpool := by
  obtain ⟨tree, T, hrun, h, hperm⟩ := UcsIntervalTree.Sound.run ops (sound_init hmp) hops
  obtain ⟨l, hcl, hl⟩ := ucsIntervalTreeCleanup_eq h
  refine ⟨tree, _, hrun, hcl, ?_, rfl, rfl, rfl, fun r hr => ?_⟩
  · simpa [ucsIntervalTreeInit] using (hl.append_right tree.mpool).trans hperm
  · -- the root is a node of the tree, and every node of the tree went to the free list
    have hrT : r ∈ T := mem_of_rootOf_eq (h.valid.stores.eq_rootOf.symm.trans hr)
    exact List.mem_append_left _ (hl.mem_iff.mpr (mem_toList.mpr hrT))

/-- Two inserts and a cleanup over a pool of two nodes. -/
theorem ucsIntervalTreeCleanup_returns_pool_two_inserts :
    [0, 1].Nodup ∧ (∀ op ∈ [.insert ⟨1, 2⟩, .insert ⟨4, 5⟩], UcsIntervalTreeOp.Asserted op) ∧
      ∃ tree tree', ucsIntervalTreeRun (ucsIntervalTreeInit (fun _ => ⟨none, none, none, 0, 0, .red⟩)
          [0, 1]) [.insert ⟨1, 2⟩, .insert ⟨4, 5⟩] = some tree ∧
        ucsIntervalTreeCleanup tree = some tree' ∧ tree'.mpool.Perm [0, 1] ∧
        tree'.numNodes = 0 ∧ tree'.totalSize = 0 ∧ tree'.root = tree.root ∧
        ∀ r, tree'.root = some r → r ∈ tree'.mpool := by
  have hops : ∀ op ∈ [UcsIntervalTreeOp.insert ⟨1, 2⟩, .insert ⟨4, 5⟩],
      UcsIntervalTreeOp.Asserted op := by decide
  exact ⟨by decide, hops, ucsIntervalTreeCleanup_returns_pool _ _ _ (by decide) hops⟩

end UcxProofs.IntervalRb
