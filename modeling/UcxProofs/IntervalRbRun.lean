import UcxProofs.IntervalRbInsert
import UcxProofs.IntervalRbRemove
import UcxProofs.IntervalTreeMerge

/-!
The calls of `ucs/datastruct/interval_tree.c` on the tree in memory, against the list model of
`IntervalTree`. The tree `T` in memory stands for the list tree `tree.abs T`: its ranges in order
and its two counters. `ucs_interval_tree_find_overlap` meets the finder's contract; each round of
`ucs_interval_tree_remove_overlapping` is a round of the list model's loop, and by
`IntervalTreeMerge` the loop ends where the list model's does for every finder; the created node
is hung in by start and rebalanced; and `pop_any` removes the first node in order. A run from
`ucs_interval_tree_init` thus keeps a red-black tree in memory that stands, at every step, for the
list model's run.
-/

namespace UcxProofs.IntervalRb

open RBTree RBTree.RBNode RBColor UcxProofs.RedBlack UcsIntervalTree
open UcxProofs.IntervalTree (UcsIntervalTreeRange ucsIntervalTouches UcsIntervalTreeOp)

variable {tree : UcsIntervalTree} {T : RBNode Ptr}

/-! ### `ucs_interval_tree_find_overlap` -/

section FindOverlap

variable (range : UcsIntervalTreeRange)

/-- The search from `q` returns a node of the subtree that touches the range, or none only when
no node of it does; a right subtree is skipped only when its root starts past `range.end + 1`,
and every node of it starts no earlier. -/
lemma findOverlap_subtree : ∀ {t : RBNode Ptr} {par q : Option Ptr} {fuel : ℕ},
    SubtreeAt tree.nodes par t q → t.toList.Pairwise (fun a b => startKey tree a < startKey tree b) →
    t.depth < fuel →
    ∃ r, ucsIntervalTreeFindOverlap fuel tree q range = some r ∧
      (∀ z, r = some z → z ∈ t ∧ ucsIntervalTouches range (tree.rangeOf z) = true) ∧
      (r = none → ∀ z ∈ t, ucsIntervalTouches range (tree.rangeOf z) = false)
  | nil, _, q, fuel, hq, _, hf => by
    obtain ⟨fuel, rfl⟩ : ∃ f, fuel = f + 1 := ⟨fuel - 1, by simp [depth] at hf; omega⟩
    rw [show q = none from hq]
    exact ⟨none, rfl, by simp, by simp⟩
  | node c a y b, par, q, fuel, ⟨hq, _, _, ha, hb⟩, hs, hf => by
    obtain ⟨fuel, rfl⟩ : ∃ f, fuel = f + 1 := ⟨fuel - 1, by simp [depth] at hf; omega⟩
    subst hq
    obtain ⟨hsa, hsb, -, hyb, -⟩ := pairwise_toList_node.mp hs
    have hda : a.depth < fuel := by simp only [depth] at hf; omega
    have hdb : b.depth < fuel := by simp only [depth] at hf; omega
    by_cases hy : ucsIntervalTouches range (tree.rangeOf y) = true
    · -- the node itself touches the range
      refine ⟨some y, by simp [ucsIntervalTreeFindOverlap, rangeOf] at hy ⊢; simp [hy], ?_, by simp⟩
      rintro z ⟨⟩
      exact ⟨by simp, hy⟩
    have hy' : ucsIntervalTouches range ⟨(tree.nodes y).start, (tree.nodes y).end⟩ = false := by
      simpa [rangeOf] using hy
    obtain ⟨ra, hra, hma, hna⟩ := findOverlap_subtree ha hsa hda
    cases ra with
    | some found =>
      -- the left subtree has a touching node
      refine ⟨some found, ?_, ?_, by simp⟩
      · simp [ucsIntervalTreeFindOverlap, hy', hra]
      · rintro z ⟨⟩
        obtain ⟨hm, ht⟩ := hma found rfl
        exact ⟨by simp [hm], ht⟩
    | none =>
      have hnone : ∀ z ∈ a, ucsIntervalTouches range (tree.rangeOf z) = false := hna rfl
      by_cases hle : (tree.nodes y).start ≤ range.end + 1
      · -- the right subtree is searched
        obtain ⟨rb, hrb, hmb, hnb⟩ := findOverlap_subtree hb hsb hdb
        refine ⟨rb, by simp [ucsIntervalTreeFindOverlap, hy', hra, hle, hrb], fun z hz => ?_,
          fun hz z hzt => ?_⟩
        · obtain ⟨hm, ht⟩ := hmb z hz
          exact ⟨by simp [hm], ht⟩
        · rcases mem_node.mp hzt with rfl | hza | hzb
          · simpa [rangeOf] using hy'
          · exact hnone z hza
          · exact hnb hz z hzb
      · -- the right subtree starts past the range: none of it touches
        refine ⟨none, by simp [ucsIntervalTreeFindOverlap, hy', hra, hle], by simp,
          fun _ z hzt => ?_⟩
        rcases mem_node.mp hzt with rfl | hza | hzb
        · simpa [rangeOf] using hy'
        · exact hnone z hza
        · have hyz := hyb z hzb
          simp only [startKey] at hyz
          have hz : ¬ (tree.nodes z).start ≤ range.end + 1 := fun h' =>
            hle (UInt64.le_iff_toNat_le.mpr (by rw [UInt64.le_iff_toNat_le] at h'; omega))
          simp [ucsIntervalTouches, rangeOf, hz]

/-- **`ucs_interval_tree_find_overlap` finds what the list model's finder may**: on a valid tree it
returns, with a node of the tree that touches the range, or with none only when no node does. -/
theorem ucsIntervalTreeFindOverlap_spec (hv : tree.Valid T) :
    ∃ r, ucsIntervalTreeFindOverlap (tree.numNodes + 1) tree tree.root range = some r ∧
      (∀ z, r = some z → z ∈ T ∧ ucsIntervalTouches range (tree.rangeOf z) = true) ∧
      (r = none → ∀ z ∈ T, ucsIntervalTouches range (tree.rangeOf z) = false) := by
  have hd : T.depth < tree.numNodes + 1 := by
    have := depth_le_size T
    rw [hv.numNodes]
    omega
  exact findOverlap_subtree range hv.stores hv.sorted hd

end FindOverlap

/-! ### `ucs_interval_tree_remove_overlapping` -/

/-- A removal takes one node out of the tree, and gives one to the pool. -/
lemma length_of_removeNode {tree₁ : UcsIntervalTree} {T₁ : RBNode Ptr} {z : Ptr}
    (habs : tree₁.abs T₁ = IntervalTree.ucsIntervalTreeRemoveNode (tree.abs T) (tree.rangeOf z))
    (hperm : (T₁.toList ++ tree₁.mpool).Perm (T.toList ++ tree.mpool)) (hz : z ∈ T) :
    T₁.toList.length + 1 = T.toList.length ∧ tree₁.mpool.length = tree.mpool.length + 1 := by
  have hzm : tree.rangeOf z ∈ T.toList.map tree.rangeOf :=
    List.mem_map.mpr ⟨z, mem_toList.mpr hz, rfl⟩
  have hn := congrArg (fun A => A.nodes.length) habs
  simp only [UcsIntervalTree.abs, IntervalTree.ucsIntervalTreeRemoveNode, List.length_map,
    List.length_erase_of_mem hzm] at hn
  have hpos : 0 < T.toList.length := List.length_pos_of_mem (mem_toList.mpr hz)
  have hp := hperm.length_eq
  simp only [List.length_append] at hp
  omega

open Relation IntervalTree in
/-- **The merge loop in memory takes the rounds of the list model**: from a valid tree standing
for a valid list tree and an admissible range, with fuel above the node count, the loop returns,
and its rounds lead the list tree and the range to a state where no node touches the range. The
nodes it takes out of the tree go to the pool. -/
theorem removeOverlapping_merge : ∀ (fuel : ℕ) {tree : UcsIntervalTree} {T : RBNode Ptr}
    {range : UcsIntervalTreeRange}, tree.Valid T → (tree.abs T).Valid → range.Admissible →
    T.size < fuel →
    ∃ tree' T' merged, ucsIntervalTreeRemoveOverlapping fuel tree range = some (tree', merged) ∧
      tree'.Valid T' ∧ ReflTransGen MergeStep (tree.abs T, range) (tree'.abs T', merged) ∧
      MergeDone (tree'.abs T', merged) ∧
      (T'.toList ++ tree'.mpool).Perm (T.toList ++ tree.mpool) ∧
      tree.mpool.length ≤ tree'.mpool.length
  | 0, _, _, _, _, _, _, hf => absurd hf (Nat.not_lt_zero _)
  | fuel + 1, tree, T, range, hv, ha, hr, hf => by
    obtain ⟨r, hfind, hmem, hnone⟩ := ucsIntervalTreeFindOverlap_spec range hv
    cases r with
    | none =>
      -- no node touches the range: the loop stops
      refine ⟨tree, T, range, by simp [ucsIntervalTreeRemoveOverlapping, hfind], hv, .refl,
        ⟨ha, hr, ?_⟩, .refl _, le_rfl⟩
      simp only [UcsIntervalTree.abs, List.mem_map, mem_toList]
      rintro _ ⟨z, hz, rfl⟩
      exact hnone rfl z hz
    | some ov =>
      -- the node found goes, and the range widens over it
      obtain ⟨hov, htouch⟩ := hmem ov rfl
      obtain ⟨tree₁, T₁, hrm, hv₁, habs, hperm⟩ := ucsIntervalTreeRemoveNode_valid hv hov
      have hovl : tree.rangeOf ov ∈ (tree.abs T).nodes :=
        List.mem_map.mpr ⟨ov, mem_toList.mpr hov, rfl⟩
      obtain ⟨hlen, hmp⟩ := length_of_removeNode habs hperm hov
      have ha₁ : (tree₁.abs T₁).Valid := habs ▸ ha.removeNode hovl
      have hr₁ := hull_admissible hr (ha.admissible _ hovl)
      obtain ⟨tree', T', merged, hrec, hv', hsteps, hdone, hperm', hmp'⟩ :=
        removeOverlapping_merge fuel hv₁ ha₁ hr₁ (by rw [size_eq] at hf ⊢; omega)
      refine ⟨tree', T', merged, by simp only [ucsIntervalTreeRemoveOverlapping, hfind, hrm]; exact hrec,
        hv', .head ⟨ha, hr, _, hovl, htouch, by rw [habs]⟩ hsteps, hdone, hperm'.trans hperm,
        by omega⟩

/-! ### The insertion of a created node -/

/-- **A created node is hung in and the tree rebalanced**: on a valid tree none of whose nodes
starts where the new node does, `insert_node` and `insert_fixup` return, with a valid tree whose
nodes in order are the old ones with the new node between those that start before it and those
that start after it; the node came from the pool. -/
theorem insertCreated_spec {tree₁ : UcsIntervalTree} {st en : UInt64} {n : Ptr}
    (hv : tree.Valid T) (hc : ucsIntervalTreeNodeCreate tree st en = some (tree₁, n))
    (hfresh : ∀ z ∈ T, startKey tree z ≠ st.toNat) :
    ∃ tree₂ root₂ tree' T' L R,
      ucsIntervalTreeInsertNode (tree₁.numNodes + 1) tree₁ tree₁.root n = some (tree₂, root₂) ∧
      ucsIntervalTreeInsertFixup ({ tree₂ with root := root₂ }.setParentOf root₂ none) n =
        some tree' ∧
      tree'.Valid T' ∧ T'.toList = L ++ n :: R ∧ L ++ R = T.toList ∧
      (∀ z ∈ L, startKey tree z < st.toNat) ∧ (∀ z ∈ R, st.toNat < startKey tree z) ∧
      (T'.toList ++ tree'.mpool).Perm (T.toList ++ tree.mpool) ∧ Relinked tree₁ tree' := by
  obtain ⟨n₀, tree₂, root₂, k, hins, hfix, hlist, hL, hR, hrel⟩ := insertNode_fixup_start hv hc
  obtain ⟨hmp, hnodes, -, hnum, -⟩ := nodeCreate_eq hc
  have hfill : (k.fill (node red nil n nil)).toList = k.listL ++ n :: k.listR := by
    simp [Path.fill_toList, Path.withList]
  have hlen : pathLength k < ({ tree₂ with root := root₂ }.setParentOf root₂ none).numNodes + 1 := by
    have h := pathLength_add_size_le k (node red nil n nil)
    have hs : (k.fill (node red nil n nil)).size = T.size + 1 := by
      rw [size_eq, size_eq, hfill, ← hlist]
      simp only [List.length_append, List.length_cons]
      omega
    rw [hrel.numNodes, hnum, hv.numNodes]
    simp only [size] at h
    omega
  obtain ⟨tree', T', hfx, hT', hl', hbal', hrel'⟩ := ucsIntervalTreeInsertFixup_spec hfix hlen
  have hrel₁ := hrel.trans hrel'
  have hl : T'.toList = k.listL ++ n :: k.listR := hl'.trans hfill
  have hperm : (T'.toList ++ tree'.mpool).Perm (T.toList ++ tree.mpool) := by
    rw [hl, hrel₁.mpool, hmp, ← hlist]
    exact (List.perm_middle.append_right _).trans List.perm_middle.symm
  have hnT : n ∉ T := fun h => (List.nodup_append.mp hv.nodup).2.2 n (mem_toList.mpr h) n
    (by rw [hmp]; exact List.mem_cons_self) rfl
  have hkey : ∀ z, z ≠ n → startKey tree' z = startKey tree z := fun z hz => by
    rw [startKey_eq_of_rangeOf hrel₁.rangeOf]
    simp [startKey, hnodes, Function.update_of_ne hz]
  have hkn : startKey tree' n = st.toNat := by
    rw [startKey_eq_of_rangeOf hrel₁.rangeOf]
    simp [startKey, hnodes]
  have hmemT : ∀ z, z ∈ k.listL ∨ z ∈ k.listR → z ∈ T := fun z hz => by
    rw [← mem_toList, ← hlist, List.mem_append]
    exact hz
  have hne : ∀ z, z ∈ k.listL ∨ z ∈ k.listR → z ≠ n := fun z hz h => hnT (h ▸ hmemT z hz)
  have hL' : ∀ z ∈ k.listL, startKey tree z < st.toNat := fun z hz =>
    lt_of_le_of_ne (hL z hz) (hfresh z (hmemT z (.inl hz)))
  -- the order: the old nodes keep theirs, and the new one falls between the two sides
  have hsorted : T'.toList.Pairwise fun a b => startKey tree' a < startKey tree' b := by
    have hT := hv.sorted
    rw [← hlist, List.pairwise_append] at hT
    obtain ⟨hsL, hsR, hLR⟩ := hT
    rw [hl, List.pairwise_append, List.pairwise_cons]
    refine ⟨hsL.imp_of_mem fun ha hb h => ?_, ⟨fun b hb => ?_, hsR.imp_of_mem fun ha hb h => ?_⟩,
      fun a ha b hb => ?_⟩
    · rwa [hkey _ (hne _ (.inl ha)), hkey _ (hne _ (.inl hb))]
    · rw [hkn, hkey _ (hne _ (.inr hb))]
      exact hR b hb
    · rwa [hkey _ (hne _ (.inr ha)), hkey _ (hne _ (.inr hb))]
    · rw [hkey _ (hne _ (.inl ha))]
      rcases List.mem_cons.mp hb with rfl | hb
      · rw [hkn]
        exact hL' a ha
      · rw [hkey _ (hne _ (.inr hb))]
        exact hLR a ha b hb
  refine ⟨tree₂, root₂, tree', T', k.listL, k.listR, hins, hfx,
    ⟨hT', hperm.nodup_iff.mpr hv.nodup, hsorted, hbal', ?_⟩, hl, hlist, hL', hR, hperm, hrel₁⟩
  rw [hrel₁.numNodes, hnum, hv.numNodes, size_eq, size_eq, hl, ← hlist]
  simp
  omega

/-- After a created node is hung in, it holds the range it was created with, and every other node
the range it had. -/
lemma rangeOf_created {tree₁ tree' : UcsIntervalTree} {st en : UInt64} {n : Ptr}
    (hc : ucsIntervalTreeNodeCreate tree st en = some (tree₁, n)) (hrel : Relinked tree₁ tree') :
    tree'.rangeOf n = ⟨st, en⟩ ∧ ∀ z, z ≠ n → tree'.rangeOf z = tree.rangeOf z := by
  obtain ⟨-, hnodes, -, -, -⟩ := nodeCreate_eq hc
  refine ⟨?_, fun z hz => ?_⟩
  · rw [hrel.rangeOf]
    simp [rangeOf, hnodes]
  · rw [hrel.rangeOf]
    simp [rangeOf, hnodes, Function.update_of_ne hz]

/-! ### `ucs_interval_tree_insert_slow` -/

variable {range : UcsIntervalTreeRange}

open Relation IntervalTree in
/-- **`insert_slow` in memory refines the list model's, for any finder**: on a valid tree
standing for a valid list tree and an admissible range, it returns with a valid tree standing for
what the list model's `insert_slow` leaves, whichever node its search meets first; the pool has
a node for it whenever it had one before. -/
theorem ucsIntervalTreeInsertSlow_refines (F : UcsIntervalTreeFinder) (hv : tree.Valid T)
    (ha : (tree.abs T).Valid) (hr : range.Admissible) :
    ∃ (status : UcsStatus) (tree' : UcsIntervalTree) (T' : RBNode Ptr) (nodeAlloc : Bool),
      ucsIntervalTreeInsertSlow tree range = some (status, tree') ∧
      tree'.Valid T' ∧ (tree.mpool ≠ [] → nodeAlloc = true) ∧
      (status, tree'.abs T') = IntervalTree.ucsIntervalTreeInsertSlow F nodeAlloc (tree.abs T) range ∧
      (T'.toList ++ tree'.mpool).Perm (T.toList ++ tree.mpool) ∧
      tree.mpool.length ≤ tree'.mpool.length + 1 := by
  obtain ⟨tree₁, T₁, merged, hro, hv₁, hsteps, hdone, hperm₁, hmp₁⟩ :=
    removeOverlapping_merge (tree.numNodes + 1) hv ha hr (by rw [hv.numNodes]; omega)
  -- the search of the code ends where the list model's loop does
  have heq := eq_removeOverlapping_of_merge F ha hr hsteps hdone
  have hlist : ∀ b, IntervalTree.ucsIntervalTreeInsertSlow F b (tree.abs T) range =
      if b then (.ok, ⟨IntervalTree.ucsIntervalTreeInsertNode (tree₁.abs T₁).nodes merged,
        (tree₁.abs T₁).numNodes + 1, (tree₁.abs T₁).totalSize + (merged.end - merged.start)⟩)
      else (.errNoMemory, tree₁.abs T₁) := fun b => by
    simp only [IntervalTree.ucsIntervalTreeInsertSlow, ← heq]
  cases hc : ucsIntervalTreeNodeCreate tree₁ merged.start merged.end with
  | none =>
    -- the pool is empty: the merged nodes are gone and no node is hung in
    have hnil : tree₁.mpool = [] := by
      unfold ucsIntervalTreeNodeCreate at hc
      split at hc
      · assumption
      · cases hc
    refine ⟨.errNoMemory, tree₁, T₁, false, by simp [ucsIntervalTreeInsertSlow, hro, hc], hv₁,
      fun h => absurd (List.eq_nil_of_length_eq_zero (by rw [hnil] at hmp₁; simpa using hmp₁)) h,
      by rw [hlist]; rfl, hperm₁, by omega⟩
  | some p =>
    obtain ⟨tree₂, n⟩ := p
    -- the merged range touches no node left, so none starts where it does
    have hfresh : ∀ z ∈ T₁, startKey tree₁ z ≠ merged.start.toNat := fun z hz h => by
      have hmem : tree₁.rangeOf z ∈ (tree₁.abs T₁).nodes :=
        List.mem_map.mpr ⟨z, mem_toList.mpr hz, rfl⟩
      have ht := touches_of_start_eq hdone.2.1 (hdone.1.admissible _ hmem) (UInt64.toNat_inj.mp h)
      rw [hdone.2.2 _ hmem] at ht
      exact absurd ht (by decide)
    obtain ⟨tree₃, root₃, tree', T', L, R, hins, hfx, hv', hl, hLR, hL, hR, hperm, hrel⟩ :=
      insertCreated_spec hv₁ hc hfresh
    obtain ⟨hmp₂, -, -, hnum₂, htot₂⟩ := nodeCreate_eq hc
    refine ⟨.ok, tree', T', true, by simp [ucsIntervalTreeInsertSlow, hro, hc, hins, hfx], hv',
      fun _ => rfl, ?_, hperm.trans hperm₁, ?_⟩
    · have hnd : (L ++ n :: R).Nodup := hl ▸ (List.nodup_append.mp hv'.nodup).1
      rw [List.nodup_middle, List.nodup_cons, List.mem_append, not_or] at hnd
      obtain ⟨hrn, hoff'⟩ := rangeOf_created hc hrel
      have hoff : ∀ l : List Ptr, n ∉ l → l.map tree'.rangeOf = l.map tree₁.rangeOf := fun l hn =>
        List.map_congr_left fun z hz => hoff' z fun h' => hn (h' ▸ hz)
      have hbL : ∀ s ∈ L.map tree₁.rangeOf, s.start ≤ merged.start := by
        simp only [List.mem_map]
        rintro _ ⟨z, hz, rfl⟩
        exact UInt64.le_iff_toNat_le.mpr (hL z hz).le
      have hbR : ∀ s ∈ R.map tree₁.rangeOf, merged.start < s.start := by
        simp only [List.mem_map]
        rintro _ ⟨z, hz, rfl⟩
        exact UInt64.lt_iff_toNat_lt.mpr (hR z hz)
      rw [hlist, if_pos rfl]
      simp only [UcsIntervalTree.abs, Prod.mk.injEq, IntervalTree.UcsIntervalTree.mk.injEq,
        true_and]
      refine ⟨?_, by rw [hrel.numNodes, hnum₂], by rw [hrel.totalSize, htot₂]⟩
      rw [hl, ← hLR, List.map_append, List.map_append, List.map_cons, hoff L hnd.1.1,
        hoff R hnd.1.2, hrn, insertNode_of_bounds hbL hbR]
    · rw [hrel.mpool]
      rw [hmp₂] at hmp₁
      simpa using hmp₁

/-! ### `ucs_interval_tree_insert` -/

/-- A write of a node's range keeps the tree stored. -/
lemma Stores.modify_range {p : Ptr} {f : UcsIntervalNode → UcsIntervalNode}
    (hf : ∀ node, (f node).links = node.links) (h : tree.Stores T) : (tree.modify p f).Stores T := by
  unfold Stores
  rw [root_modify, subtreeAt_congr fun z _ => ?_]
  · exact h
  · rw [nodes_modify]
    split
    · next hz => rw [hz, hf]
    · rfl

/-- A tree of one node. -/
lemma eq_node_of_toList {z : Ptr} (h : T.toList = [z]) : ∃ c, T = node c nil z nil := by
  cases T with
  | nil => simp at h
  | node c a x b =>
    have hlen := congrArg List.length h
    simp only [toList_node, List.length_append, List.length_cons, List.length_nil] at hlen
    have ha : a = nil := by
      cases a with
      | nil => rfl
      | node _ _ _ _ => simp at hlen; omega
    have hb : b = nil := by
      cases b with
      | nil => rfl
      | node _ _ _ _ => simp at hlen; omega
    subst ha hb
    simp only [toList_node, toList_nil, List.nil_append, List.cons.injEq, and_true] at h
    exact ⟨c, by rw [h]⟩

/-- The tree in memory has one node: the root. -/
lemma UcsIntervalTree.Valid.eq_node_of_numNodes {root : Ptr} (hv : tree.Valid T) (hroot : tree.root = some root)
    (hnum : tree.numNodes = 1) : ∃ c, T = node c nil root nil := by
  obtain ⟨z, hz⟩ := List.length_eq_one_iff.mp (by rw [← size_eq, ← hv.numNodes, hnum] :
    T.toList.length = 1)
  obtain ⟨c, rfl⟩ := eq_node_of_toList hz
  have hr : tree.root = some z := hv.stores.eq_rootOf
  rw [hroot, Option.some.injEq] at hr
  exact ⟨c, by rw [hr]⟩

/-- **The fast path of `ucs_interval_tree_insert`**: the only node, which the range touches, is
widened over the range in place; the links, the colour and the pool stay. -/
lemma insert_fast {root : Ptr} {c : RBColor} (hv : tree.Valid (node c nil root nil))
    (hroot : tree.root = some root) (hnum : tree.numNodes = 1)
    (ht : ucsIntervalTouches range (tree.rangeOf root) = true) :
    ∃ tree', ucsIntervalTreeInsert tree range = some (.ok, tree') ∧
      tree'.Valid (node c nil root nil) ∧
      tree'.rangeOf root =
        ⟨min (tree.nodes root).start range.start, max (tree.nodes root).end range.end⟩ ∧
      tree'.mpool = tree.mpool ∧ tree'.numNodes = tree.numNodes ∧
      tree'.totalSize = tree.totalSize + ((max (tree.nodes root).end range.end -
        min (tree.nodes root).start range.start) - ((tree.nodes root).end - (tree.nodes root).start)) := by
  have ht' : ucsIntervalTouches range ⟨(tree.nodes root).start, (tree.nodes root).end⟩ = true := ht
  set f : UcsIntervalNode → UcsIntervalNode := fun node =>
    { node with start := min node.start range.start, «end» := max node.end range.end } with hf
  set tree' : UcsIntervalTree := { tree.modify root f with
    totalSize := tree.totalSize + ((max (tree.nodes root).end range.end -
      min (tree.nodes root).start range.start) - ((tree.nodes root).end - (tree.nodes root).start)) }
  have hins : ucsIntervalTreeInsert tree range = some (.ok, tree') := by
    simp [ucsIntervalTreeInsert, hroot, hnum, ht', tree', hf, UcsIntervalTree.modify]
  have hstores : tree'.Stores (node c nil root nil) := Stores.modify_range (fun _ => rfl) hv.stores
  refine ⟨tree', hins, ⟨hstores, hv.nodup, List.pairwise_singleton _ _, hv.balanced, hv.numNodes⟩,
    ?_, rfl, rfl, rfl⟩
  simp [tree', hf, rangeOf, UcsIntervalTree.modify]

/-- Off the fast path, `ucs_interval_tree_insert` is `insert_slow`. -/
lemma insert_eq_slow (hfast : ¬ ∃ root, tree.root = some root ∧ tree.numNodes = 1 ∧
      ucsIntervalTouches range (tree.rangeOf root) = true) :
    ucsIntervalTreeInsert tree range = ucsIntervalTreeInsertSlow tree range := by
  unfold ucsIntervalTreeInsert
  split
  · next root hroot =>
    exact if_neg fun h => hfast ⟨root, hroot, h.1, h.2⟩
  · rfl

open IntervalTree in
/-- **`ucs_interval_tree_insert` in memory refines the list model's, for any finder**: on a
valid tree standing for a valid list tree and an admissible range, the fast path for a single
touching node and the slow path both return with a valid tree standing for what the list model
leaves. -/
theorem ucsIntervalTreeInsert_refines (F : UcsIntervalTreeFinder) (hv : tree.Valid T)
    (ha : (tree.abs T).Valid) (hr : range.Admissible) :
    ∃ (status : UcsStatus) (tree' : UcsIntervalTree) (T' : RBNode Ptr) (nodeAlloc : Bool),
      ucsIntervalTreeInsert tree range = some (status, tree') ∧
      tree'.Valid T' ∧ (tree.mpool ≠ [] → nodeAlloc = true) ∧
      (status, tree'.abs T') = IntervalTree.ucsIntervalTreeInsert F nodeAlloc (tree.abs T) range ∧
      (T'.toList ++ tree'.mpool).Perm (T.toList ++ tree.mpool) ∧
      tree.mpool.length ≤ tree'.mpool.length + 1 := by
  by_cases hfast : ∃ root, tree.root = some root ∧ tree.numNodes = 1 ∧
      ucsIntervalTouches range (tree.rangeOf root) = true
  · -- one node that the range touches: it is widened in place
    obtain ⟨root, hroot, hnum, ht⟩ := hfast
    obtain ⟨c, rfl⟩ := hv.eq_node_of_numNodes hroot hnum
    obtain ⟨tree', hins, hv', hrange, hmp, hnum', htot⟩ := insert_fast hv hroot hnum ht
    have ht' : ucsIntervalTouches range ⟨(tree.nodes root).start, (tree.nodes root).end⟩ = true := ht
    refine ⟨.ok, tree', node c nil root nil, true, hins, hv', fun _ => rfl, ?_, by rw [hmp],
      by rw [hmp]; exact Nat.le_succ _⟩
    simp only [rangeOf, IntervalTree.UcsIntervalTreeRange.mk.injEq] at hrange
    simp [IntervalTree.ucsIntervalTreeInsert, UcsIntervalTree.abs, hrange, hnum', htot, rangeOf,
      ht', hnum]
  · -- otherwise both go the slow way
    have hslow := insert_eq_slow hfast
    have hlist : ∀ b, IntervalTree.ucsIntervalTreeInsert F b (tree.abs T) range =
        IntervalTree.ucsIntervalTreeInsertSlow F b (tree.abs T) range := fun b => by
      unfold IntervalTree.ucsIntervalTreeInsert
      split
      · next x hx =>
        refine if_neg ?_
        rintro ⟨hnum, ht⟩
        obtain ⟨z, hz, rfl⟩ : ∃ z, T.toList = [z] ∧ tree.rangeOf z = x :=
          List.map_eq_singleton_iff.mp hx
        obtain ⟨c, rfl⟩ := eq_node_of_toList hz
        exact hfast ⟨z, hv.stores.eq_rootOf, hnum, ht⟩
      · rfl
    obtain ⟨status, tree', T', b, h, hv', hb, heq, hperm, hlen⟩ :=
      ucsIntervalTreeInsertSlow_refines F hv ha hr
    exact ⟨status, tree', T', b, hslow ▸ h, hv', hb, (hlist b).symm ▸ heq, hperm, hlen⟩

/-! ### `ucs_interval_tree_pop_any` -/

open IntervalTree in
/-- **`ucs_interval_tree_pop_any` in memory refines the list model's**: on a valid tree it
returns the range of the node that comes first in order, and leaves a valid tree standing for
the list model's without that range; the node goes back to the pool. -/
theorem ucsIntervalTreePopAny_refines (hv : tree.Valid T) :
    ∃ r tree' T', ucsIntervalTreePopAny tree = some (r, tree') ∧ tree'.Valid T' ∧
      (r, tree'.abs T') = IntervalTree.ucsIntervalTreePopAny (tree.abs T) ∧
      (T'.toList ++ tree'.mpool).Perm (T.toList ++ tree.mpool) ∧
      tree.mpool.length ≤ tree'.mpool.length := by
  cases hroot : tree.root with
  | none =>
    -- an empty tree stays as it is
    obtain rfl : T = nil := by
      have h := hv.stores.eq_rootOf
      rw [hroot] at h
      cases T with
      | nil => rfl
      | node _ _ _ _ => simp [rootOf] at h
    exact ⟨none, tree, nil, by simp [ucsIntervalTreePopAny, hroot], hv,
      by simp [IntervalTree.ucsIntervalTreePopAny, UcsIntervalTree.abs], .refl _, le_rfl⟩
  | some root =>
    -- the leftmost node is the first in order, and it is removed
    have hsub : SubtreeAt tree.nodes none T (some root) := hroot ▸ hv.stores
    have hd : T.depth ≤ tree.numNodes + 1 := by
      have := depth_le_size T
      rw [hv.numNodes]
      omega
    obtain ⟨z, rest, hz, hl⟩ := leftmost_spec hsub hd
    have hzT : z ∈ T := mem_toList.mp (hl ▸ List.mem_cons_self)
    obtain ⟨tree₁, T₁, hrm, hv₁, habs, hperm⟩ := ucsIntervalTreeRemoveNode_valid hv hzT
    have hpop : ucsIntervalTreePopAny tree = some (some (tree.rangeOf z), tree₁) := by
      simp [ucsIntervalTreePopAny, hroot, hz, hrm]
      rfl
    refine ⟨some (tree.rangeOf z), tree₁, T₁, hpop, hv₁, ?_, hperm,
      (length_of_removeNode habs hperm hzT).2 ▸ Nat.le_succ _⟩
    rw [habs]
    simp [IntervalTree.ucsIntervalTreePopAny, UcsIntervalTree.abs, hl]

/-! ### Runs -/

open IntervalTree in
/-- **A call on the tree in memory refines the list model's**, for any finder, with a node in
the pool. -/
theorem ucsIntervalTreeStep_refines (F : UcsIntervalTreeFinder) {op : UcsIntervalTreeOp}
    (hv : tree.Valid T) (ha : (tree.abs T).Valid) (hop : op.Admissible) (hmp : tree.mpool ≠ []) :
    ∃ tree' T', ucsIntervalTreeStep tree op = some tree' ∧ tree'.Valid T' ∧
      tree'.abs T' = IntervalTree.ucsIntervalTreeStep F (tree.abs T) op ∧
      (T'.toList ++ tree'.mpool).Perm (T.toList ++ tree.mpool) ∧
      tree.mpool.length ≤ tree'.mpool.length + 1 := by
  cases op with
  | insert range =>
    obtain ⟨status, tree', T', b, h, hv', hb, heq, hperm, hlen⟩ :=
      ucsIntervalTreeInsert_refines F hv ha hop
    obtain rfl := hb hmp
    exact ⟨tree', T', by simp [ucsIntervalTreeStep, h], hv', congrArg Prod.snd heq, hperm, hlen⟩
  | popAny =>
    obtain ⟨r, tree', T', h, hv', heq, hperm, hlen⟩ := ucsIntervalTreePopAny_refines hv
    exact ⟨tree', T', by simp [ucsIntervalTreeStep, h], hv', congrArg Prod.snd heq, hperm,
      by omega⟩

open IntervalTree in
/-- A run of calls on the tree in memory refines the list model's, for any finder, while the pool
has a node for each call. -/
theorem ucsIntervalTreeRun_refines (F : UcsIntervalTreeFinder) :
    ∀ (ops : List UcsIntervalTreeOp) {tree : UcsIntervalTree} {T : RBNode Ptr} (S : Set ℕ),
      tree.Valid T → (tree.abs T).Valid → (∀ op ∈ ops, op.Admissible) →
      ops.length ≤ tree.mpool.length →
      ∃ tree' T', ucsIntervalTreeRun tree ops = some tree' ∧ tree'.Valid T' ∧
        tree'.abs T' = (IntervalTree.ucsIntervalTreeRun F (tree.abs T, S) ops).1 ∧
        (T'.toList ++ tree'.mpool).Perm (T.toList ++ tree.mpool)
  | [], tree, T, _, hv, _, _, _ => ⟨tree, T, rfl, hv, rfl, .refl _⟩
  | op :: ops, tree, T, S, hv, ha, hops, hlen => by
    have hmp : tree.mpool ≠ [] := fun h => by simp [h] at hlen
    obtain ⟨tree₁, T₁, h₁, hv₁, habs₁, hperm₁, hlen₁⟩ :=
      ucsIntervalTreeStep_refines F hv ha (hops op List.mem_cons_self) hmp
    have ha₁ : (tree₁.abs T₁).Valid := habs₁ ▸ (step_spec F ha rfl (hops op List.mem_cons_self)).1
    obtain ⟨tree', T', h', hv', habs', hperm'⟩ :=
      ucsIntervalTreeRun_refines F ops (coverStep (tree.abs T) S op) hv₁ ha₁
        (fun op' h => hops op' (List.mem_cons_of_mem op h)) (by simp at hlen; omega)
    refine ⟨tree', T', by simp [ucsIntervalTreeRun, h₁, h'], hv', ?_, hperm'.trans hperm₁⟩
    rw [habs', habs₁]
    rfl

open IntervalTree in
/-- **The interval tree in memory refines the list model**, for any finder. From
`ucs_interval_tree_init` over a pool of distinct nodes, any run of calls whose ranges do not end
at `UINT64_MAX`, with a pool node for each call, returns. It leaves a red-black tree in memory
with correct parent links, a black root and strictly increasing starts. Its height is at most
twice the logarithm of its size. Its ranges in order and its two counters are those of the list
model's run. Every node of the pool is either in the tree or on the free list, exactly once. -/
theorem ucsIntervalTreeRun_init_refines (F : UcsIntervalTreeFinder)
    (nodes : Ptr → UcsIntervalNode) (mpool : List Ptr) (ops : List UcsIntervalTreeOp)
    (hmp : mpool.Nodup) (hops : ∀ op ∈ ops, op.Admissible) (hlen : ops.length ≤ mpool.length) :
    ∃ tree T, ucsIntervalTreeRun (ucsIntervalTreeInit nodes mpool) ops = some tree ∧
      tree.Valid T ∧ T.depth ≤ 2 * (tree.numNodes + 1).log2 ∧
      tree.abs T = (IntervalTree.ucsIntervalTreeRun F (IntervalTree.ucsIntervalTreeInit, ∅) ops).1 ∧
      (T.toList ++ tree.mpool).Perm mpool := by
  have hv : (ucsIntervalTreeInit nodes mpool).Valid nil :=
    ⟨rfl, by simpa [ucsIntervalTreeInit] using hmp, List.Pairwise.nil, ⟨0, .nil⟩, rfl⟩
  have habs : (ucsIntervalTreeInit nodes mpool).abs nil = IntervalTree.ucsIntervalTreeInit := rfl
  obtain ⟨tree, T, hrun, hv', habs', hperm⟩ := ucsIntervalTreeRun_refines F ops ∅ hv
    (habs ▸ valid_init) hops hlen
  obtain ⟨n, hb⟩ := hv'.balanced
  refine ⟨tree, T, hrun, hv', ?_, habs ▸ habs', by simpa [ucsIntervalTreeInit] using hperm⟩
  rw [hv'.numNodes]
  exact hb.depth_bound

/-- Two ranges one apart inserted into a tree over a pool of two nodes. -/
theorem ucsIntervalTreeRun_init_refines_two_inserts :
    [0, 1].Nodup ∧
      (∀ op ∈ [.insert ⟨1, 2⟩, .insert ⟨4, 5⟩], UcsIntervalTreeOp.Admissible op) ∧
      [UcsIntervalTreeOp.insert ⟨1, 2⟩, .insert ⟨4, 5⟩].length ≤ [0, 1].length ∧
      ∃ tree T, ucsIntervalTreeRun (ucsIntervalTreeInit (fun _ => ⟨none, none, none, 0, 0, .red⟩)
          [0, 1]) [.insert ⟨1, 2⟩, .insert ⟨4, 5⟩] = some tree ∧
        tree.Valid T ∧ T.depth ≤ 2 * (tree.numNodes + 1).log2 ∧
        tree.abs T = (IntervalTree.ucsIntervalTreeRun IntervalTree.UcsIntervalTreeFinder.firstTouching
          (IntervalTree.ucsIntervalTreeInit, ∅) [.insert ⟨1, 2⟩, .insert ⟨4, 5⟩]).1 ∧
        (T.toList ++ tree.mpool).Perm [0, 1] := by
  have hops : ∀ op ∈ [UcsIntervalTreeOp.insert ⟨1, 2⟩, .insert ⟨4, 5⟩],
      UcsIntervalTreeOp.Admissible op := by
    simp only [List.mem_cons, List.not_mem_nil, or_false, forall_eq_or_imp, forall_eq]
    exact ⟨⟨by decide, by decide⟩, ⟨by decide, by decide⟩⟩
  exact ⟨by decide, hops, by decide,
    ucsIntervalTreeRun_init_refines _ _ _ _ (by decide) hops (by decide)⟩

end UcxProofs.IntervalRb
