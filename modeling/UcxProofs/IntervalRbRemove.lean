import UcxProofs.IntervalRbDelete

/-!
`ucs_interval_tree_remove_node` on the interval tree in memory. The search by start goes down to
the target, which the strictly increasing order of start finds; a node with an empty child is
spliced out and, when black, the deletion fixup of `IntervalRbDelete` runs from its slot; a node
with two children takes the range of its successor, which is then removed from the right
subtree. On the way back up, each `root->left->parent = root` writes the link the tree already
has. What is left is a balanced tree with one node fewer, holding in order the ranges it held
but the target's.
-/

namespace UcxProofs.IntervalRb

open RBTree RBTree.RBNode RBColor UcxProofs.RedBlack UcsIntervalTree
open UcxProofs.IntervalTree (UcsIntervalTreeRange)

variable {tree tree₁ tree₂ : UcsIntervalTree} {k : Path Ptr} {d : Side} {c : RBColor} {x z : Ptr}
  {s t : RBNode Ptr} {n₀ : ℕ}

/-! ### What a removal leaves -/

/-- `tree'` is `tree` with the node `z` taken out of the counters and given back to the pool, the
ranges of the nodes kept. -/
structure Removed (tree tree' : UcsIntervalTree) (z : Ptr) : Prop where
  rangeOf : tree'.rangeOf = tree.rangeOf
  mpool : tree'.mpool = z :: tree.mpool
  numNodes : tree'.numNodes = tree.numNodes - 1
  totalSize : tree'.totalSize = tree.totalSize - ((tree.rangeOf z).end - (tree.rangeOf z).start)

lemma Relinked.removed (h₁ : Relinked tree tree₁) (h₂ : Removed tree₁ tree₂ z) :
    Removed tree tree₂ z :=
  ⟨h₂.rangeOf.trans h₁.rangeOf, by rw [h₂.mpool, h₁.mpool], by rw [h₂.numNodes, h₁.numNodes],
    by rw [h₂.totalSize, h₁.totalSize, h₁.rangeOf]⟩

lemma Removed.relinked (h₁ : Removed tree tree₁ z) (h₂ : Relinked tree₁ tree₂) :
    Removed tree tree₂ z :=
  ⟨h₂.rangeOf.trans h₁.rangeOf, by rw [h₂.mpool, h₁.mpool], by rw [h₂.numNodes, h₁.numNodes],
    by rw [h₂.totalSize, h₁.totalSize]⟩

lemma removed_deleteNode : Removed tree (ucsIntervalTreeDeleteNode tree z) z :=
  ⟨rfl, rfl, rfl, rfl⟩

lemma relinked_setSlot {sl : Slot} {q : Option Ptr} : Relinked tree (tree.setSlot sl q) :=
  ⟨by simp, by simp, by simp, by simp⟩

lemma relinked_setParentOf {q v : Option Ptr} : Relinked tree (tree.setParentOf q v) :=
  ⟨by simp, by simp, by simp, by simp⟩

/-! ### Taking out a node with an empty child -/

/-- **A node with an empty child is spliced out**: its other child takes its slot and its parent,
the node goes back to the pool, and when it was black the deletion fixup balances the tree. -/
theorem removeSplice_spec (hT : tree.Stores (k.fill (mk d c x nil s)))
    (hnd : (k.fill (mk d c x nil s)).toList.Nodup)
    (hb : (k.fill (mk d c x nil s)).Balanced black n₀)
    (hnum : tree.numNodes = (k.fill (mk d c x nil s)).size) :
    ∃ tree' T, removeSplice tree (slotOf k) x (rootOf s) = some tree' ∧ tree'.Stores T ∧
      T.toList = (k.fill s).toList ∧ (∃ m, T.Balanced black m) ∧ Removed tree tree' x := by
  obtain ⟨q, hq, -⟩ := stores_fill.mp hT
  obtain ⟨-, hpar, hcol, -, -⟩ := subtreeAt_mk.mp hq
  have hT₃ : (ucsIntervalTreeDeleteNode ((tree.setSlot (slotOf k) (rootOf s)).setParentOf
      (rootOf s) (parentOf k)) x).Stores (k.fill s) := Stores.splice hT hnd
  have hrem : Removed tree (ucsIntervalTreeDeleteNode ((tree.setSlot (slotOf k) (rootOf s)).setParentOf
      (rootOf s) (parentOf k)) x) x :=
    (relinked_setSlot.trans relinked_setParentOf).removed removed_deleteNode
  unfold removeSplice
  simp only [hpar, hcol]
  rcases del_splice hb with ⟨rfl, hb'⟩ | ⟨rfl, hk, hs⟩
  · -- a red node: no black node is missing
    exact ⟨_, _, by simp, hT₃, rfl, ⟨_, hb'⟩, hrem⟩
  · -- a black node: the fixup from its slot
    have hnd' : (k.fill s).toList.Nodup := by
      rw [toList_fill_splice hnd]
      exact hnd.erase x
    have hfix : DelFix (ucsIntervalTreeDeleteNode ((tree.setSlot (slotOf k) (rootOf s)).setParentOf
        (rootOf s) (parentOf k)) x) n₀ k s := by
      refine ⟨hT₃, hnd', ?_⟩
      rcases hs with hs | ⟨hr, hs⟩
      · exact .inl ⟨0, hk, hs⟩
      · exact .inr ⟨hr, 1, hk, hs⟩
    have hlen := pathLength_add_size_le k (mk d black x nil s)
    obtain ⟨tree', T, hfx, hT', hl, hbal, hrel⟩ := ucsIntervalTreeDeleteFixup_spec hfix rfl rfl
      (by simp only [numNodes_ucsIntervalTreeDeleteNode, numNodes_setParentOf, numNodes_setSlot,
        hnum, size_mk] at hlen ⊢; omega)
    exact ⟨tree', T, by simpa using hfx, hT', hl, hbal, hrem.relinked hrel⟩

/-! ### The successor -/

/-- `while (node->left != NULL) node = node->left;` ends at the first node of the subtree in
order, given fuel for its depth. -/
lemma leftmost_spec : ∀ {t : RBNode Ptr} {par : Option Ptr} {r : Ptr} {fuel : ℕ},
    SubtreeAt tree.nodes par t (some r) → t.depth ≤ fuel →
    ∃ z rest, leftmost fuel tree r = some z ∧ t.toList = z :: rest
  | nil, _, _, _, h, _ => absurd h (by simp)
  | node c a y b, par, r, fuel, ⟨hr, _, _, ha, _⟩, hf => by
    cases Option.some.inj hr
    obtain ⟨fuel, rfl⟩ : ∃ f, fuel = f + 1 := ⟨fuel - 1, by simp [depth] at hf; omega⟩
    cases a with
    | nil =>
      -- no left child: the node itself
      exact ⟨y, b.toList, by simp [leftmost, show (tree.nodes y).left = none from ha], by simp⟩
    | node ca aa ya ab =>
      -- the first node of the left subtree
      have hl : (tree.nodes y).left = some ya := ha.1
      have ha' : SubtreeAt tree.nodes (some y) (node ca aa ya ab) (some ya) := hl ▸ ha
      obtain ⟨z, rest, hz, hzl⟩ := leftmost_spec ha'
        (le_trans (le_max_left _ _) (Nat.le_of_succ_le_succ hf))
      refine ⟨z, rest ++ y :: b.toList, ?_, by simp [hzl]⟩
      simp [leftmost, hl, hz]

/-! ### `ucs_interval_tree_remove_node` -/

/-- The state of `ucs_interval_tree_remove_node` at the slot of the hole of `k`, where `t` stands:
the whole tree `k.fill t` in memory, of distinct nodes off the free list, balanced and counted,
with `target` in `t` and `t` in strictly increasing order of start. -/
structure RemoveAt (tree : UcsIntervalTree) (k : Path Ptr) (t : RBNode Ptr) (target : Ptr) :
    Prop where
  stores : tree.Stores (k.fill t)
  nodup : ((k.fill t).toList ++ tree.mpool).Nodup
  balanced : ∃ n₀, (k.fill t).Balanced black n₀
  numNodes : tree.numNodes = (k.fill t).size
  sorted : t.toList.Pairwise fun a b => startKey tree a < startKey tree b
  mem : target ∈ t

/-- What `ucs_interval_tree_remove_node` from the hole of `k` leaves: a balanced tree `T` in
memory, the tree `k.fill t` without a node `z` of `t`, which went back to the pool, and in order
the ranges of `k.fill t` without that of `target`. -/
def RemovedFrom (tree tree' : UcsIntervalTree) (k : Path Ptr) (t : RBNode Ptr) (target : Ptr) :
    Prop :=
  ∃ T z l₁ l₂, tree'.Stores T ∧ (∃ m, T.Balanced black m) ∧ z ∈ t ∧
    T.toList = (k.fill t).toList.erase z ∧ tree'.mpool = z :: tree.mpool ∧
    tree'.numNodes = tree.numNodes - 1 ∧
    tree'.totalSize = tree.totalSize - ((tree.rangeOf target).end - (tree.rangeOf target).start) ∧
    (k.fill t).toList = l₁ ++ target :: l₂ ∧
    T.toList.map tree'.rangeOf = l₁.map tree.rangeOf ++ l₂.map tree.rangeOf

variable {target : Ptr}

lemma RemoveAt.nodup_fill (h : RemoveAt tree k t target) : (k.fill t).toList.Nodup :=
  h.nodup.sublist (List.sublist_append_left _ _)

/-- The search goes down to the subtree on side `d` of the node at the hole. -/
lemma RemoveAt.down {a : RBNode Ptr} {y : Ptr} (h : RemoveAt tree k (RedBlack.mk d c y a s) target)
    (ha : target ∈ a) : RemoveAt tree (down d c y s k) a target := by
  have hs : a.toList.Pairwise fun a b => startKey tree a < startKey tree b := by
    have := h.sorted
    cases d
    · exact (pairwise_toList_node.mp this).1
    · exact (pairwise_toList_node.mp this).2.1
  exact ⟨by simpa using h.stores, by simpa using h.nodup, by simpa using h.balanced,
    by simpa using h.numNodes, hs, ha⟩

/-- Coming back up from the subtree on side `d`: `root->left->parent = root` (or `right`) writes
the parent link the tree already has. -/
lemma RemovedFrom.up {tree' : UcsIntervalTree} {a : RBNode Ptr} {y : Ptr}
    (h : RemovedFrom tree tree' (down d c y s k) a target)
    (hnd : (k.fill (mk d c y a s)).toList.Nodup) :
    RemovedFrom tree (tree'.relinkChild y d) k (mk d c y a s) target := by
  obtain ⟨T, z, l₁, l₂, hT, hbal, hz, hl, hmp, hnum, htot, hsplit, hr⟩ := h
  simp only [fill_down] at hl hsplit
  have hya : y ∉ a := ((nodup_mk.mp (nodup_fill.mp hnd).1).1)
  have hy : y ∈ T := by
    rw [← mem_toList, hl, List.Nodup.mem_erase_iff hnd]
    exact ⟨fun h => hya (h ▸ hz), mem_toList.mpr (mem_fill.mpr (.inl (mem_mk.mpr (.inl rfl))))⟩
  rw [Stores.relinkChild_eq hT hy]
  exact ⟨T, z, l₁, l₂, hT, hbal, mem_mk.mpr (.inr (.inl hz)), hl, hmp, hnum, htot, hsplit, hr⟩

/-- A node spliced out by `removeSplice` leaves what the removal promises, the node being the
target. -/
lemma removedFrom_splice {tree' : UcsIntervalTree} {T : RBNode Ptr}
    (hnd : (k.fill (mk d c x nil s)).toList.Nodup) (hT : tree'.Stores T)
    (hbal : ∃ m, T.Balanced black m) (hl : T.toList = (k.fill s).toList)
    (hrem : Removed tree tree' x) : RemovedFrom tree tree' k (mk d c x nil s) x := by
  have hxL : x ∈ (k.fill (mk d c x nil s)).toList :=
    mem_toList.mpr (mem_fill.mpr (.inl (mem_mk.mpr (.inl rfl))))
  obtain ⟨l₁, l₂, hsplit⟩ := List.append_of_mem hxL
  have hx : x ∉ l₁ := by
    have h := hnd
    rw [hsplit, List.nodup_middle, List.nodup_cons] at h
    exact fun hx => h.1 (List.mem_append_left _ hx)
  have herase : (k.fill (mk d c x nil s)).toList.erase x = l₁ ++ l₂ := by
    rw [hsplit, List.erase_append_right _ hx, List.erase_cons_head]
  refine ⟨T, x, l₁, l₂, hT, hbal, mem_mk.mpr (.inl rfl), hl.trans (toList_fill_splice hnd),
    hrem.mpool, hrem.numNodes, hrem.totalSize, hsplit, ?_⟩
  rw [hl, toList_fill_splice hnd, herase, hrem.rangeOf, List.map_append]

/-- The removal of the successor `sc` from the right subtree of `y`, after `y` took its range,
takes `y`'s range out of the order. -/
lemma RemovedFrom.successor {tree₃ tree' : UcsIntervalTree} {a b : RBNode Ptr} {y sc : Ptr}
    {rest : List Ptr} (h : RemovedFrom tree₃ tree' k (node c a y b) sc)
    (hb : b.toList = sc :: rest) (hnd : (k.fill (node c a y b)).toList.Nodup)
    (hr₃ : ∀ w, w ≠ y → tree₃.rangeOf w = tree.rangeOf w) (hy₃ : tree₃.rangeOf y = tree.rangeOf sc)
    (hmp : tree₃.mpool = tree.mpool) (hnum : tree₃.numNodes = tree.numNodes)
    (htot : tree₃.totalSize - ((tree₃.rangeOf sc).end - (tree₃.rangeOf sc).start) =
      tree.totalSize - ((tree.rangeOf y).end - (tree.rangeOf y).start)) :
    RemovedFrom tree tree' k (node c a y b) y := by
  obtain ⟨T, z, l₁, l₂, hT, hbal, hz, hl, hmp', hnum', htot', hsplit, hrng⟩ := h
  have hL : (k.fill (node c a y b)).toList =
      (k.listL ++ a.toList) ++ y :: (sc :: rest ++ k.listR) := by
    simp [Path.fill_toList, Path.withList, hb]
  have hL' : (k.fill (node c a y b)).toList =
      (k.listL ++ a.toList ++ [y]) ++ sc :: (rest ++ k.listR) := by
    rw [hL]
    simp
  -- the split at the successor is the one right after `y`
  have hndy := hnd
  rw [hL, List.nodup_middle, List.nodup_cons] at hndy
  have hnds := hnd
  rw [hL', List.nodup_middle, List.nodup_cons] at hnds
  obtain ⟨rfl, -, rfl⟩ := (List.append_cons_inj_of_notMem
    (fun h' => hnds.1 (List.mem_append_left _ h')) (fun h' => hnds.1 (List.mem_append_right _ h'))).mp
    (hL'.symm.trans hsplit)
  have hoff : ∀ l : List Ptr, y ∉ l → l.map tree₃.rangeOf = l.map tree.rangeOf := fun l hl' =>
    List.map_congr_left fun w hw => hr₃ w fun h' => hl' (h' ▸ hw)
  refine ⟨T, z, k.listL ++ a.toList, sc :: rest ++ k.listR, hT, hbal, hz, hl, by rw [hmp', hmp],
    by rw [hnum', hnum], by rw [htot', htot], hL, ?_⟩
  have hy := hndy.1
  simp only [List.mem_append, List.mem_cons, not_or] at hy
  obtain ⟨⟨hyL, hya⟩, ⟨-, hyr⟩, hyR⟩ := hy
  rw [hrng]
  simp only [List.map_append, List.map_cons, List.map_nil]
  rw [hoff _ hyL, hoff _ hya, hoff _ hyr, hoff _ hyR, hy₃]
  simp

/-- The found node `y` with two children takes the range of its successor `sc`, `total_size`
moving from `y`'s size to `sc`'s, and the successor is removed from the right subtree. -/
lemma removeNode_successor_eq {fuel : ℕ} {sl : Slot} {y la rb sc : Ptr}
    (hget : tree.getSlot sl = some y) (hl : (tree.nodes y).left = some la)
    (hr : (tree.nodes y).right = some rb) (hsc : leftmost fuel tree rb = some sc) :
    ucsIntervalTreeRemoveNode (fuel + 1) tree sl y =
      (ucsIntervalTreeRemoveNode fuel { tree with
          nodes := Function.update tree.nodes y
            { tree.nodes y with start := (tree.nodes sc).start, «end» := (tree.nodes sc).end },
          totalSize := tree.totalSize - ((tree.nodes y).end - (tree.nodes y).start) +
            ((tree.nodes sc).end - (tree.nodes sc).start) }
        (.child y .right) sc).map (·.relinkChild y .right) := by
  simp [ucsIntervalTreeRemoveNode, hget, hl, hr, hsc, UcsIntervalTree.modify]

/-- The found node with two children: its successor is found, copied into it and removed. -/
lemma removeNode_two_children {fuel : ℕ} {a b : RBNode Ptr} {y : Ptr}
    (ih : ∀ {tree : UcsIntervalTree} {k : Path Ptr} {t : RBNode Ptr} {target : Ptr},
      RemoveAt tree k t target → t.depth < fuel →
      ∃ tree', ucsIntervalTreeRemoveNode fuel tree (slotOf k) target = some tree' ∧
        RemovedFrom tree tree' k t target)
    (h : RemoveAt tree k (node c a y b) y) (hf : (node c a y b).depth < fuel + 1)
    (ha : a ≠ nil) (hb : b ≠ nil) :
    ∃ tree', ucsIntervalTreeRemoveNode (fuel + 1) tree (slotOf k) y = some tree' ∧
      RemovedFrom tree tree' k (node c a y b) y := by
  obtain ⟨q, hq, hk⟩ := stores_fill.mp h.stores
  obtain ⟨rfl, -, -, hsa, hsb⟩ := hq
  have hget : tree.getSlot (slotOf k) = some y := getSlot_slotOf hk
  obtain ⟨la, hla⟩ : ∃ la, (tree.nodes y).left = some la := by
    cases a with
    | nil => exact absurd rfl ha
    | node _ _ _ _ => exact ⟨_, hsa.1⟩
  obtain ⟨rb, hrb⟩ : ∃ rb, (tree.nodes y).right = some rb := by
    cases b with
    | nil => exact absurd rfl hb
    | node _ _ _ _ => exact ⟨_, hsb.1⟩
  have hdb : b.depth < fuel := by simp only [depth] at hf; omega
  obtain ⟨sc, rest, hsc, hbl⟩ := leftmost_spec (hrb ▸ hsb) hdb.le
  have hnd := h.nodup_fill
  have hyb : y ∉ b := (nodup_node.mp (nodup_fill.mp hnd).1).2.1
  have hscb : sc ∈ b := mem_toList.mp (hbl ▸ List.mem_cons_self)
  have hscy : sc ≠ y := fun h' => hyb (h' ▸ hscb)
  rw [removeNode_successor_eq hget hla hrb hsc]
  set tree₃ : UcsIntervalTree := { tree with
    nodes := Function.update tree.nodes y
      { tree.nodes y with start := (tree.nodes sc).start, «end» := (tree.nodes sc).end },
    totalSize := tree.totalSize - ((tree.nodes y).end - (tree.nodes y).start) +
      ((tree.nodes sc).end - (tree.nodes sc).start) } with htree₃
  -- the copy writes a range: the links, the pool and the counters stay
  have hlinks : ∀ w, (tree₃.nodes w).links = (tree.nodes w).links := fun w => by
    by_cases hw : w = y
    · subst hw
      simp [htree₃, UcsIntervalNode.links]
    · simp [htree₃, Function.update_of_ne hw]
  have hr₃ : ∀ w, w ≠ y → tree₃.rangeOf w = tree.rangeOf w := fun w hw => by
    simp [htree₃, rangeOf, Function.update_of_ne hw]
  have hkey : ∀ w ∈ b, startKey tree₃ w = startKey tree w := fun w hw => by
    simp [startKey, htree₃, Function.update_of_ne (fun h' : w = y => hyb (h' ▸ hw))]
  have hstore : tree₃.Stores ((down .right c y a k).fill b) := by
    have := h.stores
    unfold Stores at this ⊢
    rw [subtreeAt_congr (fun w _ => hlinks w)]
    simpa using this
  have hrem₃ : RemoveAt tree₃ (down .right c y a k) b sc :=
    ⟨hstore, by simpa [htree₃] using h.nodup, by simpa using h.balanced,
      by simpa [htree₃] using h.numNodes,
      (pairwise_toList_node.mp h.sorted).2.1.imp_of_mem fun hu hw hlt => by
        rwa [hkey _ (mem_toList.mp hu), hkey _ (mem_toList.mp hw)], hscb⟩
  obtain ⟨tree', hr, hrem⟩ := ih hrem₃ hdb
  rw [slotOf_down] at hr
  refine ⟨_, by rw [hr]; rfl, ?_⟩
  have hup := hrem.up (by simpa using hnd)
  simp only [mk_right] at hup
  exact hup.successor hbl hnd hr₃ (by simp [htree₃, rangeOf]) (by simp [htree₃])
    (by simp [htree₃]) (by rw [hr₃ sc hscy]; simp [htree₃, rangeOf])

/-- **`ucs_interval_tree_remove_node` takes out the target's range.** From the slot of a subtree
in strictly increasing order of start that holds `target`, with fuel for its depth, the search by
start finds the target, and the tree left is balanced, one node smaller, and holds in order the
ranges it held but the target's. -/
theorem removeNode_spec : ∀ (fuel : ℕ) {tree : UcsIntervalTree} {k : Path Ptr} {t : RBNode Ptr}
    {target : Ptr}, RemoveAt tree k t target → t.depth < fuel →
    ∃ tree', ucsIntervalTreeRemoveNode fuel tree (slotOf k) target = some tree' ∧
      RemovedFrom tree tree' k t target
  | 0, _, _, _, _, _, hf => absurd hf (Nat.not_lt_zero _)
  | fuel + 1, tree, k, t, target, h, hf => by
    cases t with
    | nil => exact absurd h.mem (by simp)
    | node c a y b =>
    obtain ⟨q, hq, hk⟩ := stores_fill.mp h.stores
    have hget : tree.getSlot (slotOf k) = some y := (getSlot_slotOf hk).trans hq.1
    obtain ⟨-, -, -, hsa, hsb⟩ := hq
    obtain ⟨-, -, hay, hyb, -⟩ := pairwise_toList_node.mp h.sorted
    have hnd := h.nodup_fill
    have hkey : ∀ u w, (tree.nodes u).start < (tree.nodes w).start ↔
        startKey tree u < startKey tree w := fun _ _ => UInt64.lt_iff_toNat_lt
    have hda : a.depth < fuel := by simp only [depth] at hf; omega
    have hdb : b.depth < fuel := by simp only [depth] at hf; omega
    by_cases hlt : (tree.nodes target).start < (tree.nodes y).start
    · -- the target starts before the node: it is in the left subtree
      have hta : target ∈ a := by
        rcases mem_node.mp h.mem with rfl | hta | htb
        · exact absurd ((hkey _ _).mp hlt) (lt_irrefl _)
        · exact hta
        · exact absurd ((hkey _ _).mp hlt) (lt_asymm (hyb target htb))
      obtain ⟨tree', hr, hrem⟩ :=
        removeNode_spec fuel (RemoveAt.down (d := .left) (by simpa using h) hta) hda
      rw [slotOf_down] at hr
      refine ⟨tree'.relinkChild y .left, by simp [ucsIntervalTreeRemoveNode, hget, hlt, hr], ?_⟩
      simpa using hrem.up (by simpa using hnd)
    by_cases hgt : (tree.nodes target).start > (tree.nodes y).start
    · -- the target starts after the node: it is in the right subtree
      have htb : target ∈ b := by
        rcases mem_node.mp h.mem with rfl | hta | htb
        · exact absurd ((hkey _ _).mp hgt) (lt_irrefl _)
        · exact absurd ((hkey _ _).mp hgt) (lt_asymm (hay target hta))
        · exact htb
      obtain ⟨tree', hr, hrem⟩ :=
        removeNode_spec fuel (RemoveAt.down (d := .right) (by simpa using h) htb) hdb
      rw [slotOf_down] at hr
      refine ⟨tree'.relinkChild y .right, by simp [ucsIntervalTreeRemoveNode, hget, hlt, hgt, hr],
        ?_⟩
      simpa using hrem.up (by simpa using hnd)
    -- the node starts where the target does: it is the target
    obtain rfl : target = y := by
      rcases mem_node.mp h.mem with hty | hta | htb
      · exact hty
      · exact absurd ((hkey _ _).mpr (hay target hta)) hlt
      · exact absurd ((hkey _ _).mpr (hyb target htb)) hgt
    obtain ⟨n₀, hbal⟩ := h.balanced
    have hnlt : ¬ (tree.nodes target).start < (tree.nodes target).start := fun h' =>
      lt_irrefl _ ((hkey _ _).mp h')
    cases a with
    | nil =>
      -- no left child: the right one takes the node's place
      have hs : tree.Stores (k.fill (mk .left c target nil b)) := h.stores
      obtain ⟨tree', T, hsp, hT, hl, hbal', hrem⟩ :=
        removeSplice_spec hs hnd hbal h.numNodes
      refine ⟨tree', ?_, removedFrom_splice (d := .left) hnd hT hbal' hl hrem⟩
      simp only [ucsIntervalTreeRemoveNode, hget, hnlt, if_false,
        show (tree.nodes target).left = none from hsa, hsb.eq_rootOf]
      exact hsp
    | node ca aa ya ab =>
      cases b with
      | nil =>
        -- no right child: the left one takes the node's place
        have hs : tree.Stores (k.fill (mk .right c target nil (node ca aa ya ab))) := h.stores
        obtain ⟨tree', T, hsp, hT, hl, hbal', hrem⟩ :=
          removeSplice_spec hs hnd hbal h.numNodes
        refine ⟨tree', ?_, removedFrom_splice (d := .right) hnd hT hbal' hl hrem⟩
        simp only [ucsIntervalTreeRemoveNode, hget, hnlt, if_false,
          show (tree.nodes target).left = some ya from hsa.1,
          show (tree.nodes target).right = none from hsb]
        exact hsp
      | node cb ba yb bb =>
        -- two children: the successor's range is copied and the successor removed
        exact removeNode_two_children (fun h' hd => removeNode_spec fuel h' hd) h hf
          (by simp) (by simp)

/-- Removing one of the nodes from the tree and giving it to the pool keeps them distinct. -/
lemma nodup_erase_append {L M : List Ptr} (h : (L ++ M).Nodup) (hz : z ∈ L) :
    (L.erase z ++ z :: M).Nodup := by
  have hp : (L.erase z ++ z :: M).Perm (L ++ M) :=
    List.perm_middle.trans ((List.perm_cons_erase hz).symm.append_right M)
  exact hp.nodup_iff.mpr h

/-- **`ucs_interval_tree_remove_node` from the root keeps the tree valid**: on a valid tree that
holds `target`, it returns, and leaves a valid tree that stands for the list model's tree without
`target`'s range; the node taken out of the tree goes back to the pool. -/
theorem ucsIntervalTreeRemoveNode_valid {T : RBNode Ptr} (hv : tree.Valid T) (hz : target ∈ T) :
    ∃ tree' T', ucsIntervalTreeRemoveNode (tree.numNodes + 1) tree .root target = some tree' ∧
      tree'.Valid T' ∧
      tree'.abs T' = IntervalTree.ucsIntervalTreeRemoveNode (tree.abs T) (tree.rangeOf target) ∧
      (T'.toList ++ tree'.mpool).Perm (T.toList ++ tree.mpool) := by
  have hat : RemoveAt tree .root T target :=
    ⟨hv.stores, hv.nodup, hv.balanced, hv.numNodes, hv.sorted, hz⟩
  have hd : T.depth < tree.numNodes + 1 := by
    have := depth_le_size T
    rw [hv.numNodes]
    omega
  obtain ⟨tree', hr, T', z, l₁, l₂, hT, hbal, hzT, hl, hmp, hnum, htot, hsplit, hrng⟩ :=
    removeNode_spec _ hat hd
  simp only [Path.fill] at hl hsplit
  -- the nodes before the target start before it, so none holds its range
  have hsorted := hv.sorted
  rw [hsplit, List.pairwise_append, List.pairwise_cons] at hsorted
  have hbefore : tree.rangeOf target ∉ l₁.map tree.rangeOf := by
    simp only [List.mem_map, not_exists, not_and]
    intro u hu heq
    have hlt := hsorted.2.2 u hu target List.mem_cons_self
    simp only [startKey] at hlt
    have hst : (tree.nodes u).start = (tree.nodes target).start := congrArg (·.start) heq
    rw [hst] at hlt
    exact lt_irrefl _ hlt
  have hkeys : T'.toList.map (startKey tree') = (l₁ ++ l₂).map (startKey tree) := by
    have := congrArg (List.map fun r : UcsIntervalTreeRange => r.start.toNat) hrng
    simp only [List.map_map, List.map_append] at this ⊢
    exact this
  have hnum' : tree'.numNodes = tree.numNodes - 1 := hnum
  refine ⟨tree', T', hr, ⟨hT, ?_, ?_, hbal, ?_⟩, ?_, ?_⟩
  · rw [hl, hmp]
    exact nodup_erase_append hv.nodup (mem_toList.mpr hzT)
  · have hsub : (l₁ ++ l₂).Pairwise fun a b => startKey tree a < startKey tree b :=
      List.pairwise_append.mpr ⟨hsorted.1, hsorted.2.1.2,
        fun a ha b hb => hsorted.2.2 a ha b (List.mem_cons_of_mem _ hb)⟩
    have hmap : ((l₁ ++ l₂).map (startKey tree)).Pairwise (· < ·) := List.pairwise_map.mpr hsub
    rw [← hkeys] at hmap
    exact List.pairwise_map.mp hmap
  · rw [hnum, hv.numNodes, size_eq, size_eq, hl,
      List.length_erase_of_mem (mem_toList.mpr hzT)]
  · simp only [UcsIntervalTree.abs, IntervalTree.ucsIntervalTreeRemoveNode, hnum', htot]
    rw [hrng, hsplit, List.map_append, List.map_cons, List.erase_append_right _ hbefore,
      List.erase_cons_head]
  · rw [hl, hmp]
    exact List.perm_middle.trans ((List.perm_cons_erase (mem_toList.mpr hzT)).symm.append_right _)

end UcxProofs.IntervalRb
