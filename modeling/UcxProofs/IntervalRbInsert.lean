import UcxProofs.IntervalRbRepr

/-!
Insertion into the interval tree in memory: `ucs_interval_tree_insert_node` hangs the new red node
where the search by start ends, the place Batteries' `RBNode.zoom` finds for that search, and each
round of `ucs_interval_tree_insert_fixup` is one of the insertion steps of `Lib.RedBlack` carried
out by the paints and rotations of `IntervalRbRepr`, until the loop ends in a tree that painting
the root black balances.
-/

namespace UcxProofs.IntervalRb

open RBTree RBTree.RBNode RBColor UcxProofs.RedBlack UcsIntervalTree

variable {tree : UcsIntervalTree} {n y z : Ptr} {d : Side} {c : RBColor} {s t : RBNode Ptr}
  {k : Path Ptr}

/-! ### `ucs_interval_tree_insert_node` -/

/-- The tree with `n` hung in the empty place at the hole of `k`, as the innermost call of
`ucs_interval_tree_insert_node` and its caller leave it. -/
def hangAt (tree : UcsIntervalTree) (n : Ptr) : Path Ptr → UcsIntervalTree
  | .root => tree
  | .left _ _ y _ => (tree.setChild y .left (some n)).relinkChild y .left
  | .right _ _ y _ => (tree.setChild y .right (some n)).relinkChild y .right

lemma hangAt_down :
    hangAt tree n (down d c y s k) = (tree.setChild y d (some n)).setParent n (some y) := by
  cases d <;> simp [hangAt, down, relinkChild, nodes_setChild, setParentOf,
    UcsIntervalNode.setChild]

lemma nodes_hangAt (hz : parentOf k ≠ some z) (hzn : z ≠ n) :
    (hangAt tree n k).nodes z = tree.nodes z := by
  rcases path_cases k with rfl | ⟨dk, ck, np, s', k', rfl⟩
  · rfl
  · simp only [parentOf_down, ne_eq, Option.some.injEq] at hz
    simp [hangAt_down, nodes_setParent, nodes_setChild, hzn, Ne.symm hz]

lemma parent_hangAt (hzn : z ≠ n) : ((hangAt tree n k).nodes z).parent = (tree.nodes z).parent := by
  rcases path_cases k with rfl | ⟨dk, ck, np, s', k', rfl⟩
  · rfl
  · by_cases hz : z = np
    · subst hz
      simp [hangAt_down, nodes_setParent, nodes_setChild, hzn]
    · simp [hangAt_down, nodes_setParent, nodes_setChild, hzn, hz]

lemma relinkChild_self (h : ∀ r, (tree.nodes y).child d = some r → (tree.nodes r).parent = some y) :
    tree.relinkChild y d = tree := by
  unfold relinkChild
  cases hr : (tree.nodes y).child d with
  | none => rfl
  | some r => exact setParent_self (h r hr)

lemma startKey_lt : startKey tree n < startKey tree y ↔ (tree.nodes n).start < (tree.nodes y).start :=
  UInt64.lt_iff_toNat_lt.symm

/-- The descent from a node into the child on the side the search takes. -/
lemma exists_side_zoom (tree : UcsIntervalTree) (n y : Ptr) (c : RBColor) (a b : RBNode Ptr)
    (k : Path Ptr) :
    ∃ d ta tb, node c a y b = mk d c y ta tb ∧
      (if (tree.nodes n).start < (tree.nodes y).start then Side.left else Side.right) = d ∧
      zoom (byKey (startKey tree) (startKey tree n)) (node c a y b) k =
        zoom (byKey (startKey tree) (startKey tree n)) ta (down d c y tb k) := by
  by_cases h : (tree.nodes n).start < (tree.nodes y).start
  · exact ⟨.left, a, b, rfl, if_pos h, by rw [zoom_byKey_node, if_pos (startKey_lt.mpr h)]; rfl⟩
  · exact ⟨.right, b, a, rfl, if_neg h, by rw [zoom_byKey_node, if_neg (mt startKey_lt.mp h)]; rfl⟩

/-- **`ucs_interval_tree_insert_node` hangs the node where the search by start ends**: every
call above the innermost one writes back the child and the parent link it read. -/
theorem insertNode_eq : ∀ {fuel : ℕ} {t : RBNode Ptr} {par : Option Ptr} {k : Path Ptr},
    SubtreeAt tree.nodes par t (rootOf t) → t.toList.Nodup → n ∉ t → t.depth < fuel → t ≠ nil →
    ucsIntervalTreeInsertNode fuel tree (rootOf t) n =
      some (hangAt tree n (zoom (byKey (startKey tree) (startKey tree n)) t k).2, rootOf t)
  | 0, _, _, _, _, _, _, hfuel, _ => absurd hfuel (Nat.not_lt_zero _)
  | _, nil, _, _, _, _, _, _, ht => absurd rfl ht
  | fuel + 1, node c a y b, par, k, ht, hnd, hn, hfuel, _ => by
    obtain ⟨d, ta, tb, hmk, hd, hz⟩ := exists_side_zoom tree n y c a b k
    rw [hz]
    rw [hmk] at ht hnd hn hfuel ⊢
    obtain ⟨-, -, -, hta, -⟩ := subtreeAt_mk.mp ht
    obtain ⟨hyta, -, -, htand, -⟩ := nodup_mk.mp hnd
    simp only [mem_mk, not_or] at hn
    rw [depth_mk] at hfuel
    have hdepth : ta.depth < fuel := by omega
    have hy : (tree.nodes y).child d = rootOf ta := hta.eq_rootOf
    rw [rootOf_mk]
    simp only [ucsIntervalTreeInsertNode, hd, hy]
    cases ta with
    | nil =>
      obtain ⟨fuel, rfl⟩ : ∃ f, fuel = f + 1 := ⟨fuel - 1, by simp [depth] at hfuel; omega⟩
      simp [rootOf, ucsIntervalTreeInsertNode, zoom, hangAt_down, relinkChild, nodes_setChild,
        setParentOf]
    | node ca aa ya ba =>
      rw [hy] at hta
      rw [insertNode_eq hta htand hn.2.1 hdepth (by simp)]
      obtain ⟨leaf, hleaf, hpl⟩ := exists_parentOf_zoom_byKey (startKey tree) (startKey tree n)
        (k := down d c y tb k) (t := node ca aa ya ba) (by simp)
      have hyl : parentOf (zoom (byKey (startKey tree) (startKey tree n)) (node ca aa ya ba)
          (down d c y tb k)).2 ≠ some y := by
        rw [hpl]
        exact fun h => hyta (Option.some.inj h ▸ hleaf)
      simp only [rootOf]
      rw [setChild_self (by rw [nodes_hangAt hyl (Ne.symm hn.1), hy]; rfl)]
      rw [relinkChild_self]
      intro r hr
      rw [nodes_hangAt hyl (Ne.symm hn.1), hy] at hr
      simp only [rootOf, Option.some.injEq] at hr
      subst hr
      rw [parent_hangAt (fun h => hn.2.1 (by rw [← h]; simp))]
      exact hta.parent_eq

/-! ### `ucs_interval_tree_insert_fixup` -/

/-- The state of the insertion fixup at `x`: the tree in memory is `k.fill t` with `x` at the
root of `t`, and it is balanced but for `t`, red where a black node was asked. -/
structure InsFix (tree : UcsIntervalTree) (n₀ : ℕ) (k : Path Ptr) (t : RBNode Ptr) (x : Ptr) :
    Prop where
  stores : tree.Stores (k.fill t)
  nodup : (k.fill t).toList.Nodup
  root : rootOf t = some x
  balanced : ∃ n, k.Balanced black n₀ black n ∧ t.Balanced red n

variable {n₀ : ℕ} {d₁ : Side} {c₂ : RBColor} {p g w : Ptr} {u ul ur : RBNode Ptr}

/-- **Red uncle**: three paints, and the fixup goes on from the grandparent. -/
theorem insertFixupSide_uncle_red
    (h : InsFix tree n₀ (down d₁ red p s (down d c₂ g (node red ul w ur) k)) t x) :
    insertFixupSide d tree x p g =
        (((tree.setColor p black).setColor w black).setColor g red, some g) ∧
      InsFix (((tree.setColor p black).setColor w black).setColor g red) n₀ k
        (mk d red g (mk d₁ black p t s) (node black ul w ur)) g := by
  have hnd := h.nodup
  simp only [fill_down] at hnd
  obtain ⟨hu, -, -, -, -⟩ := Stores.of_down (by simpa using h.stores :
    tree.Stores ((down d.opp c₂ g (mk d₁ red p t s) k).fill (node red ul w ur)))
  obtain ⟨hw, -, hwc, -, -⟩ := hu
  refine ⟨by simp [insertFixupSide, hw, hwc], ?_⟩
  have h1 : (tree.setColor p black).Stores
      ((down d c₂ g (node red ul w ur) k).fill (mk d₁ black p t s)) :=
    Stores.setColor_mk (by simpa using h.stores) (by simpa using h.nodup)
  have h2 : ((tree.setColor p black).setColor w black).Stores
      ((down d.opp c₂ g (mk d₁ black p t s) k).fill (mk .left black w ul ur)) :=
    Stores.setColor_mk (by simpa using h1) (by simpa [toList_mk] using h.nodup)
  have h3 : (((tree.setColor p black).setColor w black).setColor g red).Stores
      (k.fill (mk d red g (mk d₁ black p t s) (node black ul w ur))) :=
    Stores.setColor_mk (by simpa using h2) (by simpa [toList_mk] using h.nodup)
  obtain ⟨n, hk, ht⟩ := h.balanced
  refine ⟨h3, by simpa [toList_mk] using h.nodup, rootOf_mk, n + 1, ins_uncle_red hk ht⟩

/-- **Black uncle, the node on the parent's outer side**: the parent painted black, the
grandparent red and rotated the other way; the node's parent is black now. -/
theorem insertFixupRotate_line (h : InsFix tree n₀ (down d red p s (down d c₂ g u k)) t x)
    (hu : u.isRed = black) :
    insertFixupRotate d tree x p =
        (rotate d.opp ((tree.setColor p black).setColor g red) g, some x) ∧
      InsFix (rotate d.opp ((tree.setColor p black).setColor g red) g) n₀
        (down d black p (mk d red g s u) k) t x := by
  have hnd := h.nodup
  rw [fill_down, fill_down, nodup_fill, nodup_mk, nodup_mk] at hnd
  obtain ⟨⟨-, -, -, ⟨-, -, hts, -, -⟩, -⟩, -, -⟩ := hnd
  obtain ⟨-, hpp, -, hps, -⟩ := Stores.of_down h.stores
  have hxp : (tree.nodes x).parent = some p := by
    rw [Stores.parent_root h.stores h.root, parentOf_down]
  have hsx : some x ≠ (tree.nodes p).child d.opp := by
    rw [hps.eq_rootOf]
    exact (rootOf_ne_of_not_mem (hts x (mem_of_rootOf_eq h.root))).symm
  rw [parentOf_down] at hpp
  refine ⟨by simp [insertFixupRotate, hsx, hxp, hpp], ?_⟩
  have h1 : (tree.setColor p black).Stores ((down d c₂ g u k).fill (mk d black p t s)) :=
    Stores.setColor_mk (by simpa using h.stores) (by simpa using h.nodup)
  have h2 : ((tree.setColor p black).setColor g red).Stores
      (k.fill (mk d.opp red g u (mk d.opp black p s t))) :=
    Stores.setColor_mk (by simpa using h1) (by cases d <;> simpa using h.nodup)
  have h3 := Stores.rotate h2 (by cases d <;> simpa using h.nodup)
  obtain ⟨n, hk, ht⟩ := h.balanced
  obtain ⟨hk', hb⟩ := ins_uncle_black_line hk ht hu
  obtain ⟨-, m, c₁, c₃, hm, -, hg⟩ := of_balanced_mk_black hb
  cases hm
  exact ⟨by simpa using h3, by cases d <;> simpa using h.nodup, h.root, n,
    balanced_down_black hg hk', ht⟩

lemma InsFix.uncle (h : InsFix tree n₀ (down d₁ red p s (down d c₂ g u k)) t x) :
    SubtreeAt tree.nodes (some g) u ((tree.nodes g).child d.opp) :=
  (Stores.of_down (by simpa using h.stores :
    tree.Stores ((down d.opp c₂ g (RedBlack.mk d₁ red p t s) k).fill u))).1

/-- **Black uncle, the node on the parent's inner side**: a rotation at the parent moves it below
the node, on the outer side, and the round goes on from the parent as for the outer side. -/
theorem insertFixupRotate_zigzag {ta tb : RBNode Ptr}
    (h : InsFix tree n₀ (down d.opp red p s (down d c₂ g u k)) (node red ta x tb) x) :
    ∃ zin zout, insertFixupRotate d tree x p = insertFixupRotate d (rotate d tree p) p x ∧
      InsFix (rotate d tree p) n₀ (down d red x zout (down d c₂ g u k)) (mk d red p s zin) p ∧
      ((down d red x zout (down d c₂ g u k)).fill (mk d red p s zin)).toList =
        ((down d.opp red p s (down d c₂ g u k)).fill (node red ta x tb)).toList := by
  obtain ⟨zin, zout, hz⟩ := node_eq_mk d red ta x tb
  rw [hz] at h ⊢
  obtain ⟨hpx, -, -, -, -⟩ := Stores.of_down h.stores
  have h1 := Stores.rotate (by simpa using h.stores :
    tree.Stores ((down d c₂ g u k).fill (mk d red p s (mk d red x zin zout))))
    (by simpa using h.nodup)
  have h1' : (rotate d tree p).Stores
      ((down d red x zout (down d c₂ g u k)).fill (mk d red p s zin)) := by simpa using h1
  have hl : ((down d red x zout (down d c₂ g u k)).fill (mk d red p s zin)).toList =
      ((down d.opp red p s (down d c₂ g u k)).fill (mk d red x zin zout)).toList := by
    cases d <;> simp
  have hnd : ((down d red x zout (down d c₂ g u k)).fill (mk d red p s zin)).toList.Nodup := by
    rw [hl]
    exact h.nodup
  obtain ⟨hzout, -, -, -, -⟩ := Stores.of_down (by simpa using h1' :
    (rotate d tree p).Stores ((down d.opp red x (mk d red p s zin) (down d c₂ g u k)).fill zout))
  have hpz : some p ≠ ((rotate d tree p).nodes x).child d.opp := by
    have hnd' : ((down d.opp red x (mk d red p s zin) (down d c₂ g u k)).fill zout).toList.Nodup := by
      simpa using hnd
    obtain ⟨-, -, hzk⟩ := nodup_fill.mp hnd'
    rw [hzout.eq_rootOf]
    exact (rootOf_ne_of_not_mem fun hp => hzk p hp (mem_pathNodes_down.mpr (.inr (.inl (by simp))))).symm
  obtain ⟨n, hk, ht⟩ := h.balanced
  obtain ⟨hk', ht'⟩ := ins_uncle_black_zigzag hk ht
  refine ⟨zin, zout, ?_, ⟨h1', hnd, rootOf_mk, n, hk', ht'⟩, hl⟩
  have hxs : some x = (tree.nodes p).child d.opp := by
    rw [hpx.eq_rootOf, rootOf_mk]
  simp only [insertFixupRotate, if_pos hxs, if_neg hpz]

lemma insertFixupSide_of_black
    (h : ∀ w, (tree.nodes g).child d.opp = some w → (tree.nodes w).color ≠ red) :
    insertFixupSide d tree x p g = insertFixupRotate d tree x p := by
  unfold insertFixupSide
  split
  · rename_i w hw
    simp [h w hw]
  · rfl

/-- What a round of the fixup leaves: the fixup at a node nearer the root, the nodes in the same
order, and only links and colours written. -/
def InsRound (tree : UcsIntervalTree) (n₀ : ℕ) (k : Path Ptr) (t : RBNode Ptr)
    (r : UcsIntervalTree × Option Ptr) : Prop :=
  ∃ k' t' x', r.2 = some x' ∧ InsFix r.1 n₀ k' t' x' ∧ pathLength k' < pathLength k ∧
    (k'.fill t').toList = (k.fill t).toList ∧ Relinked tree r.1

/-- **A round of `ucs_interval_tree_insert_fixup` at a red parent** moves the red node up. -/
theorem insertFixupSide_spec (h : InsFix tree n₀ (down d₁ red p s (down d c₂ g u k)) t x) :
    InsRound tree n₀ (down d₁ red p s (down d c₂ g u k)) t (insertFixupSide d tree x p g) := by
  have hu := h.uncle
  -- a black uncle, or none, leaves the round to the rotations
  have hblack : u.isRed = black →
      InsRound tree n₀ (down d₁ red p s (down d c₂ g u k)) t (insertFixupSide d tree x p g) := by
    intro hub
    rw [insertFixupSide_of_black]
    · by_cases hd : d₁ = d
      · subst hd
        obtain ⟨heq, h'⟩ := insertFixupRotate_line h hub
        rw [heq]
        exact ⟨_, _, _, rfl, h', by simp, by cases d₁ <;> simp,
          (relinked_setColor.trans relinked_setColor).trans relinked_rotate⟩
      · obtain rfl := Side.eq_opp_of_ne hd
        obtain ⟨n, -, ht⟩ := h.balanced
        cases ht with
        | red ha hb =>
          obtain rfl : _ = x := Option.some.inj h.root
          obtain ⟨zin, zout, heq, h', hl⟩ := insertFixupRotate_zigzag h
          obtain ⟨heq', h''⟩ := insertFixupRotate_line h' hub
          rw [heq, heq']
          refine ⟨_, _, _, rfl, h'', by simp, ?_, ?_⟩
          · rw [← hl]
            cases d <;> simp
          · exact ((relinked_rotate.trans relinked_setColor).trans relinked_setColor).trans
              relinked_rotate
    · intro w hw hwc
      rw [hu.eq_rootOf] at hw
      cases u with
      | nil => simp [rootOf] at hw
      | node cu ul w' ur =>
        simp only [rootOf, Option.some.injEq] at hw
        subst hw
        obtain ⟨-, -, hc, -, -⟩ := hu
        simp only [isRed] at hub
        rw [hwc] at hc
        exact absurd (hc.trans hub) (by decide)
  cases u with
  | nil => exact hblack rfl
  | node cu ul w ur =>
    cases cu with
    | black => exact hblack rfl
    | red =>
      obtain ⟨heq, h'⟩ := insertFixupSide_uncle_red h
      rw [heq]
      exact ⟨k, _, g, rfl, h', by simp, by cases d <;> cases d₁ <;> simp,
        (relinked_setColor.trans relinked_setColor).trans relinked_setColor⟩

/-- What the fixup loop leaves: a tree in memory with the nodes in the order `L`, balanced once its
root is painted black, with only links and colours written. -/
def InsDone (tree tree' : UcsIntervalTree) (L : List Ptr) : Prop :=
  ∃ T, tree'.Stores T ∧ T.toList = L ∧ (∃ m, T.setBlack.Balanced black m) ∧ Relinked tree tree'

lemma side_of_child {y : Ptr} (h₁ : (tree.nodes g).child d = some y)
    (h₂ : (tree.nodes g).child d.opp ≠ some y) :
    (if some y = (tree.nodes g).left then Side.left else Side.right) = d :=
  side_eq (d := .left) h₁ h₂

/-- **The loop of `ucs_interval_tree_insert_fixup` ends**, with fuel above the node's depth, in a
tree that painting its root black balances. -/
theorem insertFixupLoop_spec {fuel : ℕ} {tree : UcsIntervalTree} {k : Path Ptr}
    {t : RBNode Ptr} {x : Ptr} (h : InsFix tree n₀ k t x) (hf : pathLength k < fuel) :
    ∃ tree', insertFixupLoop fuel tree x = some tree' ∧ InsDone tree tree' (k.fill t).toList := by
  -- one round per unit of fuel, each from a node nearer the root
  induction fuel generalizing tree k t x with
  | zero => exact absurd hf (Nat.not_lt_zero _)
  | succ fuel ih =>
    have hxp := Stores.parent_root h.stores h.root
    obtain ⟨n, hk, ht⟩ := h.balanced
    rcases path_cases k with rfl | ⟨d₁, cp, p, s, k₁, rfl⟩
    · -- `node` is the root
      refine ⟨tree, by simp [insertFixupLoop, hxp, parentOf], t, h.stores, rfl, ht.setBlack,
        .refl⟩
    rw [parentOf_down] at hxp
    obtain ⟨-, hpp, hpc, -, -⟩ := Stores.of_down h.stores
    rcases path_cases k₁ with rfl | ⟨d, c₂, g, u, k₂, rfl⟩
    · -- the parent is the root
      refine ⟨tree, by simp [insertFixupLoop, hxp, hpp, parentOf], _, h.stores, rfl, ?_, .refl⟩
      cases cp
      · exact ⟨_, by simpa using ins_red_root hk ht⟩
      · exact ⟨_, by simpa using ins_black_parent hk ht⟩
    rw [parentOf_down] at hpp
    cases cp
    · -- a red parent: a round, and the loop from the node it gives
      obtain ⟨hgp, -, -, hgu, -⟩ := Stores.of_down (by simpa using h.stores :
        tree.Stores ((down d c₂ g u k₂).fill (mk d₁ red p t s)))
      have hd : (if some p = (tree.nodes g).left then Side.left else Side.right) = d := by
        refine side_of_child (by rw [hgp.eq_rootOf, rootOf_mk]) ?_
        rw [hgu.eq_rootOf]
        refine rootOf_ne_of_not_mem fun hpu => ?_
        have hnd := h.nodup
        rw [fill_down, fill_down, nodup_fill, nodup_mk] at hnd
        exact hnd.1.2.2.1 p (mem_mk.mpr (.inl rfl)) hpu
      obtain ⟨k', t', x', hx', h', hlen, hl, hrel⟩ := insertFixupSide_spec h
      obtain ⟨tree'', hloop, T, hT, hTl, hTb, hrel'⟩ :=
        ih h' (by simp only [pathLength_down] at hf hlen; omega)
      refine ⟨tree'', ?_, T, hT, hTl.trans hl, hTb, hrel.trans hrel'⟩
      rcases hr : insertFixupSide d tree x p g with ⟨tree₁, _ | x₁⟩
      · rw [hr] at hx'
        cases hx'
      · rw [hr] at hx' hloop
        cases hx'
        simp only at hloop
        simp [insertFixupLoop, hxp, hpp, hpc, hd, hr, hloop]
    · -- a black parent ends the loop
      have hT := ins_black_parent hk ht
      refine ⟨tree, by simp [insertFixupLoop, hxp, hpp, hpc], _, h.stores, rfl, ?_, .refl⟩
      obtain ⟨m, hm⟩ := hT.setBlack
      exact ⟨m, by simpa using hm⟩

/-- **`ucs_interval_tree_insert_fixup` balances the tree**: the loop, then the root painted
black. -/
theorem ucsIntervalTreeInsertFixup_spec (h : InsFix tree n₀ k t x)
    (hf : pathLength k < tree.numNodes + 1) :
    ∃ tree' T, ucsIntervalTreeInsertFixup tree x = some tree' ∧ tree'.Stores T ∧
      T.toList = (k.fill t).toList ∧ (∃ m, T.Balanced black m) ∧ Relinked tree tree' := by
  obtain ⟨tree₁, hloop, T, hT, hTl, ⟨m, hm⟩, hrel⟩ := insertFixupLoop_spec h hf
  refine ⟨tree₁.setColorOf tree₁.root black, T.setBlack,
    by simp [ucsIntervalTreeInsertFixup, hloop], ?_, by simp [hTl], ⟨m, hm⟩,
    hrel.trans relinked_setColorOf⟩
  have hroot : tree₁.root = rootOf T := hT.eq_rootOf
  have hnd : T.toList.Nodup := hTl ▸ h.nodup
  have hpaint := Stores.setColorOf (q := tree₁.root) (c := black) hT
  rw [hroot] at hpaint ⊢
  cases T with
  | nil => exact hpaint
  | node c a r b =>
    simpa [rootOf, paint_node_self hnd, setBlack] using hpaint

/-! ### The new node -/

section Create

variable {T : RBNode Ptr} {st en : UInt64} {tree₁ : UcsIntervalTree}

lemma nodeCreate_eq (hc : ucsIntervalTreeNodeCreate tree st en = some (tree₁, n)) :
    tree.mpool = n :: tree₁.mpool ∧
      tree₁.nodes = Function.update tree.nodes n ⟨none, none, none, st, en, red⟩ ∧
      tree₁.root = tree.root ∧ tree₁.numNodes = tree.numNodes + 1 ∧
      tree₁.totalSize = tree.totalSize + (en - st) := by
  unfold ucsIntervalTreeNodeCreate at hc
  split at hc
  · cases hc
  · rename_i node free hmp
    cases hc
    exact ⟨hmp, rfl, rfl, rfl, rfl⟩

/-- **`ucs_interval_tree_insert_node` hangs the created node where the search by start ends**, and
the tree is then the state the fixup starts from: the old nodes in order with the new red node
between those that start no later and those that start later. -/
theorem insertNode_fixup_start (hv : tree.Valid T)
    (hc : ucsIntervalTreeNodeCreate tree st en = some (tree₁, n)) :
    ∃ n₀ tree₂ root₂ k, ucsIntervalTreeInsertNode (tree₁.numNodes + 1) tree₁ tree₁.root n =
        some (tree₂, root₂) ∧
      InsFix ({ tree₂ with root := root₂ }.setParentOf root₂ none) n₀ k (node red nil n nil) n ∧
      k.listL ++ k.listR = T.toList ∧ (∀ z ∈ k.listL, startKey tree z ≤ st.toNat) ∧
      (∀ z ∈ k.listR, st.toNat < startKey tree z) ∧
      Relinked tree₁ ({ tree₂ with root := root₂ }.setParentOf root₂ none) := by
  obtain ⟨hmp, hnodes, hroot, hnum, -⟩ := nodeCreate_eq hc
  have hTnd : T.toList.Nodup := (List.nodup_append.mp hv.nodup).1
  have hn : n ∉ T := fun h => (List.nodup_append.mp hv.nodup).2.2 n (mem_toList.mpr h) n
    (by rw [hmp]; exact List.mem_cons_self) rfl
  have hne : ∀ z ∈ T, z ≠ n := fun z hz h => hn (h ▸ hz)
  have hfresh : tree₁.nodes n = ⟨none, none, none, st, en, red⟩ := by
    rw [hnodes, Function.update_self]
  have hold : ∀ z ∈ T, tree₁.nodes z = tree.nodes z := fun z hz => by
    rw [hnodes, Function.update_of_ne (hne z hz)]
  have hT1 : tree₁.Stores T := by
    unfold Stores
    rw [hroot, subtreeAt_congr (fun z hz => by rw [hold z hz])]
    exact hv.stores
  have hkey : ∀ z ∈ T, startKey tree₁ z = startKey tree z := fun z hz => by
    simp [startKey, hold z hz]
  have hkn : startKey tree₁ n = st.toNat := by simp [startKey, hfresh]
  have hr1 : tree₁.root = rootOf T := hT1.eq_rootOf
  cases T with
  | nil =>
    -- the new node is the whole tree
    have hself : (({ tree₁ with root := some n } : UcsIntervalTree).setParentOf (some n) none) =
        { tree₁ with root := some n } := setParent_self (by simp [hfresh])
    refine ⟨0, tree₁, some n, .root, by simp [ucsIntervalTreeInsertNode, hr1, rootOf], ?_,
      rfl, by simp, by simp, by rw [hself]; exact ⟨rfl, rfl, rfl, rfl⟩⟩
    rw [hself]
    refine ⟨⟨rfl, by simp [hfresh], by simp [hfresh], by simp [hfresh], by simp [hfresh]⟩,
      by simp, rfl, 0, .root, .red .nil .nil⟩
  | node c a y b =>
    -- the search by start ends at an empty place below a node of the tree
    set cut := byKey (startKey tree₁) (startKey tree₁ n) with hcut
    obtain ⟨k, hz⟩ : ∃ k, zoom cut (node c a y b) .root = (nil, k) :=
      ⟨_, Prod.ext (zoom_byKey_fst _ _ _ _) rfl⟩
    have hfill : k.fill nil = node c a y b := (Path.zoom_fill hz).symm
    obtain ⟨leaf, -, hleaf⟩ := exists_parentOf_zoom_byKey (startKey tree₁) (startKey tree₁ n)
      (k := .root) (t := node c a y b) (by simp)
    rw [hz] at hleaf
    have hT1' : SubtreeAt tree₁.nodes none (node c a y b) (rootOf (node c a y b)) := by
      rw [← hr1]
      exact hT1
    have hins := insertNode_eq (n := n) (k := .root) hT1' hTnd hn
      (by have := depth_le_size (node c a y b); rw [hnum, hv.numNodes]; omega : _ < tree₁.numNodes + 1)
      (by simp)
    rw [← hcut, hz] at hins
    obtain ⟨n₀, hb⟩ := hv.balanced
    obtain ⟨c₀, m, hnil, hk⟩ := hb.zoom .root hz
    cases hnil
    -- the writes of the calls above the place read back what they wrote
    obtain ⟨d, cl, ly, s, k₁, rfl⟩ : ∃ d cl ly s k₁, k = down d cl ly s k₁ := by
      rcases path_cases k with rfl | h
      · simp [parentOf] at hleaf
      · exact h
    have hX : (tree₁.setChild ly d (some n)).relinkChild ly d = hangAt tree₁ n (down d cl ly s k₁) := by
      rw [hangAt_down]
      simp [relinkChild, nodes_setChild, setParentOf]
    have hhang := Stores.hang (n := n) (hfill ▸ hT1) (hfill ▸ hTnd) (hfill ▸ hn) (by simp [hfresh])
      (by simp [hfresh]) (by simp [hfresh])
    rw [hX] at hhang
    have hroot3 : (hangAt tree₁ n (down d cl ly s k₁)).root = some y := by
      rw [hangAt_down, root_setParent, root_setChild, hr1]
      rfl
    have hself : ({ hangAt tree₁ n (down d cl ly s k₁) with root := some y } : UcsIntervalTree).setParentOf
        (some y) none = hangAt tree₁ n (down d cl ly s k₁) := by
      have heta : ({ hangAt tree₁ n (down d cl ly s k₁) with root := some y } : UcsIntervalTree) =
          hangAt tree₁ n (down d cl ly s k₁) := by
        rw [← hroot3]
      rw [heta]
      refine setParent_self ?_
      rw [parent_hangAt (hne y (by simp))]
      exact hT1'.parent_eq
    have hlist : (down d cl ly s k₁).listL ++ (down d cl ly s k₁).listR = (node c a y b).toList := by
      rw [← hfill, Path.fill_toList]
      simp
    have hsorted : (node c a y b).toList.Pairwise fun a b => startKey tree₁ a ≤ startKey tree₁ b :=
      (hv.sorted.imp le_of_lt).imp_of_mem fun ha hb' h => by
        rwa [hkey _ (mem_toList.mp ha), hkey _ (mem_toList.mp hb')]
    have hbounds := zoom_byKey_bounds (startKey tree₁) (startKey tree₁ n) (k := .root) hsorted
      (by simp) (by simp)
    rw [← hcut, hz, hkn] at hbounds
    have hmem : ∀ z, z ∈ (down d cl ly s k₁).listL ∨ z ∈ (down d cl ly s k₁).listR →
        z ∈ node c a y b := fun z hz' => by
      rw [← mem_toList, ← hlist, List.mem_append]
      exact hz'
    refine ⟨n₀, hangAt tree₁ n (down d cl ly s k₁), some y, down d cl ly s k₁,
      by rw [hr1]; exact hins, ?_, hlist, fun z hz' => ?_, fun z hz' => ?_, ?_⟩
    · rw [hself]
      refine ⟨hhang, ?_, rfl, 0, hk, .red .nil .nil⟩
      rw [Path.fill_toList]
      simp only [toList_node, toList_nil, List.nil_append, List.append_assoc, List.singleton_append]
      rw [List.nodup_middle, List.nodup_cons, hlist]
      exact ⟨fun h => hn (mem_toList.mp h), hTnd⟩
    · rw [← hkey z (hmem z (.inl hz'))]
      exact hbounds.1 z hz'
    · rw [← hkey z (hmem z (.inr hz'))]
      exact hbounds.2 z hz'
    · rw [hself, hangAt_down]
      exact ⟨by simp, rfl, rfl, rfl⟩

end Create

end UcxProofs.IntervalRb
