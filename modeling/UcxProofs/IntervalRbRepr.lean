import UcxProofs.IntervalRb

/-!
What the nodes in memory stand for. From a pointer, the nodes reached by the child links, with
their parent links and colours, are a tree of pointers (`SubtreeAt`); a path of that tree stands
in memory with a pointer in its hole and `tree->root` at its top (`PathAt`). Each write of the
code is read here on the tree: a write to a node outside a subtree leaves the subtree, painting a
node paints it in the tree, and a rotation at a node rotates the tree there.
-/

namespace UcxProofs.IntervalRb

open RBTree RBTree.RBNode RBColor UcxProofs.RedBlack
open UcxProofs.IntervalTree (UcsIntervalTreeRange)

/-- The fields of a node that the shape of the tree reads: its links and its colour. -/
def UcsIntervalNode.links (n : UcsIntervalNode) : Option Ptr × Option Ptr × Option Ptr × RBColor :=
  (n.left, n.right, n.parent, n.color)

/-- The root of a tree. -/
def rootOf : RBNode Ptr → Option Ptr
  | nil => none
  | node _ _ x _ => some x

/-- The nodes from `q` down, `q`'s parent link being `par`, are the tree `t`: `q` points to `t`'s
root, and every node's children, parent and colour are those it has in `t`. -/
def SubtreeAt (nodes : Ptr → UcsIntervalNode) : Option Ptr → RBNode Ptr → Option Ptr → Prop
  | _, nil, q => q = none
  | par, node c a x b, q => q = some x ∧ (nodes x).parent = par ∧ (nodes x).color = c ∧
      SubtreeAt nodes (some x) a (nodes x).left ∧ SubtreeAt nodes (some x) b (nodes x).right

/-- The path `k` stands in memory with `q` in its hole: each node of the path has the way down
as the child on its side, and the subtree beside it on the other; the top is `tree->root`. -/
def PathAt (tree : UcsIntervalTree) : Path Ptr → Option Ptr → Prop
  | .root, q => tree.root = q
  | .left c k x s, q => (tree.nodes x).left = q ∧ (tree.nodes x).parent = parentOf k ∧
      (tree.nodes x).color = c ∧ SubtreeAt tree.nodes (some x) s (tree.nodes x).right ∧
      PathAt tree k (some x)
  | .right c s x k, q => (tree.nodes x).right = q ∧ (tree.nodes x).parent = parentOf k ∧
      (tree.nodes x).color = c ∧ SubtreeAt tree.nodes (some x) s (tree.nodes x).left ∧
      PathAt tree k (some x)

/-- The tree in memory from `tree->root` is `T`, the root's parent link being `NULL`. -/
def UcsIntervalTree.Stores (tree : UcsIntervalTree) (T : RBNode Ptr) : Prop :=
  SubtreeAt tree.nodes none T tree.root

variable {nodes nodes' : Ptr → UcsIntervalNode} {par par' q : Option Ptr} {d : Side}
  {c : RBColor} {x : Ptr} {t s : RBNode Ptr} {tree tree' : UcsIntervalTree} {k : Path Ptr}

/-! ### Reading the tree -/

@[simp] lemma subtreeAt_nil : SubtreeAt nodes par nil q ↔ q = none := Iff.rfl

lemma subtreeAt_mk : SubtreeAt nodes par (mk d c x t s) q ↔
    q = some x ∧ (nodes x).parent = par ∧ (nodes x).color = c ∧
      SubtreeAt nodes (some x) t ((nodes x).child d) ∧
      SubtreeAt nodes (some x) s ((nodes x).child d.opp) := by
  cases d
  · rfl
  · simp only [mk, SubtreeAt, UcsIntervalNode.child_left, UcsIntervalNode.child_right,
      Side.opp]
    tauto

@[simp] lemma rootOf_mk : rootOf (mk d c x t s) = some x := by cases d <;> rfl

@[simp] lemma rootOf_setBlack : rootOf t.setBlack = rootOf t := by cases t <;> rfl

lemma SubtreeAt.eq_rootOf : ∀ {t : RBNode Ptr} {par q : Option Ptr}, SubtreeAt nodes par t q →
    q = rootOf t
  | nil, _, _, h => h
  | node .., _, _, h => h.1

lemma rootOf_ne_of_not_mem {t : RBNode Ptr} (h : x ∉ t) : rootOf t ≠ some x := by
  cases t with
  | nil => simp [rootOf]
  | node c a y b =>
    simp only [mem_node, not_or] at h
    simp [rootOf, Ne.symm h.1]

lemma pathAt_down : PathAt tree (down d c x s k) q ↔
    (tree.nodes x).child d = q ∧ (tree.nodes x).parent = parentOf k ∧
      (tree.nodes x).color = c ∧ SubtreeAt tree.nodes (some x) s ((tree.nodes x).child d.opp) ∧
      PathAt tree k (some x) := by
  cases d <;> rfl

/-- A path that is not the root has a node above its hole. -/
lemma path_cases (k : Path Ptr) :
    k = .root ∨ ∃ dk ck np s' k', k = down dk ck np s' k' := by
  cases k with
  | root => exact .inl rfl
  | left ck k' np s' => exact .inr ⟨.left, ck, np, s', k', rfl⟩
  | right ck s' np k' => exact .inr ⟨.right, ck, np, s', k', rfl⟩

/-- The tree from `tree->root` read as a path and the subtree at its hole. -/
lemma stores_fill : tree.Stores (k.fill t) ↔
    ∃ q, SubtreeAt tree.nodes (parentOf k) t q ∧ PathAt tree k q := by
  induction k generalizing t with
  | root =>
    constructor
    · exact fun h => ⟨_, h, rfl⟩
    · rintro ⟨q, h, hq⟩
      change tree.root = q at hq
      rw [Path.fill, UcsIntervalTree.Stores, hq]
      exact h
  | left c k x s ih =>
    rw [Path.fill, ih]
    constructor
    · rintro ⟨q, ⟨rfl, hp, hc, ht, hs⟩, hk⟩
      exact ⟨_, ht, rfl, hp, hc, hs, hk⟩
    · rintro ⟨q, ht, rfl, hp, hc, hs, hk⟩
      exact ⟨_, ⟨rfl, hp, hc, ht, hs⟩, hk⟩
  | right c s x k ih =>
    rw [Path.fill, ih]
    constructor
    · rintro ⟨q, ⟨rfl, hp, hc, hs, ht⟩, hk⟩
      exact ⟨_, ht, rfl, hp, hc, hs, hk⟩
    · rintro ⟨q, ht, rfl, hp, hc, hs, hk⟩
      exact ⟨_, ⟨rfl, hp, hc, hs, ht⟩, hk⟩

/-! ### Writes outside a subtree -/

/-- A subtree stands as it did where its nodes keep their links and colours. -/
lemma subtreeAt_congr : ∀ {t : RBNode Ptr} {par q : Option Ptr},
    (∀ y ∈ t, (nodes' y).links = (nodes y).links) →
    (SubtreeAt nodes' par t q ↔ SubtreeAt nodes par t q)
  | nil, _, _, _ => Iff.rfl
  | node c a y b, par, q, h => by
    have hy := h y (by simp)
    simp only [UcsIntervalNode.links, Prod.mk.injEq] at hy
    obtain ⟨hl, hr, hp, hc⟩ := hy
    simp only [SubtreeAt, hl, hr, hp, hc]
    rw [subtreeAt_congr (fun z hz => h z (by simp [hz])),
      subtreeAt_congr (fun z hz => h z (by simp [hz]))]

/-- A path stands as it did where its nodes keep their links and colours and the root is kept. -/
lemma pathAt_congr (hroot : tree'.root = tree.root) : ∀ {k : Path Ptr} {q : Option Ptr},
    (∀ y ∈ pathNodes k, (tree'.nodes y).links = (tree.nodes y).links) →
    (PathAt tree' k q ↔ PathAt tree k q)
  | .root, _, _ => by simp [PathAt, hroot]
  | .left c k y s, q, h => by
    have h' : ∀ z, z = y ∨ z ∈ s ∨ z ∈ pathNodes k →
        (tree'.nodes z).links = (tree.nodes z).links :=
      fun z hz => h z (mem_pathNodes_down (d := .left) (c := c) |>.mpr hz)
    have hy := h' y (.inl rfl)
    simp only [UcsIntervalNode.links, Prod.mk.injEq] at hy
    obtain ⟨hl, hr, hp, hc⟩ := hy
    simp only [PathAt, hl, hr, hp, hc]
    rw [subtreeAt_congr (fun z hz => h' z (.inr (.inl hz))),
      pathAt_congr hroot (fun z hz => h' z (.inr (.inr hz)))]
  | .right c s y k, q, h => by
    have h' : ∀ z, z = y ∨ z ∈ s ∨ z ∈ pathNodes k →
        (tree'.nodes z).links = (tree.nodes z).links :=
      fun z hz => h z (mem_pathNodes_down (d := .right) (c := c) |>.mpr hz)
    have hy := h' y (.inl rfl)
    simp only [UcsIntervalNode.links, Prod.mk.injEq] at hy
    obtain ⟨hl, hr, hp, hc⟩ := hy
    simp only [PathAt, hl, hr, hp, hc]
    rw [subtreeAt_congr (fun z hz => h' z (.inr (.inl hz))),
      pathAt_congr hroot (fun z hz => h' z (.inr (.inr hz)))]

/-! ### Slots

The slot that holds the node at the hole of a path: `tree->root` at the root, else the child
field of the node above on the side the path goes down. -/

section Rotation

open UcsIntervalTree

variable {c' : RBColor} {y : Ptr} {a b e : RBNode Ptr}

/-- The slot of the hole of `k`. -/
def slotOf : Path Ptr → Slot
  | .root => .root
  | .left _ _ x _ => .child x .left
  | .right _ _ x _ => .child x .right

@[simp] lemma slotOf_down {dk ck np s' k'} : slotOf (down dk ck np s' k') = .child np dk := by
  cases dk <;> rfl

def Slot.owner : Slot → Option Ptr
  | .root => none
  | .child p _ => some p

@[simp] lemma owner_slotOf : (slotOf k).owner = parentOf k := by
  cases k <;> rfl

lemma nodes_setSlot_of_ne {s : Slot} {q : Option Ptr} {z : Ptr} (h : s.owner ≠ some z) :
    (tree.setSlot s q).nodes z = tree.nodes z := by
  cases s with
  | root => rfl
  | child p d' =>
    simp only [Slot.owner, ne_eq, Option.some.injEq] at h
    simp [nodes_setChild, Ne.symm h]

lemma parentOf_mem {np : Ptr} (h : parentOf k = some np) : np ∈ pathNodes k := by
  rcases path_cases k with rfl | ⟨dk, ck, np', s', k', rfl⟩
  · simp [parentOf] at h
  · simp only [parentOf_down, Option.some.injEq] at h
    simp [h]

lemma PathAt.setSlot {q q' : Option Ptr} (hk : PathAt tree k q) (hnd : (pathNodes k).Nodup) :
    PathAt (tree.setSlot (slotOf k) q') k q' := by
  rcases path_cases k with rfl | ⟨dk, ck, np, s', k', rfl⟩
  · rfl
  · obtain ⟨-, hp, hc, hs, hk'⟩ := pathAt_down.mp hk
    obtain ⟨hns, hnk, -, -, -⟩ := nodup_pathNodes_down.mp hnd
    rw [slotOf_down, setSlot_child, pathAt_down]
    have hframe : ∀ z, z ≠ np → ((tree.setChild np dk q').nodes z).links = (tree.nodes z).links := by
      intro z hz; rw [nodes_setChild, if_neg hz]
    refine ⟨by simp [nodes_setChild], by simpa [nodes_setChild] using hp,
      by simpa [nodes_setChild] using hc, ?_, ?_⟩
    · rw [subtreeAt_congr (fun z hz => hframe z (fun h => hns (h ▸ hz)))]
      simpa [nodes_setChild] using hs
    · refine (pathAt_congr root_setChild ?_).mpr hk'
      exact fun z hz => hframe z (fun h => hnk (h ▸ hz))

/-! ### Rotation -/

lemma parentSlot_congr (hp : (tree'.nodes x).parent = (tree.nodes x).parent)
    (hc : ∀ np, (tree.nodes x).parent = some np → (tree'.nodes np).child d = (tree.nodes np).child d) :
    tree'.parentSlot d x = tree.parentSlot d x := by
  unfold parentSlot
  rw [hp]
  cases h : (tree.nodes x).parent with
  | none => rfl
  | some np => simp only [hc np h]

lemma side_eq {n : UcsIntervalNode} {dk : Side} (h1 : n.child dk = some x) (h2 : n.child dk.opp ≠ some x) :
    (if some x = n.child d then d else d.opp) = dk := by
  cases d <;> cases dk <;>
    simp only [Side.opp, UcsIntervalNode.child_left, UcsIntervalNode.child_right] at h1 h2 ⊢ <;>
    simp [h1, Ne.symm h2]

lemma parentSlot_eq (hk : PathAt tree k (some x)) (hxp : (tree.nodes x).parent = parentOf k)
    (hxk : x ∉ pathNodes k) : tree.parentSlot d x = slotOf k := by
  rcases path_cases k with rfl | ⟨dk, ck, np, s', k', rfl⟩
  · simp [parentSlot, hxp, parentOf, slotOf]
  · obtain ⟨h1, -, -, hs', -⟩ := pathAt_down.mp hk
    have h2 : (tree.nodes np).child dk.opp ≠ some x := by
      rw [hs'.eq_rootOf]
      exact rootOf_ne_of_not_mem (fun h => hxk (mem_pathNodes_down.mpr (.inr (.inl h))))
    simp only [parentSlot, hxp, parentOf_down, slotOf_down]
    rw [apply_ite (Slot.child np) (some x = (tree.nodes np).child d) d d.opp |>.symm, side_eq h1 h2]

/-- A rotation with its reads done: the writes alone. -/
lemma rotate_eq {rb px : Option Ptr} {s : Slot} (hy : (tree.nodes x).child d.opp = some y)
    (hxy : x ≠ y) (hrb : (tree.nodes y).child d = rb) (hpx : (tree.nodes x).parent = px)
    (hrx : rb ≠ some x)
    (hs : (((tree.setChild x d.opp rb).setParentOf rb (some x)).setParent y px).parentSlot d x = s) :
    rotate d tree x =
      (((((tree.setChild x d.opp rb).setParentOf rb (some x)).setParent y px).setSlot s
        (some y)).setChild y d (some x)).setParent x (some y) := by
  have h1 : ((tree.setChild x d.opp rb).nodes y).child d = rb := by
    rw [nodes_setChild, if_neg (Ne.symm hxy), hrb]
  have h2 : (((tree.setChild x d.opp rb).setParentOf rb (some x)).nodes x).parent = px := by
    rw [nodes_setParentOf, if_neg (Ne.symm hrx), nodes_setChild, if_pos rfl]
    simp [hpx]
  simp only [rotate, hy, hrb, h1, h2, hs]

/-- **A rotation in memory is the rotation of the tree.** -/
theorem Stores.rotate (hT : tree.Stores (k.fill (mk d c x a (mk d c' y b e))))
    (hnd : (k.fill (mk d c x a (mk d c' y b e))).toList.Nodup) :
    (rotate d tree x).Stores (k.fill (mk d c' y (mk d c x a b) e)) := by
  obtain ⟨q, hq, hk⟩ := stores_fill.mp hT
  obtain ⟨rfl, hxp, hxc, ha, hY⟩ := subtreeAt_mk.mp hq
  obtain ⟨hy, hyp, hyc, hb, he⟩ := subtreeAt_mk.mp hY
  rw [nodup_fill, nodup_mk, nodup_mk] at hnd
  obtain ⟨⟨hxa, hxY, haY, -, hyb, hye, hbe, hbnd, -⟩, hknd, hkt⟩ := hnd
  simp only [mem_mk, not_or] at hxY haY hkt
  obtain ⟨hxy, hxb, hxe⟩ := hxY
  -- the nodes of the path are none of the subtree's
  have hkx : x ∉ pathNodes k := hkt x (.inl rfl)
  have hky : y ∉ pathNodes k := hkt y (.inr (.inr (.inl rfl)))
  have hkb : ∀ z ∈ pathNodes k, some z ≠ rootOf b := fun z hz =>
    (rootOf_ne_of_not_mem fun hzb => hkt z (.inr (.inr (.inr (.inl hzb)))) hz).symm
  have hpx : parentOf k ≠ some x := fun h => hkx (parentOf_mem h)
  have hpy : parentOf k ≠ some y := fun h => hky (parentOf_mem h)
  -- the child of `y` that moves to `x`, and the slot above `x`
  have hrb : (tree.nodes y).child d = rootOf b := hb.eq_rootOf
  have hrx : rootOf b ≠ some x := rootOf_ne_of_not_mem hxb
  have hry : rootOf b ≠ some y := rootOf_ne_of_not_mem hyb
  set T3 := ((tree.setChild x d.opp (rootOf b)).setParentOf (rootOf b) (some x)).setParent y
    (parentOf k) with hT3
  have h3 : ∀ z, z ≠ x → z ≠ y → some z ≠ rootOf b → T3.nodes z = tree.nodes z := by
    intro z hzx hzy hzb
    simp [hT3, nodes_setParent, nodes_setParentOf, nodes_setChild, hzx, hzy, hzb]
  have hpath : ∀ z ∈ pathNodes k, T3.nodes z = tree.nodes z := fun z hz =>
    h3 z (fun h => hkx (h ▸ hz)) (fun h => hky (h ▸ hz)) (hkb z hz)
  have hs : T3.parentSlot d x = slotOf k := by
    refine (parentSlot_congr ?_ ?_).trans (parentSlot_eq hk hxp hkx)
    · simp [hT3, nodes_setParent, nodes_setParentOf, nodes_setChild, hxy, Ne.symm hrx, hxp]
    · intro np hnp
      rw [hpath np (parentOf_mem (hxp ▸ hnp))]
  rw [rotate_eq hy hxy hrb hxp hrx hs]
  set F := ((T3.setSlot (slotOf k) (some y)).setChild y d (some x)).setParent x (some y) with hF
  have hFx : F.nodes x = ((tree.nodes x).setChild d.opp (rootOf b)).setParent (some y) := by
    simp [hF, hT3, nodes_setParent, nodes_setChild, nodes_setParentOf, nodes_setSlot_of_ne,
      hxy, Ne.symm hrx, hpx]
  have hFy : F.nodes y = ((tree.nodes y).setParent (parentOf k)).setChild d (some x) := by
    simp [hF, hT3, nodes_setParent, nodes_setChild, nodes_setParentOf, nodes_setSlot_of_ne,
      Ne.symm hxy, Ne.symm hry, hpy]
  have hFz : ∀ z, z ≠ x → z ≠ y → some z ≠ rootOf b → z ∉ pathNodes k →
      F.nodes z = tree.nodes z := by
    intro z hzx hzy hzb hzk
    have hzk' : parentOf k ≠ some z := fun h => hzk (parentOf_mem h)
    simp [hF, nodes_setParent, nodes_setChild, nodes_setSlot_of_ne, hzx, hzy, hzk',
      h3 z hzx hzy hzb]
  -- the nodes of `a` and `e` are none of those written
  have hsub : ∀ z, z ∈ a ∨ z ∈ e → F.nodes z = tree.nodes z := by
    rintro z hz
    refine hFz z ?_ ?_ ?_ (hkt z (by tauto))
    · intro hzx; rcases hz with hz | hz
      · exact hxa (hzx ▸ hz)
      · exact hxe (hzx ▸ hz)
    · intro hzy; rcases hz with hz | hz
      · exact (haY z hz).1 hzy
      · exact hye (hzy ▸ hz)
    · intro h
      have hzb : z ∈ b := by
        rcases b with _ | ⟨cb, bl, r, br⟩
        · simp [rootOf] at h
        · simp only [rootOf, Option.some.injEq] at h; simp [h]
      rcases hz with hz | hz
      · exact (haY z hz).2.1 hzb
      · exact hbe z hzb hz
  rw [stores_fill]
  refine ⟨some y, ?_, ?_⟩
  · rw [subtreeAt_mk, hFy]
    refine ⟨rfl, by simp, by simpa using hyc, ?_, ?_⟩
    · rw [UcsIntervalNode.child_setChild, subtreeAt_mk, hFx]
      refine ⟨rfl, by simp, by simpa using hxc, ?_, ?_⟩
      · rw [UcsIntervalNode.child_setParent, UcsIntervalNode.child_setChild_opp,
          subtreeAt_congr (fun z hz => by rw [hsub z (.inl hz)])]
        exact ha
      · rw [UcsIntervalNode.child_setParent, UcsIntervalNode.child_setChild]
        -- the subtree `b` moves under `x`: only its root's parent link changes
        rcases b with _ | ⟨cb, bl, r, br⟩
        · rfl
        · obtain ⟨-, hrp, hrc, hbl, hbr⟩ := hb
          obtain ⟨hrl, hrr, -, -, -⟩ := nodup_node.mp hbnd
          simp only [mem_node, not_or] at hxb hyb
          have hrk : parentOf k ≠ some r := fun h =>
            hkt r (.inr (.inr (.inr (.inl (by simp))))) (parentOf_mem h)
          have hFr : F.nodes r = (tree.nodes r).setParent (some x) := by
            simp [hF, hT3, nodes_setParent, nodes_setChild, nodes_setParentOf,
              nodes_setSlot_of_ne, rootOf, Ne.symm hxb.1, Ne.symm hyb.1, hrk]
          have hbsub : ∀ z, z ∈ bl ∨ z ∈ br → F.nodes z = tree.nodes z := by
            intro z hz
            refine hFz z ?_ ?_ ?_ (hkt z (by simp; tauto))
            · rintro rfl; tauto
            · rintro rfl; tauto
            · simp only [rootOf, ne_eq, Option.some.injEq]
              rintro rfl; tauto
          refine ⟨rfl, by simp [hFr], by simpa [hFr] using hrc, ?_, ?_⟩
          · rw [hFr, subtreeAt_congr (fun z hz => by rw [hbsub z (.inl hz)])]
            exact hbl
          · rw [hFr, subtreeAt_congr (fun z hz => by rw [hbsub z (.inr hz)])]
            exact hbr
    · rw [UcsIntervalNode.child_opp_setChild, UcsIntervalNode.child_setParent,
        subtreeAt_congr (fun z hz => by rw [hsub z (.inr hz)])]
      exact he
  · -- the path keeps its nodes; only the slot above `x` now holds `y`
    have hk3 : PathAt T3 k (some x) := by
      refine (pathAt_congr (by simp [hT3]) ?_).mpr hk
      exact fun z hz => by rw [hpath z hz]
    refine (pathAt_congr (by simp [hF]) ?_).mpr (hk3.setSlot hknd)
    intro z hz
    have hzx : z ≠ x := fun h => hkx (h ▸ hz)
    have hzy : z ≠ y := fun h => hky (h ▸ hz)
    simp [hF, nodes_setParent, nodes_setChild, hzx, hzy]

end Rotation

section Writes

open UcsIntervalTree

variable {c' : RBColor} {y p : Ptr} {a b e T : RBNode Ptr}

/-! ### Painting -/

lemma subtreeAt_setColor : ∀ {t : RBNode Ptr} {par q : Option Ptr},
    SubtreeAt tree.nodes par t q → SubtreeAt (tree.setColor p c).nodes par (paint p c t) q
  | nil, _, _, h => h
  | node c' a x b, par, q, h => by
    obtain ⟨hq, hp, hc, ha, hb⟩ := h
    have ha' := subtreeAt_setColor ha
    have hb' := subtreeAt_setColor hb
    by_cases hx : x = p
    · subst hx
      refine ⟨hq, ?_, ?_, ?_, ?_⟩ <;> simp [nodes_setColor, hp, ha', hb']
    · refine ⟨hq, ?_, ?_, ?_, ?_⟩
      · simp [nodes_setColor, hx, hp]
      · simp [nodes_setColor, hx, hc]
      · simpa [nodes_setColor, hx] using ha'
      · simpa [nodes_setColor, hx] using hb'

/-- **Painting a node in memory paints it in the tree.** -/
theorem Stores.setColor (h : tree.Stores T) : (tree.setColor p c).Stores (paint p c T) :=
  subtreeAt_setColor h

/-- Painting a node given by a path repaints it in place. -/
theorem Stores.setColor_mk (h : tree.Stores (k.fill (mk d c' x t s)))
    (hnd : (k.fill (mk d c' x t s)).toList.Nodup) :
    (tree.setColor x c).Stores (k.fill (mk d c x t s)) := by
  rw [← paint_fill_self hnd]
  exact Stores.setColor h

theorem Stores.setColorOf {q : Option Ptr} (h : tree.Stores T) :
    (tree.setColorOf q c).Stores (match q with | some p => paint p c T | none => T) := by
  cases q with
  | none => exact h
  | some p => exact Stores.setColor h

/-! ### Writes that change nothing -/

lemma modify_self {f : UcsIntervalNode → UcsIntervalNode} (h : f (tree.nodes p) = tree.nodes p) :
    tree.modify p f = tree := by
  simp [UcsIntervalTree.modify, h]

lemma setChild_self (h : (tree.nodes p).child d = q) : tree.setChild p d q = tree :=
  modify_self (by subst h; cases d <;> rfl)

lemma setParent_self (h : (tree.nodes p).parent = q) : tree.setParent p q = tree :=
  modify_self (by subst h; rfl)

lemma SubtreeAt.parent_eq {nodes : Ptr → UcsIntervalNode} {r : Ptr} :
    SubtreeAt nodes par t (some r) → (nodes r).parent = par := by
  cases t with
  | nil => simp
  | node c a y b =>
    rintro ⟨hq, hp, -⟩
    cases hq
    exact hp

/-- In a stored subtree, a child's parent link points back to its parent. -/
lemma SubtreeAt.parent_child {nodes : Ptr → UcsIntervalNode} : ∀ {t : RBNode Ptr} {par q : Option Ptr},
    SubtreeAt nodes par t q → ∀ {x r : Ptr} (d : Side), x ∈ t → (nodes x).child d = some r →
      (nodes r).parent = some x
  | nil, _, _, _, _, _, _, hx, _ => by simp at hx
  | node c a y b, par, q, ⟨hq, hp, hc, ha, hb⟩, x, r, d, hx, hr => by
    rcases mem_node.mp hx with rfl | hx | hx
    · cases d
      · rw [UcsIntervalNode.child_left] at hr
        rw [hr] at ha
        exact ha.parent_eq
      · rw [UcsIntervalNode.child_right] at hr
        rw [hr] at hb
        exact hb.parent_eq
    · exact ha.parent_child d hx hr
    · exact hb.parent_child d hx hr

/-- Putting back the parent link of a node's child changes nothing in a stored tree. -/
lemma Stores.relinkChild_eq (hT : tree.Stores T) (hx : x ∈ T) : tree.relinkChild x d = tree := by
  unfold relinkChild
  cases hr : (tree.nodes x).child d with
  | none => rfl
  | some r => exact setParent_self (SubtreeAt.parent_child hT d hx hr)

/-! ### Reading a stored tree -/

lemma Stores.of_down (h : tree.Stores ((down d c y s k).fill t)) :
    SubtreeAt tree.nodes (some y) t ((tree.nodes y).child d) ∧
      (tree.nodes y).parent = parentOf k ∧ (tree.nodes y).color = c ∧
      SubtreeAt tree.nodes (some y) s ((tree.nodes y).child d.opp) ∧ PathAt tree k (some y) := by
  obtain ⟨q, ht, hk⟩ := stores_fill.mp h
  obtain ⟨rfl, hp, hc, hs, hk'⟩ := pathAt_down.mp hk
  rw [parentOf_down] at ht
  exact ⟨ht, hp, hc, hs, hk'⟩

lemma Stores.parent_root (h : tree.Stores (k.fill t)) (hx : rootOf t = some x) :
    (tree.nodes x).parent = parentOf k := by
  obtain ⟨q, ht, -⟩ := stores_fill.mp h
  rw [ht.eq_rootOf, hx] at ht
  exact ht.parent_eq

/-- `(x == NULL) || (x->color == BLACK)` reads the colour of the subtree's root. -/
lemma SubtreeAt.blackOrNull_iff {par q : Option Ptr} (h : SubtreeAt tree.nodes par t q) :
    tree.blackOrNull q = true ↔ t.isRed = black := by
  cases t with
  | nil => rw [h]; simp [blackOrNull, isRed]
  | node c a y b =>
    obtain ⟨rfl, -, hc, -⟩ := h
    simp [blackOrNull, hc, isRed]

lemma getSlot_slotOf (hk : PathAt tree k q) : tree.getSlot (slotOf k) = q := by
  rcases path_cases k with rfl | ⟨dk, ck, np, s', k', rfl⟩
  · exact hk
  · rw [slotOf_down]
    exact (pathAt_down.mp hk).1

/-- A subtree stands below a new parent link where only its root's parent link was written. -/
lemma subtreeAt_reparent {nodes nodes' : Ptr → UcsIntervalNode} {par' : Option Ptr}
    (h : SubtreeAt nodes par t q) (hnd : t.toList.Nodup)
    (hroot : ∀ r, q = some r → (nodes' r).links = ((nodes r).setParent par').links)
    (hrest : ∀ z ∈ t, q ≠ some z → (nodes' z).links = (nodes z).links) :
    SubtreeAt nodes' par' t q := by
  cases t with
  | nil => exact h
  | node c a r b =>
    obtain ⟨rfl, -, hc, ha, hb⟩ := h
    obtain ⟨hra, hrb, -, -, -⟩ := nodup_node.mp hnd
    have hr := hroot r rfl
    simp only [UcsIntervalNode.links, UcsIntervalNode.left_setParent,
      UcsIntervalNode.right_setParent, UcsIntervalNode.parent_setParent,
      UcsIntervalNode.color_setParent, Prod.mk.injEq] at hr
    obtain ⟨hl, hr', hp, hc'⟩ := hr
    have hsub : ∀ z, z ∈ a ∨ z ∈ b → (nodes' z).links = (nodes z).links := by
      rintro z hz
      refine hrest z (by simp [hz]) ?_
      rintro ⟨⟩
      rcases hz with hz | hz
      · exact hra hz
      · exact hrb hz
    refine ⟨rfl, hp, hc'.trans hc, ?_, ?_⟩
    · rw [hl, subtreeAt_congr (fun z hz => hsub z (.inl hz))]
      exact ha
    · rw [hr', subtreeAt_congr (fun z hz => hsub z (.inr hz))]
      exact hb

lemma mem_of_rootOf_eq {r : Ptr} (h : rootOf t = some r) : r ∈ t := by
  cases t with
  | nil => simp [rootOf] at h
  | node c a y b =>
    simp only [rootOf, Option.some.injEq] at h
    simp [h]

/-- **Splicing out a node without a child on side `d`**: its other child takes its slot and its
parent. -/
theorem Stores.splice (hT : tree.Stores (k.fill (mk d c x nil s)))
    (hnd : (k.fill (mk d c x nil s)).toList.Nodup) :
    ((tree.setSlot (slotOf k) (rootOf s)).setParentOf (rootOf s) (parentOf k)).Stores
      (k.fill s) := by
  obtain ⟨q, hq, hk⟩ := stores_fill.mp hT
  obtain ⟨rfl, -, -, -, hs⟩ := subtreeAt_mk.mp hq
  rw [nodup_fill, nodup_mk] at hnd
  obtain ⟨⟨-, -, -, -, hsnd⟩, hknd, hkt⟩ := hnd
  have hks : ∀ z ∈ s, z ∉ pathNodes k := fun z hz => hkt z (mem_mk.mpr (.inr (.inr hz)))
  have hown : ∀ z ∈ s, (slotOf k).owner ≠ some z := by
    rw [owner_slotOf]
    exact fun z hz h => hks z hz (parentOf_mem h)
  set F := (tree.setSlot (slotOf k) (rootOf s)).setParentOf (rootOf s) (parentOf k) with hF
  have hs' := hs
  rw [hs.eq_rootOf] at hs'
  have hsF : SubtreeAt F.nodes (parentOf k) s (rootOf s) := by
    refine subtreeAt_reparent hs' hsnd ?_ ?_
    · intro r hr
      simp [hF, nodes_setParentOf, hr, nodes_setSlot_of_ne (hown r (mem_of_rootOf_eq hr))]
    · intro z hz hzr
      simp [hF, nodes_setParentOf, Ne.symm hzr, nodes_setSlot_of_ne (hown z hz)]
  rw [stores_fill]
  refine ⟨rootOf s, hsF, ?_⟩
  refine (pathAt_congr (by simp [hF]) ?_).mpr (hk.setSlot hknd)
  intro z hz
  have hzs : some z ≠ rootOf s := (rootOf_ne_of_not_mem fun h => hks z h hz).symm
  simp [hF, nodes_setParentOf, hzs]

/-- **Hanging a new node** at the empty child on side `d` of `y`, as the end of
`ucs_interval_tree_insert_node` does. -/
theorem Stores.hang {n : Ptr} (hT : tree.Stores ((down d c y s k).fill nil))
    (hnd : ((down d c y s k).fill nil).toList.Nodup) (hn : n ∉ (down d c y s k).fill nil)
    (hnl : (tree.nodes n).left = none) (hnr : (tree.nodes n).right = none)
    (hnc : (tree.nodes n).color = red) :
    ((tree.setChild y d (some n)).relinkChild y d).Stores
      ((down d c y s k).fill (node red nil n nil)) := by
  obtain ⟨-, hyp, hyc, hs, hk⟩ := Stores.of_down hT
  rw [fill_down, nodup_fill, nodup_mk] at hnd
  obtain ⟨⟨-, hys, -, -, -⟩, -, hkt⟩ := hnd
  rw [fill_down, mem_fill, mem_mk, not_or, not_or, not_or] at hn
  obtain ⟨⟨hny, -, hns⟩, hnk⟩ := hn
  have hrel : (tree.setChild y d (some n)).relinkChild y d =
      (tree.setChild y d (some n)).setParent n (some y) := by
    simp [relinkChild, nodes_setChild, setParentOf]
  rw [hrel]
  set F := (tree.setChild y d (some n)).setParent n (some y) with hF
  have hFy : F.nodes y = (tree.nodes y).setChild d (some n) := by
    simp [hF, nodes_setParent, nodes_setChild, Ne.symm hny]
  have hFn : F.nodes n = (tree.nodes n).setParent (some y) := by
    simp [hF, nodes_setParent, nodes_setChild, hny]
  have hFz : ∀ z, z ≠ y → z ≠ n → F.nodes z = tree.nodes z := by
    intro z hzy hzn
    simp [hF, nodes_setParent, nodes_setChild, hzy, hzn]
  rw [fill_down, stores_fill]
  refine ⟨some y, ?_, ?_⟩
  · rw [subtreeAt_mk, hFy]
    refine ⟨rfl, by simpa using hyp, by simpa using hyc, ?_, ?_⟩
    · rw [UcsIntervalNode.child_setChild]
      refine ⟨rfl, ?_, ?_, ?_, ?_⟩ <;> simp [hFn, hnc, hnl, hnr]
    · rw [UcsIntervalNode.child_opp_setChild,
        subtreeAt_congr (fun z hz => by
          rw [hFz z (fun h => hys (h ▸ hz)) (fun h => hns (h ▸ hz))])]
      exact hs
  · refine (pathAt_congr (by simp [hF]) ?_).mpr hk
    intro z hz
    have hzy : z ≠ y := fun h => hkt y (mem_mk.mpr (.inl rfl)) (h ▸ hz)
    have hzn : z ≠ n := fun h => hnk (h ▸ hz)
    rw [hFz z hzy hzn]

/-! ### The ranges the nodes hold

Links and colours are all that the rebalancing writes; the ranges stay. -/

/-- The key the search of the tree goes by: a node's start. -/
def startKey (tree : UcsIntervalTree) (z : Ptr) : ℕ := (tree.nodes z).start.toNat

/-- The range the node at `z` holds. -/
def UcsIntervalTree.rangeOf (tree : UcsIntervalTree) (z : Ptr) : UcsIntervalTreeRange :=
  ⟨(tree.nodes z).start, (tree.nodes z).end⟩

section Ranges

variable {q v : Option Ptr} {s : Slot}

@[simp] lemma rangeOf_setChild : (tree.setChild p d q).rangeOf = tree.rangeOf := by
  funext z
  by_cases h : z = p <;> simp [rangeOf, nodes_setChild, h]

@[simp] lemma rangeOf_setParent : (tree.setParent p q).rangeOf = tree.rangeOf := by
  funext z
  by_cases h : z = p <;> simp [rangeOf, nodes_setParent, h]

@[simp] lemma rangeOf_setColor : (tree.setColor p c).rangeOf = tree.rangeOf := by
  funext z
  by_cases h : z = p <;> simp [rangeOf, nodes_setColor, h]

@[simp] lemma rangeOf_setParentOf : (tree.setParentOf q v).rangeOf = tree.rangeOf := by
  cases q <;> simp [setParentOf]

@[simp] lemma rangeOf_setColorOf : (tree.setColorOf q c).rangeOf = tree.rangeOf := by
  cases q <;> simp [setColorOf]

@[simp] lemma rangeOf_setSlot : (tree.setSlot s q).rangeOf = tree.rangeOf := by
  cases s with
  | root => rfl
  | child p d => simp

lemma startKey_eq_of_rangeOf (h : tree'.rangeOf = tree.rangeOf) : startKey tree' = startKey tree :=
  funext fun z => congrArg (fun r : UcsIntervalTreeRange => r.start.toNat) (congrFun h z)

/-- `tree'` is `tree` relinked and repainted: its nodes hold the same ranges, and the pool and the
counters are those of `tree`. -/
structure Relinked (tree tree' : UcsIntervalTree) : Prop where
  rangeOf : tree'.rangeOf = tree.rangeOf
  mpool : tree'.mpool = tree.mpool
  numNodes : tree'.numNodes = tree.numNodes
  totalSize : tree'.totalSize = tree.totalSize

variable {tree'' : UcsIntervalTree}

@[refl] lemma Relinked.refl : Relinked tree tree := ⟨rfl, rfl, rfl, rfl⟩

@[trans] lemma Relinked.trans (h₁ : Relinked tree tree') (h₂ : Relinked tree' tree'') :
    Relinked tree tree'' :=
  ⟨h₂.rangeOf.trans h₁.rangeOf, h₂.mpool.trans h₁.mpool, h₂.numNodes.trans h₁.numNodes,
    h₂.totalSize.trans h₁.totalSize⟩

lemma relinked_setColor : Relinked tree (tree.setColor p c) := ⟨by simp, rfl, rfl, rfl⟩

lemma relinked_setColorOf : Relinked tree (tree.setColorOf q c) := ⟨by simp, by simp, by simp, by simp⟩

lemma relinked_rotate : Relinked tree (rotate d tree x) := by
  unfold rotate
  split
  · rfl
  · exact ⟨by simp, by simp, by simp, by simp⟩

end Ranges

end Writes

/-! ### The invariant of the whole tree -/

/-- **The tree in memory is a red-black tree of the pool's nodes**: `tree->root` holds the tree
`T` with its parent links, of nodes that are not on the free list, in strictly increasing order of
start, balanced with a black root, and counted by `num_nodes`. -/
structure UcsIntervalTree.Valid (tree : UcsIntervalTree) (T : RBNode Ptr) : Prop where
  stores : tree.Stores T
  nodup : (T.toList ++ tree.mpool).Nodup
  sorted : T.toList.Pairwise fun a b => startKey tree a < startKey tree b
  balanced : ∃ n, T.Balanced black n
  numNodes : tree.numNodes = T.size

/-- The tree of the list model that the tree `T` in memory stands for: its ranges in order, and
the two counters. -/
def UcsIntervalTree.abs (tree : UcsIntervalTree) (T : RBNode Ptr) : IntervalTree.UcsIntervalTree :=
  ⟨T.toList.map tree.rangeOf, tree.numNodes, tree.totalSize⟩

end UcxProofs.IntervalRb
