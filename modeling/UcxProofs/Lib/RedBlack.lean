import Mathlib

/-!
Red-black trees rebalanced in place, over Batteries' `RBNode`, its zipper `RBNode.Path` and
their balance invariants `Balanced` and `Path.Balanced`. A program that keeps its nodes linked
by child and parent pointers rebalances the tree by painting nodes and rotating at a node, a
step at a time; each step is stated here on a path, from a node up to the root, and the subtree
at its hole. `Side` names a child, so that the two mirror cases of a step are one lemma.

The insertion steps carry a tree that is balanced but for a red node under a red parent
(`k.Balanced c₀ n₀ black n` with a red `t.Balanced red n` at the hole), the deletion steps a
tree that is balanced but for one black node missing below the hole (`k.Balanced black n₀ black
(n + 1)` with `t.Balanced black n` at the hole). These are the cases of the textbook
rebalancing after an insertion and after a deletion.
-/

namespace UcxProofs.RedBlack

open RBTree RBTree.RBNode RBColor

instance decEqRBColor : DecidableEq RBColor
  | red, red => isTrue rfl
  | black, black => isTrue rfl
  | red, black => isFalse nofun
  | black, red => isFalse nofun

/-- A child of a node. -/
inductive Side
  | left
  | right
  deriving DecidableEq, Repr

/-- The other child. -/
def Side.opp : Side → Side
  | .left => .right
  | .right => .left

lemma Side.eq_opp_of_ne {d d' : Side} (h : d' ≠ d) : d' = d.opp := by
  cases d <;> cases d' <;> simp_all [Side.opp]

variable {α : Type*}

/-- The node `x` of colour `c` whose child on side `d` is `t` and whose other child is `s`. -/
def mk : Side → RBColor → α → RBNode α → RBNode α → RBNode α
  | .left, c, x, t, s => node c t x s
  | .right, c, x, t, s => node c s x t

/-- The path into the child on side `d` of the node `x` of colour `c`, whose other child is `s`,
below the path `k`. -/
def down : Side → RBColor → α → RBNode α → Path α → Path α
  | .left, c, x, s, k => .left c k x s
  | .right, c, x, s, k => .right c s x k

/-- The node whose child the hole of a path is. -/
def parentOf : Path α → Option α
  | .root => none
  | .left _ _ x _ => some x
  | .right _ _ x _ => some x

/-- The number of nodes from the hole of a path up to the root. -/
def pathLength : Path α → ℕ
  | .root => 0
  | .left _ k _ _ => pathLength k + 1
  | .right _ _ _ k => pathLength k + 1

/-! ### Nodes and paths by side -/

section Shape

variable {d : Side} {c c' : RBColor} {x y : α} {t s a b e : RBNode α} {k : Path α}

@[simp] lemma mk_opp : mk d.opp c x s t = mk d c x t s := by cases d <;> rfl

@[simp] lemma mk_left : mk .left c x t s = node c t x s := rfl

@[simp] lemma mk_right : mk .right c x t s = node c s x t := rfl

/-- A node is a node by either side. -/
lemma node_eq_mk (d : Side) (c : RBColor) (a : RBNode α) (x : α) (b : RBNode α) :
    ∃ t s, node c a x b = mk d c x t s := by
  cases d
  · exact ⟨a, b, rfl⟩
  · exact ⟨b, a, rfl⟩

@[simp] lemma fill_down : (down d c x s k).fill t = k.fill (mk d c x t s) := by cases d <;> rfl

@[simp] lemma parentOf_down : parentOf (down d c x s k) = some x := by cases d <;> rfl

@[simp] lemma pathLength_down : pathLength (down d c x s k) = pathLength k + 1 := by
  cases d <;> rfl

@[simp] lemma mem_mk : y ∈ mk d c x t s ↔ y = x ∨ y ∈ t ∨ y ∈ s := by
  cases d
  · simp [mk]
  · simp only [mk, mem_node]
    tauto

@[simp] lemma size_mk : (mk d c x t s).size = t.size + s.size + 1 := by
  cases d <;> simp [mk]
  omega

@[simp] lemma isRed_mk : (mk d c x t s).isRed = c := by cases d <;> rfl

@[simp] lemma depth_mk : (mk d c x t s).depth = max t.depth s.depth + 1 := by
  cases d
  · rfl
  · simp [mk, depth, max_comm]

@[simp] lemma setBlack_mk : (mk d c x t s).setBlack = mk d black x t s := by cases d <;> rfl

lemma toList_mk : (mk d c x t s).toList =
    if d = .left then t.toList ++ x :: s.toList else s.toList ++ x :: t.toList := by
  cases d <;> simp [mk]

@[simp] lemma listL_down : (down d c x s k).listL =
    if d = .left then k.listL else k.listL ++ (s.toList ++ [x]) := by
  cases d <;> rfl

@[simp] lemma listR_down : (down d c x s k).listR =
    if d = .left then x :: s.toList ++ k.listR else k.listR := by
  cases d <;> rfl

/-- The nodes of a path: its own and those of the subtrees beside it. -/
def pathNodes (k : Path α) : List α := k.listL ++ k.listR

lemma perm_pathNodes_down : (pathNodes (down d c x s k)).Perm (x :: (s.toList ++ pathNodes k)) := by
  cases d
  · simp only [pathNodes, listL_down, listR_down, if_true, List.cons_append]
    refine List.perm_middle.trans (List.Perm.cons x ?_)
    exact List.perm_append_comm_assoc _ _ _ |>.trans (by simp)
  · simp only [pathNodes, listL_down, listR_down, reduceCtorEq, if_false]
    rw [List.append_assoc, List.append_assoc, List.singleton_append, ← List.append_assoc]
    refine List.perm_middle.trans (List.Perm.cons x ?_)
    rw [← List.append_assoc]
    exact List.perm_append_comm.append_right _

@[simp] lemma mem_pathNodes_down : y ∈ pathNodes (down d c x s k) ↔ y = x ∨ y ∈ s ∨ y ∈ pathNodes k := by
  rw [perm_pathNodes_down.mem_iff]
  simp

lemma nodup_pathNodes_down : (pathNodes (down d c x s k)).Nodup ↔
    x ∉ s ∧ x ∉ pathNodes k ∧ (∀ z ∈ s, z ∉ pathNodes k) ∧ s.toList.Nodup ∧ (pathNodes k).Nodup := by
  rw [perm_pathNodes_down.nodup_iff, List.nodup_cons, List.nodup_append]
  simp only [List.mem_append, mem_toList, not_or]
  constructor
  · rintro ⟨⟨h1, h2⟩, h3, h4, h5⟩
    exact ⟨h1, h2, fun z hz hzk => h5 z hz z hzk rfl, h3, h4⟩
  · rintro ⟨h1, h2, h3, h4, h5⟩
    exact ⟨⟨h1, h2⟩, h4, h5, fun a ha b hb hab => h3 a ha (hab ▸ hb)⟩

/-- The nodes of a tree read as a path and the subtree at its hole. -/
lemma mem_fill {k : Path α} : y ∈ k.fill t ↔ y ∈ t ∨ y ∈ pathNodes k := by
  rw [← mem_toList, Path.fill_toList]
  simp only [Path.withList, pathNodes, List.mem_append, mem_toList]
  tauto

/-- The nodes of a tree are distinct: the root is in neither subtree, the subtrees share no
node, and each has distinct nodes. -/
lemma nodup_node : (node c t x s).toList.Nodup ↔
    x ∉ t ∧ x ∉ s ∧ (∀ z ∈ t, z ∉ s) ∧ t.toList.Nodup ∧ s.toList.Nodup := by
  simp only [toList_node, List.nodup_append, List.nodup_cons, List.mem_cons, mem_toList]
  constructor
  · rintro ⟨ht, ⟨hxs, hs⟩, hd⟩
    exact ⟨fun h => hd x h x (.inl rfl) rfl, hxs, fun z hz hzs => hd z hz z (.inr hzs) rfl, ht, hs⟩
  · rintro ⟨hxt, hxs, hd, ht, hs⟩
    refine ⟨ht, ⟨hxs, hs⟩, ?_⟩
    rintro a ha b (rfl | hb) rfl
    · exact hxt ha
    · exact hd a ha hb

lemma nodup_mk : (mk d c x t s).toList.Nodup ↔
    x ∉ t ∧ x ∉ s ∧ (∀ z ∈ t, z ∉ s) ∧ t.toList.Nodup ∧ s.toList.Nodup := by
  cases d
  · exact nodup_node
  · rw [mk, nodup_node]
    constructor
    · rintro ⟨h1, h2, h3, h4, h5⟩
      exact ⟨h2, h1, fun z hz hzs => h3 z hzs hz, h5, h4⟩
    · rintro ⟨h1, h2, h3, h4, h5⟩
      exact ⟨h2, h1, fun z hz hzs => h3 z hzs hz, h5, h4⟩

/-- The nodes of a path and of the subtree at its hole are distinct. -/
lemma nodup_fill {k : Path α} : (k.fill t).toList.Nodup ↔
    t.toList.Nodup ∧ (pathNodes k).Nodup ∧ ∀ z ∈ t, z ∉ pathNodes k := by
  rw [Path.fill_toList, Path.withList, pathNodes, List.nodup_append, List.nodup_append,
    List.nodup_append]
  simp only [List.mem_append, mem_toList, not_or]
  constructor
  · rintro ⟨⟨hL, ht, hLt⟩, hR, hd⟩
    refine ⟨ht, ⟨hL, hR, fun a ha b hb => hd a (.inl ha) b hb⟩, fun z hz =>
      ⟨fun h => hLt z h z hz rfl, fun h => hd z (.inr hz) z h rfl⟩⟩
  · rintro ⟨ht, ⟨hL, hR, hLR⟩, hz⟩
    refine ⟨⟨hL, ht, fun a ha b hb hab => (hz b hb).1 (hab ▸ ha)⟩, hR, ?_⟩
    rintro a (ha | ha) b hb rfl
    · exact hLR a ha a hb rfl
    · exact (hz a ha).2 hb

/-- A relation holds in order along a tree where it does along each subtree, from the left
subtree to the root and the right one, and from the root to the right subtree. -/
lemma pairwise_toList_node {R : α → α → Prop} :
    (node c a x b).toList.Pairwise R ↔ a.toList.Pairwise R ∧ b.toList.Pairwise R ∧
      (∀ u ∈ a, R u x) ∧ (∀ w ∈ b, R x w) ∧ ∀ u ∈ a, ∀ w ∈ b, R u w := by
  simp only [toList_node, List.pairwise_append, List.pairwise_cons, List.mem_cons, mem_toList]
  constructor
  · rintro ⟨ha, ⟨hx, hb⟩, h⟩
    exact ⟨ha, hb, fun u hu => h u hu x (.inl rfl), hx, fun u hu w hw => h u hu w (.inr hw)⟩
  · rintro ⟨ha, hb, hax, hxb, hab⟩
    refine ⟨ha, ⟨hxb, hb⟩, ?_⟩
    rintro u hu w (rfl | hw)
    · exact hax u hu
    · exact hab u hu w hw

/-- Every node of a path stands in the tree, beside the subtree at its hole. -/
lemma pathLength_add_size_le : ∀ (k : Path α) (t : RBNode α), pathLength k + t.size ≤ (k.fill t).size
  | .root, t => by simp [pathLength]
  | .left c k x s, t => by
    have h := pathLength_add_size_le k (node c t x s)
    simp only [pathLength, Path.fill, size] at h ⊢
    omega
  | .right c s x k, t => by
    have h := pathLength_add_size_le k (node c s x t)
    simp only [pathLength, Path.fill, size] at h ⊢
    omega

lemma depth_le_size : ∀ t : RBNode α, t.depth ≤ t.size
  | nil => le_rfl
  | node _ a _ b => by
    have ha := depth_le_size a
    have hb := depth_le_size b
    simp only [depth, size]
    omega

end Shape

/-! ### Painting a node -/

section Paint

variable [DecidableEq α] {d : Side} {c c' : RBColor} {p x : α} {t s : RBNode α}

/-- The tree with the node `p` painted `c`. -/
def paint (p : α) (c : RBColor) : RBNode α → RBNode α
  | nil => nil
  | node c' a x b => node (if x = p then c else c') (paint p c a) x (paint p c b)

lemma paint_mk : paint p c (mk d c' x t s) =
    mk d (if x = p then c else c') x (paint p c t) (paint p c s) := by
  cases d <;> rfl

@[simp] lemma paint_mk_self : paint p c (mk d c' p t s) = mk d c p (paint p c t) (paint p c s) := by
  simp [paint_mk]

@[simp] lemma paint_of_not_mem : ∀ {t : RBNode α}, p ∉ t → paint p c t = t
  | nil, _ => rfl
  | node c' a x b, h => by
    simp only [mem_node, not_or] at h
    simp only [paint, if_neg (Ne.symm h.1), paint_of_not_mem h.2.1, paint_of_not_mem h.2.2]

/-- Painting a node that is not on a path paints it in the subtree at the hole. -/
lemma paint_fill : ∀ {k : Path α} {t : RBNode α}, p ∉ pathNodes k →
    paint p c (k.fill t) = k.fill (paint p c t)
  | .root, _, _ => rfl
  | .left c' k x s, t, h => by
    have h' : ¬(p = x ∨ p ∈ s ∨ p ∈ pathNodes k) := by
      rwa [← mem_pathNodes_down (d := .left) (c := c')]
    simp only [not_or] at h'
    simp only [Path.fill]
    rw [paint_fill h'.2.2]
    simp [paint, Ne.symm h'.1, h'.2.1]
  | .right c' s x k, t, h => by
    have h' : ¬(p = x ∨ p ∈ s ∨ p ∈ pathNodes k) := by
      rwa [← mem_pathNodes_down (d := .right) (c := c')]
    simp only [not_or] at h'
    simp only [Path.fill]
    rw [paint_fill h'.2.2]
    simp [paint, Ne.symm h'.1, h'.2.1]

/-- Painting the root of a tree whose nodes are distinct repaints the root alone. -/
lemma paint_node_self {a b : RBNode α} (h : (node c' a x b).toList.Nodup) :
    paint x c (node c' a x b) = node c a x b := by
  obtain ⟨hxa, hxb, -⟩ := nodup_node.mp h
  simp [paint, paint_of_not_mem hxa, paint_of_not_mem hxb]

/-- Painting a node of a tree whose nodes are distinct repaints that node alone. -/
lemma paint_fill_self {k : Path α} (h : (k.fill (mk d c' x t s)).toList.Nodup) :
    paint x c (k.fill (mk d c' x t s)) = k.fill (mk d c x t s) := by
  rw [nodup_fill, nodup_mk] at h
  obtain ⟨⟨hxt, hxs, -⟩, -, hk⟩ := h
  rw [paint_fill (hk x (mem_mk.mpr (.inl rfl))), paint_mk_self, paint_of_not_mem hxt,
    paint_of_not_mem hxs]

end Paint

/-! ### Taking out a node with an empty child -/

section Splice

variable [DecidableEq α] {d : Side} {c : RBColor} {x : α} {s : RBNode α} {k : Path α}

lemma toList_mk_nil_erase (hxs : x ∉ s) : (mk d c x nil s).toList.erase x = s.toList := by
  cases d
  · simp
  · simp [List.erase_append_right _ (mt mem_toList.mp hxs)]

/-- A node with an empty child, replaced by its other child, leaves the order without it. -/
lemma toList_fill_splice (h : (k.fill (mk d c x nil s)).toList.Nodup) :
    (k.fill s).toList = (k.fill (mk d c x nil s)).toList.erase x := by
  rw [nodup_fill, nodup_mk] at h
  obtain ⟨⟨-, hxs, -⟩, -, hk⟩ := h
  have hxk := hk x (mem_mk.mpr (.inl rfl))
  simp only [pathNodes, List.mem_append, not_or] at hxk
  have hx : x ∈ (mk d c x nil s).toList := mem_toList.mpr (mem_mk.mpr (.inl rfl))
  simp only [Path.fill_toList, Path.withList, List.append_assoc]
  rw [List.erase_append_right _ hxk.1, List.erase_append_left _ hx, toList_mk_nil_erase hxs]

end Splice

/-! ### Balance by side -/

section Balance

variable {d : Side} {c c' c₀ : RBColor} {n n₀ : ℕ} {x y : α} {t s a b : RBNode α}
  {k : Path α}

lemma isRed_eq_of_balanced : t.Balanced c n → t.isRed = c
  | .nil => rfl
  | .red _ _ => rfl
  | .black _ _ => rfl

lemma setBlack_of_isRed_black (h : t.isRed = black) : t.setBlack = t := by
  cases t with
  | nil => rfl
  | node c a x b =>
    cases h
    rfl

lemma balanced_mk_red (ht : t.Balanced black n) (hs : s.Balanced black n) :
    (mk d red x t s).Balanced red n := by
  cases d
  · exact .red ht hs
  · exact .red hs ht

lemma balanced_mk_black {c₁ c₂ : RBColor} (ht : t.Balanced c₁ n) (hs : s.Balanced c₂ n) :
    (mk d black x t s).Balanced black (n + 1) := by
  cases d
  · exact .black ht hs
  · exact .black hs ht

lemma of_balanced_mk_red (h : (mk d red x t s).Balanced c n) :
    c = red ∧ t.Balanced black n ∧ s.Balanced black n := by
  cases d <;> cases h <;> simp_all

lemma of_balanced_mk_black (h : (mk d black x t s).Balanced c n) :
    c = black ∧ ∃ m c₁ c₂, n = m + 1 ∧ t.Balanced c₁ m ∧ s.Balanced c₂ m := by
  cases d <;> cases h
  · exact ⟨rfl, _, _, _, rfl, ‹_›, ‹_›⟩
  · exact ⟨rfl, _, _, _, rfl, ‹_›, ‹_›⟩

/-- A balanced tree of black height one more than nothing has a node at its root. -/
lemma exists_mk_of_balanced_succ (h : t.Balanced c (n + 1)) :
    ∃ c' x a b, t = mk d c' x a b := by
  cases h <;> cases d <;> exact ⟨_, _, _, _, rfl⟩

lemma balanced_down_red (hs : s.Balanced black n) (hk : k.Balanced c₀ n₀ red n) :
    (down d red x s k).Balanced c₀ n₀ black n := by
  cases d
  · exact .redL hs hk
  · exact .redR hs hk

lemma balanced_down_black {c₁ c₂ : RBColor} (hs : s.Balanced c₂ n)
    (hk : k.Balanced c₀ n₀ black (n + 1)) : (down d black x s k).Balanced c₀ n₀ c₁ n := by
  cases d
  · exact .blackL hs hk
  · exact .blackR hs hk

/-- What a hole below a node asks of the node's other child and of the path above. -/
lemma of_balanced_down (h : (down d c x s k).Balanced c₀ n₀ c' n) :
    (c = red ∧ c' = black ∧ s.Balanced black n ∧ k.Balanced c₀ n₀ red n) ∨
      (c = black ∧ (∃ c₂, s.Balanced c₂ n) ∧ k.Balanced c₀ n₀ black (n + 1)) := by
  cases d <;> cases h
  · exact .inl ⟨rfl, rfl, ‹_›, ‹_›⟩
  · exact .inr ⟨rfl, ⟨_, ‹_›⟩, ‹_›⟩
  · exact .inl ⟨rfl, rfl, ‹_›, ‹_›⟩
  · exact .inr ⟨rfl, ⟨_, ‹_›⟩, ‹_›⟩

/-- A balanced tree read as a path and the subtree at its hole. -/
lemma of_balanced_fill : ∀ {k : Path α} {t : RBNode α}, (k.fill t).Balanced c₀ n₀ →
    ∃ c n, t.Balanced c n ∧ k.Balanced c₀ n₀ c n
  | .root, _, h => ⟨_, _, h, .root⟩
  | .left _ k _ _, _, h => by
    obtain ⟨c, n, hn, hk⟩ := of_balanced_fill (k := k) h
    cases hn with
    | red ht hs => exact ⟨_, _, ht, .redL hs hk⟩
    | black ht hs => exact ⟨_, _, ht, .blackL hs hk⟩
  | .right _ _ _ k, _, h => by
    obtain ⟨c, n, hn, hk⟩ := of_balanced_fill (k := k) h
    cases hn with
    | red hs ht => exact ⟨_, _, ht, .redR hs hk⟩
    | black hs ht => exact ⟨_, _, ht, .blackR hs hk⟩

/-- Where a red node may stand below a black root, so may a black one. -/
lemma balanced_black_of_red (h : k.Balanced black n₀ red n) : k.Balanced black n₀ black n := by
  cases h with
  | blackL hs hk => exact .blackL hs hk
  | blackR hs hk => exact .blackR hs hk

/-- A hole of black height `n + 1` has a node beside it. -/
lemma exists_mk_of_down_succ (h : (down d c x s k).Balanced c₀ n₀ black (n + 1)) :
    ∃ cs y a b, s = mk d cs y a b := by
  rcases of_balanced_down h with ⟨-, -, hs, -⟩ | ⟨-, ⟨_, hs⟩, -⟩
  · exact exists_mk_of_balanced_succ hs
  · exact exists_mk_of_balanced_succ hs

end Balance

/-! ### Insertion: a red node under a red parent -/

section Insert

variable {d d₁ : Side} {c₂ c₀ : RBColor} {n n₀ : ℕ} {p g w z : α}
  {t s u ul ur zin zout : RBNode α} {k : Path α}

/-- The hole's grandparent is black and balances its other child with the parent's subtree. -/
lemma of_balanced_red_parent (hk : (down d₁ red p s (down d c₂ g u k)).Balanced c₀ n₀ black n) :
    s.Balanced black n ∧ c₂ = black ∧ (∃ cu, u.Balanced cu n) ∧
      k.Balanced c₀ n₀ black (n + 1) := by
  rcases of_balanced_down hk with ⟨-, -, hs, hg⟩ | ⟨h, -⟩
  · rcases of_balanced_down hg with ⟨-, h, -⟩ | ⟨hc, hu, hk⟩
    · cases h
    · exact ⟨hs, hc, hu, hk⟩
  · cases h

/-- **Red uncle.** Painting the parent and the uncle black and the grandparent red moves the red
node two levels up. -/
theorem ins_uncle_red
    (hk : (down d₁ red p s (down d c₂ g (node red ul w ur) k)).Balanced c₀ n₀ black n)
    (ht : t.Balanced red n) :
    k.Balanced c₀ n₀ black (n + 1) ∧
      (mk d red g (mk d₁ black p t s) (node black ul w ur)).Balanced red (n + 1) := by
  obtain ⟨hs, -, ⟨cu, hu⟩, hk⟩ := of_balanced_red_parent hk
  cases hu with
  | red hl hr => exact ⟨hk, balanced_mk_red (balanced_mk_black ht hs) (.black hl hr)⟩

/-- **Black uncle, the node on the parent's outer side.** Painting the parent black and the
grandparent red and rotating at the grandparent balances the tree. -/
theorem ins_uncle_black_line
    (hk : (down d red p s (down d c₂ g u k)).Balanced c₀ n₀ black n)
    (ht : t.Balanced red n) (hu : u.isRed = black) :
    k.Balanced c₀ n₀ black (n + 1) ∧
      (mk d black p t (mk d red g s u)).Balanced black (n + 1) := by
  obtain ⟨hs, -, ⟨cu, hu'⟩, hk⟩ := of_balanced_red_parent hk
  rw [isRed_eq_of_balanced hu'] at hu
  subst hu
  exact ⟨hk, balanced_mk_black ht (balanced_mk_red hs hu')⟩

/-- **Black uncle, the node on the parent's inner side.** A rotation at the parent puts the
parent below the node, on the outer side. -/
theorem ins_uncle_black_zigzag
    (hk : (down d.opp red p s (down d c₂ g u k)).Balanced c₀ n₀ black n)
    (ht : (mk d red z zin zout).Balanced red n) :
    (down d red z zout (down d c₂ g u k)).Balanced c₀ n₀ black n ∧
      (mk d red p s zin).Balanced red n := by
  rcases of_balanced_down hk with ⟨-, -, hs, hg⟩ | ⟨h, -⟩
  · obtain ⟨-, hin, hout⟩ := of_balanced_mk_red ht
    exact ⟨balanced_down_red hout hg, balanced_mk_red hs hin⟩
  · cases h

/-- The loop stops at a black parent: the tree is balanced. -/
theorem ins_black_parent (hk : (down d₁ black p s k).Balanced c₀ n₀ black n)
    (ht : t.Balanced red n) : (k.fill (mk d₁ black p t s)).Balanced c₀ n₀ := by
  rcases of_balanced_down hk with ⟨h, -⟩ | ⟨-, ⟨_, hs⟩, hk⟩
  · cases h
  · have h' : (down d₁ black p s k).Balanced c₀ n₀ red n := balanced_down_black hs hk
    simpa using h'.fill ht

/-- The loop stops at a red parent that is the root: painted black, the tree is balanced. -/
theorem ins_red_root (hk : (down d₁ red p s .root).Balanced c₀ n₀ black n)
    (ht : t.Balanced red n) : (mk d₁ black p t s).Balanced black (n + 1) := by
  rcases of_balanced_down hk with ⟨-, -, hs, -⟩ | ⟨h, -⟩
  · exact balanced_mk_black ht hs
  · cases h

end Insert

/-! ### Deletion: one black node missing below the hole -/

section Delete

variable {d : Side} {cP : RBColor} {n n₀ : ℕ} {P Sx Nx Fx : α}
  {t nr fr nn nf fn ff : RBNode α} {k : Path α}

/-- **Red sibling.** Painting the sibling black and the parent red and rotating at the parent
gives the hole a black sibling, the sibling's inner child. -/
theorem del_sibling_red
    (hk : (down d cP P (mk d red Sx nr fr) k).Balanced black n₀ black (n + 1)) :
    cP = black ∧ (down d red P nr (down d black Sx fr k)).Balanced black n₀ black (n + 1) ∧
      nr.isRed = black := by
  rcases of_balanced_down hk with ⟨-, -, hs, -⟩ | ⟨hc, ⟨cs, hs⟩, hup⟩
  · exact absurd (of_balanced_mk_red hs).1 (by decide)
  · obtain ⟨-, hnr, hfr⟩ := of_balanced_mk_red hs
    exact ⟨hc, balanced_down_red hnr (balanced_down_black hfr hup), isRed_eq_of_balanced hnr⟩

/-- **Black sibling with black children.** Painting the sibling red takes a black node off the
parent's other side too: the parent's subtree is the hole one level up, and if the parent is red,
painting it black ends the loop. -/
theorem del_sibling_black
    (hk : (down d cP P (mk d black Sx nr fr) k).Balanced black n₀ black (n + 1))
    (ht : t.Balanced black n) (hnr : nr.isRed = black) (hfr : fr.isRed = black) :
    (mk d black P t (mk d red Sx nr fr)).Balanced black (n + 1) ∧
      (cP = black → k.Balanced black n₀ black (n + 2)) ∧
      (cP = red → k.Balanced black n₀ black (n + 1)) := by
  have hS : ∀ {c}, (mk d black Sx nr fr).Balanced c (n + 1) →
      (mk d red Sx nr fr).Balanced red n := by
    intro c hs
    obtain ⟨-, m, c₁, c₂, hm, hnr', hfr'⟩ := of_balanced_mk_black hs
    cases hm
    rw [isRed_eq_of_balanced hnr'] at hnr
    rw [isRed_eq_of_balanced hfr'] at hfr
    subst hnr hfr
    exact balanced_mk_red hnr' hfr'
  rcases of_balanced_down hk with ⟨hc, -, hs, hup⟩ | ⟨hc, ⟨cs, hs⟩, hup⟩
  · subst hc
    exact ⟨balanced_mk_black ht (hS hs), fun h => absurd h (by decide),
      fun _ => balanced_black_of_red hup⟩
  · subst hc
    exact ⟨balanced_mk_black ht (hS hs), fun _ => hup, fun h => absurd h (by decide)⟩

/-- **Black sibling, red inner child, black outer child.** Painting the inner child black and the
sibling red and rotating at the sibling makes the sibling's outer child red. -/
theorem del_inner_red
    (hk : (down d cP P (mk d black Sx (mk d red Nx nn nf) fr) k).Balanced black n₀ black (n + 1))
    (hfr : fr.isRed = black) :
    (down d cP P (mk d black Nx nn (mk d red Sx nf fr)) k).Balanced black n₀ black (n + 1) := by
  have hS : ∀ {c}, (mk d black Sx (mk d red Nx nn nf) fr).Balanced c (n + 1) →
      (mk d black Nx nn (mk d red Sx nf fr)).Balanced black (n + 1) := by
    intro c hs
    obtain ⟨-, m, c₁, c₂, hm, hnr, hfr'⟩ := of_balanced_mk_black hs
    cases hm
    obtain ⟨-, hnn, hnf⟩ := of_balanced_mk_red hnr
    rw [isRed_eq_of_balanced hfr'] at hfr
    subst hfr
    exact balanced_mk_black hnn (balanced_mk_red hnf hfr')
  rcases of_balanced_down hk with ⟨hc, -, hs, hup⟩ | ⟨hc, ⟨cs, hs⟩, hup⟩
  · subst hc
    exact balanced_down_red (hS hs) hup
  · subst hc
    exact balanced_down_black (hS hs) hup

/-- **Black sibling, red outer child.** The sibling takes the parent's colour, the parent and the
outer child are painted black, and the rotation at the parent balances the tree. -/
theorem del_outer_red
    (hk : (down d cP P (mk d black Sx nr (mk d red Fx fn ff)) k).Balanced black n₀ black (n + 1))
    (ht : t.Balanced black n) :
    (k.fill (mk d cP Sx (mk d black P t nr) (mk d black Fx fn ff))).Balanced black n₀ := by
  have hS : ∀ {c}, (mk d black Sx nr (mk d red Fx fn ff)).Balanced c (n + 1) →
      (mk d black P t nr).Balanced black (n + 1) ∧
        (mk d black Fx fn ff).Balanced black (n + 1) := by
    intro c hs
    obtain ⟨-, m, c₁, c₂, hm, hnr, hfr⟩ := of_balanced_mk_black hs
    cases hm
    obtain ⟨-, hfn, hff⟩ := of_balanced_mk_red hfr
    exact ⟨balanced_mk_black ht hnr, balanced_mk_black hfn hff⟩
  rcases of_balanced_down hk with ⟨hc, -, hs, hup⟩ | ⟨hc, ⟨cs, hs⟩, hup⟩
  · subst hc
    obtain ⟨hl, hr⟩ := hS hs
    exact hup.fill (balanced_mk_red hl hr)
  · subst hc
    obtain ⟨hl, hr⟩ := hS hs
    exact hup.fill (balanced_mk_black hl hr)

/-- **Removing a node with an empty child.** Its other child takes its place: a red node had two
empty children, and a black one leaves the hole short of one black node, the child being empty
or a red leaf that painting black balances. -/
theorem del_splice {c : RBColor} {x : α} {s : RBNode α}
    (h : (k.fill (mk d c x nil s)).Balanced black n₀) :
    (c = red ∧ (k.fill s).Balanced black n₀) ∨
      (c = black ∧ k.Balanced black n₀ black 1 ∧
        (s.Balanced black 0 ∨ (s.isRed = red ∧ s.setBlack.Balanced black 1))) := by
  obtain ⟨c', m, hm, hk⟩ := of_balanced_fill h
  cases c with
  | red =>
    obtain ⟨rfl, hnil, hs⟩ := of_balanced_mk_red hm
    cases hnil
    exact .inl ⟨rfl, (balanced_black_of_red hk).fill hs⟩
  | black =>
    obtain ⟨rfl, m', c₁, c₂, rfl, hnil, hs⟩ := of_balanced_mk_black hm
    cases hnil
    refine .inr ⟨rfl, hk, ?_⟩
    cases c₂ with
    | black => exact .inl hs
    | red =>
      cases hs with
      | red hl hr => exact .inr ⟨rfl, .black hl hr⟩

end Delete

/-! ### Descending to an empty place -/

section Zoom

variable {β : Type*} [LinearOrder β] (key : α → β) (s : β)

/-- The descent of an insertion by `key`: into the left child of a node whose key is larger than
`s`, else into the right one. -/
def byKey (y : α) : Ordering := if s < key y then .lt else .gt

lemma zoom_byKey_node {c : RBColor} {a b : RBNode α} {y : α} {k : Path α} :
    zoom (byKey key s) (node c a y b) k =
      if s < key y then zoom (byKey key s) a (.left c k y b)
      else zoom (byKey key s) b (.right c a y k) := by
  by_cases h : s < key y <;> simp [zoom, byKey, h]

/-- The descent ends at an empty place. -/
lemma zoom_byKey_fst : ∀ (t : RBNode α) (k : Path α), (zoom (byKey key s) t k).1 = nil
  | nil, _ => rfl
  | node c a y b, k => by
    rw [zoom_byKey_node]
    split_ifs
    · exact zoom_byKey_fst a _
    · exact zoom_byKey_fst b _

/-- From a node, the descent ends below one of its nodes. -/
lemma exists_parentOf_zoom_byKey : ∀ {t : RBNode α} {k : Path α}, t ≠ nil →
    ∃ y ∈ t, parentOf (zoom (byKey key s) t k).2 = some y
  | nil, _, h => absurd rfl h
  | node c a y b, k, _ => by
    rw [zoom_byKey_node]
    split_ifs
    · cases a with
      | nil => exact ⟨y, by simp, rfl⟩
      | node ca aa ya ba =>
        obtain ⟨z, hz, h⟩ := exists_parentOf_zoom_byKey (t := node ca aa ya ba)
          (k := .left c k y b) (by simp)
        exact ⟨z, by simp [hz], h⟩
    · cases b with
      | nil => exact ⟨y, by simp, rfl⟩
      | node cb ab yb bb =>
        obtain ⟨z, hz, h⟩ := exists_parentOf_zoom_byKey (t := node cb ab yb bb)
          (k := .right c a y k) (by simp)
        exact ⟨z, by simp [hz], h⟩

/-- In a tree in order of `key`, the descent leaves the nodes of key at most `s` on its left and
the others on its right. -/
lemma zoom_byKey_bounds : ∀ {t : RBNode α} {k : Path α},
    t.toList.Pairwise (fun a b => key a ≤ key b) → (∀ z ∈ k.listL, key z ≤ s) →
    (∀ z ∈ k.listR, s < key z) →
    (∀ z ∈ (zoom (byKey key s) t k).2.listL, key z ≤ s) ∧
      ∀ z ∈ (zoom (byKey key s) t k).2.listR, s < key z
  | nil, _, _, hL, hR => ⟨hL, hR⟩
  | node c a y b, k, ht, hL, hR => by
    simp only [toList_node, List.pairwise_append, List.pairwise_cons, List.mem_cons] at ht
    obtain ⟨ha, ⟨hyb, hb⟩, hab⟩ := ht
    rw [zoom_byKey_node]
    split_ifs with hy
    · refine zoom_byKey_bounds ha (by simpa using hL) ?_
      simp only [Path.listR, List.cons_append, List.mem_cons, List.mem_append, mem_toList]
      rintro z (rfl | hz | hz)
      · exact hy
      · exact lt_of_lt_of_le hy (hyb z (by simpa using hz))
      · exact hR z hz
    · refine zoom_byKey_bounds hb ?_ (by simpa using hR)
      simp only [Path.listL, List.mem_append, mem_toList, List.mem_singleton]
      rintro z (hz | hz | rfl)
      · exact hL z hz
      · exact (hab z (by simpa using hz) y (.inl rfl)).trans (not_lt.mp hy)
      · exact not_lt.mp hy

end Zoom

end UcxProofs.RedBlack
