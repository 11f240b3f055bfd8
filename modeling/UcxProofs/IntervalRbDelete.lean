import UcxProofs.IntervalRbRepr

/-!
The deletion fixup of the interval tree in memory: each round of `ucs_interval_tree_delete_fixup`
is one of the deletion steps of `Lib.RedBlack`, carried out by the paints and rotations of
`IntervalRbRepr`. The hole is the place of the removed black node, short of one black node; a
round with a red sibling rotates it to the parent and goes on to the black sibling, and a round
at a black sibling either moves the hole up or ends the loop by a rotation. The measure is the
depth of the hole, and `0` once the node at the hole is red, as after the red parent that the
first kind of round leaves.
-/

namespace UcxProofs.IntervalRb
open RBTree RBTree.RBNode RBColor UcxProofs.RedBlack UcsIntervalTree

variable {tree : UcsIntervalTree} {n₀ : ℕ} {k : Path Ptr} {t : RBNode Ptr} {d : Side}
  {cP : RBColor} {P Sx Nx Fx : Ptr} {nr fr nn nf fn ff : RBNode Ptr} {rootPtr : Slot}

/-! ### `ucs_interval_tree_delete_fixup` -/

/-- The state of the deletion fixup with the hole at the hole of `k`, where the subtree `t` stands:
the tree in memory is `k.fill t`, and it is balanced but for one black node missing on the way
to `t`, or `t` is red and painting it black balances the tree. -/
structure DelFix (tree : UcsIntervalTree) (n₀ : ℕ) (k : Path Ptr) (t : RBNode Ptr) : Prop where
  stores : tree.Stores (k.fill t)
  nodup : (k.fill t).toList.Nodup
  balanced : (∃ n, k.Balanced black n₀ black (n + 1) ∧ t.Balanced black n) ∨
    (t.isRed = red ∧ ∃ m, k.Balanced black n₀ black m ∧ t.setBlack.Balanced black m)

/-- **Red sibling**: painted black, the parent red and rotated towards the hole; the hole keeps its
slot and gets a black sibling. -/
theorem deleteFixup_sibling_red (h : DelFix tree n₀ (down d cP P (mk d red Sx nr fr) k) t)
    (hb : ∃ n, (down d cP P (mk d red Sx nr fr) k).Balanced black n₀ black (n + 1) ∧
      t.Balanced black n) :
    DelFix (rotate d ((tree.setColor Sx black).setColor P red) P) n₀
        (down d red P nr (down d black Sx fr k)) t ∧
      (∃ n, (down d red P nr (down d black Sx fr k)).Balanced black n₀ black (n + 1) ∧
        t.Balanced black n) ∧ nr.isRed = black := by
  obtain ⟨n, hk, ht⟩ := hb
  obtain ⟨-, hk', hnr⟩ := del_sibling_red hk
  have h1 : (tree.setColor Sx black).Stores
      ((down d.opp cP P t k).fill (mk d black Sx nr fr)) :=
    Stores.setColor_mk (by simpa using h.stores) (by simpa using h.nodup)
  have h2 : ((tree.setColor Sx black).setColor P red).Stores
      (k.fill (mk d red P t (mk d black Sx nr fr))) :=
    Stores.setColor_mk (by simpa using h1) (by simpa [toList_mk] using h.nodup)
  have h3 := Stores.rotate h2 (by simpa [toList_mk] using h.nodup)
  exact ⟨⟨by simpa using h3, by cases d <;> simpa using h.nodup, .inl ⟨n, hk', ht⟩⟩,
    ⟨n, hk', ht⟩, hnr⟩

/-- **Black sibling with black children**: painted red, and the hole moves up to the parent. -/
theorem deleteFixup_sibling_black (h : DelFix tree n₀ (down d cP P (mk d black Sx nr fr) k) t)
    (hb : ∃ n, (down d cP P (mk d black Sx nr fr) k).Balanced black n₀ black (n + 1) ∧
      t.Balanced black n)
    (hnr : nr.isRed = black) (hfr : fr.isRed = black) :
    DelFix (tree.setColor Sx red) n₀ k (mk d cP P t (mk d red Sx nr fr)) := by
  obtain ⟨n, hk, ht⟩ := hb
  obtain ⟨hP, hblack, hred⟩ := del_sibling_black hk ht hnr hfr
  have h1 : (tree.setColor Sx red).Stores ((down d.opp cP P t k).fill (mk d red Sx nr fr)) :=
    Stores.setColor_mk (by simpa using h.stores) (by simpa using h.nodup)
  refine ⟨by simpa using h1, by simpa [toList_mk] using h.nodup, ?_⟩
  cases cP
  · exact .inr ⟨by simp, n + 1, hred rfl, by simpa using hP⟩
  · exact .inl ⟨n + 1, hblack rfl, hP⟩

/-- **Black sibling, red outer child**: the sibling takes the parent's colour, the parent and the
outer child are painted black, and the rotation at the parent balances the tree. -/
theorem deleteFixupRotate_outer
    (h : DelFix tree n₀ (down d cP P (mk d black Sx nr (mk d red Fx fn ff)) k) t)
    (hb : ∃ n, (down d cP P (mk d black Sx nr (mk d red Fx fn ff)) k).Balanced black n₀ black
      (n + 1) ∧ t.Balanced black n) :
    deleteFixupRotate d tree P Sx =
        rotate d (((tree.setColor Sx cP).setColor P black).setColor Fx black) P ∧
      (rotate d (((tree.setColor Sx cP).setColor P black).setColor Fx black) P).Stores
        ((down d black P nr (down d cP Sx (mk d black Fx fn ff) k)).fill t) ∧
      ∃ m, ((down d black P nr (down d cP Sx (mk d black Fx fn ff) k)).fill t).Balanced black m := by
  obtain ⟨n, hk, ht⟩ := hb
  have hnd := h.nodup
  rw [fill_down, nodup_fill, nodup_mk, nodup_mk, nodup_mk] at hnd
  obtain ⟨⟨-, hPS, -, -, ⟨hSnr, hSF, -, -, ⟨hFfn, hFff, -⟩⟩⟩, -, -⟩ := hnd
  simp only [mem_mk, not_or] at hPS hSF
  obtain ⟨-, -, hPc, hPS', -⟩ := Stores.of_down h.stores
  obtain ⟨hSq, -, -, -, hSF'⟩ := subtreeAt_mk.mp hPS'
  obtain ⟨hFx, -, hFc, -⟩ := subtreeAt_mk.mp hSF'
  refine ⟨?_, ?_, n₀, by simpa using del_outer_red hk ht⟩
  · simp [deleteFixupRotate, blackOrNull, hFx, hFc, hPc, nodes_setColor, Ne.symm hPS.1,
      setColorOf]
  · have h1 : (tree.setColor Sx cP).Stores
        ((down d.opp cP P t k).fill (mk d cP Sx nr (mk d red Fx fn ff))) :=
      Stores.setColor_mk (by simpa using h.stores) (by simpa using h.nodup)
    have h2 : ((tree.setColor Sx cP).setColor P black).Stores
        (k.fill (mk d black P t (mk d cP Sx nr (mk d red Fx fn ff)))) :=
      Stores.setColor_mk (by simpa using h1) (by simpa [toList_mk] using h.nodup)
    have h3 : (((tree.setColor Sx cP).setColor P black).setColor Fx black).Stores
        ((down d.opp cP Sx nr (down d.opp black P t k)).fill (mk d black Fx fn ff)) :=
      Stores.setColor_mk (by simpa using h2) (by simpa [toList_mk] using h.nodup)
    have h4 := Stores.rotate (by simpa using h3 :
      (((tree.setColor Sx cP).setColor P black).setColor Fx black).Stores
        (k.fill (mk d black P t (mk d cP Sx nr (mk d black Fx fn ff)))))
      (by cases d <;> simpa using h.nodup)
    simpa using h4

/-- **Black sibling, red inner child, black outer child**: the inner child painted black, the
sibling red and rotated away from the hole; the hole gets a black sibling with a red outer
child, and the round ends as for a red outer child. -/
theorem deleteFixupRotate_inner
    (h : DelFix tree n₀ (down d cP P (mk d black Sx (mk d red Nx nn nf) fr) k) t)
    (hb : ∃ n, (down d cP P (mk d black Sx (mk d red Nx nn nf) fr) k).Balanced black n₀ black
      (n + 1) ∧ t.Balanced black n)
    (hfr : fr.isRed = black) :
    deleteFixupRotate d tree P Sx =
        deleteFixupRotate d (rotate d.opp ((tree.setColor Nx black).setColor Sx red) Sx) P Nx ∧
      DelFix (rotate d.opp ((tree.setColor Nx black).setColor Sx red) Sx) n₀
        (down d cP P (mk d black Nx nn (mk d red Sx nf fr)) k) t ∧
      ∃ n, (down d cP P (mk d black Nx nn (mk d red Sx nf fr)) k).Balanced black n₀ black
        (n + 1) ∧ t.Balanced black n := by
  obtain ⟨n, hk, ht⟩ := hb
  have h1 : (tree.setColor Nx black).Stores
      ((down d black Sx fr (down d.opp cP P t k)).fill (mk d black Nx nn nf)) :=
    Stores.setColor_mk (by simpa using h.stores) (by simpa using h.nodup)
  have h2 : ((tree.setColor Nx black).setColor Sx red).Stores
      ((down d.opp cP P t k).fill (mk d red Sx (mk d black Nx nn nf) fr)) :=
    Stores.setColor_mk (by simpa using h1) (by simpa [toList_mk] using h.nodup)
  have h3 := Stores.rotate (by simpa using h2 :
    ((tree.setColor Nx black).setColor Sx red).Stores
      ((down d.opp cP P t k).fill (mk d.opp red Sx fr (mk d.opp black Nx nf nn))))
    (by cases d <;> simpa using h.nodup)
  have h3' : (rotate d.opp ((tree.setColor Nx black).setColor Sx red) Sx).Stores
      ((down d cP P (mk d black Nx nn (mk d red Sx nf fr)) k).fill t) := by simpa using h3
  refine ⟨?_, ⟨h3', by cases d <;> simpa using h.nodup, .inl ⟨n, del_inner_red hk hfr, ht⟩⟩,
    n, del_inner_red hk hfr, ht⟩
  -- the reads of the round: the outer child is black, the inner one `Nx`, and after the rotation
  -- `Nx` is the sibling, with the red `Sx` outside
  obtain ⟨-, -, -, hPS, -⟩ := Stores.of_down h.stores
  obtain ⟨-, -, -, hSN, hSF⟩ := subtreeAt_mk.mp hPS
  obtain ⟨-, -, -, hPN, -⟩ := Stores.of_down h3'
  obtain ⟨hNq, -, -, -, hNS⟩ := subtreeAt_mk.mp hPN
  obtain ⟨-, -, hSc, -⟩ := subtreeAt_mk.mp hNS
  have hb0 : tree.blackOrNull ((tree.nodes Sx).child d.opp) = true := hSF.blackOrNull_iff.mpr hfr
  have hb1 : (rotate d.opp ((tree.setColor Nx black).setColor Sx red) Sx).blackOrNull
      (((rotate d.opp ((tree.setColor Nx black).setColor Sx red) Sx).nodes Nx).child d.opp) =
        false := by
    rw [hNS.eq_rootOf, rootOf_mk]
    simp [blackOrNull, hSc]
  have hNx : (tree.nodes Sx).child d = some Nx := by rw [hSN.eq_rootOf, rootOf_mk]
  simp only [deleteFixupRotate, hb0, hNx, setColorOf, if_true, hNq, hb1, Bool.false_eq_true,
    if_false]

/-- How far the deletion fixup may still go up from the hole of `k` with `t` there: not at all if
`t` is red, which ends the loop, else to the root. -/
def delMeasure (k : Path Ptr) (t : RBNode Ptr) : ℕ := if t.isRed = red then 0 else pathLength k

/-- What a round of the deletion fixup from the hole where `t` stands leaves: the fixup at a new
hole, nearer the end by `m`, or the end of the loop in a balanced tree with `t` in place. Either
way the nodes keep their order `L`, and only links and colours are written. -/
def DelRound (tree : UcsIntervalTree) (n₀ : ℕ) (t : RBNode Ptr) (m : ℕ) (L : List Ptr)
    (r : UcsIntervalTree × Option (Slot × Option Ptr × Option Ptr)) : Prop :=
  Relinked tree r.1 ∧
    ((∃ k₁ t₁ rootPtr₁, r.2 = some (rootPtr₁, rootOf t₁, parentOf k₁) ∧ DelFix r.1 n₀ k₁ t₁ ∧
      (parentOf k₁ ≠ none → rootPtr₁ = slotOf k₁) ∧ delMeasure k₁ t₁ < m ∧
      (k₁.fill t₁).toList = L) ∨
    (r.2 = none ∧ ∃ K : Path Ptr, r.1.Stores (K.fill t) ∧ (K.fill t).toList = L ∧
      ∃ m', (K.fill t).Balanced black m'))

lemma DelRound.mono {m m' : ℕ} {L : List Ptr}
    {r : UcsIntervalTree × Option (Slot × Option Ptr × Option Ptr)}
    (h : DelRound tree n₀ t m L r) (hm : m ≤ m') : DelRound tree n₀ t m' L r := by
  obtain ⟨hrel, ⟨k₁, t₁, rootPtr₁, hr, hf, hs, hmeas, hl⟩ | hend⟩ := h
  · exact ⟨hrel, .inl ⟨k₁, t₁, rootPtr₁, hr, hf, hs, by omega, hl⟩⟩
  · exact ⟨hrel, .inr hend⟩

/-- `node = parent; parent = parent->parent;` and the slot of the new node in its parent. -/
lemma deleteFixupUp_eq (rootPtr : Slot) {x : Ptr} (h : tree.Stores (k.fill t)) (hnd : (k.fill t).toList.Nodup)
    (hx : rootOf t = some x) :
    ∃ rootPtr₁, deleteFixupUp tree rootPtr x = (rootPtr₁, some x, parentOf k) ∧
      (parentOf k ≠ none → rootPtr₁ = slotOf k) := by
  have hxp := Stores.parent_root h hx
  rcases path_cases k with rfl | ⟨dk, ck, pp, s', k', rfl⟩
  · exact ⟨rootPtr, by simp [deleteFixupUp, hxp, parentOf], fun h => absurd rfl h⟩
  · obtain ⟨hpx, -, -, hps, -⟩ := Stores.of_down h
    rw [fill_down, nodup_fill, nodup_mk] at hnd
    have h1 : (tree.nodes pp).child dk = some x := by rw [hpx.eq_rootOf, hx]
    have h2 : (tree.nodes pp).child dk.opp ≠ some x := by
      rw [hps.eq_rootOf]
      exact rootOf_ne_of_not_mem fun hs => hnd.1.2.2.1 x (mem_of_rootOf_eq hx) hs
    refine ⟨.child pp dk, ?_, fun _ => by simp⟩
    rw [parentOf_down] at hxp ⊢
    cases dk <;> simp_all [deleteFixupUp, Side.opp]

lemma DelRound.of_relinked {tree₁ : UcsIntervalTree} {m : ℕ} {L : List Ptr}
    {r : UcsIntervalTree × Option (Slot × Option Ptr × Option Ptr)} (h₁ : Relinked tree tree₁)
    (h : DelRound tree₁ n₀ t m L r) : DelRound tree n₀ t m L r :=
  ⟨h₁.trans h.1, h.2⟩

/-- **A round at a black sibling**: its children black, it is painted red and the hole moves up;
otherwise the rotations end the loop. -/
theorem deleteFixupSide_black (rootPtr : Slot) (h : DelFix tree n₀ (down d cP P (mk d black Sx nr fr) k) t)
    (hb : ∃ n, (down d cP P (mk d black Sx nr fr) k).Balanced black n₀ black (n + 1) ∧
      t.Balanced black n) :
    DelRound tree n₀ t (if cP = red then 1 else pathLength (down d cP P (mk d black Sx nr fr) k))
      ((down d cP P (mk d black Sx nr fr) k).fill t).toList (deleteFixupSide d tree rootPtr P) := by
  obtain ⟨-, -, -, hPS, -⟩ := Stores.of_down h.stores
  obtain ⟨hSq, -, hSc, hSnr, hSfr⟩ := subtreeAt_mk.mp hPS
  have hside : deleteFixupSide d tree rootPtr P =
      if tree.blackOrNull ((tree.nodes Sx).child d) ∧ tree.blackOrNull ((tree.nodes Sx).child d.opp)
      then (tree.setColor Sx red, some (deleteFixupUp (tree.setColor Sx red) rootPtr P))
      else (deleteFixupRotate d tree P Sx, none) := by
    simp [deleteFixupSide, hSq, hSc]
  rw [hside]
  by_cases hfr : fr.isRed = black
  · by_cases hnr : nr.isRed = black
    · -- both children black: the hole moves up to the parent
      simp only [hSnr.blackOrNull_iff.mpr hnr, hSfr.blackOrNull_iff.mpr hfr, and_self, if_true]
      have h' := deleteFixup_sibling_black h hb hnr hfr
      obtain ⟨rootPtr₁, hup, hslot⟩ := deleteFixupUp_eq rootPtr h'.stores h'.nodup rootOf_mk
      refine ⟨relinked_setColor, .inl ⟨k, _, rootPtr₁, by rw [hup, rootOf_mk], h', hslot, ?_,
        by cases d <;> simp⟩⟩
      cases cP <;> simp [delMeasure]
    · -- a red inner child and a black outer one: two rotations
      have hn : tree.blackOrNull ((tree.nodes Sx).child d) = false :=
        Bool.eq_false_iff.mpr fun hb' => hnr (hSnr.blackOrNull_iff.mp hb')
      simp only [hn, Bool.false_eq_true, false_and, if_false]
      cases nr with
      | nil => exact absurd rfl hnr
      | node cn nl Nx nrr =>
        cases cn with
        | black => exact absurd rfl hnr
        | red =>
          obtain ⟨nn, nf, hmk⟩ := node_eq_mk d red nl Nx nrr
          rw [hmk] at h hb ⊢
          obtain ⟨heq, h', hb'⟩ := deleteFixupRotate_inner h hb hfr
          obtain ⟨heq', hst, hbal⟩ := deleteFixupRotate_outer h' hb'
          refine ⟨?_, .inr ⟨rfl, _, by rw [heq, heq']; exact hst, by cases d <;> simp, hbal⟩⟩
          rw [heq, heq']
          exact ((relinked_setColor.trans relinked_setColor).trans relinked_rotate).trans
            (((relinked_setColor.trans relinked_setColor).trans relinked_setColor).trans
              relinked_rotate)
  · -- a red outer child: one rotation
    have hf : tree.blackOrNull ((tree.nodes Sx).child d.opp) = false :=
      Bool.eq_false_iff.mpr fun hb' => hfr (hSfr.blackOrNull_iff.mp hb')
    simp only [hf, Bool.false_eq_true, and_false, if_false]
    cases fr with
    | nil => exact absurd rfl hfr
    | node cf fl Fx frr =>
      cases cf with
      | black => exact absurd rfl hfr
      | red =>
        obtain ⟨fn, ff, hmk⟩ := node_eq_mk d red fl Fx frr
        rw [hmk] at h hb ⊢
        obtain ⟨heq, hst, hbal⟩ := deleteFixupRotate_outer h hb
        refine ⟨?_, .inr ⟨rfl, _, by rw [heq]; exact hst, by cases d <;> simp, hbal⟩⟩
        rw [heq]
        exact ((relinked_setColor.trans relinked_setColor).trans relinked_setColor).trans
          relinked_rotate

/-- With a red sibling the round goes on as from the rotated tree, where the sibling is black. -/
lemma deleteFixupSide_sibling_red_eq {N : Ptr} (hS : (tree.nodes P).child d.opp = some Sx)
    (hSc : (tree.nodes Sx).color = red)
    (hN : ((rotate d ((tree.setColor Sx black).setColor P red) P).nodes P).child d.opp = some N)
    (hNc : ((rotate d ((tree.setColor Sx black).setColor P red) P).nodes N).color = black) :
    deleteFixupSide d tree rootPtr P =
      deleteFixupSide d (rotate d ((tree.setColor Sx black).setColor P red) P) rootPtr P := by
  simp [deleteFixupSide, hS, hSc, hN, hNc]

/-- **A round of the deletion fixup** takes the measure down or ends the loop; a red sibling is
rotated to the parent first, and the round at the black sibling then ends the loop or moves the
hole to a red parent. -/
theorem deleteFixupSide_spec (rootPtr : Slot) {S : RBNode Ptr} (h : DelFix tree n₀ (down d cP P S k) t)
    (hb : ∃ n, (down d cP P S k).Balanced black n₀ black (n + 1) ∧ t.Balanced black n) :
    DelRound tree n₀ t (pathLength (down d cP P S k)) ((down d cP P S k).fill t).toList
      (deleteFixupSide d tree rootPtr P) := by
  obtain ⟨n, hk, -⟩ := id hb
  obtain ⟨cs, Sx, nr, fr, rfl⟩ := exists_mk_of_down_succ hk
  cases cs with
  | black =>
    refine (deleteFixupSide_black rootPtr h hb).mono ?_
    split <;> simp
  | red =>
    obtain ⟨h₁, hb₁, hnr⟩ := deleteFixup_sibling_red h hb
    obtain ⟨n₁, hk₁, -⟩ := id hb₁
    obtain ⟨cn, N, a, b, rfl⟩ := exists_mk_of_down_succ hk₁
    obtain rfl : cn = black := by simpa using hnr
    obtain ⟨-, -, -, hPS, -⟩ := Stores.of_down h.stores
    obtain ⟨hS, -, hSc, -, -⟩ := subtreeAt_mk.mp hPS
    obtain ⟨-, -, -, hPN, -⟩ := Stores.of_down h₁.stores
    obtain ⟨hN, -, hNc, -, -⟩ := subtreeAt_mk.mp hPN
    rw [deleteFixupSide_sibling_red_eq hS hSc hN hNc]
    have hr := deleteFixupSide_black rootPtr h₁ hb₁
    rw [show ((down d red P (mk d black N a b) (down d black Sx fr k)).fill t).toList =
        ((down d cP P (mk d red Sx (mk d black N a b) fr) k).fill t).toList by
      cases d <;> simp] at hr
    refine (DelRound.of_relinked ((relinked_setColor.trans relinked_setColor).trans
      relinked_rotate) hr).mono ?_
    simp

/-- The state at the end of the deletion fixup's loop: the tree in memory is `K.fill t` with `node`
the root of `t`, and painting `t` black balances it. -/
def DelDone (tree : UcsIntervalTree) (L : List Ptr)
    (r : UcsIntervalTree × Slot × Option Ptr × Option Ptr) : Prop :=
  Relinked tree r.1 ∧ ∃ (K : Path Ptr) (t : RBNode Ptr), r.1.Stores (K.fill t) ∧
    (K.fill t).toList = L ∧ r.2.2.1 = rootOf t ∧ (r.2.2.2 = none → K = .root) ∧
    ∃ m, (K.fill t.setBlack).Balanced black m

lemma DelDone.of_relinked {tree₁ : UcsIntervalTree} {L : List Ptr}
    {r : UcsIntervalTree × Slot × Option Ptr × Option Ptr} (h₁ : Relinked tree tree₁)
    (h : DelDone tree₁ L r) : DelDone tree L r :=
  ⟨h₁.trans h.1, h.2⟩

/-- The loop stops at the root, or at a red node: painting it black balances the tree. -/
lemma DelFix.balanced_setBlack (h : DelFix tree n₀ k t) (hk : k = .root ∨ t.isRed = red) :
    ∃ m, (k.fill t.setBlack).Balanced black m := by
  rcases h.balanced with ⟨n, hkb, ht⟩ | ⟨-, m, hkb, ht⟩
  · rcases hk with rfl | hr
    · exact ht.setBlack
    · exact absurd (isRed_eq_of_balanced ht ▸ hr) (by decide)
  · exact ⟨_, hkb.fill ht⟩

lemma side_of_slot {np : Ptr} {dk : Side} :
    (if Slot.child np dk = .child np .left then Side.left else Side.right) = dk := by
  cases dk <;> simp

/-- **The loop of the deletion fixup** ends, with the tree balanced once the node it stops at is
painted black, given fuel above the measure. -/
theorem deleteFixupLoop_spec : ∀ (fuel : ℕ) {tree : UcsIntervalTree} {k : Path Ptr}
    {t : RBNode Ptr} {rootPtr : Slot}, DelFix tree n₀ k t →
    (parentOf k ≠ none → rootPtr = slotOf k) → delMeasure k t < fuel →
    ∃ r, deleteFixupLoop fuel tree rootPtr (rootOf t) (parentOf k) = some r ∧
      DelDone tree (k.fill t).toList r
  | 0, _, _, _, _, _, _, hf => absurd hf (Nat.not_lt_zero _)
  | fuel + 1, tree, k, t, rootPtr, h, hslot, hf => by
    rcases path_cases k with rfl | ⟨dk, ck, np, s', k', rfl⟩
    · -- at the root the loop stops
      exact ⟨_, rfl, Relinked.refl, .root, t, h.stores, rfl, rfl, fun _ => rfl,
        h.balanced_setBlack (.inl rfl)⟩
    obtain ⟨q, hq, -⟩ := stores_fill.mp h.stores
    have hq' := hq.eq_rootOf
    subst hq'
    have hslot' : rootPtr = .child np dk := by simpa using hslot
    subst hslot'
    by_cases hred : t.isRed = red
    · -- a red node: the loop stops
      have hbon : tree.blackOrNull (rootOf t) = false :=
        Bool.eq_false_iff.mpr fun hb => by simp [hq.blackOrNull_iff.mp hb] at hred
      refine ⟨(tree, .child np dk, rootOf t, some np), by simp [deleteFixupLoop, hbon], Relinked.refl, _, t, h.stores, rfl, rfl,
        fun h' => by simp at h', h.balanced_setBlack (.inr hred)⟩
    have hblack : t.isRed = black := by cases ht : t.isRed <;> simp_all
    have hb : ∃ n, (down dk ck np s' k').Balanced black n₀ black (n + 1) ∧ t.Balanced black n := by
      rcases h.balanced with hb | ⟨hr, -⟩
      · exact hb
      · exact absurd hr hred
    have hround := deleteFixupSide_spec (.child np dk) h hb
    simp only [parentOf_down, deleteFixupLoop, hq.blackOrNull_iff.mpr hblack, if_true,
      side_of_slot]
    generalize deleteFixupSide dk tree (.child np dk) np = r at hround ⊢
    obtain ⟨hrel, ⟨k₁, t₁, rootPtr₁, hr, h₁, hslot₁, hm, hl⟩ | ⟨hr, K, hK, hl, m, hm⟩⟩ := hround
    · -- the hole moved up: the loop goes on
      obtain ⟨tree₁, o⟩ := r
      simp only at hr hrel h₁
      subst hr
      have hf₁ : delMeasure k₁ t₁ < fuel := by
        simp only [delMeasure, hred, if_false, pathLength_down] at hf
        rw [pathLength_down] at hm
        omega
      obtain ⟨r', hr', hd⟩ := deleteFixupLoop_spec fuel h₁ hslot₁ hf₁
      exact ⟨r', hr', DelDone.of_relinked hrel (hl ▸ hd)⟩
    · -- a rotation ended the loop
      obtain ⟨tree₁, o⟩ := r
      simp only at hr hrel hK
      subst hr
      refine ⟨_, rfl, hrel, K, t, hK, hl, rfl, fun h' => by simp at h', m, ?_⟩
      rwa [setBlack_of_isRed_black hblack]

/-- `if (node != NULL) node->color = UCS_INTERVAL_TREE_BLACK;` paints the subtree at the hole. -/
lemma Stores.setColorOf_black {K : Path Ptr} (h : tree.Stores (K.fill t))
    (hnd : (K.fill t).toList.Nodup) :
    (tree.setColorOf (rootOf t) black).Stores (K.fill t.setBlack) := by
  cases t with
  | nil => exact h
  | node c a x b =>
    have h' : tree.Stores (K.fill (mk .left c x a b)) := h
    exact Stores.setColor_mk h' hnd

/-- **The deletion fixup** leaves the tree balanced, from a hole whose slot is `root_ptr` and
whose parent is `parent`. -/
theorem ucsIntervalTreeDeleteFixup_spec {parent : Option Ptr} (h : DelFix tree n₀ k t)
    (hslot : rootPtr = slotOf k) (hpar : parent = parentOf k)
    (hf : pathLength k < tree.numNodes + 1) :
    ∃ tree' T, ucsIntervalTreeDeleteFixup tree rootPtr parent = some tree' ∧ tree'.Stores T ∧
      T.toList = (k.fill t).toList ∧ (∃ m, T.Balanced black m) ∧ Relinked tree tree' := by
  obtain ⟨q, hq, hk⟩ := stores_fill.mp h.stores
  have hget : tree.getSlot rootPtr = rootOf t := by
    rw [hslot, getSlot_slotOf hk, hq.eq_rootOf]
  have hm : delMeasure k t < tree.numNodes + 1 := by
    unfold delMeasure
    split <;> omega
  obtain ⟨⟨tree₁, rootPtr₁, node₁, parent₁⟩, hr, hrel, K, t', hK, hl, hnode, hroot, m, hbal⟩ :=
    deleteFixupLoop_spec _ h (fun _ => hslot) hm
  simp only at hrel hK hnode hroot
  subst hnode
  have hnd : (K.fill t').toList.Nodup := hl ▸ h.nodup
  have hK' := Stores.setColorOf_black hK hnd
  -- the write of tree->root stores the root it already holds
  have hsame : (if parent₁ = none ∧ rootPtr₁ = .root then
      { tree₁.setColorOf (rootOf t') black with root := rootOf t' }
      else tree₁.setColorOf (rootOf t') black) = tree₁.setColorOf (rootOf t') black := by
    split
    · next hc =>
      obtain rfl := hroot hc.1
      have h₁ := hK'.eq_rootOf
      rw [Path.fill, rootOf_setBlack] at h₁
      generalize tree₁.setColorOf (rootOf t') black = tr at h₁ ⊢
      rw [← h₁]
    · rfl
  refine ⟨_, _, ?_, hK', by simpa using hl, ⟨m, hbal⟩, hrel.trans relinked_setColorOf⟩
  simp only [ucsIntervalTreeDeleteFixup, hget, hpar, hr, Option.map_some, hsame]

end UcxProofs.IntervalRb
