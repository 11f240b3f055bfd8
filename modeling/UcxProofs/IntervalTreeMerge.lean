import UcxProofs.IntervalTreeInv
import UcxProofs.Lib.Rewriting

/-!
Which touching node `ucs_interval_tree_find_overlap` meets first does not change what
`ucs_interval_tree_remove_overlapping` leaves. A round removes any node that touches the range
and widens the range over it; two rounds at different nodes can be taken in either order to the
same state, since the nodes are erased in either order and the range is widened over both either
way. The loop's end, where no node touches the range, is then the one normal form of the rounds
from the start, whatever the search.
-/

namespace UcxProofs.IntervalTree

open Ranges AddrBits UcsIntervalTreeRange Relation UcxProofs.Rewriting

variable {tree : UcsIntervalTree} {range node s : UcsIntervalTreeRange}

/-- One round of `remove_overlapping` on a valid tree and an admissible range: a node that touches
the range is removed, and the range widened over it. -/
def MergeStep (p q : UcsIntervalTree × UcsIntervalTreeRange) : Prop :=
  p.1.Valid ∧ p.2.Admissible ∧ ∃ node ∈ p.1.nodes, ucsIntervalTouches p.2 node = true ∧
    q = (ucsIntervalTreeRemoveNode p.1 node, ⟨min p.2.start node.start, max p.2.end node.end⟩)

/-- The end of the loop: a valid tree none of whose nodes touches the admissible range. -/
def MergeDone (p : UcsIntervalTree × UcsIntervalTreeRange) : Prop :=
  p.1.Valid ∧ p.2.Admissible ∧ ∀ node ∈ p.1.nodes, ucsIntervalTouches p.2 node = false

lemma MergeDone.normal {p : UcsIntervalTree × UcsIntervalTreeRange} (h : MergeDone p) :
    ∀ q, ¬ MergeStep p q := by
  rintro q ⟨-, -, node, hn, ht, -⟩
  simp [h.2.2 node hn] at ht

/-- A node that touches a range touches it widened. -/
lemma touches_hull (hr : range.Admissible) (hn : node.Admissible) (hs : s.Admissible)
    (h : ucsIntervalTouches range s = true) :
    ucsIntervalTouches ⟨min range.start node.start, max range.end node.end⟩ s = true := by
  rw [touches_iff (hull_admissible hr hn) hs]
  rw [touches_iff hr hs] at h
  simp only [Touches, lo, hi, toNat_min, toNat_max] at h ⊢
  omega

/-- Two admissible ranges with the same start touch. -/
lemma touches_of_start_eq (hr : range.Admissible) (hs : s.Admissible) (h : s.start = range.start) :
    ucsIntervalTouches range s = true := by
  rw [touches_iff hr hs]
  have hpr := hr.proper
  have hps := hs.proper
  simp only [Touches, Proper, lo, hi] at hpr hps ⊢
  rw [h] at hps ⊢
  omega

/-- `insert_node` puts the node after the nodes that start no later and before those that start
later. -/
lemma insertNode_of_bounds {L R : List UcsIntervalTreeRange} (hL : ∀ s ∈ L, s.start ≤ node.start)
    (hR : ∀ s ∈ R, node.start < s.start) :
    ucsIntervalTreeInsertNode (L ++ R) node = L ++ node :: R := by
  have hp : ∀ s ∈ L, decide (s.start ≤ node.start) = true := fun s hs => by simpa using hL s hs
  have hR' : R.takeWhile (fun s => decide (s.start ≤ node.start)) = [] ∧
      R.dropWhile (fun s => decide (s.start ≤ node.start)) = R := by
    cases R with
    | nil => exact ⟨rfl, rfl⟩
    | cons r R =>
      have hr : ¬ decide (r.start ≤ node.start) = true := by
        simpa using hR r List.mem_cons_self
      exact ⟨List.takeWhile_cons_of_neg hr, List.dropWhile_cons_of_neg hr⟩
  simp only [ucsIntervalTreeInsertNode, List.span_eq_takeWhile_dropWhile,
    List.takeWhile_append_of_pos hp, List.dropWhile_append_of_pos hp, hR', List.append_nil]

lemma removeNode_comm (n₁ n₂ : UcsIntervalTreeRange) :
    ucsIntervalTreeRemoveNode (ucsIntervalTreeRemoveNode tree n₁) n₂ =
      ucsIntervalTreeRemoveNode (ucsIntervalTreeRemoveNode tree n₂) n₁ := by
  simp only [ucsIntervalTreeRemoveNode, List.erase_comm, sub_right_comm]

lemma hull_comm (n₁ n₂ : UcsIntervalTreeRange) :
    (⟨min (min range.start n₁.start) n₂.start, max (max range.end n₁.end) n₂.end⟩ :
      UcsIntervalTreeRange) =
      ⟨min (min range.start n₂.start) n₁.start, max (max range.end n₂.end) n₁.end⟩ := by
  congr 1
  · exact UInt64.toNat_inj.mp (by simp only [toNat_min]; omega)
  · exact UInt64.toNat_inj.mp (by simp only [toNat_max]; omega)

/-- **The rounds commute**: rounds at two different nodes meet after one more round each. -/
theorem mergeStep_diamond (a b c : UcsIntervalTree × UcsIntervalTreeRange) (hb : MergeStep a b)
    (hc : MergeStep a c) : ∃ d, ReflGen MergeStep b d ∧ ReflTransGen MergeStep c d := by
  obtain ⟨hv, hr, n₁, hn₁, ht₁, rfl⟩ := hb
  obtain ⟨-, -, n₂, hn₂, ht₂, rfl⟩ := hc
  by_cases h : n₁ = n₂
  · subst h
    exact ⟨_, .refl, .refl⟩
  have ha₁ := hv.admissible n₁ hn₁
  have ha₂ := hv.admissible n₂ hn₂
  refine ⟨(ucsIntervalTreeRemoveNode (ucsIntervalTreeRemoveNode a.1 n₁) n₂,
      ⟨min (min a.2.start n₁.start) n₂.start, max (max a.2.end n₁.end) n₂.end⟩),
    .single ⟨hv.removeNode hn₁, hull_admissible hr ha₁, n₂, (List.mem_erase_of_ne (Ne.symm h)).mpr hn₂,
      touches_hull hr ha₁ ha₂ ht₂, rfl⟩,
    .single ⟨hv.removeNode hn₂, hull_admissible hr ha₂, n₁, (List.mem_erase_of_ne h).mpr hn₁,
      touches_hull hr ha₂ ha₁ ht₁, ?_⟩⟩
  exact Prod.ext (removeNode_comm n₁ n₂) (hull_comm n₁ n₂)

section Finder

variable (F : UcsIntervalTreeFinder)

/-- The list model's loop takes rounds from its start. -/
lemma removeOverlapping_reaches : ∀ (fuel : ℕ) {tree : UcsIntervalTree}
    {range : UcsIntervalTreeRange}, tree.Valid → range.Admissible → tree.nodes.length ≤ fuel →
    ReflTransGen MergeStep (tree, range) (ucsIntervalTreeRemoveOverlapping F fuel tree range)
  | 0, _, _, _, _, _ => .refl
  | fuel + 1, tree, range, hv, hr, hlen => by
    simp only [ucsIntervalTreeRemoveOverlapping]
    cases hf : F.find tree.nodes range with
    | none => exact .refl
    | some overlap =>
      obtain ⟨hmem, htouch⟩ := F.mem_of_find hf
      have hlen' : (ucsIntervalTreeRemoveNode tree overlap).nodes.length ≤ fuel := by
        simp only [ucsIntervalTreeRemoveNode, List.length_erase_of_mem hmem]
        omega
      exact .head ⟨hv, hr, overlap, hmem, htouch, rfl⟩ (removeOverlapping_reaches fuel
        (hv.removeNode hmem) (hull_admissible hr (hv.admissible overlap hmem)) hlen')

lemma removeOverlapping_done (hv : tree.Valid) (hr : range.Admissible) :
    MergeDone (ucsIntervalTreeRemoveOverlapping F tree.nodes.length tree range) := by
  obtain ⟨hv', hm, -, hsep⟩ := removeOverlapping_spec F _ hv hr le_rfl rfl
  refine ⟨hv', hm, fun node hn => ?_⟩
  have := hsep node hn
  rw [← touches_iff hm (hv'.admissible node hn)] at this
  simpa using this

/-- **The end of any run of rounds is the list model's.** -/
theorem eq_removeOverlapping_of_merge {p : UcsIntervalTree × UcsIntervalTreeRange}
    (hv : tree.Valid) (hr : range.Admissible) (h : ReflTransGen MergeStep (tree, range) p)
    (hp : MergeDone p) : p = ucsIntervalTreeRemoveOverlapping F tree.nodes.length tree range :=
  eq_of_normal mergeStep_diamond h (removeOverlapping_reaches F _ hv hr le_rfl) hp.normal
    (removeOverlapping_done F hv hr).normal

end Finder

end UcxProofs.IntervalTree
