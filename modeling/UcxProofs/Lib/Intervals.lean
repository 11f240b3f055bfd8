import Mathlib

/-!
Closed ranges of natural numbers `[lo r, hi r]` read off the elements of a type, the empty range
`lo r = hi r + 1` included: when two ranges touch, when they are separated, the integers a list
of ranges covers, and a list whose ranges come in order, each separated from the next.
-/

namespace Ranges

variable {α : Type*} (lo hi : α → ℕ)

/-- The ranges overlap or abut. -/
def Touches (r s : α) : Prop := lo r ≤ hi s + 1 ∧ lo s ≤ hi r + 1

/-- `r` ends before `s` starts, with a gap between them. -/
def Sep (r s : α) : Prop := hi r + 1 < lo s

/-- A range is well formed: it starts at most one past its end. -/
def Proper (r : α) : Prop := lo r ≤ hi r + 1

instance (r s : α) : Decidable (Touches lo hi r s) := inferInstanceAs (Decidable (_ ∧ _))

instance (r s : α) : Decidable (Sep lo hi r s) := inferInstanceAs (Decidable (_ < _))

instance (r : α) : Decidable (Proper lo hi r) := inferInstanceAs (Decidable (_ ≤ _))

/-- The integers the ranges of a list cover. -/
def cover (l : List α) : Set ℕ := {x | ∃ r ∈ l, x ∈ Set.Icc (lo r) (hi r)}

variable {lo hi} {r s : α} {l before after : List α}

lemma sep_or_sep_of_not_touches (h : ¬ Touches lo hi r s) : Sep lo hi r s ∨ Sep lo hi s r := by
  unfold Touches at h
  unfold Sep
  omega

lemma Sep.lo_lt (hr : Proper lo hi r) (h : Sep lo hi r s) : lo r < lo s := by
  unfold Proper at hr
  unfold Sep at h
  omega

lemma Sep.disjoint (h : Sep lo hi r s) :
    Disjoint (Set.Icc (lo r) (hi r)) (Set.Icc (lo s) (hi s)) := by
  rw [Set.disjoint_left]
  rintro x ⟨-, hx⟩ ⟨hx', -⟩
  unfold Sep at h
  omega

/-- Two ranges that touch cover, together, the range from the lower start to the higher end. -/
lemma Icc_union_of_touches (h : Touches lo hi r s) {a b : ℕ} (ha : a = min (lo r) (lo s))
    (hb : b = max (hi r) (hi s)) :
    Set.Icc a b = Set.Icc (lo r) (hi r) ∪ Set.Icc (lo s) (hi s) := by
  unfold Touches at h
  ext x
  simp only [Set.mem_Icc, Set.mem_union]
  omega

/-! ### The cover of a list -/

@[simp] lemma cover_nil : cover lo hi ([] : List α) = ∅ := by
  simp [cover]

@[simp] lemma cover_cons : cover lo hi (r :: l) = Set.Icc (lo r) (hi r) ∪ cover lo hi l := by
  ext x
  simp [cover]

lemma cover_perm {l' : List α} (h : l.Perm l') : cover lo hi l = cover lo hi l' := by
  ext x
  simp only [cover, Set.mem_ofPred_eq, h.mem_iff]

lemma cover_erase [DecidableEq α] (h : r ∈ l) :
    cover lo hi l = Set.Icc (lo r) (hi r) ∪ cover lo hi (l.erase r) := by
  rw [cover_perm (List.perm_cons_erase h), cover_cons]

/-! ### Lists separated in order -/

/-- In a separated list a range is disjoint from the others, so taking it out takes out exactly
its integers. -/
lemma cover_erase_of_pairwise [DecidableEq α] (hl : l.Pairwise (Sep lo hi)) (h : r ∈ l) :
    cover lo hi (l.erase r) = cover lo hi l \ Set.Icc (lo r) (hi r) := by
  have hperm := List.perm_cons_erase h
  have hpw : (r :: l.erase r).Pairwise (fun a b => Sep lo hi a b ∨ Sep lo hi b a) :=
    hperm.pairwise (hl.imp Or.inl) fun h' => h'.symm
  rw [List.pairwise_cons] at hpw
  rw [cover_erase h, Set.union_sdiff_left, eq_comm, sdiff_eq_left, Set.disjoint_left]
  rintro x ⟨s, hs, hx⟩ hxr
  rcases hpw.1 s hs with hsep | hsep
  · exact Set.disjoint_left.mp hsep.disjoint hxr hx
  · exact Set.disjoint_left.mp hsep.disjoint hx hxr

/-- Past the ranges that start at most at `x`, a separated list of well-formed ranges has only
ranges that start after `x`. -/
lemma lt_lo_of_mem_dropWhile (hl : l.Pairwise (Sep lo hi)) (hp : ∀ s ∈ l, Proper lo hi s)
    {x : ℕ} (hs : s ∈ l.dropWhile (fun s => decide (lo s ≤ x))) : x < lo s := by
  induction l with
  | nil => simp at hs
  | cons a l ih =>
    rw [List.pairwise_cons] at hl
    rw [List.dropWhile_cons] at hs
    split at hs
    · exact ih hl.2 (fun s hs => hp s (List.mem_cons_of_mem a hs)) hs
    · -- the first range starts after `x`, and every later one after it
      rename_i hax
      simp only [decide_eq_true_eq, not_le] at hax
      rcases List.mem_cons.mp hs with rfl | hs
      · exact hax
      · exact hax.trans ((hl.1 s hs).lo_lt (hp a List.mem_cons_self))

/-- A range that touches no range of a separated list, put between the ranges that start no
later and those that start after it, keeps the list separated. -/
lemma pairwise_sep_insert (hl : (before ++ after).Pairwise (Sep lo hi)) (hr : Proper lo hi r)
    (hp : ∀ s ∈ before ++ after, Proper lo hi s) (ht : ∀ s ∈ before ++ after, ¬ Touches lo hi r s)
    (hb : ∀ s ∈ before, lo s ≤ lo r) (ha : ∀ s ∈ after, lo r < lo s) :
    (before ++ r :: after).Pairwise (Sep lo hi) := by
  rw [List.pairwise_append] at hl ⊢
  obtain ⟨hbefore, hafter, hcross⟩ := hl
  refine ⟨hbefore, List.pairwise_cons.mpr ⟨?_, hafter⟩, ?_⟩
  · -- a range after `r` starts after it, so it is not separated before it
    intro s hs
    have hsep := sep_or_sep_of_not_touches (ht s (List.mem_append_right _ hs))
    exact hsep.resolve_right fun h =>
      absurd (h.lo_lt (hp s (List.mem_append_right _ hs))) (not_lt.mpr (ha s hs).le)
  · intro s hs t ht'
    rcases List.mem_cons.mp ht' with rfl | ht'
    · -- a range before `r` starts no later, so `r` is not separated before it
      have hsep := sep_or_sep_of_not_touches (ht s (List.mem_append_left _ hs))
      exact hsep.resolve_left fun h => absurd (h.lo_lt hr) (not_lt.mpr (hb s hs))
    · exact hcross s hs t ht'

end Ranges
