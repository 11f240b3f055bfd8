import Mathlib.Logic.Relation

/-!
Normal forms of a relation with the diamond property: two runs from one state that both end
where no step applies end at the same state.
-/

namespace UcxProofs.Rewriting

open Relation

variable {α : Type*} {r : α → α → Prop} {a b c : α}

/-- A state from which no step is possible reaches only itself. -/
lemma eq_of_reflTransGen_of_normal (ha : ∀ x, ¬ r a x) (h : ReflTransGen r a b) : a = b := by
  rcases h.cases_head with rfl | ⟨x, hax, -⟩
  · rfl
  · exact absurd hax (ha x)

/-- **Normal forms are unique** for a relation with the diamond property. -/
theorem eq_of_normal (h : ∀ a b c, r a b → r a c → ∃ d, ReflGen r b d ∧ ReflTransGen r c d)
    (hab : ReflTransGen r a b) (hac : ReflTransGen r a c) (hb : ∀ x, ¬ r b x)
    (hc : ∀ x, ¬ r c x) : b = c := by
  obtain ⟨d, hbd, hcd⟩ := church_rosser h hab hac
  rw [eq_of_reflTransGen_of_normal hb hbd, eq_of_reflTransGen_of_normal hc hcd]

end UcxProofs.Rewriting
