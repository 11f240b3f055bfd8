import Mathlib.Algebra.Order.Field.Basic
import Mathlib.Tactic.Ring
import Mathlib.Tactic.FieldSimp
import Mathlib.Tactic.Linarith

/-!
Two lines `y = c₁ + m₁ x` and `y = c₂ + m₂ x` over an ordered field. Their difference is a
line that vanishes at the crossing point, so the lower of the two changes at most once:
the facts below are the one-crossing argument behind lower envelopes of lines.
-/

namespace UcxProofs.Lines

variable {α : Type*} [Field α] [LinearOrder α] [IsStrictOrderedRing α]

/-- The abscissa where the line `c₁ + m₁ x` meets the line `c₂ + m₂ x`. -/
def crossing (c₁ m₁ c₂ m₂ : α) : α := (c₂ - c₁) / (m₁ - m₂)

variable {c₁ m₁ c₂ m₂ a x : α}

omit [LinearOrder α] [IsStrictOrderedRing α] in
theorem line_sub_line (c₁ c₂ x : α) (hm : m₁ ≠ m₂) :
    (c₁ + m₁ * x) - (c₂ + m₂ * x) = (m₁ - m₂) * (x - crossing c₁ m₁ c₂ m₂) := by
  have hne : m₁ - m₂ ≠ 0 := sub_ne_zero.2 hm
  unfold crossing
  field_simp
  ring

omit [LinearOrder α] [IsStrictOrderedRing α] in
/-- At their crossing point the two lines agree. -/
theorem line_eq_at_crossing (hm : m₁ ≠ m₂) :
    c₁ + m₁ * crossing c₁ m₁ c₂ m₂ = c₂ + m₂ * crossing c₁ m₁ c₂ m₂ := by
  have h := line_sub_line c₁ c₂ (crossing c₁ m₁ c₂ m₂) hm
  rw [sub_self, mul_zero, sub_eq_zero] at h
  exact h

section Below

/- From here on, line 2 is at or below line 1 at `a`. -/
variable (hle : c₂ + m₂ * a ≤ c₁ + m₁ * a) (hm : m₁ ≠ m₂)
include hle hm

/-- Below line 1 before their crossing, line 2 has the larger slope. -/
theorem slope_lt_of_lt_crossing (ha : a < crossing c₁ m₁ c₂ m₂) : m₁ < m₂ := by
  have hd := line_sub_line c₁ c₂ a hm
  have hneg : a - crossing c₁ m₁ c₂ m₂ < 0 := sub_neg.2 ha
  have hnn : 0 ≤ (m₁ - m₂) * (a - crossing c₁ m₁ c₂ m₂) := by rw [← hd]; linarith
  have hslope : m₁ - m₂ ≤ 0 := nonpos_of_mul_nonneg_left hnn hneg
  exact lt_of_le_of_ne (sub_nonpos.1 hslope) hm

/-- Below line 1 past their crossing, line 2 has the smaller slope. -/
theorem slope_lt_of_crossing_lt (ha : crossing c₁ m₁ c₂ m₂ < a) : m₂ < m₁ := by
  have hd := line_sub_line c₁ c₂ a hm
  have hpos : 0 < a - crossing c₁ m₁ c₂ m₂ := sub_pos.2 ha
  have hnn : 0 ≤ (m₁ - m₂) * (a - crossing c₁ m₁ c₂ m₂) := by rw [← hd]; linarith
  have hslope : 0 ≤ m₁ - m₂ := nonneg_of_mul_nonneg_left hnn hpos
  exact lt_of_le_of_ne (sub_nonneg.1 hslope) (Ne.symm hm)

/-- Line 2 stays at or below line 1 up to their crossing. -/
theorem le_of_le_crossing (ha : a < crossing c₁ m₁ c₂ m₂) (hx : x ≤ crossing c₁ m₁ c₂ m₂) :
    c₂ + m₂ * x ≤ c₁ + m₁ * x := by
  have hslope := slope_lt_of_lt_crossing hle hm ha
  have hd := line_sub_line c₁ c₂ x hm
  have : 0 ≤ (m₁ - m₂) * (x - crossing c₁ m₁ c₂ m₂) :=
    mul_nonneg_of_nonpos_of_nonpos (by linarith) (by linarith)
  linarith

/-- Past their crossing, line 1 is strictly below line 2. -/
theorem lt_of_crossing_lt (ha : a < crossing c₁ m₁ c₂ m₂) (hx : crossing c₁ m₁ c₂ m₂ < x) :
    c₁ + m₁ * x < c₂ + m₂ * x := by
  have hslope := slope_lt_of_lt_crossing hle hm ha
  have hd := line_sub_line c₁ c₂ x hm
  have : (m₁ - m₂) * (x - crossing c₁ m₁ c₂ m₂) < 0 :=
    mul_neg_of_neg_of_pos (by linarith) (by linarith)
  linarith

/-- A crossing already passed at `a` never comes back: line 2 stays below from `a` on. -/
theorem le_of_crossing_lt (ha : crossing c₁ m₁ c₂ m₂ < a) (hx : a ≤ x) :
    c₂ + m₂ * x ≤ c₁ + m₁ * x := by
  have hslope := slope_lt_of_crossing_lt hle hm ha
  have hd := line_sub_line c₁ c₂ x hm
  have : 0 ≤ (m₁ - m₂) * (x - crossing c₁ m₁ c₂ m₂) :=
    mul_nonneg (by linarith) (by linarith)
  linarith

end Below

/-- Parallel lines keep their order everywhere. -/
theorem le_of_slope_eq (hle : c₂ + m₂ * a ≤ c₁ + m₁ * a) (hm : m₁ = m₂) :
    c₂ + m₂ * x ≤ c₁ + m₁ * x := by
  subst hm
  linarith

end UcxProofs.Lines
