import Mathlib

/-!
Serial-number arithmetic on a circle of `2 ^ w` values.

Two serial numbers are compared by the sign of their difference, read as a signed `w`-bit
value: `a` is ahead of `b` when `a - b`, taken modulo `2 ^ w`, lies in the first half of the
circle. This is how sequence numbers that wrap around are ordered.
-/

namespace SerialNumber

variable {w : ℕ}

/-- The signed distance from `b` to `a`. -/
def diff (a b : BitVec w) : ℤ := (a - b).toInt

@[simp] lemma diff_self (a : BitVec w) : diff a a = 0 := by
  simp [diff]

lemma diff_eq_zero_iff {a b : BitVec w} : diff a b = 0 ↔ a = b := by
  constructor
  · intro h
    have h0 : a - b = 0#w := by
      rw [diff] at h
      exact BitVec.toInt_inj.mp (by simpa using h)
    exact sub_eq_zero.mp h0
  · rintro rfl
    exact diff_self a

/-- Two serial numbers less than half the circle ahead of a common origin `c` compare as their
distances from `c` do. -/
theorem diff_eq_sub_of_lt {a b c : BitVec w} (ha : 2 * (a - c).toNat < 2 ^ w)
    (hb : 2 * (b - c).toNat < 2 ^ w) :
    diff a b = ((a - c).toNat : ℤ) - (b - c).toNat := by
  have hab : a - b = (a - c) - (b - c) := (sub_sub_sub_cancel_right a b c).symm
  generalize a - c = x at ha hab
  generalize b - c = y at hb hab
  rw [diff, hab, BitVec.toInt_eq_toNat_cond, BitVec.toNat_sub]
  rcases Nat.lt_or_ge x.toNat y.toNat with hlt | hle
  · -- `x` is behind `y`: the difference wraps to the upper half
    have hmod : (2 ^ w - y.toNat + x.toNat) % 2 ^ w = 2 ^ w - y.toNat + x.toNat :=
      Nat.mod_eq_of_lt (by omega)
    rw [hmod, if_neg (by omega)]
    omega
  · -- `x` is ahead of `y`: the difference is the plain one
    have hmod : (2 ^ w - y.toNat + x.toNat) % 2 ^ w = x.toNat - y.toNat := by
      rw [show 2 ^ w - y.toNat + x.toNat = x.toNat - y.toNat + 2 ^ w by omega,
        Nat.add_mod_right, Nat.mod_eq_of_lt (by omega)]
    rw [hmod, if_pos (by omega)]
    omega

/-- `a` is strictly ahead of `b` when `a - b` is neither zero nor in the upper half. -/
theorem diff_pos_iff {a b : BitVec w} :
    0 < diff a b ↔ 0 < (a - b).toNat ∧ 2 * (a - b).toNat < 2 ^ w := by
  rw [diff, BitVec.toInt_eq_toNat_cond]
  have := (a - b).isLt
  split <;> omega

end SerialNumber
