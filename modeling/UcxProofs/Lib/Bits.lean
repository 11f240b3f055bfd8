import Mathlib

/-!
Bit scans on natural numbers: the number of trailing zero bits, counted among the low `w` bits
of a number. Below `w`, the count is the largest `k` with `2 ^ k ∣ n`.
-/

namespace BitScan

/-- The number of trailing zero bits of `n`, counting at most `w` of them. -/
def trailingZeros : ℕ → ℕ → ℕ
  | 0, _ => 0
  | w + 1, n => if n % 2 = 1 then 0 else trailingZeros w (n / 2) + 1

lemma trailingZeros_le (w n : ℕ) : trailingZeros w n ≤ w := by
  induction w generalizing n with
  | zero => simp [trailingZeros]
  | succ w ih =>
    unfold trailingZeros
    split
    · omega
    · have := ih (n / 2)
      omega

/-- The counted zeros are zeros. -/
lemma two_pow_trailingZeros_dvd (w n : ℕ) : 2 ^ trailingZeros w n ∣ n := by
  induction w generalizing n with
  | zero => simp [trailingZeros]
  | succ w ih =>
    unfold trailingZeros
    split
    · simp
    · -- an even `n` is twice `n / 2`
      rename_i h
      have hn : n / 2 * 2 = n := Nat.div_mul_cancel (by omega)
      calc 2 ^ (trailingZeros w (n / 2) + 1) = 2 ^ trailingZeros w (n / 2) * 2 := pow_succ _ _
        _ ∣ n / 2 * 2 := Nat.mul_dvd_mul_right (ih (n / 2)) 2
        _ = n := hn

/-- Every power of two below the width that divides `n` is counted. -/
lemma le_trailingZeros {k w n : ℕ} (hk : k ≤ w) (h : 2 ^ k ∣ n) : k ≤ trailingZeros w n := by
  induction w generalizing k n with
  | zero => simp_all
  | succ w ih =>
    unfold trailingZeros
    cases k with
    | zero => exact Nat.zero_le _
    | succ k =>
      have h2 : 2 ∣ n := Nat.dvd_trans (Dvd.intro_left _ (pow_succ 2 k).symm) h
      have hk' : 2 ^ k ∣ n / 2 := by
        rw [pow_succ'] at h
        exact Nat.dvd_div_of_mul_dvd h
      rw [if_neg (by omega)]
      exact Nat.succ_le_succ (ih (by omega) hk')

/-- Below the width, `k` zeros are counted exactly when `2 ^ k` divides. -/
lemma le_trailingZeros_iff {k w n : ℕ} (hk : k ≤ w) : k ≤ trailingZeros w n ↔ 2 ^ k ∣ n :=
  ⟨fun h => Nat.dvd_trans (Nat.pow_dvd_pow 2 h) (two_pow_trailingZeros_dvd w n),
    le_trailingZeros hk⟩

end BitScan
