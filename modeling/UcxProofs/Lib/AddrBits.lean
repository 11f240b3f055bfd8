import Mathlib

/-!
Addresses as bits: masks of the high bits, aligned blocks `[p, p + 2 ^ o)` with `2 ^ o ∣ p`, and
the sixteenths of a block. The facts are stated on natural numbers, and on `UInt64` through
`toNat`.
-/

namespace AddrBits

/-! ### Natural numbers -/

/-- Masking with the bits from `s` up to `w` rounds down to a multiple of `2 ^ s`. -/
theorem and_two_pow_sub_two_pow {a w s : ℕ} (ha : a < 2 ^ w) (hs : s ≤ w) :
    a &&& (2 ^ w - 2 ^ s) = a / 2 ^ s * 2 ^ s := by
  have hm : 2 ^ w - 2 ^ s = (2 ^ (w - s) - 1) * 2 ^ s := by
    rw [Nat.sub_mul, one_mul, ← pow_add, Nat.sub_add_cancel hs]
  apply Nat.eq_of_testBit_eq
  intro i
  rw [Nat.testBit_and, hm, Nat.testBit_mul_two_pow, Nat.testBit_mul_two_pow,
    Nat.testBit_two_pow_sub_one, Nat.testBit_div_two_pow]
  by_cases hi : s ≤ i
  · rw [Nat.sub_add_cancel hi]
    by_cases hw : i < w
    · simp [hi]
      omega
    · -- bits from `w` up are clear in `a`
      have : a.testBit i = false :=
        Nat.testBit_lt_two_pow (lt_of_lt_of_le ha (Nat.pow_le_pow_right (by norm_num) (by omega)))
      simp [hi, this]
  · simp [hi]

/-- An OR with a number below the alignment of the other is a sum. -/
theorem or_eq_add_of_mod {x y n : ℕ} (hx : x % 2 ^ n = 0) (hy : y < 2 ^ n) :
    x ||| y = x + y := by
  obtain ⟨q, rfl⟩ : ∃ q, x = 2 ^ n * q :=
    ⟨x / 2 ^ n, (Nat.mul_div_cancel' (Nat.dvd_of_mod_eq_zero hx)).symm⟩
  exact (Nat.two_pow_add_eq_or_of_lt hy q).symm

/-- In a block of `m` parts of `n` that starts at a multiple of `m * n`, the address `a` lies in
part `a / n % m`. -/
theorem part_bounds {a b n m : ℕ} (hb : b % (m * n) = 0) (h1 : b ≤ a) (h2 : a < b + m * n) :
    b + a / n % m * n ≤ a ∧ a < b + a / n % m * n + n := by
  obtain ⟨q, rfl⟩ : ∃ q, b = m * n * q :=
    ⟨b / (m * n), (Nat.mul_div_cancel' (Nat.dvd_of_mod_eq_zero hb)).symm⟩
  obtain ⟨r, rfl⟩ : ∃ r, a = m * n * q + r := ⟨a - m * n * q, by omega⟩
  have hn : 0 < n := Nat.pos_of_ne_zero (by rintro rfl; simp at h2)
  have hr : r < m * n := by omega
  have hdiv : (m * n * q + r) / n % m = r / n := by
    rw [show m * n * q + r = r + n * (m * q) by ring, Nat.add_mul_div_left _ _ hn,
      Nat.add_mod, Nat.mul_mod_right, Nat.add_zero, Nat.mod_mod,
      Nat.mod_eq_of_lt (Nat.div_lt_of_lt_mul (by rwa [Nat.mul_comm]))]
  rw [hdiv]
  exact ⟨by have := Nat.div_mul_le_self r n; omega, by have := Nat.lt_div_mul_add (a := r) hn; omega⟩

/-- An aligned block that starts before the end of a larger aligned block ends no later. -/
theorem add_two_pow_le_of_aligned {p q o n : ℕ} (hp : p % 2 ^ o = 0) (hq : q % 2 ^ n = 0)
    (hon : o ≤ n) (h : p < q + 2 ^ n) : p + 2 ^ o ≤ q + 2 ^ n := by
  have hdn : 2 ^ o ∣ 2 ^ n := Nat.pow_dvd_pow 2 hon
  have hdq : 2 ^ o ∣ q + 2 ^ n :=
    Nat.dvd_add (Nat.dvd_trans hdn (Nat.dvd_of_mod_eq_zero hq)) hdn
  have hd : 2 ^ o ∣ q + 2 ^ n - p := Nat.dvd_sub hdq (Nat.dvd_of_mod_eq_zero hp)
  have := Nat.le_of_dvd (by omega) hd
  omega

/-- An address aligned to `n` is the start of its block of `n * m` bytes plus its part
`b / n % m` of `n` bytes. -/
theorem div_mul_add_mod_mul {b n m : ℕ} (hb : b % n = 0) :
    b / (n * m) * (n * m) + b / n % m * n = b := by
  rw [← Nat.div_div_eq_div_mul]
  have h1 := Nat.div_add_mod (b / n) m
  have h2 := Nat.div_mul_cancel (Nat.dvd_of_mod_eq_zero hb)
  calc b / n / m * (n * m) + b / n % m * n = (m * (b / n / m) + b / n % m) * n := by ring
    _ = b / n * n := by rw [h1]
    _ = b := h2

/-! ### `UInt64` -/

/-- A `UInt64` mask of the bits from `s` up rounds an address down to a multiple of `2 ^ s`. -/
theorem toNat_and_of_mask {a m : UInt64} {s : ℕ} (hm : m.toNat = 2 ^ 64 - 2 ^ s) (hs : s ≤ 64) :
    (a &&& m).toNat = a.toNat / 2 ^ s * 2 ^ s := by
  rw [UInt64.toNat_and, hm, and_two_pow_sub_two_pow a.toNat_lt hs]

/-- Under the mask of the bits from `s` up, `a` has the bits of the aligned `base` exactly when
it lies in `[base, base + 2 ^ s)`. -/
theorem and_mask_eq_iff {a m base : UInt64} {s : ℕ} (hm : m.toNat = 2 ^ 64 - 2 ^ s)
    (hs : s ≤ 64) (hb : base.toNat % 2 ^ s = 0) :
    a &&& m = base ↔ base.toNat ≤ a.toNat ∧ a.toNat < base.toNat + 2 ^ s := by
  rw [← UInt64.toNat_inj, toNat_and_of_mask hm hs]
  have hpos : 0 < 2 ^ s := Nat.two_pow_pos s
  have hbase : base.toNat = base.toNat / 2 ^ s * 2 ^ s := (Nat.div_mul_cancel
    (Nat.dvd_of_mod_eq_zero hb)).symm
  constructor
  · intro h
    rw [← h]
    exact ⟨Nat.div_mul_le_self _ _, Nat.lt_div_mul_add hpos⟩
  · rintro ⟨h1, h2⟩
    have hq : a.toNat / 2 ^ s = base.toNat / 2 ^ s := by
      apply le_antisymm
      · exact Nat.lt_succ_iff.mp ((Nat.div_lt_iff_lt_mul hpos).mpr (by
          rw [Nat.succ_mul, ← hbase]; exact h2))
      · exact (Nat.le_div_iff_mul_le hpos).mpr (by rw [← hbase]; exact h1)
    rw [hq, ← hbase]

theorem toNat_toUInt64_of_lt {s : ℕ} (hs : s < 64) : s.toUInt64.toNat = s := by
  simp only [Nat.toUInt64_eq, UInt64.toNat_ofNat']
  exact Nat.mod_eq_of_lt (by omega)

/-- A shift left by less than the width that does not overflow multiplies. -/
theorem toNat_shiftLeft_of_lt {x : UInt64} {s : ℕ} (hs : s < 64) (h : x.toNat * 2 ^ s < 2 ^ 64) :
    (x <<< s.toUInt64).toNat = x.toNat * 2 ^ s := by
  rw [UInt64.toNat_shiftLeft, toNat_toUInt64_of_lt hs, Nat.mod_eq_of_lt hs, Nat.shiftLeft_eq,
    Nat.mod_eq_of_lt h]

/-- A shift right by less than the width divides. -/
theorem toNat_shiftRight_of_lt {x : UInt64} {s : ℕ} (hs : s < 64) :
    (x >>> s.toUInt64).toNat = x.toNat / 2 ^ s := by
  rw [UInt64.toNat_shiftRight, toNat_toUInt64_of_lt hs, Nat.mod_eq_of_lt hs,
    Nat.shiftRight_eq_div_pow]

/-- Shifting the mask of the bits from `s` up by four gives the mask of the bits from `s + 4`
up. -/
theorem toNat_mask_shiftLeft_four {m : UInt64} {s : ℕ} (hm : m.toNat = 2 ^ 64 - 2 ^ s)
    (hs : s + 4 ≤ 64) : (m <<< 4).toNat = 2 ^ 64 - 2 ^ (s + 4) := by
  have hP : 2 ^ s ≤ 2 ^ 60 := Nat.pow_le_pow_right (by norm_num) (by omega)
  have hP1 := Nat.one_le_two_pow (n := s)
  rw [UInt64.toNat_shiftLeft, hm, pow_add]
  simp only [show (4 : UInt64).toNat % 64 = 4 from rfl, Nat.shiftLeft_eq]
  omega

/-- Adding the four bits below `s` to the mask of the bits from `s` up gives the mask of the bits
from `s - 4` up. -/
theorem toNat_mask_or_fifteen {m : UInt64} {s : ℕ} (hm : m.toNat = 2 ^ 64 - 2 ^ s) (h4 : 4 ≤ s)
    (hs : s ≤ 64) : (m ||| (15 : UInt64) <<< (s - 4).toUInt64).toNat = 2 ^ 64 - 2 ^ (s - 4) := by
  have h16 : 2 ^ s = 2 ^ (s - 4) * 16 := by
    rw [show (16 : ℕ) = 2 ^ 4 from rfl, ← pow_add, Nat.sub_add_cancel h4]
  have h64 : 2 ^ s ≤ 2 ^ 64 := Nat.pow_le_pow_right (by norm_num) hs
  have hlow : (15 : UInt64).toNat * 2 ^ (s - 4) < 2 ^ s := by
    simp only [show (15 : UInt64).toNat = 15 from rfl, h16]
    have := Nat.one_le_two_pow (n := s - 4)
    omega
  have hmod : (2 ^ 64 - 2 ^ s) % 2 ^ s = 0 :=
    Nat.mod_eq_zero_of_dvd (Nat.dvd_sub (Nat.pow_dvd_pow 2 hs) dvd_rfl)
  rw [UInt64.toNat_or, hm, toNat_shiftLeft_of_lt (by omega) (lt_of_lt_of_le hlow h64),
    or_eq_add_of_mod hmod hlow]
  simp only [show (15 : UInt64).toNat = 15 from rfl]
  rw [h16] at h64 ⊢
  have := Nat.one_le_two_pow (n := s - 4)
  omega

theorem toNat_min (a b : UInt64) : (min a b).toNat = min a.toNat b.toNat := by
  change (if a ≤ b then a else b).toNat = _
  split
  · rename_i h
    rw [UInt64.le_iff_toNat_le] at h
    omega
  · rename_i h
    rw [UInt64.le_iff_toNat_le] at h
    omega

theorem toNat_max (a b : UInt64) : (max a b).toNat = max a.toNat b.toNat := by
  change (if a ≤ b then b else a).toNat = _
  split
  · rename_i h
    rw [UInt64.le_iff_toNat_le] at h
    omega
  · rename_i h
    rw [UInt64.le_iff_toNat_le] at h
    omega

/-- Adding one to a number below the maximum does not wrap. -/
theorem toNat_add_one_of_lt {a : UInt64} (h : a.toNat + 1 < 2 ^ 64) : (a + 1).toNat = a.toNat + 1 := by
  rw [UInt64.toNat_add, UInt64.toNat_one, Nat.mod_eq_of_lt h]

/-- A `size_t` read as `ssize_t` is positive when it is below `2 ^ 63`. -/
theorem toInt64_pos_iff (x : UInt64) : 0 < x.toInt64 ↔ 0 < x.toNat ∧ x.toNat < 2 ^ 63 := by
  have := x.toNat_lt
  rw [Int64.lt_iff_toInt_lt, Int64.toInt_zero, Int64.toInt, UInt64.toBitVec_toInt64,
    BitVec.toInt_eq_toNat_cond, UInt64.toNat_toBitVec]
  split <;> omega

end AddrBits
