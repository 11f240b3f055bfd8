import Mathlib.Data.List.TakeWhile
import Mathlib.Order.Basic

/-!
Decimal numerals as text. `digitsValue` reads a string of decimal digits, most significant
first, as `strtoul` and the `%ld` conversion of `scanf` do; it inverts `Nat.toDigits 10`, the
`%zu` and `%lu` of `printf`, which prints without leading zeros. A reader that takes the longest
run of digits from a printed number followed by a text that does not start with a digit finds
the number and leaves that text (`takeWhile_toDigits_append`, `dropWhile_toDigits_append`).
-/

namespace UcxProofs.Decimal

/-- The value of a string of decimal digits. -/
def digitsValue (ds : List Char) : ℕ := ds.foldl (fun acc c => acc * 10 + (c.toNat - 48)) 0

@[simp] lemma digitsValue_nil : digitsValue [] = 0 := rfl

lemma digitsValue_append_singleton (ds : List Char) (c : Char) :
    digitsValue (ds ++ [c]) = digitsValue ds * 10 + (c.toNat - 48) := by
  simp [digitsValue, List.foldl_append]

/-- **Reading a printed number gives it back.** -/
theorem digitsValue_toDigits (n : ℕ) : digitsValue (Nat.toDigits 10 n) = n := by
  induction n using Nat.strong_induction_on with
  | _ n ih =>
    by_cases hn : n < 10
    · rw [Nat.toDigits_of_lt_base hn, ← List.nil_append [_], digitsValue_append_singleton,
        Nat.toNat_digitChar_sub_48_of_lt_ten hn]
      simp
    · -- the last digit is `n % 10`, after the digits of `n / 10`
      rw [Nat.toDigits_of_base_le (by decide) (by omega), digitsValue_append_singleton,
        ih (n / 10) (by omega), Nat.toNat_digitChar_sub_48_of_lt_ten (Nat.mod_lt n (by decide))]
      omega

lemma isDigit_of_mem_toDigits {n : ℕ} {c : Char} (hc : c ∈ Nat.toDigits 10 n) : c.isDigit :=
  Nat.isDigit_of_mem_toDigits (by decide) (by decide) hc

/-- A printed number is not empty, and starts with a digit. -/
lemma toDigits_eq_cons (n : ℕ) : ∃ d ds, Nat.toDigits 10 n = d :: ds ∧ d.isDigit := by
  obtain ⟨d, ds, h⟩ := List.exists_cons_of_length_pos (@Nat.length_toDigits_pos 10 n)
  exact ⟨d, ds, h, isDigit_of_mem_toDigits (by rw [h]; exact List.mem_cons_self)⟩

section Follow

variable {n : ℕ} {rest : List Char}

/-- The longest run of digits of a printed number followed by a text that does not start with a
digit is the number. -/
lemma takeWhile_toDigits_append (hrest : ∀ c ∈ rest.head?, c.isDigit = false) :
    (Nat.toDigits 10 n ++ rest).takeWhile Char.isDigit = Nat.toDigits 10 n := by
  rw [List.takeWhile_append_of_pos (fun c hc => isDigit_of_mem_toDigits hc)]
  cases rest with
  | nil => simp
  | cons c rest =>
    have hc : c.isDigit = false := hrest c rfl
    simp [hc]

lemma dropWhile_toDigits_append (hrest : ∀ c ∈ rest.head?, c.isDigit = false) :
    (Nat.toDigits 10 n ++ rest).dropWhile Char.isDigit = rest := by
  rw [List.dropWhile_append_of_pos (fun c hc => isDigit_of_mem_toDigits hc)]
  cases rest with
  | nil => simp
  | cons c rest =>
    have hc : c.isDigit = false := hrest c rfl
    simp [hc]

end Follow

end UcxProofs.Decimal
