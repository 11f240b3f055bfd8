import UcxProofs.Status
import UcxProofs.Lib.Decimal

/-!
Memory units as text, `ucs/sys/string.c`. `ucs_memunits_to_str` prints a size with the largest
binary prefix that divides it, from `K` up to `E`, and `ucs_str_to_memunits` reads a number
with an optional prefix among `B`, `K`, `M`, `G` and `T` and an optional `b`. The configuration
parser reads and prints every MEMUNITS field with them (`ucs_config_sscanf_memunits`,
`ucs_config_sprintf_memunits`).

Texts are lists of characters without the terminating NUL, and the buffer is large enough for
the text. The `%ld` of `sscanf` is modelled as glibc performs it: white space, a sign and
decimal digits, a value outside `long` clamped to `LONG_MIN` or `LONG_MAX` as by `strtol`, stored
into the `size_t` through its bits.

Printing and reading again gives the value back exactly when the printed prefix is one the
reader knows and the printed number fits in a `long` (`ucsConfigMemunits_roundtrip_iff`): not
for a multiple of `2 ^ 50`, which prints with `P` or `E`, and not for a value of `2 ^ 63` or more
that 1024 does not divide, which prints as a number beyond `LONG_MAX`.
-/

namespace UcxProofs.Memunits

open Decimal

/-- `UCS_MEMUNITS_INF`, `(size_t)-1`. -/
def ucsMemunitsInf : UInt64 := 0xffffffffffffffff

/-- `UCS_MEMUNITS_AUTO`, `(size_t)-2`. -/
def ucsMemunitsAuto : UInt64 := 0xfffffffffffffffe

def ucsNumericInfStr : List Char := ['i', 'n', 'f']
def ucsValueAutoStr : List Char := ['a', 'u', 't', 'o']

/-- `ucs_memunits_suffixes`, without the `NULL` that ends it. -/
def ucsMemunitsSuffixes : List (List Char) := [[], ['K'], ['M'], ['G'], ['T'], ['P'], ['E']]

def ucsKbyte : UInt64 := (1 : UInt64) <<< 10
def ucsMbyte : UInt64 := (1 : UInt64) <<< 20
def ucsGbyte : UInt64 := (1 : UInt64) <<< 30
def ucsTbyte : UInt64 := (1 : UInt64) <<< 40

@[simp] lemma ucsKbyte_eq : ucsKbyte = 1024 := rfl
@[simp] lemma ucsMbyte_eq : ucsMbyte = 1048576 := rfl
@[simp] lemma ucsGbyte_eq : ucsGbyte = 1073741824 := rfl
@[simp] lemma ucsTbyte_eq : ucsTbyte = 1099511627776 := rfl

/-- `ucs_string_quantity_prefix_value`. -/
def ucsStringQuantityPrefixValue (c : Char) : UInt64 :=
  match c with
  | 'B' => 1
  | 'K' => ucsKbyte
  | 'M' => ucsMbyte
  | 'G' => ucsGbyte
  | 'T' => ucsTbyte
  | _ => 0

/-- The loop of `ucs_memunits_to_str`: divide by 1024 while the value is at least 1024, a
multiple of 1024, and a suffix follows the current one. -/
def memunitsScale : UInt64 → List (List Char) → UInt64 × List Char
  | value, [] => (value, [])
  | value, [suffix] => (value, suffix)
  | value, suffix :: next :: rest =>
    if value ≥ 1024 ∧ value % 1024 = 0 then memunitsScale (value / 1024) (next :: rest)
    else (value, suffix)

/-- `ucs_memunits_to_str`, as `"%zu%s"` of the value scaled and its suffix. -/
def ucsMemunitsToStr (value : UInt64) : List Char :=
  if value = ucsMemunitsInf then ucsNumericInfStr
  else if value = ucsMemunitsAuto then ucsValueAutoStr
  else
    let scaled := memunitsScale value ucsMemunitsSuffixes
    Nat.toDigits 10 scaled.1.toNat ++ scaled.2

/-- `strcasecmp(a, b) == 0`. -/
def strcaseEq (a b : List Char) : Bool := a.map Char.toLower == b.map Char.toLower

/-- `isspace` in the C locale. -/
def isSpace (c : Char) : Bool :=
  c == ' ' || c == '\t' || c == '\n' || c == '\x0b' || c == '\x0c' || c == '\r'

def longMin : ℤ := -2 ^ 63
def longMax : ℤ := 2 ^ 63 - 1

/-- The optional sign `%ld` reads: whether it is `-`, and the text after it. -/
def scanSign : List Char → Bool × List Char
  | '-' :: r => (true, r)
  | '+' :: r => (false, r)
  | r => (false, r)

/-- The `%ld` conversion: white space, an optional sign and the longest run of digits, the value
clamped to `long`, and the text after it; `none` when no digit comes. -/
def scanLong (s : List Char) : Option (ℤ × List Char) :=
  let signed := scanSign (s.dropWhile isSpace)
  let digits := signed.2.takeWhile Char.isDigit
  if digits = [] then none
  else
    let v : ℤ := if signed.1 then -(digitsValue digits : ℤ) else digitsValue digits
    some (max longMin (min v longMax), signed.2.dropWhile Char.isDigit)

/-- `sscanf(buf, "%ld%c%c", &value, &units[0], &units[1])`: the number and the characters read
after it, at most two, or `none` when the number does not convert. -/
def sscanfLdCc (buf : List Char) : Option (ℤ × List Char) :=
  (scanLong buf).map fun r => (r.1, r.2.take 2)

/-- `ucs_str_to_memunits`: the value written to `dest`, or the error returned. -/
def ucsStrToMemunits (buf : List Char) : Except UcsStatus UInt64 :=
  if strcaseEq buf ucsNumericInfStr then .ok ucsMemunitsInf
  else if strcaseEq buf ucsValueAutoStr then .ok ucsMemunitsAuto
  else
    match sscanfLdCc buf with
    | none => .error .errInvalidParam
    | some (value, units) =>
      -- `units` was cleared by `memset`, so an unread character is NUL
      let numFields := 1 + units.length
      if numFields = 1 then .ok (UInt64.ofInt value * 1)
      else
        let bytes := ucsStringQuantityPrefixValue (units.getD 0 '\x00').toUpper
        if bytes = 0 ∨ (numFields = 3 ∧ (units.getD 1 '\x00').toLower ≠ 'b') then
          .error .errInvalidParam
        else .ok (UInt64.ofInt value * bytes)

/-- `ucs_config_sscanf_memunits`: the value parsed, when the parse succeeds. -/
def ucsConfigSscanfMemunits (buf : List Char) : Option UInt64 :=
  match ucsStrToMemunits buf with
  | .ok v => some v
  | .error _ => none

/-- `ucs_config_sprintf_memunits`. -/
def ucsConfigSprintfMemunits (src : UInt64) : List Char := ucsMemunitsToStr src

/-! ### Characters -/

lemma val_of_isDigit {c : Char} (h : c.isDigit = true) : 48 ≤ c.val.toNat ∧ c.val.toNat ≤ 57 := by
  simp only [Char.isDigit, Bool.and_eq_true, decide_eq_true_eq, UInt32.le_iff_toNat_le] at h
  exact h

lemma isSpace_of_isDigit {c : Char} (h : c.isDigit = true) : isSpace c = false := by
  have hc := val_of_isDigit h
  simp only [isSpace, Bool.or_eq_false_iff, beq_eq_false_iff_ne, ne_eq]
  refine ⟨⟨⟨⟨⟨?_, ?_⟩, ?_⟩, ?_⟩, ?_⟩, ?_⟩ <;> intro he <;> subst he <;> simp at hc

lemma toLower_of_isDigit {c : Char} (h : c.isDigit = true) : c.toLower = c := by
  have hc := val_of_isDigit h
  unfold Char.toLower
  rw [dif_neg]
  have hA : ('A' : Char).val.toNat = 65 := rfl
  simp only [ge_iff_le, UInt32.le_iff_toNat_le, hA]
  omega

/-- **The scaling loop.** It stops after `i` divisions, at the `i`-th suffix, with the value
`value / 1024 ^ i`: `1024 ^ i` divides the value, a division was made only of a value at least
1024, and the loop stops at the last suffix or at a value that 1024 does not divide or that is
below 1024. -/
lemma memunitsScale_spec (value : UInt64) {suffixes : List (List Char)} (hs : suffixes ≠ []) :
    ∃ i < suffixes.length, (memunitsScale value suffixes).1.toNat = value.toNat / 1024 ^ i ∧
      (memunitsScale value suffixes).2 = suffixes.getD i [] ∧ 1024 ^ i ∣ value.toNat ∧
      (0 < i → 1024 ^ i ≤ value.toNat) ∧
      (i + 1 < suffixes.length → ¬ (1024 ^ (i + 1) ≤ value.toNat ∧ 1024 ^ (i + 1) ∣ value.toNat)) := by
  induction suffixes generalizing value with
  | nil => exact absurd rfl hs
  | cons suffix rest ih =>
    cases rest with
    | nil => exact ⟨0, by simp, by simp [memunitsScale], by simp [memunitsScale], by simp, by simp,
        by simp⟩
    | cons next rest =>
      by_cases hdiv : value ≥ 1024 ∧ value % 1024 = 0
      · -- one division, then the loop goes on from the next suffix
        have hv : value.toNat = 1024 * (value / 1024).toNat := by
          rw [ge_iff_le, UInt64.le_iff_toNat_le, ← UInt64.toNat_inj, UInt64.toNat_mod] at hdiv
          rw [UInt64.toNat_div]
          simp only [UInt64.reduceToNat] at hdiv ⊢
          omega
        obtain ⟨j, hj, h1, h2, h3, h4, h5⟩ := ih (value / 1024) (List.cons_ne_nil _ _)
        have hge : 1024 ≤ value.toNat := by
          rw [ge_iff_le, UInt64.le_iff_toNat_le] at hdiv; exact hdiv.1
        simp only [memunitsScale, if_pos hdiv]
        refine ⟨j + 1, by simp at hj ⊢; omega, ?_, by simpa using h2, ?_, ?_, ?_⟩
        · rw [h1, hv, pow_succ, mul_comm (1024 ^ j), Nat.mul_div_mul_left _ _ (by decide)]
        · rw [hv, pow_succ, mul_comm (1024 ^ j)]
          exact Nat.mul_dvd_mul_left 1024 h3
        · intro _
          rw [hv, pow_succ, mul_comm (1024 ^ j)]
          rcases Nat.eq_zero_or_pos j with rfl | hpos
          · simp only [pow_zero, mul_one]; omega
          · exact Nat.mul_le_mul_left 1024 (h4 hpos)
        · intro hlen ⟨hle, hdvd⟩
          rw [hv, pow_succ, mul_comm (1024 ^ (j + 1))] at hle hdvd
          exact h5 (by simp at hlen ⊢; omega)
            ⟨Nat.le_of_mul_le_mul_left hle (by decide),
              Nat.dvd_of_mul_dvd_mul_left (by decide) hdvd⟩
      · -- the loop stops at this suffix
        simp only [memunitsScale, if_neg hdiv]
        refine ⟨0, by simp, by simp, by simp, by simp, by simp, fun _ ⟨hle, hdvd⟩ => hdiv ?_⟩
        rw [ge_iff_le, UInt64.le_iff_toNat_le, ← UInt64.toNat_inj, UInt64.toNat_mod]
        simp only [zero_add, pow_one] at hle hdvd
        exact ⟨hle, by simpa using Nat.mod_eq_zero_of_dvd hdvd⟩


/-! ### Reading a printed number -/

section Printed

variable {n : ℕ} {rest : List Char}

/-- A digit is no sign. -/
lemma scanSign_of_isDigit {d : Char} (r : List Char) (hd : d.isDigit = true) :
    scanSign (d :: r) = (false, d :: r) := by
  unfold scanSign
  split
  · rename_i h; simp only [List.cons.injEq] at h; rw [h.1] at hd; exact absurd hd (by decide)
  · rename_i h; simp only [List.cons.injEq] at h; rw [h.1] at hd; exact absurd hd (by decide)
  · rfl

/-- `%ld` reads a printed number back, clamped to `LONG_MAX`, and stops before the text after
it. -/
lemma scanLong_toDigits_append (hrest : ∀ c ∈ rest.head?, c.isDigit = false) :
    scanLong (Nat.toDigits 10 n ++ rest) = some (min (n : ℤ) longMax, rest) := by
  obtain ⟨d, ds, hd, hdig⟩ := toDigits_eq_cons n
  have hsp : (Nat.toDigits 10 n ++ rest).dropWhile isSpace = Nat.toDigits 10 n ++ rest := by
    rw [hd, List.cons_append, List.dropWhile_cons, if_neg (by simp [isSpace_of_isDigit hdig])]
  have hsign := scanSign_of_isDigit (ds ++ rest) hdig
  rw [← List.cons_append, ← hd] at hsign
  have hne : Nat.toDigits 10 n ≠ [] := by rw [hd]; exact List.cons_ne_nil _ _
  simp only [scanLong, hsp, hsign, takeWhile_toDigits_append hrest, dropWhile_toDigits_append hrest,
    if_neg hne, digitsValue_toDigits, Bool.false_eq_true, if_false]
  have hmin : longMin ≤ min (n : ℤ) longMax :=
    le_min (by norm_num [longMin]) (by norm_num [longMin, longMax])
  rw [max_eq_right hmin]

lemma strcaseEq_toDigits_append (b : List Char)
    (hb : ∀ c ∈ b.head?, c.toLower.isDigit = false) :
    strcaseEq (Nat.toDigits 10 n ++ rest) b = false := by
  obtain ⟨d, ds, hd, hdig⟩ := toDigits_eq_cons n
  cases b with
  | nil => simp [strcaseEq, hd]
  | cons c b =>
    have hc := hb c rfl
    simp only [strcaseEq, hd, List.cons_append, List.map_cons, toLower_of_isDigit hdig,
      beq_iff_eq, List.cons.injEq, Bool.eq_false_iff, ne_eq, not_and]
    -- a digit lowers to itself, and the first character of `b` to no digit
    intro hdc
    rw [hdc, hc] at hdig
    exact absurd hdig (by decide)

/-- **Reading a printed value**: the number with the prefix of the `i`-th suffix, which the
reader knows up to `T` and not for `P` and `E`. -/
lemma ucsStrToMemunits_printed (n : ℕ) {i : ℕ} (hi : i < 7) :
    ucsStrToMemunits (Nat.toDigits 10 n ++ ucsMemunitsSuffixes.getD i []) =
      if 5 ≤ i then .error .errInvalidParam
      else .ok (UInt64.ofInt (min (n : ℤ) longMax) * UInt64.ofNat (1024 ^ i)) := by
  have hsuf : ∀ c ∈ (ucsMemunitsSuffixes.getD i []).head?, c.isDigit = false := by
    interval_cases i <;> simp [ucsMemunitsSuffixes]
  unfold ucsStrToMemunits
  rw [strcaseEq_toDigits_append _ (by simp [ucsNumericInfStr]),
    strcaseEq_toDigits_append _ (by simp [ucsValueAutoStr])]
  simp only [sscanfLdCc, scanLong_toDigits_append hsuf, Option.map_some, Bool.false_eq_true,
    if_false]
  interval_cases i <;> simp [ucsMemunitsSuffixes, ucsStringQuantityPrefixValue]

end Printed


/-! ### Printing and reading again -/

/-- The `size_t` product `value * bytes` of a value and a prefix whose product fits. -/
lemma toNat_ofInt_mul_ofNat {m k : ℕ} (h : m * k < 2 ^ 64) :
    (UInt64.ofInt (m : ℤ) * UInt64.ofNat k).toNat = m * k := by
  have hm : (UInt64.ofInt (m : ℤ)).toNat = m % 2 ^ 64 := by
    simp [UInt64.ofInt]
    omega
  rw [UInt64.toNat_mul, UInt64.toNat_ofNat', hm, ← Nat.mul_mod, Nat.mod_eq_of_lt h]

/-- **Printing a MEMUNITS value and reading it again gives it back exactly** for `inf` and
`auto`, and for a value that is zero or no multiple of `2 ^ 50` (whose printed prefix is one the
reader knows) and that is below `2 ^ 63` or a multiple of 1024 (whose printed number fits in a
`long`). -/
theorem ucsConfigMemunits_roundtrip_iff (v : UInt64) :
    ucsConfigSscanfMemunits (ucsConfigSprintfMemunits v) = some v ↔
      v = ucsMemunitsInf ∨ v = ucsMemunitsAuto ∨
        ((v = 0 ∨ ¬ 2 ^ 50 ∣ v.toNat) ∧ (v.toNat < 2 ^ 63 ∨ 1024 ∣ v.toNat)) := by
  by_cases hinf : v = ucsMemunitsInf
  · subst hinf
    simp only [true_or, iff_true]
    rfl
  by_cases hauto : v = ucsMemunitsAuto
  · subst hauto
    simp only [true_or, or_true, iff_true]
    rfl
  obtain ⟨i, hi, hm, hs, hdvd, hle, hmax⟩ :=
    @memunitsScale_spec v ucsMemunitsSuffixes (by simp [ucsMemunitsSuffixes])
  have hlen : ucsMemunitsSuffixes.length = 7 := rfl
  rw [hlen] at hi hmax
  have hprint : ucsConfigSprintfMemunits v =
      Nat.toDigits 10 (v.toNat / 1024 ^ i) ++ ucsMemunitsSuffixes.getD i [] := by
    simp only [ucsConfigSprintfMemunits, ucsMemunitsToStr, if_neg hinf, if_neg hauto, hm, hs]
  rw [hprint, ucsConfigSscanfMemunits, ucsStrToMemunits_printed _ hi]
  simp only [hinf, hauto, false_or]
  -- the value is its printed number times `1024 ^ i`
  have hv : v.toNat = v.toNat / 1024 ^ i * 1024 ^ i := (Nat.div_mul_cancel hdvd).symm
  have hv64 := v.toNat_lt
  have hpos : 0 < 1024 ^ i := Nat.pow_pos (by decide)
  by_cases h5 : 5 ≤ i
  · -- `P` or `E`: the reader does not know the prefix, and the value is a multiple of `2 ^ 50`
    rw [if_pos h5]
    simp only [reduceCtorEq, false_iff, not_and, not_or]
    have h50 : 2 ^ 50 ∣ v.toNat :=
      Nat.dvd_trans (by rw [show 2 ^ 50 = 1024 ^ 5 by norm_num]; exact Nat.pow_dvd_pow 1024 h5) hdvd
    intro h0
    have hv0 : v ≠ 0 := by
      intro h
      have := hle (by omega)
      rw [h, UInt64.toNat_zero] at this
      omega
    exact absurd (h0.resolve_right (not_not.mpr h50)) hv0
  · rw [if_neg h5]
    simp only [Option.some.injEq]
    set m := v.toNat / 1024 ^ i with hm_def
    by_cases hm63 : m < 2 ^ 63
    · -- the printed number is read exactly, and the value is no nonzero multiple of `2 ^ 50`
      have hmin : min (m : ℤ) longMax = m := min_eq_left (by simp only [longMax]; omega)
      have hval : UInt64.ofInt (m : ℤ) * UInt64.ofNat (1024 ^ i) = v :=
        UInt64.toNat_inj.mp (by rw [toNat_ofInt_mul_ofNat (by omega)]; omega)
      simp only [hmin, hval, true_iff]
      refine ⟨?_, ?_⟩
      · by_cases hv0 : v = 0
        · exact .inl hv0
        refine .inr fun h50 => ?_
        have hdvd' : 1024 ^ (i + 1) ∣ v.toNat :=
          Nat.dvd_trans (by rw [show 2 ^ 50 = 1024 ^ 5 by norm_num]; exact Nat.pow_dvd_pow 1024 (by omega)) h50
        have hle50 : 2 ^ 50 ≤ v.toNat :=
          Nat.le_of_dvd (Nat.pos_of_ne_zero fun h => hv0 (UInt64.toNat_inj.mp (by simpa using h))) h50
        have hle' : 1024 ^ (i + 1) ≤ 2 ^ 50 := by
          rw [show 2 ^ 50 = 1024 ^ 5 by norm_num]; exact Nat.pow_le_pow_right (by decide) (by omega)
        exact hmax (by omega) ⟨le_trans hle' hle50, hdvd'⟩
      · rcases Nat.eq_zero_or_pos i with rfl | hi0
        · left; simpa [hm_def] using hm63
        · right; exact Nat.dvd_trans (dvd_pow_self 1024 (by omega)) hdvd
    · -- a printed number beyond `LONG_MAX` only without a prefix; it reads as `LONG_MAX`
      have hi0 : i = 0 := by
        by_contra hi0
        have : m ≤ v.toNat / 1024 :=
          Nat.div_le_div_left (by simpa using Nat.pow_le_pow_right (by decide : 0 < 1024) (by omega : 1 ≤ i)) (by decide)
        omega
      subst hi0
      simp only [pow_zero, Nat.div_one] at hm_def hm63 hmax
      have hmin : min (m : ℤ) longMax = ((2 ^ 63 - 1 : ℕ) : ℤ) := by
        rw [min_eq_right (by simp only [longMax]; omega)]
        simp [longMax]
      rw [hmin]
      constructor
      · intro h
        have := congrArg UInt64.toNat h
        rw [pow_zero, toNat_ofInt_mul_ofNat (by norm_num)] at this
        omega
      · rintro ⟨-, h | h⟩
        · omega
        · exact absurd ⟨by omega, by simpa using h⟩ (hmax (by omega))

/-- **The round trip fails at `2 ^ 50`.** The value prints as `1P`, which the reader rejects:
`ucs_string_quantity_prefix_value` knows no `P`. The text `1125899906842624` is read as that
value, so printing what it read and reading again fails as well. -/
theorem ucsConfigMemunits_roundtrip_fails_at_peta :
    ucsConfigSprintfMemunits 1125899906842624 = ['1', 'P'] ∧
      ucsConfigSscanfMemunits ['1', 'P'] = none ∧
      ucsConfigSscanfMemunits (Nat.toDigits 10 1125899906842624) = some 1125899906842624 := by
  decide

end UcxProofs.Memunits
