import Mathlib
import UcxProofs.Lib.Decimal
import UcxProofs.Lib.Separated

/-!
Allow lists with ranges, `ucs/config/parser.c`. `ucs_config_sscanf_allow_list_with_ranges`
strips a leading `^`, then `ucs_config_sscanf_array_impl` writes the comma-separated tokens of
the input into a string buffer, each token `prefix[first-last]suffix` expanded to its elements
(`ucs_config_array_expand_ranges`, at most `UCS_CONFIG_ARRAY_MAX + 1` elements), and reads the
names back with `ucs_string_buffer_for_each_token`. Text is a list of characters; `size_t` and
`unsigned long` are 64 bits wide. The regular expression of the range is matched by
`rangeRegexMatch`, which finds the one way the pattern can match a token, and `strtoul` reads a
run of digits as the C library does, saturating at `ULONG_MAX`.

Memory is taken to be there: the `ucs_calloc` of the temporary array, whose failure makes
`ucs_config_sscanf_array_impl` return 0, the growth of the string buffer and the copy of each
name are not modelled as able to fail.
-/

namespace UcxProofs.ConfigAllowList

open Decimal Separated

/-- `UCS_CONFIG_ARRAY_MAX`. -/
def ucsConfigArrayMax : ℕ := 128

/-- `ULONG_MAX`. -/
def ulongMax : ℕ := 2 ^ 64 - 1

/-- `strtoul (s, NULL, 10)` on a run of decimal digits: its value, or `ULONG_MAX` when the value
does not fit. -/
def strtoul (ds : List Char) : ℕ := min (digitsValue ds) ulongMax

/-- A character of `[^][]`. -/
def notBracket (c : Char) : Bool := c != '[' && c != ']'

/-- The match of `^([^][]*)\[([0-9]+)-([0-9]+)\]([^][]*)$` on a token, as `regexec` finds it:
the prefix, the digits of the two bounds and the suffix. Each group is the longest run of its
class, since the character after it is outside the class, so the match is unique. -/
def rangeRegexMatch (token : List Char) :
    Option (List Char × List Char × List Char × List Char) :=
  let pre := token.takeWhile notBracket
  match token.dropWhile notBracket with
  | '[' :: r =>
    let d1 := r.takeWhile Char.isDigit
    match r.dropWhile Char.isDigit with
    | '-' :: r =>
      let d2 := r.takeWhile Char.isDigit
      match r.dropWhile Char.isDigit with
      | ']' :: suffix =>
        if d1 ≠ [] ∧ d2 ≠ [] ∧ suffix.all notBracket then some (pre, d1, d2, suffix) else none
      | _ => none
    | _ => none
  | _ => none

/-- `ucs_config_array_expand_range`: the text appended for one token, given room for
`maxElements` more elements, and the number of elements it counts. The loop runs `j` from
`first` while `j < first + count`, both `size_t`. -/
def ucsConfigArrayExpandRange (token : List Char) (delim : Char) (maxElements : ℕ) :
    List Char × ℕ :=
  if maxElements = 0 then ([], 0)
  else
    match rangeRegexMatch token with
    | none => (token, 1)
    | some (pre, d1, d2, suffix) =>
      let first := strtoul d1
      let last := strtoul d2
      if first > last then (token, 1)
      else
        let count := min ((last - first + 1) % 2 ^ 64) maxElements
        ((List.range' first ((first + count) % 2 ^ 64 - first)).foldl
          (fun strb j => strb ++ (if j > first then [delim] else []) ++ pre ++
            Nat.toDigits 10 j ++ suffix) [],
          count)

/-- The loop of `ucs_config_array_expand_ranges` from `p`, after `numElements` elements: append
a delimiter after the first element, expand the token up to the next delimiter, and skip the
delimiters that follow it. -/
def ucsConfigArrayExpandRangesLoop (delim : Char) (maxElements : ℕ) (p : List Char)
    (numElements : ℕ) (strb : List Char) : List Char :=
  if p = [] ∨ maxElements ≤ numElements then strb
  else
    let strb := if numElements > 0 then strb ++ [delim] else strb
    let token := p.takeWhile (· ≠ delim)
    let next := p.dropWhile (· ≠ delim)
    let r := ucsConfigArrayExpandRange token delim (maxElements - numElements)
    if next = [] then strb ++ r.1
    else
      ucsConfigArrayExpandRangesLoop delim maxElements (next.dropWhile (· = delim))
        (numElements + r.2) (strb ++ r.1)
termination_by p.length
decreasing_by exact Separated.length_dropWhile_dropWhile_lt ‹_›

/-- `ucs_config_array_expand_ranges`: leading delimiters are skipped. -/
def ucsConfigArrayExpandRanges (input : List Char) (delim : Char) (maxElements : ℕ) :
    List Char :=
  ucsConfigArrayExpandRangesLoop delim maxElements (input.dropWhile (· = delim)) 0 []

/-- The tokens `ucs_string_buffer_for_each_token` visits: `strsep` from the start of the buffer,
then from past the end of each token while that is inside the string. -/
def ucsStringBufferTokens (delim : Char) (strb : List Char) : List (List Char) :=
  if strb = [] then []
  else
    let token := strb.takeWhile (· ≠ delim)
    token :: ucsStringBufferTokens delim (strb.drop (token.length + 1))
termination_by strb.length
decreasing_by
  have : 0 < strb.length := List.length_pos_iff.mpr ‹_›
  simp only [List.length_drop]
  omega

/-- `ucs_config_array_field_t` of strings. -/
structure UcsConfigArrayField where
  names : List (List Char)
  truncated : Bool
  deriving DecidableEq, Repr

/-- The token loop of `ucs_config_sscanf_array_impl` with `i` names read: it stops at
`UCS_CONFIG_ARRAY_MAX` names and marks the array truncated if a token is left. Reading a string
(`ucs_config_sscanf_string`) always succeeds. -/
def ucsConfigArrayReadTokens : ℕ → List (List Char) → UcsConfigArrayField
  | _, [] => ⟨[], false⟩
  | i, token :: tokens =>
    if i = ucsConfigArrayMax then ⟨[], true⟩
    else
      let r := ucsConfigArrayReadTokens (i + 1) tokens
      ⟨token :: r.names, r.truncated⟩

/-- `ucs_config_sscanf_array_impl` for an array of strings. -/
def ucsConfigSscanfArrayImpl (buf : List Char) (delim : Char) (expandRanges : Bool) :
    UcsConfigArrayField :=
  let strb := if expandRanges then ucsConfigArrayExpandRanges buf delim (ucsConfigArrayMax + 1)
    else buf
  ucsConfigArrayReadTokens 0 (ucsStringBufferTokens delim strb)

/-- `ucs_config_allow_list_mode_t`. -/
inductive UcsConfigAllowListMode
  | allowAll
  | allow
  | negate
  deriving DecidableEq, Repr

/-- `ucs_config_allow_list_t`. -/
structure UcsConfigAllowList where
  array : UcsConfigArrayField
  mode : UcsConfigAllowListMode
  deriving DecidableEq, Repr

/-- `ucs_config_parser_negate`. -/
def ucsConfigParserNegate : Char := '^'

/-- `UCS_CONFIG_PARSER_ALL`. -/
def ucsConfigParserAll : List Char := ['a', 'l', 'l']

/-- `ucs_config_sscanf_allow_list_impl`: `none` where it returns 0. A list that starts with
`all` allows everything and must have no other name; its array is released and left empty. -/
def ucsConfigSscanfAllowListImpl (buf : List Char) (expandRanges : Bool) :
    Option UcsConfigAllowList :=
  let (mode, offset) : UcsConfigAllowListMode × ℕ :=
    if buf.head? = some ucsConfigParserNegate then (.negate, 1) else (.allow, 0)
  let array := ucsConfigSscanfArrayImpl (buf.drop offset) ',' expandRanges
  if array.names.head? = some ucsConfigParserAll then
    if array.names.length ≠ 1 then none
    else some ⟨{ array with names := [] }, .allowAll⟩
  else some ⟨array, mode⟩

/-- `ucs_config_sscanf_allow_list_with_ranges`. -/
def ucsConfigSscanfAllowListWithRanges (buf : List Char) : Option UcsConfigAllowList :=
  ucsConfigSscanfAllowListImpl buf true

/-! ### The grammar -/

/-- The elements a token stands for in the grammar of allow lists with ranges:
`prefix j suffix` for `j` from `first` to `last` when the token is `prefix[first-last]suffix`
with `first ≤ last`, and the token itself otherwise. -/
def rangeElements (token : List Char) : List (List Char) :=
  match rangeRegexMatch token with
  | some (pre, d1, d2, suffix) =>
    if digitsValue d1 ≤ digitsValue d2 then
      (List.range' (digitsValue d1) (digitsValue d2 + 1 - digitsValue d1)).map fun j =>
        pre ++ Nat.toDigits 10 j ++ suffix
    else [token]
  | none => [token]

/-- The names the grammar gives a list: its non-empty comma-separated tokens, each expanded. -/
def allowListWithRangesSpec (s : List Char) : List (List Char) :=
  ((s.splitOn ',').filter (· ≠ [])).flatMap rangeElements

/-- The upper bound of a range token is below `ULONG_MAX`. -/
def rangeBelowUlongMax (token : List Char) : Bool :=
  match rangeRegexMatch token with
  | some (_, _, d2, _) => decide (digitsValue d2 < ulongMax)
  | none => true

/-- The names a text stands for: its non-empty pieces, each expanded. -/
def rangeNames (delim : Char) (s : List Char) : List (List Char) :=
  (pieces delim s).flatMap rangeElements

/-! ### The range regex -/

/-- **What the range regex matches**: the token is the prefix, the bracketed bounds and the
suffix. -/
lemma rangeRegexMatch_eq_some {token pre d1 d2 suffix : List Char}
    (h : rangeRegexMatch token = some (pre, d1, d2, suffix)) :
    token = pre ++ '[' :: d1 ++ '-' :: d2 ++ ']' :: suffix := by
  unfold rangeRegexMatch at h
  split at h
  · rename_i r hr
    split at h
    · rename_i r' hr'
      split at h
      · rename_i suf hs
        dsimp only at h
        split_ifs at h
        simp only [Option.some.injEq, Prod.mk.injEq] at h
        obtain ⟨hpre, hd1, hd2, hsuf⟩ := h
        -- each group ends where the next literal starts
        have et : token = pre ++ '[' :: r := by
          rw [← hpre, ← hr]; exact List.takeWhile_append_dropWhile.symm
        have er : r = d1 ++ '-' :: r' := by
          rw [← hd1, ← hr']; exact List.takeWhile_append_dropWhile.symm
        have er' : r' = d2 ++ ']' :: suffix := by
          rw [← hd2, ← hsuf, ← hs]; exact List.takeWhile_append_dropWhile.symm
        rw [et, er, er']
        simp
      all_goals contradiction
    all_goals contradiction
  all_goals contradiction

/-! ### One token -/

lemma rangeElements_ne_nil (token : List Char) : rangeElements token ≠ [] := by
  unfold rangeElements
  split
  · split_ifs with h
    · simp only [ne_eq, List.map_eq_nil_iff, List.range'_eq_nil_iff]
      omega
    · simp
  · simp

/-- **One token expanded**: below `ULONG_MAX` the loop of `ucs_config_array_expand_range`
writes the first `maxElements` elements of the token joined by the delimiter, and counts them. -/
theorem ucsConfigArrayExpandRange_eq {token : List Char} {delim : Char} {maxElements : ℕ}
    (hm : 0 < maxElements) (hb : rangeBelowUlongMax token = true) :
    ucsConfigArrayExpandRange token delim maxElements =
      ([delim].intercalate ((rangeElements token).take maxElements),
        min (rangeElements token).length maxElements) := by
  unfold ucsConfigArrayExpandRange rangeElements
  rw [if_neg (by omega)]
  rcases hmatch : rangeRegexMatch token with _ | ⟨pre, d1, d2, suffix⟩
  · -- not a range: the token itself
    obtain ⟨m, rfl⟩ := Nat.exists_eq_add_of_lt hm
    simp
  · have h2 : digitsValue d2 < ulongMax := by simpa [rangeBelowUlongMax, hmatch] using hb
    have hs2 : strtoul d2 = digitsValue d2 := min_eq_left h2.le
    dsimp only
    by_cases h12 : digitsValue d1 ≤ digitsValue d2
    · -- a range: `first + count` stays below `2 ^ 64`
      have hs1 : strtoul d1 = digitsValue d1 := min_eq_left (by omega)
      have hc : (digitsValue d2 - digitsValue d1 + 1) % 2 ^ 64 =
          digitsValue d2 + 1 - digitsValue d1 := by
        rw [Nat.mod_eq_of_lt (by unfold ulongMax at h2; omega)]
        omega
      have hbound : (digitsValue d1 + min (digitsValue d2 + 1 - digitsValue d1) maxElements) % 2 ^ 64 -
          digitsValue d1 = min (digitsValue d2 + 1 - digitsValue d1) maxElements := by
        rw [Nat.mod_eq_of_lt (by unfold ulongMax at h2; omega)]
        omega
      have hbody : (fun strb j => strb ++ (if j > digitsValue d1 then [delim] else []) ++ pre ++
          Nat.toDigits 10 j ++ suffix) = (fun acc j => acc ++ (if digitsValue d1 < j then [delim] else []) ++
          (pre ++ Nat.toDigits 10 j ++ suffix)) := by
        funext strb j
        simp only [List.append_assoc, gt_iff_lt]
      rw [hs1, hs2, if_neg (by omega), if_pos h12, hc, hbound, hbody, foldl_range'_eq_intercalate,
        ← List.map_take, take_range', List.length_map, List.length_range', Nat.min_comm]
    · -- the bounds are the wrong way round: the token itself
      have hgt : strtoul d1 > strtoul d2 := by
        rw [hs2]
        unfold strtoul
        omega
      rw [if_pos hgt, if_neg h12]
      obtain ⟨m, rfl⟩ := Nat.exists_eq_add_of_lt hm
      simp

lemma take_rangeElements_ne_nil {token : List Char} {k : ℕ} (hk : 0 < k) :
    (rangeElements token).take k ≠ [] := by
  rw [ne_eq, List.take_eq_nil_iff]
  exact fun h => h.elim (by omega) (rangeElements_ne_nil token)

/-- **A range that reaches `2 ^ 64` writes nothing**: `first + count` wraps, the loop of
`ucs_config_array_expand_range` does not run, and the elements are counted all the same. -/
lemma ucsConfigArrayExpandRange_of_wrap {token pre d1 d2 suffix : List Char} {delim : Char}
    {maxElements : ℕ} (hm : 0 < maxElements)
    (hmatch : rangeRegexMatch token = some (pre, d1, d2, suffix)) (hle : strtoul d1 ≤ strtoul d2)
    (hwrap : 2 ^ 64 ≤
      strtoul d1 + min ((strtoul d2 - strtoul d1 + 1) % 2 ^ 64) maxElements) :
    ucsConfigArrayExpandRange token delim maxElements =
      ([], min ((strtoul d2 - strtoul d1 + 1) % 2 ^ 64) maxElements) := by
  have h1 : strtoul d1 ≤ ulongMax := min_le_right _ _
  have hbound : (strtoul d1 + min ((strtoul d2 - strtoul d1 + 1) % 2 ^ 64) maxElements) % 2 ^ 64 -
      strtoul d1 = 0 := by
    have : min ((strtoul d2 - strtoul d1 + 1) % 2 ^ 64) maxElements < 2 ^ 64 :=
      lt_of_le_of_lt (min_le_left _ _) (Nat.mod_lt _ (by decide))
    unfold ulongMax at h1
    omega
  unfold ucsConfigArrayExpandRange
  rw [if_neg (by omega), hmatch]
  dsimp only
  rw [if_neg (by omega), hbound]
  rfl

/-! ### The expansion loop -/

/-- One round of the expansion loop: a token followed by the delimiter is expanded after a
delimiter (unless it is the first), and the loop goes on past the delimiters. -/
lemma ucsConfigArrayExpandRangesLoop_cons {delim : Char} {maxElements numElements : ℕ}
    {token rest strb : List Char} (htok : token ≠ []) (hd : delim ∉ token)
    (hlt : numElements < maxElements) :
    ucsConfigArrayExpandRangesLoop delim maxElements (token ++ delim :: rest) numElements strb =
      ucsConfigArrayExpandRangesLoop delim maxElements (rest.dropWhile (· = delim))
        (numElements + (ucsConfigArrayExpandRange token delim (maxElements - numElements)).2)
        ((if numElements > 0 then strb ++ [delim] else strb) ++
          (ucsConfigArrayExpandRange token delim (maxElements - numElements)).1) := by
  have hdrop : (token ++ delim :: rest).dropWhile (· ≠ delim) = delim :: rest := by
    rw [List.dropWhile_append_of_pos (fun c hc => by simpa using ne_of_mem_of_not_mem hc hd)]
    simp
  rw [ucsConfigArrayExpandRangesLoop, if_neg (by simp [htok]; omega), takeWhile_append_cons hd,
    hdrop]
  simp

/-- The last token, with no delimiter after it. -/
lemma ucsConfigArrayExpandRangesLoop_last {delim : Char} {maxElements numElements : ℕ}
    {token strb : List Char} (htok : token ≠ []) (hd : delim ∉ token)
    (hlt : numElements < maxElements) :
    ucsConfigArrayExpandRangesLoop delim maxElements token numElements strb =
      (if numElements > 0 then strb ++ [delim] else strb) ++
        (ucsConfigArrayExpandRange token delim (maxElements - numElements)).1 := by
  have hdrop : token.dropWhile (· ≠ delim) = [] :=
    List.dropWhile_eq_nil_iff.mpr fun c hc => by simpa using ne_of_mem_of_not_mem hc hd
  rw [ucsConfigArrayExpandRangesLoop, if_neg (by simp [htok]; omega), takeWhile_of_not_mem hd,
    hdrop]
  simp

/-- **The expansion loop**: from a text that does not start with a delimiter, with
`numElements` elements written, `ucs_config_array_expand_ranges` writes the names the text
stands for, up to `maxElements` in all, joined by the delimiter. -/
theorem ucsConfigArrayExpandRangesLoop_eq {delim : Char} {maxElements : ℕ} (p : List Char)
    (numElements : ℕ) (strb : List Char) (hp : ∀ c ∈ p.head?, c ≠ delim)
    (hb : ∀ t ∈ pieces delim p, rangeBelowUlongMax t = true) :
    ucsConfigArrayExpandRangesLoop delim maxElements p numElements strb =
      strb ++ (if 0 < numElements ∧ (rangeNames delim p).take (maxElements - numElements) ≠ []
        then [delim] else []) ++
        [delim].intercalate ((rangeNames delim p).take (maxElements - numElements)) := by
  fun_induction ucsConfigArrayExpandRangesLoop delim maxElements p numElements strb with
  | case1 p num strb h =>
    rcases h with rfl | h
    · simp [rangeNames]
    · simp [Nat.sub_eq_zero_of_le h]
  | case2 p num strb0 hne strb token next r hnext =>
    -- the last token: no delimiter after it
    have hk : 0 < maxElements - num := by omega
    have htok : token ≠ [] := takeWhile_ne_nil (fun h => hne (Or.inl h)) hp
    have hpieces : pieces delim p = [token] := by
      have hnext' : p.dropWhile (· ≠ delim) = [] := hnext
      rw [pieces_eq_cons htok, hnext']
      rfl
    have hr : r = _ := ucsConfigArrayExpandRange_eq hk (hb token (by simp [hpieces]))
    simp only [rangeNames, hpieces, List.flatMap_singleton, hr, strb,
      ne_eq, take_rangeElements_ne_nil hk, not_false_eq_true, and_true]
    split_ifs <;> simp
  | case3 p num strb0 hne strb token next r hnext ih =>
    have hk : 0 < maxElements - num := by omega
    have htok : token ≠ [] := takeWhile_ne_nil (fun h => hne (Or.inl h)) hp
    have hpieces := pieces_eq_cons htok
    have hr : r = _ := ucsConfigArrayExpandRange_eq hk (hb token (by simp [hpieces, token]))
    rw [ih (ne_of_mem_head?_dropWhile next)
      (fun t ht => hb t (by rw [hpieces]; exact List.mem_cons_of_mem _ ht))]
    -- the rest of the names comes after the elements of this token
    have hrest : maxElements - (num + r.2) = maxElements - num - (rangeElements token).length := by
      rw [hr]
      omega
    rw [show rangeNames delim p = rangeElements token ++ rangeNames delim (next.dropWhile (· = delim))
      by rw [rangeNames, hpieces, List.flatMap_cons]; rfl, List.take_append, hrest,
      intercalate_append_eq (take_rangeElements_ne_nil hk), hr]
    have hpos : 0 < num + min (rangeElements token).length (maxElements - num) := by
      have := List.length_pos_iff.mpr (rangeElements_ne_nil token)
      omega
    simp only [strb, hpos, true_and, ne_eq, List.append_eq_nil_iff, take_rangeElements_ne_nil hk,
      false_and, not_false_eq_true, and_true]
    split_ifs <;> simp

/-! ### Reading the names back -/

/-- **Reading the buffer back**: the tokens of names joined by the delimiter are the names, when
none is empty or holds the delimiter. -/
theorem ucsStringBufferTokens_intercalate {delim : Char} :
    ∀ (xs : List (List Char)), (∀ x ∈ xs, x ≠ [] ∧ delim ∉ x) →
      ucsStringBufferTokens delim ([delim].intercalate xs) = xs
  | [], _ => by simp [ucsStringBufferTokens]
  | [x], h => by
    obtain ⟨hx, hd⟩ := h x List.mem_cons_self
    rw [List.intercalate_singleton, ucsStringBufferTokens, if_neg hx, takeWhile_of_not_mem hd]
    dsimp only
    rw [List.drop_eq_nil_of_le (by omega)]
    simp [ucsStringBufferTokens]
  | x :: y :: ys, h => by
    obtain ⟨hx, hd⟩ := h x List.mem_cons_self
    have hrest := ucsStringBufferTokens_intercalate (y :: ys)
      (fun z hz => h z (List.mem_cons_of_mem _ hz))
    rw [List.intercalate_cons_cons, List.append_assoc, List.singleton_append, ucsStringBufferTokens,
      if_neg (by simp [hx]), takeWhile_append_cons hd]
    dsimp only
    rw [show x ++ delim :: [delim].intercalate (y :: ys) = (x ++ [delim]) ++ [delim].intercalate (y :: ys)
      by simp, List.drop_left' (by simp), hrest]

/-- The token loop reads the first `UCS_CONFIG_ARRAY_MAX - i` tokens, and flags the ones left. -/
lemma ucsConfigArrayReadTokens_eq :
    ∀ (i : ℕ) (tokens : List (List Char)), i ≤ ucsConfigArrayMax →
      ucsConfigArrayReadTokens i tokens =
        ⟨tokens.take (ucsConfigArrayMax - i), decide (ucsConfigArrayMax - i < tokens.length)⟩
  | i, [], _ => by simp [ucsConfigArrayReadTokens]
  | i, token :: tokens, hi => by
    rw [ucsConfigArrayReadTokens]
    by_cases h : i = ucsConfigArrayMax
    · simp [h]
    · rw [if_neg h, ucsConfigArrayReadTokens_eq (i + 1) tokens (by omega),
        show ucsConfigArrayMax - i = ucsConfigArrayMax - (i + 1) + 1 by omega, List.take_succ_cons]
      simp

/-- A name a token stands for is not empty, and holds a character that is not a digit only if
the token does. -/
lemma mem_rangeElements {token x : List Char} (hx : x ∈ rangeElements token) (ht : token ≠ [])
    {c : Char} (hc : c ∉ token) (hdig : c.isDigit = false) : x ≠ [] ∧ c ∉ x := by
  unfold rangeElements at hx
  split at hx
  · rename_i pre d1 d2 suffix hmatch
    have htok := rangeRegexMatch_eq_some hmatch
    split_ifs at hx
    · obtain ⟨j, -, rfl⟩ := List.mem_map.mp hx
      obtain ⟨e, es, he, -⟩ := toDigits_eq_cons j
      refine ⟨by simp [he], fun hmem => ?_⟩
      rcases List.mem_append.mp hmem with hmem | hmem
      · rcases List.mem_append.mp hmem with hmem | hmem
        · exact hc (by rw [htok]; simp [hmem])
        · rw [isDigit_of_mem_toDigits hmem] at hdig
          contradiction
      · exact hc (htok ▸ by simp [hmem])
    · rw [List.mem_singleton.mp hx]
      exact ⟨ht, hc⟩
  · rw [List.mem_singleton.mp hx]
    exact ⟨ht, hc⟩

lemma mem_rangeNames {delim : Char} (hdig : delim.isDigit = false) {s x : List Char}
    (hx : x ∈ rangeNames delim s) : x ≠ [] ∧ delim ∉ x := by
  obtain ⟨t, ht, hxt⟩ := List.mem_flatMap.mp hx
  exact mem_rangeElements hxt (ne_nil_of_mem_pieces ht) (not_mem_of_mem_pieces ht) hdig

/-! ### The array and the allow list -/

/-- **The array of names**: below `ULONG_MAX`, `ucs_config_sscanf_array_impl` with ranges reads
the first `UCS_CONFIG_ARRAY_MAX` names the text stands for, and is truncated exactly when there
are more. -/
theorem ucsConfigSscanfArrayImpl_expand_eq {delim : Char} (hdig : delim.isDigit = false)
    (s : List Char) (hb : ∀ t ∈ pieces delim s, rangeBelowUlongMax t = true) :
    ucsConfigSscanfArrayImpl s delim true =
      ⟨(rangeNames delim s).take ucsConfigArrayMax,
        decide (ucsConfigArrayMax < (rangeNames delim s).length)⟩ := by
  have hnames : rangeNames delim (s.dropWhile (· = delim)) = rangeNames delim s := by
    rw [rangeNames, rangeNames, pieces_dropWhile]
  have hstrb : ucsConfigArrayExpandRanges s delim (ucsConfigArrayMax + 1) =
      [delim].intercalate ((rangeNames delim s).take (ucsConfigArrayMax + 1)) := by
    unfold ucsConfigArrayExpandRanges
    rw [ucsConfigArrayExpandRangesLoop_eq _ _ _ (ne_of_mem_head?_dropWhile s)
      (by rw [pieces_dropWhile]; exact hb), hnames]
    simp
  have hread := ucsStringBufferTokens_intercalate ((rangeNames delim s).take (ucsConfigArrayMax + 1))
    (fun x hx => mem_rangeNames hdig (List.mem_of_mem_take hx))
  simp only [ucsConfigSscanfArrayImpl, if_true, hstrb, hread,
    ucsConfigArrayReadTokens_eq 0 _ (Nat.zero_le _), Nat.sub_zero, List.take_take, List.length_take]
  simp only [ucsConfigArrayMax]
  rw [show min 128 (128 + 1) = 128 from rfl]
  congr 1
  exact decide_eq_decide.mpr (by omega)

/-- **Allow lists with ranges follow the grammar** while every upper bound is below `ULONG_MAX`
and the list does not start with `all`: with or without a leading `^`, the names are the first
`UCS_CONFIG_ARRAY_MAX` the grammar gives, the array is truncated exactly when it gives more, and
no name is empty. -/
theorem ucsConfigSscanfAllowListWithRanges_eq_spec (s : List Char)
    (hb : ∀ t ∈ pieces ',' s, rangeBelowUlongMax t = true)
    (hall : (allowListWithRangesSpec s).head? ≠ some ucsConfigParserAll) :
    ucsConfigSscanfAllowListWithRanges (ucsConfigParserNegate :: s) =
        some ⟨⟨(allowListWithRangesSpec s).take ucsConfigArrayMax,
          decide (ucsConfigArrayMax < (allowListWithRangesSpec s).length)⟩, .negate⟩ ∧
      ((∀ c ∈ s.head?, c ≠ ucsConfigParserNegate) →
        ucsConfigSscanfAllowListWithRanges s =
          some ⟨⟨(allowListWithRangesSpec s).take ucsConfigArrayMax,
            decide (ucsConfigArrayMax < (allowListWithRangesSpec s).length)⟩, .allow⟩) ∧
      ∀ x ∈ allowListWithRangesSpec s, x ≠ [] := by
  have harr : ucsConfigSscanfArrayImpl s ',' true =
      ⟨(allowListWithRangesSpec s).take ucsConfigArrayMax,
        decide (ucsConfigArrayMax < (allowListWithRangesSpec s).length)⟩ :=
    ucsConfigSscanfArrayImpl_expand_eq (by decide) s hb
  have hhead : ((allowListWithRangesSpec s).take ucsConfigArrayMax).head? ≠
      some ucsConfigParserAll := by
    rwa [List.head?_take, if_neg (by decide)]
  refine ⟨?negate, fun hs => ?allow, fun x hx => (mem_rangeNames (by decide) hx).1⟩
  case negate =>
    simp only [ucsConfigSscanfAllowListWithRanges, ucsConfigSscanfAllowListImpl, List.head?_cons,
      if_true, List.drop_one, List.tail_cons]
    rw [harr]
    dsimp only
    rw [if_neg hhead]
  case allow =>
    have hneg : s.head? ≠ some ucsConfigParserNegate := fun h => hs _ h rfl
    simp only [ucsConfigSscanfAllowListWithRanges, ucsConfigSscanfAllowListImpl, if_neg hneg,
      List.drop_zero]
    rw [harr]
    dsimp only
    rw [if_neg hhead]

/-- A negated list with an empty piece and a range. -/
theorem ucsConfigSscanfAllowListWithRanges_eq_spec_negated :
    (∀ t ∈ pieces ',' "a,,b[1-3]".toList, rangeBelowUlongMax t = true) ∧
      (allowListWithRangesSpec "a,,b[1-3]".toList).head? ≠ some ucsConfigParserAll ∧
      ucsConfigSscanfAllowListWithRanges (ucsConfigParserNegate :: "a,,b[1-3]".toList) =
        some ⟨⟨["a".toList, "b1".toList, "b2".toList, "b3".toList], false⟩, .negate⟩ := by
  have hb : ∀ t ∈ pieces ',' "a,,b[1-3]".toList, rangeBelowUlongMax t = true := by decide +kernel
  have hall : (allowListWithRangesSpec "a,,b[1-3]".toList).head? ≠ some ucsConfigParserAll := by
    decide +kernel
  refine ⟨hb, hall, ?_⟩
  rw [(ucsConfigSscanfAllowListWithRanges_eq_spec "a,,b[1-3]".toList hb hall).1]
  decide +kernel

/-! ### Past `ULONG_MAX` -/

/-- A range of the one value `ULONG_MAX` between two names: `first + count` wraps to 0, the
element is lost and the delimiter before the next token stays, so an empty name is read back. -/
theorem ucsConfigSscanfAllowListWithRanges_empty_name_at_ulong_max :
    ucsConfigSscanfAllowListWithRanges "a,[18446744073709551615-18446744073709551615],b".toList =
        some ⟨⟨["a".toList, [], "b".toList], false⟩, .allow⟩ ∧
      allowListWithRangesSpec "a,[18446744073709551615-18446744073709551615],b".toList =
        ["a".toList, "18446744073709551615".toList, "b".toList] := by
  -- the range of the one value `ULONG_MAX`: `first + count` wraps, so it writes nothing
  have hwrap : ucsConfigArrayExpandRange "[18446744073709551615-18446744073709551615]".toList ','
      128 = ([], 1) :=
    @ucsConfigArrayExpandRange_of_wrap _ [] "18446744073709551615".toList
      "18446744073709551615".toList [] ',' 128 (by decide) (by decide +kernel) le_rfl
      (by decide +kernel)
  have hbuf : ucsConfigArrayExpandRanges "a,[18446744073709551615-18446744073709551615],b".toList
      ',' (ucsConfigArrayMax + 1) = "a,,b".toList := by
    have hsplit : "a,[18446744073709551615-18446744073709551615],b".toList.dropWhile (· = ',') =
        "a".toList ++ ',' ::
          ("[18446744073709551615-18446744073709551615]".toList ++ ',' :: "b".toList) := by
      decide +kernel
    have hrest : ("[18446744073709551615-18446744073709551615]".toList ++ ',' ::
        "b".toList).dropWhile (· = ',') =
          "[18446744073709551615-18446744073709551615]".toList ++ ',' :: "b".toList := by
      decide +kernel
    rw [ucsConfigArrayExpandRanges, hsplit,
      ucsConfigArrayExpandRangesLoop_cons (by decide) (by decide) (by decide), hrest,
      ucsConfigArrayExpandRangesLoop_cons (by decide +kernel) (by decide +kernel) (by decide)]
    -- the name `a` is one element; the range then has 128 left
    have ha : ucsConfigArrayExpandRange "a".toList ',' (ucsConfigArrayMax + 1 - 0) =
        ("a".toList, 1) := by decide
    have hleft : ucsConfigArrayMax + 1 - (0 + 1) = 128 := rfl
    have hb : "b".toList.dropWhile (· = ',') = "b".toList := by decide
    rw [ha, hleft, hwrap, hb, ucsConfigArrayExpandRangesLoop_last (by decide) (by decide) (by decide)]
    decide
  -- `ucs_string_buffer_for_each_token` reads `a`, an empty name and `b` back
  have harr : ucsConfigSscanfArrayImpl "a,[18446744073709551615-18446744073709551615],b".toList ','
      true = ⟨["a".toList, [], "b".toList], false⟩ := by
    rw [ucsConfigSscanfArrayImpl, if_pos rfl, hbuf]
    decide +kernel
  have hneg : "a,[18446744073709551615-18446744073709551615],b".toList.head? ≠
      some ucsConfigParserNegate := by decide
  refine ⟨?_, by decide +kernel⟩
  rw [ucsConfigSscanfAllowListWithRanges, ucsConfigSscanfAllowListImpl, if_neg hneg]
  dsimp only
  rw [List.drop_zero, harr, if_neg (by decide)]

end UcxProofs.ConfigAllowList
