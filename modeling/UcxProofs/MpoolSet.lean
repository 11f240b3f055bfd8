import UcxProofs.Status

/-!
The memory-pool set of `ucs/datastruct/mpool_set.{c,inl}`: one pool per power of two among the
requested sizes up to `max_mp_entry_size`, and a last pool of `max_mp_entry_size` itself when that
is not one of them; `map` sends the log2 of a request size, counted down from 31, to the smallest
pool that holds it. The pools are numbered by their place in `data`; each is known by the element
size it was initialised with. What `ucs_mpool_init` returns for a pool is a parameter, a function
of the element size, and so is whether the allocation of `data` succeeds.

A request of `size` bytes goes to the smallest pool that holds `size + 1`. At
`size = max_mp_entry_size`, when that is a power of two among the requested sizes, this is one
pool past the largest, and `map` has no entry there: init never writes it.
-/

namespace UcxProofs.MpoolSet

/-- `UCS_MPOOL_SET_SIZE`. -/
def ucsMpoolSetSize : ℕ := 32

/-- `UCS_MPOOL_SET_MAX_SIZE`. -/
def ucsMpoolSetMaxSize : ℕ := 2 ^ 30

/-- `max_idx` of `ucs_mpool_set_init`, `UCS_MPOOL_SET_SIZE - 1`. -/
def maxIdx : ℕ := ucsMpoolSetSize - 1

/-- `ucs_is_pow2_or_zero`. -/
def ucsIsPow2OrZero (n : ℕ) : Bool := n &&& (n - 1) = 0

/-- `ucs_is_pow2`. -/
def ucsIsPow2 (n : ℕ) : Bool := 0 < n && ucsIsPow2OrZero n

/-- The set bits of a 32-bit word in the order `ucs_for_each_bit` visits them, lowest first. -/
def ucsForEachBit (map : ℕ) : List ℕ := (List.range 32).filter map.testBit

/-- `ucs_popcount` of a 32-bit word. -/
def ucsPopcount (n : ℕ) : ℕ := (ucsForEachBit n).length

/-- `ucs_count_leading_zero_bits` of a 32-bit word. -/
def ucsCountLeadingZeroBits (n : ℕ) : ℕ := if n = 0 then 32 else 31 - Nat.log2 n

/-- `ucs_mpool_set_t`. `map` gives the pool an entry points to, `none` for an entry that init
never wrote; `data` gives each pool's element size, in the order init created them. -/
structure UcsMpoolSet where
  bitmap : ℕ
  map : ℕ → Option ℕ
  data : List ℕ

/-- The loop of `ucs_mpool_set_init` over `sizes`: a size that is not a power of two fails, one
above `max_mp_entry_size` is skipped, and the others are or-ed into the 32-bit bitmap. -/
def sizesBitmap (maxMpEntrySize : ℕ) : ℕ → List ℕ → Except UcsStatus ℕ
  | bitmap, [] => .ok bitmap
  | bitmap, size :: sizes =>
    if !ucsIsPow2 size then .error .errInvalidParam
    else if size > maxMpEntrySize then sizesBitmap maxMpEntrySize bitmap sizes
    else sizesBitmap maxMpEntrySize ((bitmap ||| size) % 2 ^ 32) sizes

/-- The pools of a bit: its power of two, or `max_mp_entry_size` for bit `max_idx`. -/
def poolSize (maxMpEntrySize sizeLog2 : ℕ) : ℕ :=
  if maxIdx - sizeLog2 = 0 then maxMpEntrySize else 2 ^ sizeLog2

/-- The loop of `ucs_mpool_set_init` over the bits of the bitmap, lowest first: it initialises a
pool of `size + priv_elem_size` for each and points the map entries from `prevIdx` down to
`max_idx - size_log2` at it. -/
def poolsLoop (maxMpEntrySize privElemSize : ℕ) (mpoolInit : ℕ → UcsStatus) :
    List ℕ → (ℕ → Option ℕ) → List ℕ → ℤ → Except UcsStatus ((ℕ → Option ℕ) × List ℕ)
  | [], map, mpools, _ => .ok (map, mpools)
  | sizeLog2 :: bits, map, mpools, prevIdx =>
    let mapIdx := maxIdx - sizeLog2
    let elemSize := poolSize maxMpEntrySize sizeLog2 + privElemSize
    if mpoolInit elemSize ≠ .ok then .error (mpoolInit elemSize)
    else
      poolsLoop maxMpEntrySize privElemSize mpoolInit bits
        (fun i => if (mapIdx : ℤ) ≤ i ∧ (i : ℤ) ≤ prevIdx then some mpools.length else map i)
        (mpools ++ [elemSize]) (mapIdx - 1)

/-- The bitmap with the cutoff bit `max_idx` set when `max_mp_entry_size` is not a power of two
among the sizes. -/
def cutoffBitmap (maxMpEntrySize bitmap : ℕ) : ℕ :=
  if !ucsIsPow2 maxMpEntrySize || maxMpEntrySize &&& bitmap = 0 then bitmap ||| 2 ^ maxIdx
  else bitmap

/-- `ucs_mpool_set_init`; `dataAllocated` says whether `ucs_malloc` of `data` succeeds and
`mpoolInit` is what `ucs_mpool_init` returns for a pool of the given element size. -/
def ucsMpoolSetInit (sizes : List ℕ) (maxMpEntrySize privElemSize : ℕ) (dataAllocated : Bool)
    (mpoolInit : ℕ → UcsStatus) : Except UcsStatus UcsMpoolSet := do
  if sizes.length = 0 then throw .errInvalidParam
  if maxMpEntrySize > ucsMpoolSetMaxSize ∨ maxMpEntrySize = 0 then throw .errInvalidParam
  let bitmap := cutoffBitmap maxMpEntrySize (← sizesBitmap maxMpEntrySize 0 sizes)
  if !dataAllocated then throw .errNoMemory
  let (map, data) ← poolsLoop maxMpEntrySize privElemSize mpoolInit (ucsForEachBit bitmap)
    (fun _ => none) [] maxIdx
  return ⟨bitmap, map, data⟩

/-- The map index `ucs_mpool_set_get_inline` reads for `size`, computed in `unsigned`. -/
def getIdx (size : ℕ) : UInt32 :=
  let elemSize := (size + 1) % 2 ^ 32
  (ucsCountLeadingZeroBits elemSize).toUInt32 - if ucsIsPow2OrZero elemSize then 0 else 1

/-- `ucs_mpool_set_get_inline`: the pool the object is taken from. -/
def ucsMpoolSetGetInline (mpSet : UcsMpoolSet) (size : ℕ) : Option ℕ :=
  mpSet.map (getIdx size).toNat

/-- `ucs_mpool_set_cleanup`: the number of pools it releases, from the first of `data` on. -/
def ucsMpoolSetCleanup (mpSet : UcsMpoolSet) : ℕ := ucsPopcount mpSet.bitmap

/-! ### Powers of two and the index of a request -/

lemma ucsIsPow2_two_pow (t : ℕ) : ucsIsPow2 (2 ^ t) = true := by
  have h : 2 ^ t &&& (2 ^ t - 1) = 0 := by rw [Nat.and_two_pow_sub_one_eq_mod, Nat.mod_self]
  simp [ucsIsPow2, ucsIsPow2OrZero, h]

/-- Between two powers of two a number shares its top bit with its predecessor. -/
lemma two_pow_add_and_pred_ne_zero {t r : ℕ} (hr0 : 0 < r) (hr : r < 2 ^ t) :
    (2 ^ t + r) &&& (2 ^ t + r - 1) ≠ 0 := by
  intro h
  have h1 : (2 ^ t + r).testBit t = true := by
    rw [Nat.testBit_two_pow_add_eq, Nat.testBit_lt_two_pow hr]
    rfl
  have h2 : (2 ^ t + (r - 1)).testBit t = true := by
    rw [Nat.testBit_two_pow_add_eq, Nat.testBit_lt_two_pow (by omega)]
    rfl
  have hbit := Nat.testBit_and (2 ^ t + r) (2 ^ t + r - 1) t
  rw [h, Nat.zero_testBit, h1, show 2 ^ t + r - 1 = 2 ^ t + (r - 1) by omega, h2] at hbit
  cases hbit

lemma ucsIsPow2_iff (n : ℕ) : ucsIsPow2 n = true ↔ ∃ t, n = 2 ^ t := by
  constructor
  · intro h
    simp only [ucsIsPow2, ucsIsPow2OrZero, Bool.and_eq_true, decide_eq_true_eq] at h
    obtain ⟨hpos, hand⟩ := h
    have hle := Nat.log2_self_le (Nat.pos_iff_ne_zero.1 hpos)
    have hlt : n < 2 * 2 ^ n.log2 := by
      have := Nat.lt_log2_self (n := n)
      rwa [Nat.pow_succ, Nat.mul_comm] at this
    refine ⟨n.log2, ?_⟩
    by_contra hne
    apply two_pow_add_and_pred_ne_zero (t := n.log2) (r := n - 2 ^ n.log2) (by omega) (by omega)
    rwa [show 2 ^ n.log2 + (n - 2 ^ n.log2) = n by omega]
  · rintro ⟨t, rfl⟩
    exact ucsIsPow2_two_pow t

lemma ucsIsPow2OrZero_eq_ucsIsPow2 {n : ℕ} (hn : 0 < n) : ucsIsPow2OrZero n = ucsIsPow2 n := by
  simp [ucsIsPow2, hn]

/-- The index a request of `size` bytes reads is counted down from `max_idx` by the least `L`
with `size + 1 ≤ 2 ^ L`: a power of two is not rounded up, anything else is. -/
lemma getIdx_toNat {size : ℕ} (h : size + 1 < 2 ^ 31) :
    (getIdx size).toNat = maxIdx - Nat.clog 2 (size + 1) := by
  have he0 : size + 1 ≠ 0 := by omega
  have hle := Nat.log2_self_le he0
  have hlt : size + 1 < 2 * 2 ^ (size + 1).log2 := by
    have := Nat.lt_log2_self (n := size + 1)
    rwa [Nat.pow_succ, Nat.mul_comm] at this
  have hlog : (size + 1).log2 < 31 := by
    by_contra hge
    have : 2 ^ 31 ≤ 2 ^ (size + 1).log2 := Nat.pow_le_pow_right (by norm_num) (by omega)
    omega
  have hclz : ucsCountLeadingZeroBits (size + 1) = 31 - (size + 1).log2 := by
    simp [ucsCountLeadingZeroBits]
  have hclz32 : (ucsCountLeadingZeroBits (size + 1)).toUInt32.toNat = 31 - (size + 1).log2 := by
    rw [hclz, UInt32.toNat_ofNat_of_lt' (lt_of_le_of_lt (Nat.sub_le _ _) (by decide))]
  unfold getIdx
  simp only [Nat.mod_eq_of_lt (show size + 1 < 2 ^ 32 by omega),
    ucsIsPow2OrZero_eq_ucsIsPow2 (Nat.succ_pos size)]
  by_cases hp : size + 1 = 2 ^ (size + 1).log2
  · -- a power of two: no rounding up
    have hpow : ucsIsPow2 (size + 1) = true := (ucsIsPow2_iff _).2 ⟨_, hp⟩
    have hclog : Nat.clog 2 (size + 1) = (size + 1).log2 := by
      conv_lhs => rw [hp]
      exact Nat.clog_pow 2 _ (by norm_num)
    rw [if_pos hpow, UInt32.sub_zero, hclz32, hclog]
    rfl
  · have hpow : ucsIsPow2 (size + 1) = false := by
      rcases hb : ucsIsPow2 (size + 1)
      · rfl
      · obtain ⟨t, ht⟩ := (ucsIsPow2_iff _).1 hb
        -- a power of two is its own `2 ^ log2`
        exact absurd (by rw [ht, Nat.log2_two_pow]) hp
    have hclog : Nat.clog 2 (size + 1) = (size + 1).log2 + 1 := by
      have h1 : Nat.clog 2 (size + 1) ≤ (size + 1).log2 + 1 :=
        (Nat.clog_le_iff_le_pow (by norm_num)).2 (by rw [Nat.pow_succ]; omega)
      have h2 : (size + 1).log2 < Nat.clog 2 (size + 1) :=
        (Nat.lt_clog_iff_pow_lt (by norm_num)).2 (by omega)
      omega
    have hone : (1 : UInt32) ≤ (ucsCountLeadingZeroBits (size + 1)).toUInt32 := by
      rw [UInt32.le_iff_toNat_le, hclz32]
      simp only [UInt32.toNat_one]
      omega
    rw [if_neg (by simp [hpow]), UInt32.toNat_sub_of_le _ _ hone, hclz32, hclog]
    simp only [UInt32.toNat_one, maxIdx, ucsMpoolSetSize]
    omega

/-! ### The bitmap and the pools loop -/

/-- The sizes loop succeeds only on powers of two, and its bitmap holds the bits of the sizes up
to `max_mp_entry_size`. -/
lemma sizesBitmap_spec {maxMpEntrySize : ℕ} (hmax : maxMpEntrySize < 2 ^ 32) :
    ∀ {sizes : List ℕ} {bitmap r : ℕ}, bitmap < 2 ^ 32 →
      sizesBitmap maxMpEntrySize bitmap sizes = .ok r →
      (∀ size ∈ sizes, ucsIsPow2 size = true) ∧ r < 2 ^ 32 ∧
        ∀ t, r.testBit t = true ↔ bitmap.testBit t = true ∨
          ∃ size ∈ sizes, size ≤ maxMpEntrySize ∧ size.testBit t = true
  | [], bitmap, r, hb, h => by
    cases h
    exact ⟨by simp, hb, by simp⟩
  | size :: sizes, bitmap, r, hb, h => by
    unfold sizesBitmap at h
    by_cases hp : ucsIsPow2 size = true
    swap
    · rw [if_pos (by simpa using hp)] at h
      cases h
    rw [if_neg (by simpa using hp)] at h
    by_cases hgt : size > maxMpEntrySize
    · -- a size above the maximum is skipped
      rw [if_pos hgt] at h
      obtain ⟨hall, hr, hbits⟩ := sizesBitmap_spec hmax hb h
      refine ⟨?_, hr, fun t => ?_⟩
      · simpa [hp] using hall
      · rw [hbits t]
        simp only [List.mem_cons, exists_eq_or_imp]
        constructor
        · rintro (h | h)
          · exact .inl h
          · exact .inr (.inr h)
        · rintro (h | ⟨h, -⟩ | h)
          · exact .inl h
          · omega
          · exact .inr h
    · rw [if_neg hgt] at h
      have hlt : bitmap ||| size < 2 ^ 32 := Nat.or_lt_two_pow hb (by omega)
      rw [Nat.mod_eq_of_lt hlt] at h
      obtain ⟨hall, hr, hbits⟩ := sizesBitmap_spec hmax hlt h
      refine ⟨?_, hr, fun t => ?_⟩
      · simpa [hp] using hall
      · rw [hbits t, Nat.testBit_or]
        simp only [Bool.or_eq_true, List.mem_cons, exists_eq_or_imp]
        constructor
        · rintro ((h | h) | h)
          · exact .inl h
          · exact .inr (.inl ⟨by omega, h⟩)
          · exact .inr (.inr h)
        · rintro (h | ⟨-, h⟩ | h)
          · exact .inl (.inl h)
          · exact .inl (.inr h)
          · exact .inr h

/-- Over bits in increasing order, the loop makes one pool per bit and points map entry `i` at
or below `prevIdx` to the first bit that holds `2 ^ (max_idx - i)`, counted from the pools
already made. -/
lemma poolsLoop_spec {maxMpEntrySize privElemSize : ℕ} {mpoolInit : ℕ → UcsStatus} :
    ∀ {bits : List ℕ} {map : ℕ → Option ℕ} {mpools : List ℕ} {prevIdx : ℤ},
      (∀ b ∈ bits, mpoolInit (poolSize maxMpEntrySize b + privElemSize) = .ok) →
      bits.Pairwise (· < ·) → (∀ b ∈ bits, b ≤ maxIdx) →
      (∀ b ∈ bits, ((maxIdx - b : ℕ) : ℤ) ≤ prevIdx) → (∀ i : ℕ, (i : ℤ) ≤ prevIdx → map i = none) →
      poolsLoop maxMpEntrySize privElemSize mpoolInit bits map mpools prevIdx =
        .ok (fun i => if prevIdx < i then map i
            else (bits.findIdx? fun b => maxIdx - i ≤ b).map (mpools.length + ·),
          mpools ++ bits.map fun b => poolSize maxMpEntrySize b + privElemSize)
  | [], map, mpools, prevIdx, _, _, _, _, hmap => by
    rw [poolsLoop]
    congr 2
    · funext i
      split_ifs with h
      · rfl
      · simpa using hmap i (by omega)
    · simp
  | b :: bits, map, mpools, prevIdx, hinit, hsorted, hle, hprev, hmap => by
    rw [List.pairwise_cons] at hsorted
    have hb := hle b List.mem_cons_self
    have hbprev := hprev b List.mem_cons_self
    rw [poolsLoop, if_neg (by simpa using hinit b List.mem_cons_self)]
    -- the rest of the bits fill the entries below this pool's
    rw [poolsLoop_spec (fun b' hb' => hinit b' (List.mem_cons_of_mem _ hb')) hsorted.2
      (fun b' hb' => hle b' (List.mem_cons_of_mem _ hb'))
      (fun b' hb' => by
        have := hsorted.1 b' hb'
        have := hle b' (List.mem_cons_of_mem _ hb')
        omega)
      (fun i hi => by rw [if_neg (by omega)]; exact hmap i (by omega))]
    congr 2
    · funext i
      rw [List.findIdx?_cons]
      by_cases hi : prevIdx < i
      · rw [if_pos (by omega), if_neg (by omega), if_pos hi]
      by_cases hi' : ((maxIdx - b : ℕ) : ℤ) ≤ i
      · rw [if_pos (by omega), if_pos ⟨hi', by omega⟩, if_neg hi,
          if_pos (by simp only [decide_eq_true_eq]; omega)]
        rfl
      · rw [if_neg (by omega), if_neg hi, if_neg (by simp only [decide_eq_true_eq]; omega),
          Option.map_map, List.length_append, List.length_singleton]
        congr 1
        funext k
        simp only [Function.comp_apply]
        omega
    · simp

/-- A loop that succeeds initialised every pool it made. -/
lemma poolsLoop_init_ok {maxMpEntrySize privElemSize : ℕ} {mpoolInit : ℕ → UcsStatus} :
    ∀ {bits : List ℕ} {map : ℕ → Option ℕ} {mpools : List ℕ} {prevIdx : ℤ}
      {r : (ℕ → Option ℕ) × List ℕ},
      poolsLoop maxMpEntrySize privElemSize mpoolInit bits map mpools prevIdx = .ok r →
      ∀ b ∈ bits, mpoolInit (poolSize maxMpEntrySize b + privElemSize) = .ok
  | [], _, _, _, _, _ => by simp
  | b :: bits, map, mpools, prevIdx, r, h => by
    rw [poolsLoop] at h
    by_cases hb : mpoolInit (poolSize maxMpEntrySize b + privElemSize) = .ok
    · rw [if_neg (by simpa using hb)] at h
      intro b' hb'
      rcases List.mem_cons.1 hb' with rfl | hb'
      · exact hb
      · exact poolsLoop_init_ok h b' hb'
    · rw [if_pos hb] at h
      cases h

/-! ### What a successful init builds -/

section init

variable {sizes : List ℕ} {maxMpEntrySize privElemSize : ℕ} {dataAllocated : Bool}
  {mpoolInit : ℕ → UcsStatus} {mpSet : UcsMpoolSet}

/-- A successful init passed its parameter checks, or-ed the sizes into a bitmap, and built its
pools over the bits of that bitmap with the cutoff bit. -/
lemma ucsMpoolSetInit_eq_ok
    (h : ucsMpoolSetInit sizes maxMpEntrySize privElemSize dataAllocated mpoolInit = .ok mpSet) :
    0 < maxMpEntrySize ∧ maxMpEntrySize ≤ ucsMpoolSetMaxSize ∧
      ∃ bitmap, sizesBitmap maxMpEntrySize 0 sizes = .ok bitmap ∧
        mpSet.bitmap = cutoffBitmap maxMpEntrySize bitmap ∧
        poolsLoop maxMpEntrySize privElemSize mpoolInit (ucsForEachBit mpSet.bitmap)
          (fun _ => none) [] maxIdx = .ok (mpSet.map, mpSet.data) := by
  unfold ucsMpoolSetInit at h
  by_cases h1 : sizes.length = 0
  · simp [h1] at h
    cases h
  by_cases h2 : maxMpEntrySize > ucsMpoolSetMaxSize ∨ maxMpEntrySize = 0
  · simp [h1, h2] at h
    cases h
  rcases hb : sizesBitmap maxMpEntrySize 0 sizes with e | bitmap
  · simp [h1, h2, hb] at h
    cases h
  cases dataAllocated
  · simp [h1, h2, hb] at h
    cases h
  rcases hp : poolsLoop maxMpEntrySize privElemSize mpoolInit
    (ucsForEachBit (cutoffBitmap maxMpEntrySize bitmap)) (fun _ => none) [] maxIdx with
    e | ⟨map, data⟩
  · simp [h1, h2, hb, hp, bind, Except.bind] at h
  simp only [h1, h2, hb, hp, bind, Except.bind, pure, Except.pure, if_false, Bool.not_true,
    Bool.false_eq_true, Except.ok.injEq] at h
  subst h
  exact ⟨by omega, by omega, bitmap, rfl, rfl, hp⟩

/-- The bits of a successful init's bitmap: the requested sizes up to the maximum, and the cutoff
bit when the maximum is not a power of two among them. -/
lemma ucsMpoolSetInit_testBit
    (h : ucsMpoolSetInit sizes maxMpEntrySize privElemSize dataAllocated mpoolInit = .ok mpSet)
    (t : ℕ) :
    mpSet.bitmap.testBit t = true ↔
      (∃ size ∈ sizes, size ≤ maxMpEntrySize ∧ size = 2 ^ t) ∨
        (t = maxIdx ∧ ¬ (ucsIsPow2 maxMpEntrySize = true ∧ maxMpEntrySize ∈ sizes)) := by
  obtain ⟨-, hmaxle, bitmap, hb, hbm, -⟩ := ucsMpoolSetInit_eq_ok h
  have hmax : maxMpEntrySize < 2 ^ 32 := by
    unfold ucsMpoolSetMaxSize at hmaxle
    omega
  obtain ⟨hall, -, hbits⟩ := sizesBitmap_spec hmax (Nat.two_pow_pos 32) hb
  -- a requested power of two has exactly its own bit
  have hsize : ∀ u, bitmap.testBit u = true ↔
      ∃ size ∈ sizes, size ≤ maxMpEntrySize ∧ size = 2 ^ u := by
    intro u
    rw [hbits u, Nat.zero_testBit]
    simp only [Bool.false_eq_true, false_or]
    constructor
    · rintro ⟨size, hs, hle, hbit⟩
      obtain ⟨v, rfl⟩ := (ucsIsPow2_iff size).1 (hall size hs)
      rw [Nat.testBit_two_pow, decide_eq_true_eq] at hbit
      exact ⟨_, hs, hle, by rw [hbit]⟩
    · rintro ⟨size, hs, hle, rfl⟩
      exact ⟨_, hs, hle, Nat.testBit_two_pow_self⟩
  -- the cutoff bit is set exactly when the maximum is not a requested power of two
  have hcut : (!ucsIsPow2 maxMpEntrySize || maxMpEntrySize &&& bitmap = 0) = true ↔
      ¬ (ucsIsPow2 maxMpEntrySize = true ∧ maxMpEntrySize ∈ sizes) := by
    by_cases hp : ucsIsPow2 maxMpEntrySize = true
    · obtain ⟨m, hm⟩ := (ucsIsPow2_iff _).1 hp
      have hand : maxMpEntrySize &&& bitmap = 0 ↔ bitmap.testBit m = false := by
        rw [hm, Nat.two_pow_and]
        cases bitmap.testBit m <;> simp
      simp only [hp, Bool.not_true, Bool.false_or, decide_eq_true_eq, hand, true_and]
      rw [← Bool.not_eq_true, hsize m]
      constructor
      · rintro hn hin
        exact hn ⟨_, hin, le_refl _, hm⟩
      · rintro hn ⟨size, hs, -, rfl⟩
        exact hn (hm ▸ hs)
    · simp [hp]
  -- no requested size reaches the cutoff bit
  have h31 : bitmap.testBit maxIdx = false := by
    rw [← Bool.not_eq_true, hsize]
    rintro ⟨size, -, hle, rfl⟩
    simp only [maxIdx, ucsMpoolSetSize, ucsMpoolSetMaxSize] at hle hmaxle
    omega
  rw [hbm, cutoffBitmap]
  split_ifs with hc
  · rw [Nat.testBit_or, Nat.testBit_two_pow, Bool.or_eq_true, hsize, decide_eq_true_eq,
      ← hcut]
    simp only [hc, and_true]
    constructor
    · rintro (h | rfl)
      · exact .inl h
      · exact .inr rfl
    · rintro (h | rfl)
      · exact .inl h
      · exact .inr rfl
  · rw [hsize]
    constructor
    · exact .inl
    · rintro (h | ⟨rfl, hn⟩)
      · exact h
      · exact absurd (hcut.2 hn) hc

/-- A successful init's pools are the set bits, lowest first, and map entry `i` points to the
first of them at or above `max_idx - i`. -/
lemma ucsMpoolSetInit_pools
    (h : ucsMpoolSetInit sizes maxMpEntrySize privElemSize dataAllocated mpoolInit = .ok mpSet) :
    mpSet.data = (ucsForEachBit mpSet.bitmap).map (poolSize maxMpEntrySize · + privElemSize) ∧
      ∀ i ≤ maxIdx, mpSet.map i = (ucsForEachBit mpSet.bitmap).findIdx? (maxIdx - i ≤ ·) := by
  obtain ⟨-, -, -, -, -, hloop⟩ := ucsMpoolSetInit_eq_ok h
  have hsorted : (ucsForEachBit mpSet.bitmap).Pairwise (· < ·) :=
    List.Pairwise.filter _ List.pairwise_lt_range
  have hle : ∀ b ∈ ucsForEachBit mpSet.bitmap, b ≤ maxIdx := by
    intro b hb
    have := (List.mem_range.1 (List.mem_filter.1 hb).1)
    simp only [maxIdx, ucsMpoolSetSize]
    omega
  rw [poolsLoop_spec (poolsLoop_init_ok hloop) hsorted hle (fun b hb => by simp)
    (fun _ _ => rfl)] at hloop
  simp only [Except.ok.injEq, Prod.mk.injEq, List.nil_append, List.length_nil, Nat.zero_add,
    Option.map_id'] at hloop
  obtain ⟨hmap, hdata⟩ := hloop
  refine ⟨hdata.symm, fun i hi => ?_⟩
  rw [← hmap]
  exact if_neg (by omega)

lemma mem_ucsForEachBit {map b : ℕ} : b ∈ ucsForEachBit map ↔ b ≤ maxIdx ∧ map.testBit b = true := by
  simp only [ucsForEachBit, List.mem_filter, List.mem_range, maxIdx, ucsMpoolSetSize]
  constructor <;> rintro ⟨h1, h2⟩ <;> exact ⟨by omega, h2⟩

lemma poolSize_of_lt {b : ℕ} (hb : b < maxIdx) : poolSize maxMpEntrySize b = 2 ^ b := by
  rw [poolSize, if_neg (by omega)]

lemma poolSize_maxIdx : poolSize maxMpEntrySize maxIdx = maxMpEntrySize := by
  rw [poolSize, if_pos (Nat.sub_self _)]

/-- A pool below the cutoff bit is a requested power of two, so at most the maximum. -/
lemma two_pow_le_of_mem
    (h : ucsMpoolSetInit sizes maxMpEntrySize privElemSize dataAllocated mpoolInit = .ok mpSet)
    {b : ℕ} (hb : b ∈ ucsForEachBit mpSet.bitmap) (hne : b ≠ maxIdx) :
    2 ^ b ≤ maxMpEntrySize := by
  rcases (ucsMpoolSetInit_testBit h b).1 (mem_ucsForEachBit.1 hb).2 with
    ⟨size, -, hle, rfl⟩ | ⟨rfl, -⟩
  · exact hle
  · exact absurd rfl hne

/-- The pools grow with their bits. -/
lemma poolSize_mono
    (h : ucsMpoolSetInit sizes maxMpEntrySize privElemSize dataAllocated mpoolInit = .ok mpSet)
    {b₁ b₂ : ℕ} (hb₁ : b₁ ∈ ucsForEachBit mpSet.bitmap) (hb₂ : b₂ ∈ ucsForEachBit mpSet.bitmap)
    (hle : b₁ ≤ b₂) : poolSize maxMpEntrySize b₁ ≤ poolSize maxMpEntrySize b₂ := by
  have h₂ := (mem_ucsForEachBit.1 hb₂).1
  rcases Nat.lt_or_ge b₂ maxIdx with hlt | hge
  · rw [poolSize_of_lt (by omega), poolSize_of_lt hlt]
    exact Nat.pow_le_pow_right (by norm_num) hle
  · rw [show b₂ = maxIdx by omega, poolSize_maxIdx]
    rcases Nat.lt_or_ge b₁ maxIdx with hlt₁ | hge₁
    · rw [poolSize_of_lt hlt₁]
      exact two_pow_le_of_mem h hb₁ (by omega)
    · rw [show b₁ = maxIdx by omega, poolSize_maxIdx]

end init

/-! ### Getting an object -/

section get

variable {sizes : List ℕ} {maxMpEntrySize privElemSize : ℕ} {dataAllocated : Bool}
  {mpoolInit : ℕ → UcsStatus} {mpSet : UcsMpoolSet}

/-- The pool a request reads is the first set bit at or above `clog 2 (size + 1)`. -/
lemma ucsMpoolSetGetInline_eq
    (h : ucsMpoolSetInit sizes maxMpEntrySize privElemSize dataAllocated mpoolInit = .ok mpSet)
    {size : ℕ} (hsize : size + 1 < 2 ^ 31) :
    ucsMpoolSetGetInline mpSet size =
      (ucsForEachBit mpSet.bitmap).findIdx? (Nat.clog 2 (size + 1) ≤ ·) := by
  have hL : Nat.clog 2 (size + 1) ≤ maxIdx :=
    (Nat.clog_le_iff_le_pow (by norm_num)).2 (by simp only [maxIdx, ucsMpoolSetSize]; omega)
  rw [ucsMpoolSetGetInline, getIdx_toNat hsize, (ucsMpoolSetInit_pools h).2 _ (Nat.sub_le _ _),
    Nat.sub_sub_self hL]

/-- **Every size up to the maximum finds its pool**, except the maximum itself when it is a power
of two among the sizes: the pool holds the size, and every pool with smaller elements holds less
than `size + 1`. Cleanup releases exactly the pools init made. -/
theorem ucsMpoolSetGetInline_smallest
    (h : ucsMpoolSetInit sizes maxMpEntrySize privElemSize dataAllocated mpoolInit = .ok mpSet) :
    (∀ size ≤ maxMpEntrySize,
      (size < maxMpEntrySize ∨ ¬ (ucsIsPow2 maxMpEntrySize = true ∧ maxMpEntrySize ∈ sizes)) →
      ∃ j e, ucsMpoolSetGetInline mpSet size = some j ∧ mpSet.data[j]? = some e ∧
        size + privElemSize ≤ e ∧ ∀ e' ∈ mpSet.data, e' < e → e' < size + 1 + privElemSize) ∧
      ucsMpoolSetCleanup mpSet = mpSet.data.length := by
  obtain ⟨-, hmaxle, -⟩ := ucsMpoolSetInit_eq_ok h
  obtain ⟨hdata, -⟩ := ucsMpoolSetInit_pools h
  refine ⟨fun size hsize hcut => ?_, by rw [ucsMpoolSetCleanup, ucsPopcount, hdata, List.length_map]⟩
  set bits := ucsForEachBit mpSet.bitmap
  set L := Nat.clog 2 (size + 1)
  have hsize' : size + 1 < 2 ^ 31 := by unfold ucsMpoolSetMaxSize at hmaxle; omega
  have hL : L ≤ maxIdx :=
    (Nat.clog_le_iff_le_pow (by norm_num)).2 (by simp only [maxIdx, ucsMpoolSetSize]; omega)
  -- some pool is at or above `L`: the cutoff pool, or else the maximum itself
  have hex : ∃ b ∈ bits, L ≤ b := by
    by_cases hc : ucsIsPow2 maxMpEntrySize = true ∧ maxMpEntrySize ∈ sizes
    · have hlt : size < maxMpEntrySize := hcut.resolve_right (not_not.2 hc)
      obtain ⟨m, hm⟩ := (ucsIsPow2_iff _).1 hc.1
      have hmbit : mpSet.bitmap.testBit m = true :=
        (ucsMpoolSetInit_testBit h m).2 (.inl ⟨_, hc.2, le_refl _, hm⟩)
      have hm31 : m ≤ maxIdx := by
        have : 2 ^ m < 2 ^ (maxIdx + 1) := by
          simp only [maxIdx, ucsMpoolSetSize, ucsMpoolSetMaxSize] at hmaxle ⊢; omega
        exact Nat.lt_succ_iff.1 ((Nat.pow_lt_pow_iff_right (by norm_num)).1 this)
      exact ⟨m, mem_ucsForEachBit.2 ⟨hm31, hmbit⟩,
        (Nat.clog_le_iff_le_pow (by norm_num)).2 (by omega)⟩
    · exact ⟨maxIdx, mem_ucsForEachBit.2 ⟨le_refl _, (ucsMpoolSetInit_testBit h _).2 (.inr ⟨rfl, hc⟩)⟩, hL⟩
  obtain ⟨j, hj⟩ : ∃ j, bits.findIdx? (L ≤ ·) = some j := by
    rw [← Option.isSome_iff_exists, List.findIdx?_isSome, List.any_eq_true]
    obtain ⟨b, hb, hLb⟩ := hex
    exact ⟨b, hb, by simpa using hLb⟩
  obtain ⟨hjlen, hLj, hfirst⟩ := List.findIdx?_eq_some_iff_getElem.1 hj
  simp only [decide_eq_true_eq] at hLj hfirst
  have hbj : bits[j] ∈ bits := List.getElem_mem hjlen
  refine ⟨j, poolSize maxMpEntrySize bits[j] + privElemSize, by rw [ucsMpoolSetGetInline_eq h hsize', hj],
    by rw [hdata, List.getElem?_map, List.getElem?_eq_getElem hjlen]; rfl, ?_, ?_⟩
  · -- the pool holds the size
    have : size ≤ poolSize maxMpEntrySize bits[j] := by
      rcases Nat.lt_or_ge bits[j] maxIdx with hlt | hge
      · rw [poolSize_of_lt hlt]
        calc size ≤ 2 ^ L := by
              have : size + 1 ≤ 2 ^ L := Nat.le_pow_clog (by norm_num) _
              omega
          _ ≤ 2 ^ bits[j] := Nat.pow_le_pow_right (by norm_num) hLj
      · rw [show bits[j] = maxIdx by have := (mem_ucsForEachBit.1 hbj).1; omega, poolSize_maxIdx]
        exact hsize
    omega
  · -- a pool with smaller elements sits below `L`, so it is a power of two below `size + 1`
    intro e' he' hlt
    rw [hdata] at he'
    obtain ⟨b', hb', rfl⟩ := List.mem_map.1 he'
    have hb'L : b' < L := by
      by_contra hge
      obtain ⟨k, hk, rfl⟩ := List.mem_iff_getElem.1 hb'
      have hjk : j ≤ k := by
        by_contra hkj
        exact hfirst k (by omega) (by omega)
      have hle : bits[j] ≤ bits[k] := by
        rcases Nat.lt_or_eq_of_le hjk with hjk | rfl
        · exact le_of_lt (List.pairwise_iff_getElem.1 (List.Pairwise.filter _ List.pairwise_lt_range)
            j k hjlen hk hjk)
        · exact le_refl _
      have := poolSize_mono h hbj hb' hle
      omega
    rw [poolSize_of_lt (by omega)]
    have := (Nat.lt_clog_iff_pow_lt (by norm_num : 1 < 2)).1 hb'L
    omega

theorem ucsMpoolSetGetInline_smallest_two_sizes :
    ∃ mpSet, ucsMpoolSetInit [8, 64] 100 2 true (fun _ => .ok) = .ok mpSet ∧
      ucsMpoolSetCleanup mpSet = mpSet.data.length := by
  obtain ⟨mpSet, h⟩ : ∃ mpSet, ucsMpoolSetInit [8, 64] 100 2 true (fun _ => .ok) = .ok mpSet :=
    ⟨_, rfl⟩
  exact ⟨mpSet, h, (ucsMpoolSetGetInline_smallest h).2⟩

/-- Pools of 8 and 64 bytes and a cutoff pool of 100: a request of 8 bytes goes to the 64-byte
pool, one of 100 to the cutoff pool. -/
example : (ucsMpoolSetInit [8, 64] 100 2 true (fun _ => .ok)).map (fun mpSet =>
    (ucsMpoolSetGetInline mpSet 7, ucsMpoolSetGetInline mpSet 8, ucsMpoolSetGetInline mpSet 100,
      mpSet.data)) = .ok (some 0, some 1, some 2, [10, 66, 102]) := by
  decide

/-- At `size = max_mp_entry_size`, when that is a power of two among the sizes, the index read
is one past the largest pool's, an entry that init never wrote. -/
theorem ucsMpoolSetGetInline_max_unmapped
    (h : ucsMpoolSetInit sizes maxMpEntrySize privElemSize dataAllocated mpoolInit = .ok mpSet)
    (hpow : ucsIsPow2 maxMpEntrySize = true) (hmem : maxMpEntrySize ∈ sizes) :
    ucsMpoolSetGetInline mpSet maxMpEntrySize = none := by
  obtain ⟨-, hmaxle, -⟩ := ucsMpoolSetInit_eq_ok h
  obtain ⟨m, hm⟩ := (ucsIsPow2_iff _).1 hpow
  have hmax' : maxMpEntrySize < 2 ^ 30 ∨ maxMpEntrySize = 2 ^ 30 := by
    unfold ucsMpoolSetMaxSize at hmaxle; omega
  -- every pool is a requested power of two, at most `2 ^ m`
  have hbits : ∀ b ∈ ucsForEachBit mpSet.bitmap, b ≤ m := by
    intro b hb
    rcases (ucsMpoolSetInit_testBit h b).1 (mem_ucsForEachBit.1 hb).2 with
      ⟨size, -, hle, rfl⟩ | ⟨-, hn⟩
    · exact (Nat.pow_le_pow_iff_right (by norm_num)).1 (hm ▸ hle)
    · exact absurd ⟨hpow, hmem⟩ hn
  have hclog : Nat.clog 2 (maxMpEntrySize + 1) = m + 1 := by
    have h1 : Nat.clog 2 (maxMpEntrySize + 1) ≤ m + 1 :=
      (Nat.clog_le_iff_le_pow (by norm_num)).2 (by rw [Nat.pow_succ, hm]; have := Nat.two_pow_pos m; omega)
    have h2 : m < Nat.clog 2 (maxMpEntrySize + 1) :=
      (Nat.lt_clog_iff_pow_lt (by norm_num)).2 (by omega)
    omega
  -- the maximum is below `2 ^ 30` here or equal to it; either way the index is in range
  have hidx : (getIdx maxMpEntrySize).toNat = maxIdx - (m + 1) := by
    rw [getIdx_toNat (by rcases hmax' with h' | h' <;> omega), hclog]
  have hm30 : m + 1 ≤ maxIdx := by
    have : 2 ^ m < 2 ^ 31 := by rcases hmax' with h' | h' <;> omega
    have := (Nat.pow_lt_pow_iff_right (by norm_num)).1 this
    simp only [maxIdx, ucsMpoolSetSize]
    omega
  rw [ucsMpoolSetGetInline, hidx, (ucsMpoolSetInit_pools h).2 _ (Nat.sub_le _ _),
    Nat.sub_sub_self hm30, List.findIdx?_eq_none_iff]
  intro b hb
  have := hbits b hb
  simp only [decide_eq_false_iff_not, not_le]
  omega

/-- With the sizes `[8]` and a maximum of `8`, a request of `8` bytes reads map entry `27`,
which init left unwritten. -/
theorem ucsMpoolSetGetInline_max_unmapped_eight :
    ∃ mpSet, ucsMpoolSetInit [8] 8 0 true (fun _ => .ok) = .ok mpSet ∧ ucsIsPow2 8 = true ∧
      8 ∈ [8] ∧ ucsMpoolSetGetInline mpSet 8 = none := by
  obtain ⟨mpSet, h⟩ : ∃ mpSet, ucsMpoolSetInit [8] 8 0 true (fun _ => .ok) = .ok mpSet :=
    ⟨_, rfl⟩
  exact ⟨mpSet, h, rfl, List.mem_singleton_self 8,
    ucsMpoolSetGetInline_max_unmapped h rfl (List.mem_singleton_self 8)⟩

end get

end UcxProofs.MpoolSet
