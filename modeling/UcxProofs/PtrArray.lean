import UcxProofs.Lib.AddrBits

/-!
The sparse pointer array of `ucs/datastruct/ptr_array.{c,h}`. A slot holds either a user pointer,
whose bit 0 is clear, or a free element: bit 0 set, the index of the next free slot in bits 1 to
31, and `free_ahead`, the number of free slots from this one on, in bits 32 to 63. The free slots
are linked from `freelist` to `UCS_PTR_ARRAY_SENTINEL`.

The slots are the memory at `start`, a function of the index; the model never reads past `size`
while the free list stays inside the array. Indices, `size` and `count` are `unsigned`, 32 bits.
A loop over the free list runs on a fuel of `size` rounds, the length of a free list of distinct
slots, and its function returns `none` when the fuel runs out; `for_each` likewise.
-/

namespace UcxProofs.PtrArray

open AddrBits

/-! ### The element layout -/

/-- `UCS_PTR_ARRAY_FLAG_FREE`. -/
def ucsPtrArrayFlagFree : UInt64 := 0x01

/-- `UCS_PTR_ARRAY_NEXT_MASK`, bits 1 to 31. -/
def ucsPtrArrayNextMask : UInt64 := 0xfffffffe

/-- `UCS_PTR_ARRAY_SENTINEL`, `UCS_PTR_ARRAY_NEXT_MASK >> UCS_PTR_ARRAY_NEXT_SHIFT`. -/
def ucsPtrArraySentinel : UInt32 := 0x7fffffff

/-- `__ucs_ptr_array_is_free`, on an element. -/
def ucsPtrArrayIsFreeElem (elem : UInt64) : Bool := elem &&& ucsPtrArrayFlagFree != 0

/-- `ucs_ptr_array_size_free_get_free_ahead`. -/
def ucsPtrArraySizeFreeGetFreeAhead (elem : UInt64) : UInt32 := (elem >>> 32).toUInt32

/-- `ucs_ptr_array_freelist_get_next`. -/
def ucsPtrArrayFreelistGetNext (elem : UInt64) : UInt32 :=
  ((elem &&& ucsPtrArrayNextMask) >>> 1).toUInt32

/-- `ucs_ptr_array_freelist_set_next`. -/
def ucsPtrArrayFreelistSetNext (elem : UInt64) (next : UInt32) : UInt64 :=
  (elem &&& ~~~ucsPtrArrayNextMask) ||| (next.toUInt64 <<< 1)

/-- `ucs_ptr_array_freelist_element_set`. -/
def ucsPtrArrayFreelistElementSet (freeAhead next : UInt32) : UInt64 :=
  ucsPtrArrayFlagFree ||| (freeAhead.toUInt64 <<< 32) ||| (next.toUInt64 <<< 1)

/-- `ucs_ptr_array_freelist_element_set_free_ahead`. -/
def ucsPtrArrayFreelistElementSetFreeAhead (elem : UInt64) (freeAhead : UInt32) : UInt64 :=
  ucsPtrArrayFreelistElementSet freeAhead (ucsPtrArrayFreelistGetNext elem)

section Layout

variable (freeAhead next : UInt32)

/-- While the next index fits its 31 bits, the fields of a free element do not overlap. -/
lemma toNat_freelistElementSet (h : next.toNat < 2 ^ 31) :
    (ucsPtrArrayFreelistElementSet freeAhead next).toNat =
      2 ^ 32 * freeAhead.toNat + 2 * next.toNat + 1 := by
  have hfa := freeAhead.toNat_lt
  have h1 : (freeAhead.toUInt64 <<< 32).toNat = 2 ^ 32 * freeAhead.toNat := by
    rw [UInt64.toNat_shiftLeft, UInt32.toNat_toUInt64, Nat.shiftLeft_eq]
    simp only [show (32 : UInt64).toNat % 64 = 32 from rfl]
    rw [Nat.mod_eq_of_lt (by omega), Nat.mul_comm]
  have h2 : (next.toUInt64 <<< 1).toNat = 2 * next.toNat := by
    rw [UInt64.toNat_shiftLeft, UInt32.toNat_toUInt64, Nat.shiftLeft_eq]
    simp only [show (1 : UInt64).toNat % 64 = 1 from rfl]
    rw [Nat.mod_eq_of_lt (by omega), Nat.mul_comm, pow_one]
  rw [ucsPtrArrayFreelistElementSet, UInt64.toNat_or, UInt64.toNat_or, h1, h2,
    show ucsPtrArrayFlagFree.toNat = 1 from rfl, Nat.or_comm 1, Nat.or_assoc, Nat.or_comm 1,
    or_eq_add_of_mod (x := 2 * next.toNat) (n := 1) (by omega) (by norm_num),
    or_eq_add_of_mod (n := 32) (by omega) (by omega)]
  omega

@[simp] lemma isFreeElem_freelistElementSet :
    ucsPtrArrayIsFreeElem (ucsPtrArrayFreelistElementSet freeAhead next) = true := by
  have h : (ucsPtrArrayFreelistElementSet freeAhead next &&& ucsPtrArrayFlagFree).toNat = 1 := by
    rw [UInt64.toNat_and, ucsPtrArrayFreelistElementSet, UInt64.toNat_or, UInt64.toNat_or,
      show ucsPtrArrayFlagFree.toNat = 1 from rfl, Nat.and_one_is_mod,
      Nat.or_mod_two_eq_one.mpr (.inl (Nat.or_mod_two_eq_one.mpr (.inl rfl)))]
  simp only [ucsPtrArrayIsFreeElem, bne_iff_ne, ne_eq]
  intro h0
  rw [h0] at h
  simp at h

lemma freelistGetNext_elementSet (h : next.toNat < 2 ^ 31) :
    ucsPtrArrayFreelistGetNext (ucsPtrArrayFreelistElementSet freeAhead next) = next := by
  apply UInt32.toNat_inj.mp
  have hm : ucsPtrArrayNextMask.toNat = 2 ^ 32 - 2 ^ 1 := rfl
  have he := toNat_freelistElementSet freeAhead next h
  -- the mask keeps bits 1 to 31, which hold the next index and nothing else
  have hand : (ucsPtrArrayFreelistElementSet freeAhead next &&& ucsPtrArrayNextMask).toNat =
      2 * next.toNat := by
    rw [UInt64.toNat_and, hm,
      ← Nat.mod_eq_of_lt (Nat.and_lt_two_pow _ (by omega : 2 ^ 32 - 2 ^ 1 < 2 ^ 32)),
      Nat.and_mod_two_pow, Nat.mod_eq_of_lt (by omega : 2 ^ 32 - 2 ^ 1 < 2 ^ 32),
      and_two_pow_sub_two_pow (Nat.mod_lt _ (by omega)) (by omega), he]
    omega
  simp only [ucsPtrArrayFreelistGetNext, UInt64.toNat_toUInt32, UInt64.toNat_shiftRight, hand]
  simp only [show (1 : UInt64).toNat % 64 = 1 from rfl, Nat.shiftRight_eq_div_pow]
  omega

@[simp] lemma isFreeElem_freelistElementSetFreeAhead (elem : UInt64) :
    ucsPtrArrayIsFreeElem (ucsPtrArrayFreelistElementSetFreeAhead elem freeAhead) = true :=
  isFreeElem_freelistElementSet _ _

end Layout

/-! ### The array -/

/-- `ucs_ptr_array_t`: the slots at `start`, `freelist`, `size` and `count`. -/
structure UcsPtrArray where
  start : ℕ → UInt64
  freelist : UInt32
  size : UInt32
  count : UInt32

/-- `ucs_ptr_array_init`. -/
def ucsPtrArrayInit : UcsPtrArray := ⟨fun _ => 0, ucsPtrArraySentinel, 0, 0⟩

/-- `ucs_ptr_array_is_free`: the slot is inside the array and free. -/
def ucsPtrArrayIsFree (ptrArray : UcsPtrArray) (elementIndex : UInt32) : Bool :=
  elementIndex < ptrArray.size && ucsPtrArrayIsFreeElem (ptrArray.start elementIndex.toNat)

/-- The loop of `ucs_ptr_array_grow` that walks the free list to its last element. -/
def freelistLast (slots : ℕ → UInt64) : ℕ → UInt32 → Option UInt32
  | 0, _ => none
  | fuel + 1, i =>
    if ucsPtrArrayFreelistGetNext (slots i.toNat) = ucsPtrArraySentinel then some i
    else freelistLast slots fuel (ucsPtrArrayFreelistGetNext (slots i.toNat))

/-- `ucs_ptr_array_grow`: the new slots are free, each with the slots up to the new end ahead
and linked to the next; the last ends the list, which is appended to the old free list. -/
def ucsPtrArrayGrow (ptrArray : UcsPtrArray) (newSize : UInt32) : Option UcsPtrArray :=
  let currSize := ptrArray.size
  let linked : ℕ → UInt64 := fun i =>
    if i < currSize.toNat then ptrArray.start i
    else if i < newSize.toNat then
      ucsPtrArrayFreelistElementSet (newSize - i.toUInt32) (i.toUInt32 + 1)
    else 0
  let last := (newSize - 1).toNat
  let linked := Function.update linked last
    (ucsPtrArrayFreelistSetNext (linked last) ucsPtrArraySentinel)
  if ptrArray.freelist = ucsPtrArraySentinel then
    some { ptrArray with start := linked, freelist := currSize, size := newSize }
  else
    (freelistLast linked currSize.toNat ptrArray.freelist).map fun i =>
      { ptrArray with
        start := Function.update linked i.toNat (ucsPtrArrayFreelistSetNext (linked i.toNat) currSize)
        size := newSize }

/-- The loop of `ucs_ptr_array_set` that finds the free slot whose next is `elementIndex`. -/
def freelistPrev (slots : ℕ → UInt64) (elementIndex : UInt32) : ℕ → UInt32 → Option UInt32
  | 0, _ => none
  | fuel + 1, freeIter =>
    if elementIndex = ucsPtrArrayFreelistGetNext (slots freeIter.toNat) then some freeIter
    else freelistPrev slots elementIndex fuel (ucsPtrArrayFreelistGetNext (slots freeIter.toNat))

/-- The loop of `ucs_ptr_array_set` that gives the free slots just below an index the number of
slots up to it, `1` for the nearest. It stops at an occupied slot or at slot `0`. -/
def setFreeAheadBelow (slots : ℕ → UInt64) : ℕ → UInt32 → ℕ → UInt64
  | 0, _ => slots
  | i + 1, freeAhead =>
    if ucsPtrArrayIsFreeElem (slots i) then
      setFreeAheadBelow
        (Function.update slots i (ucsPtrArrayFreelistElementSetFreeAhead (slots i) freeAhead)) i
        (freeAhead + 1)
    else slots

/-- The part of `ucs_ptr_array_set` that fills a free slot: take it off the free list, count it,
and repair `free_ahead` below it. -/
def ucsPtrArraySetFree (ptrArray : UcsPtrArray) (elementIndex : UInt32) (newVal : UInt64) :
    Option UcsPtrArray :=
  let next := ucsPtrArrayFreelistGetNext (ptrArray.start elementIndex.toNat)
  let filled := { ptrArray with
    start := Function.update ptrArray.start elementIndex.toNat newVal,
    count := ptrArray.count + 1 }
  let unlinked : Option UcsPtrArray :=
    if filled.freelist = elementIndex then some { filled with freelist := next }
    else (freelistPrev filled.start elementIndex filled.size.toNat filled.freelist).map
      fun freeIter => { filled with
        start := Function.update filled.start freeIter.toNat
          (ucsPtrArrayFreelistSetNext (filled.start freeIter.toNat) next) }
  unlinked.map fun ptrArray =>
    { ptrArray with start := setFreeAheadBelow ptrArray.start elementIndex.toNat 1 }

/-- `ucs_ptr_array_set`: an occupied slot is overwritten; an index past the end grows the
array to twice its size or to the index, whichever is more. -/
def ucsPtrArraySet (ptrArray : UcsPtrArray) (elementIndex : UInt32) (newVal : UInt64) :
    Option UcsPtrArray :=
  if elementIndex < ptrArray.size ∧ ucsPtrArrayIsFreeElem (ptrArray.start elementIndex.toNat) = false
  then some { ptrArray with start := Function.update ptrArray.start elementIndex.toNat newVal }
  else do
    let ptrArray ← if ptrArray.size ≤ elementIndex then
        ucsPtrArrayGrow ptrArray (max (ptrArray.size * 2) (elementIndex + 1))
      else some ptrArray
    ucsPtrArraySetFree ptrArray elementIndex newVal

/-- The loop of `ucs_ptr_array_bulk_alloc` that counts the free slots after `elementIndex`, from
`freeIter` up to `elementCount`. -/
def countFreeAfter (ptrArray : UcsPtrArray) (elementIndex elementCount : UInt32) :
    ℕ → UInt32 → UInt32
  | 0, freeIter => freeIter
  | fuel + 1, freeIter =>
    if freeIter < elementCount ∧ ucsPtrArrayIsFree ptrArray (elementIndex + freeIter) = true then
      countFreeAfter ptrArray elementIndex elementCount fuel (freeIter + 1)
    else freeIter

/-- The search of `ucs_ptr_array_bulk_alloc` along the free list for a free slot with
`elementCount` free slots from it: `some (some i)` when found, `some none` at the end of the
list. -/
def bulkAllocSearch (ptrArray : UcsPtrArray) (elementCount : UInt32) :
    ℕ → UInt32 → Option (Option UInt32)
  | 0, _ => none
  | fuel + 1, elementIndex =>
    if countFreeAfter ptrArray elementIndex elementCount elementCount.toNat 1 = elementCount then
      some (some elementIndex)
    else
      let next := ucsPtrArrayFreelistGetNext (ptrArray.start elementIndex.toNat)
      if next = ucsPtrArraySentinel then some none
      else bulkAllocSearch ptrArray elementCount fuel next

/-- The loop of `ucs_ptr_array_bulk_alloc` that sets the slots from `elementIndex` on to `0`. -/
def allocInit (elementIndex : UInt32) : ℕ → UcsPtrArray → Option UcsPtrArray
  | 0, ptrArray => some ptrArray
  | n + 1, ptrArray => do
    let ptrArray ← allocInit elementIndex n ptrArray
    ucsPtrArraySet ptrArray (elementIndex + n.toUInt32) 0

/-- `ucs_ptr_array_bulk_alloc`: `elementCount` consecutive free slots from the free list, or
from the end of an array grown to twice its size or by the count, whichever is more. -/
def ucsPtrArrayBulkAlloc (ptrArray : UcsPtrArray) (elementCount : UInt32) :
    Option (UInt32 × UcsPtrArray) :=
  if elementCount = 0 then some (0, ptrArray)
  else do
    let found ← if ptrArray.freelist = ucsPtrArraySentinel then some none
      else bulkAllocSearch ptrArray elementCount ptrArray.size.toNat ptrArray.freelist
    let (elementIndex, ptrArray) ← match found with
      | some elementIndex => some (elementIndex, ptrArray)
      | none =>
        (ucsPtrArrayGrow ptrArray
          (max (2 * ptrArray.size) (ptrArray.size + elementCount))).map (ptrArray.size, ·)
    let ptrArray ← allocInit elementIndex elementCount.toNat ptrArray
    some (elementIndex, ptrArray)

/-- `ucs_ptr_array_insert`. -/
def ucsPtrArrayInsert (ptrArray : UcsPtrArray) (value : UInt64) : Option (UInt32 × UcsPtrArray) :=
  (ucsPtrArrayBulkAlloc ptrArray 1).map fun (ret, ptrArray) =>
    (ret, { ptrArray with start := Function.update ptrArray.start ret.toNat value })

/-- `ucs_ptr_array_remove` of an occupied slot: it goes to the head of the free list, with one
more free slot ahead than the slot after it, if that is free. -/
def ucsPtrArrayRemove (ptrArray : UcsPtrArray) (elementIndex : UInt32) : UcsPtrArray :=
  let sizeFreeAhead :=
    if ucsPtrArrayIsFree ptrArray (elementIndex + 1) then
      ucsPtrArraySizeFreeGetFreeAhead (ptrArray.start (elementIndex + 1).toNat) + 1
    else 1
  { ptrArray with
    start := Function.update ptrArray.start elementIndex.toNat
      (ucsPtrArrayFreelistElementSet sizeFreeAhead ptrArray.freelist)
    freelist := elementIndex
    count := ptrArray.count - 1 }

/-- `ucs_ptr_array_replace` of an occupied slot: the old value and the array. -/
def ucsPtrArrayReplace (ptrArray : UcsPtrArray) (elementIndex : UInt32) (newVal : UInt64) :
    UInt64 × UcsPtrArray :=
  (ptrArray.start elementIndex.toNat,
    { ptrArray with start := Function.update ptrArray.start elementIndex.toNat newVal })

/-- `ucs_ptr_array_lookup`: the value of an occupied slot. -/
def ucsPtrArrayLookup (ptrArray : UcsPtrArray) (index : UInt32) : Option UInt64 :=
  if ptrArray.size ≤ index then none
  else if ucsPtrArrayIsFreeElem (ptrArray.start index.toNat) then none
  else some (ptrArray.start index.toNat)

/-- `__ucs_ptr_array_for_each_get_step_size`: `free_ahead` from a free slot, `1` from an
occupied one. -/
def ucsPtrArrayForEachGetStepSize (ptrArray : UcsPtrArray) (elementIndex : UInt32) : UInt32 :=
  if ucsPtrArrayIsFreeElem (ptrArray.start elementIndex.toNat) then
    ucsPtrArraySizeFreeGetFreeAhead (ptrArray.start elementIndex.toNat)
  else 1

/-- `ucs_ptr_array_for_each`: the occupied slots it visits, with their values, from `index`. -/
def ucsPtrArrayForEach (ptrArray : UcsPtrArray) : ℕ → UInt32 → Option (List (UInt32 × UInt64))
  | 0, index => if index < ptrArray.size then none else some []
  | fuel + 1, index =>
    if index < ptrArray.size then
      let rest := ucsPtrArrayForEach ptrArray fuel
        (index + ucsPtrArrayForEachGetStepSize ptrArray index)
      if ucsPtrArrayIsFreeElem (ptrArray.start index.toNat) then rest
      else rest.map ((index, ptrArray.start index.toNat) :: ·)
    else some []

/-! ### The loops of `ucs_ptr_array_set` -/

/-- Along slots each linked to the next, the walk of `ucs_ptr_array_set` reaches the slot just
below `elementIndex`. -/
lemma freelistPrev_of_linked {slots : ℕ → UInt64} {elementIndex : UInt32}
    (hlink : ∀ j : UInt32, j < elementIndex → ucsPtrArrayFreelistGetNext (slots j.toNat) = j + 1) :
    ∀ (fuel : ℕ) (freeIter : UInt32), freeIter < elementIndex →
      (elementIndex - freeIter).toNat ≤ fuel →
      freelistPrev slots elementIndex fuel freeIter = some (elementIndex - 1)
  | 0, freeIter, hlt, hfuel => by
    have := freeIter.toNat_lt
    have := elementIndex.toNat_lt
    simp only [UInt32.lt_iff_toNat_lt, UInt32.toNat_sub] at hlt hfuel
    omega
  | fuel + 1, freeIter, hlt, hfuel => by
    rw [freelistPrev, hlink freeIter hlt]
    by_cases hlast : elementIndex = freeIter + 1
    · rw [if_pos hlast, hlast, UInt32.add_sub_cancel]
    · -- one slot further along, one round less
      rw [if_neg hlast]
      have hne : (freeIter + 1).toNat ≠ elementIndex.toNat := fun e => hlast (UInt32.toNat_inj.mp e).symm
      have := freeIter.toNat_lt
      have := elementIndex.toNat_lt
      apply freelistPrev_of_linked hlink fuel
      · simp only [UInt32.lt_iff_toNat_lt, UInt32.toNat_add, UInt32.toNat_one] at hlt hne ⊢
        omega
      · simp only [UInt32.lt_iff_toNat_lt, UInt32.toNat_sub, UInt32.toNat_add,
          UInt32.toNat_one] at hlt hne hfuel ⊢
        omega

/-- The repair of `free_ahead` below a slot leaves every free slot free. -/
lemma isFreeElem_setFreeAheadBelow :
    ∀ (n : ℕ) (slots : ℕ → UInt64) (freeAhead : UInt32) (i : ℕ),
      ucsPtrArrayIsFreeElem (slots i) = true →
      ucsPtrArrayIsFreeElem (setFreeAheadBelow slots n freeAhead i) = true
  | 0, _, _, _, h => h
  | n + 1, slots, freeAhead, i, h => by
    rw [setFreeAheadBelow]
    split
    · apply isFreeElem_setFreeAheadBelow n
      by_cases hi : i = n
      · subst hi
        simp
      · rwa [Function.update_of_ne hi]
    · exact h

/-! ### An index that is the sentinel -/

/-- **The free list cannot hold slot `0x7fffffff`.** The next index has 31 bits, and its largest
value is `UCS_PTR_ARRAY_SENTINEL`. After `ucs_ptr_array_set` at index `0x7fffffff` on an empty
array, which grows it to `2 ^ 31` slots, and `ucs_ptr_array_remove` of that index, `freelist` is
the index of the slot removed, which reads as the sentinel: the free list is empty although slot
`0` (and every other) is free. -/
theorem ucsPtrArraySet_remove_sentinel (p : UInt64) :
    ∃ ptrArray, ucsPtrArraySet ucsPtrArrayInit 0x7fffffff p = some ptrArray ∧
      ptrArray.size = 0x80000000 ∧ ptrArray.count = 1 ∧
      (ucsPtrArrayRemove ptrArray 0x7fffffff).freelist = ucsPtrArraySentinel ∧
      (ucsPtrArrayRemove ptrArray 0x7fffffff).count = 0 ∧
      ucsPtrArrayIsFree (ucsPtrArrayRemove ptrArray 0x7fffffff) 0 = true := by
  -- growing the empty array to `2 ^ 31` slots links the new slots in order
  obtain ⟨grown, hgrow, hfreelist, hsize, hcount, hlink, hlast⟩ : ∃ grown,
      ucsPtrArrayGrow ucsPtrArrayInit 0x80000000 = some grown ∧ grown.freelist = 0 ∧
      grown.size = 0x80000000 ∧ grown.count = 0 ∧
      (∀ j : UInt32, j < 0x7fffffff →
        grown.start j.toNat = ucsPtrArrayFreelistElementSet (0x80000000 - j) (j + 1)) ∧
      ucsPtrArrayFreelistGetNext (grown.start 0x7fffffff) = ucsPtrArraySentinel := by
    refine ⟨_, rfl, rfl, rfl, rfl, fun j hj => ?_, by decide⟩
    have hj' : j.toNat < 0x7fffffff := UInt32.lt_iff_toNat_lt.mp hj
    have hlast : j.toNat ≠ ((0x80000000 : UInt32) - 1).toNat := by
      rw [show ((0x80000000 : UInt32) - 1).toNat = 0x7fffffff from rfl]
      omega
    have hold : ¬ j.toNat < ucsPtrArrayInit.size.toNat := Nat.not_lt_zero _
    have hnew : j.toNat < (0x80000000 : UInt32).toNat := by
      rw [show (0x80000000 : UInt32).toNat = 0x80000000 from rfl]
      omega
    dsimp only
    rw [Function.update_of_ne hlast]
    simp only [hold, hnew, if_false, if_true, Nat.toUInt32_eq, UInt32.ofNat_toNat]
  have hset : ucsPtrArraySet ucsPtrArrayInit 0x7fffffff p = ucsPtrArraySetFree grown 0x7fffffff p := by
    have hmax : max (ucsPtrArrayInit.size * 2) (0x7fffffff + 1) = 0x80000000 := by decide
    unfold ucsPtrArraySet
    rw [if_neg (by decide), if_pos (by decide), hmax, hgrow]
    rfl
  -- the walk from the head of the free list stops at the slot below
  have hprev : freelistPrev (Function.update grown.start (0x7fffffff : UInt32).toNat p) 0x7fffffff
      grown.size.toNat grown.freelist = some 0x7ffffffe := by
    rw [hsize, hfreelist]
    refine freelistPrev_of_linked (fun j hj => ?_) _ 0 (by decide) (by decide)
    have hj' : j.toNat < 0x7fffffff := UInt32.lt_iff_toNat_lt.mp hj
    rw [Function.update_of_ne (by simp; omega), hlink j hj,
      freelistGetNext_elementSet _ _ (by simp only [UInt32.toNat_add]; simp; omega)]
  -- the set fills the slot, links its predecessor past it and keeps slot `0` free
  obtain ⟨filled, hfill, hfsize, hfcount, hfree⟩ : ∃ filled,
      ucsPtrArraySetFree grown 0x7fffffff p = some filled ∧ filled.size = 0x80000000 ∧
      filled.count = 1 ∧ ucsPtrArrayIsFreeElem (filled.start 0) = true := by
    unfold ucsPtrArraySetFree
    dsimp only
    rw [if_neg (by rw [hfreelist]; decide), hprev]
    refine ⟨_, rfl, hsize, by rw [hcount]; rfl, ?_⟩
    have h0 : grown.start 0 = ucsPtrArrayFreelistElementSet (0x80000000 - 0) (0 + 1) :=
      hlink 0 (by decide)
    apply isFreeElem_setFreeAheadBelow
    dsimp only
    rw [Function.update_of_ne (by decide), Function.update_of_ne (by decide), h0]
    exact isFreeElem_freelistElementSet _ _
  -- the removal makes the removed index, `0x7fffffff`, the head of the free list
  refine ⟨filled, hset ▸ hfill, hfsize, hfcount, rfl, ?_, ?_⟩
  · show filled.count - 1 = 0
    rw [hfcount]
    rfl
  · have hne : (0 : ℕ) ≠ (0x7fffffff : UInt32).toNat := by decide
    simp only [ucsPtrArrayIsFree, ucsPtrArrayRemove, UInt32.toNat_zero, Function.update_of_ne hne,
      hfree, hfsize]
    rfl

/-! ### A count past the 31-bit index -/

/-- `ucs_ptr_array_set` at the head of the free list, below which the slot is occupied (or
which is slot `0`): the slot is filled, the head moves to its next, and nothing else changes. -/
lemma ucsPtrArraySet_head (ptrArray : UcsPtrArray) (elementIndex : UInt32) (newVal : UInt64)
    (hlt : elementIndex < ptrArray.size)
    (hfree : ucsPtrArrayIsFreeElem (ptrArray.start elementIndex.toNat) = true)
    (hhead : ptrArray.freelist = elementIndex)
    (hbelow : ∀ i, elementIndex.toNat = i + 1 → ucsPtrArrayIsFreeElem (ptrArray.start i) = false) :
    ucsPtrArraySet ptrArray elementIndex newVal = some { ptrArray with
      start := Function.update ptrArray.start elementIndex.toNat newVal
      freelist := ucsPtrArrayFreelistGetNext (ptrArray.start elementIndex.toNat)
      count := ptrArray.count + 1 } := by
  have hle : ¬ ptrArray.size ≤ elementIndex := by
    simp only [UInt32.le_iff_toNat_le, UInt32.lt_iff_toNat_lt] at hlt ⊢
    omega
  unfold ucsPtrArraySet ucsPtrArraySetFree
  rw [if_neg (by rw [hfree]; simp), if_neg hle]
  simp only [Option.bind_eq_bind, Option.bind_some, hhead, if_true, Option.map_some]
  -- the repair of free_ahead stops at once below the filled slot
  have hrepair : setFreeAheadBelow (Function.update ptrArray.start elementIndex.toNat newVal)
      elementIndex.toNat 1 = Function.update ptrArray.start elementIndex.toNat newVal := by
    rcases hi : elementIndex.toNat with _ | i
    · rfl
    · rw [setFreeAheadBelow, Function.update_of_ne (by omega), hbelow i hi]
      rfl
  rw [hrepair]

/-- From an occupied slot `0`, whose value reads as next index `0`, the walk of
`ucs_ptr_array_set` stays at slot `0` for any number of rounds. -/
lemma freelistPrev_from_zero {slots : ℕ → UInt64} {elementIndex : UInt32} (h0 : slots 0 = 0)
    (he : elementIndex ≠ 0) : ∀ fuel, freelistPrev slots elementIndex fuel 0 = none
  | 0 => rfl
  | fuel + 1 => by
    have hnext : ucsPtrArrayFreelistGetNext (slots (0 : UInt32).toNat) = 0 := by
      rw [UInt32.toNat_zero, h0]
      rfl
    rw [freelistPrev, hnext, if_neg he]
    exact freelistPrev_from_zero h0 he fuel

/-- `ucs_ptr_array_bulk_alloc` with an empty free list: grow, then set the new slots. -/
lemma ucsPtrArrayBulkAlloc_of_sentinel (ptrArray : UcsPtrArray) {elementCount : UInt32}
    (hcount : elementCount ≠ 0) (hsent : ptrArray.freelist = ucsPtrArraySentinel) :
    ucsPtrArrayBulkAlloc ptrArray elementCount =
      (ucsPtrArrayGrow ptrArray (max (2 * ptrArray.size) (ptrArray.size + elementCount))).bind
        fun grown => (allocInit ptrArray.size elementCount.toNat grown).map (ptrArray.size, ·) := by
  unfold ucsPtrArrayBulkAlloc
  rw [if_neg hcount]
  simp only [hsent, if_true, Option.bind_eq_bind, Option.bind_some]
  cases ucsPtrArrayGrow ptrArray (max (2 * ptrArray.size) (ptrArray.size + elementCount)) with
  | none => rfl
  | some grown =>
    simp only [Option.map_some, Option.bind_some]
    cases allocInit ptrArray.size elementCount.toNat grown <;> rfl

section LongRun

/- An array grown from empty to `0x80000001` slots, each slot below the last linked to the next. -/
variable {grown : UcsPtrArray} (hfreelist : grown.freelist = 0) (hsize : grown.size = 0x80000001)
  (hlink : ∀ i < 0x80000000,
    grown.start i = ucsPtrArrayFreelistElementSet (0x80000001 - i.toUInt32) (i.toUInt32 + 1))

/-- The array after the first `n` sets of the allocation loop: slots below `n` hold `0`. -/
def filledBelow (grown : UcsPtrArray) (n : ℕ) (freelist : UInt32) : UcsPtrArray :=
  { grown with
    start := fun i => if i < n then 0 else grown.start i
    freelist := freelist
    count := grown.count + n.toUInt32 }

include hsize hlink in
/-- One set of the loop on a linked run: slot `n` is filled and the head moves to its next. -/
lemma set_filledBelow {n : ℕ} (hn : n < 0x80000000) :
    ucsPtrArraySet (filledBelow grown n n.toUInt32) n.toUInt32 0 =
      some (filledBelow grown (n + 1)
        (ucsPtrArrayFreelistGetNext (ucsPtrArrayFreelistElementSet (0x80000001 - n.toUInt32)
          (n.toUInt32 + 1)))) := by
  have hnat : n.toUInt32.toNat = n := by simp; omega
  have hslot : (filledBelow grown n n.toUInt32).start n =
      ucsPtrArrayFreelistElementSet (0x80000001 - n.toUInt32) (n.toUInt32 + 1) := by
    simp only [filledBelow, lt_irrefl, if_false]
    exact hlink n hn
  have hlt : n.toUInt32 < (filledBelow grown n n.toUInt32).size := by
    simp only [filledBelow, hsize, UInt32.lt_iff_toNat_lt, hnat]
    exact lt_trans hn (by decide)
  have hfree : ucsPtrArrayIsFreeElem ((filledBelow grown n n.toUInt32).start n.toUInt32.toNat) =
      true := by
    rw [hnat, hslot]
    exact isFreeElem_freelistElementSet _ _
  have hbelow : ∀ i, n.toUInt32.toNat = i + 1 →
      ucsPtrArrayIsFreeElem ((filledBelow grown n n.toUInt32).start i) = false := by
    intro i hi
    have hi' : i < n := by omega
    simp only [filledBelow, hi', if_true]
    rfl
  rw [ucsPtrArraySet_head _ _ _ hlt hfree rfl hbelow, hnat, hslot]
  -- slot `n` joins the filled ones, and the count goes up by one
  have hstart : Function.update (fun i => if i < n then 0 else grown.start i) n 0 =
      fun i => if i < n + 1 then (0 : UInt64) else grown.start i := by
    funext i
    by_cases hi : i = n
    · subst hi
      simp
    · rw [Function.update_of_ne hi]
      have : i < n ↔ i < n + 1 := by omega
      simp only [this]
  have hcount : grown.count + n.toUInt32 + 1 = grown.count + (n + 1).toUInt32 := by
    rw [add_assoc]
    congr 1
    apply UInt32.toNat_inj.mp
    simp only [UInt32.toNat_add, UInt32.toNat_one, Nat.toUInt32_eq, UInt32.toNat_ofNat']
    omega
  simp only [filledBelow, hstart, hcount]

include hfreelist hsize hlink in
/-- The first `n` sets of the loop, while each slot below links to the next, fill the slots
below `n` and leave slot `n` at the head of the free list. -/
lemma allocInit_filledBelow : ∀ n ≤ 0x7fffffff,
    allocInit 0 n grown = some (filledBelow grown n n.toUInt32)
  | 0, _ => by
    rcases grown with ⟨start, freelist, size, count⟩
    simp only at hfreelist
    subst hfreelist
    simp [allocInit, filledBelow]
  | n + 1, hn => by
    rw [allocInit, allocInit_filledBelow n (by omega)]
    simp only [Option.bind_eq_bind, Option.bind_some, zero_add]
    rw [set_filledBelow hsize hlink (by omega),
      freelistGetNext_elementSet _ _ (by simp only [UInt32.toNat_add]; simp; omega)]
    congr 2
    apply UInt32.toNat_inj.mp
    simp only [UInt32.toNat_add, UInt32.toNat_one, Nat.toUInt32_eq, UInt32.toNat_ofNat']
    omega

end LongRun

/-- **Allocating `0x80000001` slots never returns.** From an empty array,
`ucs_ptr_array_bulk_alloc` grows to `0x80000001` slots, slot `0x7fffffff` linking to
`0x80000000`, which does not fit the 31 bits of the next index and reads back as `0`. After the
first `2 ^ 31` sets of its loop the head of the free list is slot `0`, already filled with `0`;
the set of slot `0x80000000` then walks the free list from there for its predecessor and, at
slot `0` whose value reads as next index `0`, never finds one (the model runs out of fuel). -/
theorem ucsPtrArrayBulkAlloc_next_overflow_loops :
    ∃ grown stuck, ucsPtrArrayGrow ucsPtrArrayInit 0x80000001 = some grown ∧
      allocInit 0 0x80000000 grown = some stuck ∧ stuck.count = 0x80000000 ∧
      stuck.freelist = 0 ∧ ucsPtrArrayIsFree stuck 0 = false ∧
      ucsPtrArrayIsFree stuck 0x80000000 = true ∧
      (∀ fuel, freelistPrev (Function.update stuck.start (0x80000000 : UInt32).toNat 0)
        0x80000000 fuel stuck.freelist = none) ∧
      ucsPtrArrayBulkAlloc ucsPtrArrayInit 0x80000001 = none := by
  -- growing the empty array links each new slot below the last to the next
  obtain ⟨grown, hgrow, hfreelist, hsize, hcount, hlink, hlast⟩ : ∃ grown,
      ucsPtrArrayGrow ucsPtrArrayInit 0x80000001 = some grown ∧ grown.freelist = 0 ∧
      grown.size = 0x80000001 ∧ grown.count = 0 ∧
      (∀ i < 0x80000000, grown.start i =
        ucsPtrArrayFreelistElementSet (0x80000001 - i.toUInt32) (i.toUInt32 + 1)) ∧
      ucsPtrArrayIsFreeElem (grown.start 0x80000000) = true := by
    refine ⟨_, rfl, rfl, rfl, rfl, fun i hi => ?_, by decide⟩
    have hlast : i ≠ ((0x80000001 : UInt32) - 1).toNat := by
      rw [show ((0x80000001 : UInt32) - 1).toNat = 0x80000000 from rfl]
      omega
    have hold : ¬ i < ucsPtrArrayInit.size.toNat := Nat.not_lt_zero _
    have hnew : i < (0x80000001 : UInt32).toNat := by
      rw [show (0x80000001 : UInt32).toNat = 0x80000001 from rfl]
      omega
    dsimp only
    rw [Function.update_of_ne hlast]
    simp only [hold, hnew, if_false, if_true]
  -- the `2 ^ 31`-th set reads the overflowed next index of slot `0x7fffffff`
  have hstuck : allocInit 0 0x80000000 grown = some (filledBelow grown 0x80000000 0) := by
    rw [show (0x80000000 : ℕ) = 0x7fffffff + 1 from rfl, allocInit,
      allocInit_filledBelow hfreelist hsize hlink 0x7fffffff le_rfl]
    simp only [Option.bind_eq_bind, Option.bind_some, zero_add]
    rw [set_filledBelow hsize hlink (by decide)]
    rfl
  have hslot0 : (filledBelow grown 0x80000000 0).start 0 = 0 := by simp [filledBelow]
  have hwalk : ∀ fuel, freelistPrev
      (Function.update (filledBelow grown 0x80000000 0).start (0x80000000 : UInt32).toNat 0)
      0x80000000 fuel (filledBelow grown 0x80000000 0).freelist = none :=
    freelistPrev_from_zero (by rw [Function.update_of_ne (by decide), hslot0]) (by decide)
  have hfree : ucsPtrArrayIsFreeElem ((filledBelow grown 0x80000000 0).start
      (0x80000000 : UInt32).toNat) = true := by
    simpa [filledBelow] using hlast
  -- so the set of slot `0x80000000`, and with it the allocation, never completes
  have hset : ucsPtrArraySet (filledBelow grown 0x80000000 0) 0x80000000 0 = none := by
    have hnle : ¬ (filledBelow grown 0x80000000 0).size ≤ 0x80000000 := by
      simp [filledBelow, hsize]
    unfold ucsPtrArraySet ucsPtrArraySetFree
    rw [if_neg (by rw [hfree]; simp), if_neg hnle]
    simp only [Option.bind_eq_bind, Option.bind_some]
    rw [if_neg (by simp [filledBelow]), hwalk]
    rfl
  refine ⟨grown, _, hgrow, hstuck, by simp [filledBelow, hcount], rfl,
    by simp [ucsPtrArrayIsFree, filledBelow, hsize, ucsPtrArrayIsFreeElem],
    by simp only [ucsPtrArrayIsFree, hfree]; simp [filledBelow, hsize], hwalk, ?_⟩
  have halloc : allocInit 0 0x80000001 grown = none := by
    rw [show (0x80000001 : ℕ) = 0x80000000 + 1 from rfl, allocInit, hstuck]
    simp only [Option.bind_eq_bind, Option.bind_some, zero_add]
    exact hset
  have hgrowArg : max (2 * ucsPtrArrayInit.size) (ucsPtrArrayInit.size + 0x80000001) =
      0x80000001 := by decide
  rw [ucsPtrArrayBulkAlloc_of_sentinel _ (by decide) rfl, hgrowArg, hgrow, Option.bind_some,
    show ucsPtrArrayInit.size = 0 from rfl, show (0x80000001 : UInt32).toNat = 0x80000001 from rfl,
    halloc]
  rfl

end UcxProofs.PtrArray
