import UcxProofs.Status
import UcxProofs.Lib.Bits

/-!
The page table of `ucs/datastruct/pgtable.{h,c}`: a radix tree that maps 64-bit addresses to
non-overlapping memory regions.

The table covers the addresses whose bits above `shift` equal those of `base`, that is
`[base, base + 2 ^ shift)`; `mask` selects those bits. An entry is empty, points to a region, or
points to a directory of sixteen entries, each covering a sixteenth of its parent's range. A
region is inserted as a run of aligned pages of orders `4, 8, …, 60`, each stored in the entry
that covers exactly that page. The root grows (`ucs_pgtable_expand`) to cover a new page and
shrinks (`ucs_pgtable_shrink`) when it holds a single entry.

Directories are trees here: an entry holds its directory, not a pointer to it. Every directory
has exactly one parent, so nothing depends on the difference. Regions are compared as pointers
are: a region carries `id`, the address of its structure, and the page table never changes it.
The directory allocation callback is total: the source stops the process when it fails.
-/

namespace UcxProofs.Pgtable

/-- `ucs_pgt_region_t`, with the address of the structure. -/
structure UcsPgtRegion where
  start : UInt64
  «end» : UInt64
  id : ℕ
  deriving DecidableEq, Repr

/-- `ucs_pgt_entry_t`: empty, a region (`UCS_PGT_ENTRY_FLAG_REGION`), or a directory
(`UCS_PGT_ENTRY_FLAG_DIR`) with its sixteen entries and the number of present ones. -/
inductive UcsPgtEntry
  | empty
  | region (r : UcsPgtRegion)
  | dir (entries : Fin 16 → UcsPgtEntry) (count : ℕ)

/-- `ucs_pgt_entry_present`. -/
def UcsPgtEntry.present : UcsPgtEntry → Bool
  | .empty => false
  | _ => true

/-- `ucs_pgt_entry_test (pte, UCS_PGT_ENTRY_FLAG_REGION)`. -/
def UcsPgtEntry.isRegion : UcsPgtEntry → Bool
  | .region _ => true
  | _ => false

/-- The entries of the directory an entry points to; a directory allocated for an empty entry
starts zeroed. -/
def UcsPgtEntry.dirEntries : UcsPgtEntry → Fin 16 → UcsPgtEntry
  | .dir entries _ => entries
  | _ => fun _ => .empty

/-- The `count` of the directory an entry points to, zero for a fresh directory. -/
def UcsPgtEntry.dirCount : UcsPgtEntry → ℕ
  | .dir _ count => count
  | _ => 0

/-- `ucs_pgtable_t`, without the directory callbacks. -/
structure UcsPgtable where
  root : UcsPgtEntry
  base : UInt64
  mask : UInt64
  shift : ℕ
  numRegions : ℕ

/-- `(address >> shift) & UCS_PGT_ENTRY_MASK`: the entry of a directory that covers `address`
when the directory's entries each cover `2 ^ shift` bytes. -/
def ucsPgtEntryIndex (address : UInt64) (shift : ℕ) : Fin 16 :=
  Fin.ofNat 16 ((address >>> shift.toUInt64) &&& 15).toNat

/-- `ucs_pgt_is_addr_aligned`. -/
def ucsPgtIsAddrAligned (address : UInt64) : Bool := address &&& 15 = 0

/-- `ucs_pgtable_reset`. -/
def ucsPgtableReset (t : UcsPgtable) : UcsPgtable :=
  { t with base := 0, mask := (-1 : UInt64) <<< 4, shift := 4 }

/-- `ucs_pgtable_init`. -/
def ucsPgtableInit : UcsPgtable :=
  ⟨.empty, 0, (-1 : UInt64) <<< 4, 4, 0⟩

/-- `ucs_pgtable_expand`: the root moves into a new directory that covers sixteen times as
much. -/
def ucsPgtableExpand (t : UcsPgtable) : UcsPgtable :=
  let root :=
    if t.root.present then
      .dir (Function.update (fun _ => .empty) (ucsPgtEntryIndex t.base t.shift) t.root) 1
    else t.root
  let mask := t.mask <<< 4
  { t with root, shift := t.shift + 4, mask, base := t.base &&& mask }

/-- `ucs_pgtable_shrink`: whether the root lost a level, and the table after. A directory
with `count = 1` has a present entry; the `none` case is not reached from a table the
operations build. -/
def ucsPgtableShrink (t : UcsPgtable) : Bool × UcsPgtable :=
  match t.root with
  | .empty => (false, ucsPgtableReset t)
  | .region _ => (false, t)
  | .dir entries count =>
    if count ≠ 1 then (false, t)
    else
      match (List.finRange 16).find? (fun i => (entries i).present) with
      | none => (false, t)
      | some i =>
        let shift := t.shift - 4
        (true, { t with shift, base := t.base ||| (i.val.toUInt64 <<< shift.toUInt64),
                        mask := t.mask ||| ((15 : UInt64) <<< shift.toUInt64),
                        root := entries i })

/-- `while (ucs_pgtable_shrink(pgtable));`, for at most `fuel` rounds. -/
def ucsPgtableShrinkLoop : ℕ → UcsPgtable → UcsPgtable
  | 0, t => t
  | fuel + 1, t =>
    match ucsPgtableShrink t with
    | (true, t) => ucsPgtableShrinkLoop fuel t
    | (false, t) => t

/-- The shrink loop with 16 rounds, one more than the levels of a 64-bit table. -/
def ucsPgtableShrinkAll (t : UcsPgtable) : UcsPgtable := ucsPgtableShrinkLoop 16 t

/-- A `while (cond) ucs_pgtable_expand(pgtable);` loop, for at most `fuel` rounds. -/
def ucsPgtableExpandWhile (cond : UcsPgtable → Bool) : ℕ → UcsPgtable → UcsPgtable
  | 0, t => t
  | fuel + 1, t => if cond t then ucsPgtableExpandWhile cond fuel (ucsPgtableExpand t) else t

/-! ### Pages -/

/-- `ucs_ilog2` on a non-zero value: the index of its highest set bit. -/
def ucsIlog2 (n : UInt64) : ℕ := n.toNat.log2

/-- `ucs_ffs64` on a non-zero value: the index of its lowest set bit. -/
def ucsFfs64 (n : UInt64) : ℕ := BitScan.trailingZeros 64 n.toNat

/-- `ucs_pgtable_get_next_page_order`: the order of the largest page of order `4 + 4k` that
starts at `start`, is aligned to its size, and ends no later than `end`. -/
def ucsPgtableGetNextPageOrder (start «end» : UInt64) : ℕ :=
  let log2Len :=
    if «end» = 0 ∧ start = 0 then 64
    else if «end» = start then 4
    else if start ≠ 0 then min (ucsFfs64 start) (ucsIlog2 («end» - start))
    else ucsIlog2 («end» - start)
  (log2Len - 4) / 4 * 4 + 4

/-- `ucs_pgt_address_advance`. -/
def ucsPgtAddressAdvance (address : UInt64) (order : ℕ) : UInt64 :=
  address + (1 : UInt64) <<< order.toUInt64

/-- The pages that the loops of `ucs_pgtable_insert` and `ucs_pgtable_remove` visit from
`address` up to `end`, as `(address, order)`, for at most `fuel` of them. -/
def pagesFrom («end» : UInt64) : ℕ → UInt64 → List (UInt64 × ℕ)
  | 0, _ => []
  | fuel + 1, address =>
    if address < «end» then
      (address, ucsPgtableGetNextPageOrder address «end») ::
        pagesFrom «end» fuel (ucsPgtAddressAdvance address (ucsPgtableGetNextPageOrder address «end»))
    else []

/-- The pages of `[start, end)`. Every page is at least 16 bytes, which bounds their number. -/
def ucsPgtablePages (start «end» : UInt64) : List (UInt64 × ℕ) :=
  pagesFrom «end» ((«end» - start).toNat / 16 + 1) start

/-! ### Insert -/

/-- The descent of `ucs_pgtable_insert_page` from `pte`, which covers `2 ^ shift` bytes: the
entry after, or `none` where the source jumps to `err`. A directory's `count` grows when one of
its empty entries is filled, with the page or with a new directory. -/
def ucsPgtableInsertPageRecurs (address : UInt64) (order : ℕ) (region : UcsPgtRegion) :
    ℕ → UcsPgtEntry → Option UcsPgtEntry
  | shift, pte =>
    if order = shift then
      if pte.present then none else some (.region region)
    else if pte.isRegion then none
    else
      match shift with
      | nextShift + 4 =>
        let entries := pte.dirEntries
        let i := ucsPgtEntryIndex address nextShift
        (ucsPgtableInsertPageRecurs address order region nextShift (entries i)).map fun e =>
          .dir (Function.update entries i e)
            (if (entries i).present then pte.dirCount else pte.dirCount + 1)
      -- `shift >= UCS_PGT_ENTRY_SHIFT + order` is asserted
      | _ => none

/-- `ucs_pgtable_insert_page`. -/
def ucsPgtableInsertPage (t : UcsPgtable) (address : UInt64) (order : ℕ)
    (region : UcsPgtRegion) : UcsStatus × UcsPgtable :=
  let t := ucsPgtableExpandWhile (fun t => t.shift < order) 16 t
  let t :=
    if t.root.present then
      ucsPgtableExpandWhile (fun t => address &&& t.mask ≠ t.base) 16 t
    else { t with base := address &&& t.mask }
  match ucsPgtableInsertPageRecurs address order region t.shift t.root with
  | some root => (.ok, { t with root })
  | none => (.errAlreadyExists, ucsPgtableShrinkAll t)

/-- `ucs_pgtable_remove_page_recurs` on `pte`, which covers `2 ^ shift` bytes: the entry after,
or `none` for `UCS_ERR_NO_ELEM`. An entry whose directory loses its last entry is cleared, and
the directory holding an entry that became empty counts one entry less. -/
def ucsPgtableRemovePageRecurs (address : UInt64) (region : UcsPgtRegion) :
    ℕ → UcsPgtEntry → Option UcsPgtEntry
  | _, .empty => none
  | _, .region r => if r ≠ region then none else some .empty
  | shift, .dir entries count =>
    let i := ucsPgtEntryIndex address (shift - 4)
    match ucsPgtableRemovePageRecurs address region (shift - 4) (entries i) with
    | none => none
    | some e =>
      let count := if e.present then count else count - 1
      if count = 0 then some .empty else some (.dir (Function.update entries i e) count)

/-- `ucs_pgtable_remove_page`. -/
def ucsPgtableRemovePage (t : UcsPgtable) (address : UInt64) (region : UcsPgtRegion) :
    UcsStatus × UcsPgtable :=
  if address &&& t.mask ≠ t.base then (.errNoElem, t)
  else
    match ucsPgtableRemovePageRecurs address region t.shift t.root with
    | none => (.errNoElem, t)
    | some root => (.ok, ucsPgtableShrinkAll { t with root })

/-- The insert loop of `ucs_pgtable_insert` over `pages`: the table, and the status and address
of the page that failed, if one did. -/
def insertPages (region : UcsPgtRegion) : List (UInt64 × ℕ) → UcsPgtable →
    Option (UcsStatus × UInt64) × UcsPgtable
  | [], t => (none, t)
  | (address, order) :: rest, t =>
    match ucsPgtableInsertPage t address order region with
    | (.ok, t) => insertPages region rest t
    | (status, t) => (some (status, address), t)

/-- `ucs_pgtable_insert`. On failure the pages already inserted are removed again, from the
region's start up to the page that failed. -/
def ucsPgtableInsert (t : UcsPgtable) (region : UcsPgtRegion) : UcsStatus × UcsPgtable :=
  if region.start ≥ region.end ∨ !ucsPgtIsAddrAligned region.start ∨
      !ucsPgtIsAddrAligned region.end then (.errInvalidParam, t)
  else
    match insertPages region (ucsPgtablePages region.start region.end) t with
    | (none, t) => (.ok, { t with numRegions := t.numRegions + 1 })
    | (some (status, address), t) =>
      (status, (ucsPgtablePages region.start address).foldl
        (fun t page => (ucsPgtableRemovePage t page.1 region).2) t)

/-! ### Remove and lookup -/

/-- The loop of `ucs_pgtable_remove` over `pages`; it stops at the first page that fails. -/
def removePages (region : UcsPgtRegion) : List (UInt64 × ℕ) → UcsPgtable →
    UcsStatus × UcsPgtable
  | [], t => (.ok, t)
  | (address, _) :: rest, t =>
    match ucsPgtableRemovePage t address region with
    | (.ok, t) => removePages region rest t
    | (status, t) => (status, t)

/-- `ucs_pgtable_remove`. -/
def ucsPgtableRemove (t : UcsPgtable) (region : UcsPgtRegion) : UcsStatus × UcsPgtable :=
  if region.start ≥ region.end ∨ !ucsPgtIsAddrAligned region.start ∨
      !ucsPgtIsAddrAligned region.end then (.errNoElem, t)
  else
    match removePages region (ucsPgtablePages region.start region.end) t with
    | (.ok, t) => (.ok, { t with numRegions := t.numRegions - 1 })
    | (status, t) => (status, t)

/-- The descent of `ucs_pgtable_lookup` from `pte`, which covers `2 ^ shift` bytes. -/
def ucsPgtableLookupRecurs (address : UInt64) : ℕ → UcsPgtEntry → Option UcsPgtRegion
  | _, .empty => none
  | _, .region r => some r
  | shift, .dir entries _ =>
    ucsPgtableLookupRecurs address (shift - 4) (entries (ucsPgtEntryIndex address (shift - 4)))

/-- `ucs_pgtable_lookup`. -/
def ucsPgtableLookup (t : UcsPgtable) (address : UInt64) : Option UcsPgtRegion :=
  if address &&& t.mask ≠ t.base then none else ucsPgtableLookupRecurs address t.shift t.root

end UcxProofs.Pgtable
