import UcxProofs.Pgtable

/-!
Range search in the page table, `ucs_pgtable_search_range` and `ucs_pgtable_search_recurs`.

The search cuts the range into pages the way an insert does, clipped to the span of the
table, and descends from the root for each page. `last` holds the region found most recently,
so that a region that covers several pages is reported once.

The loop `while (address <= to)` need not end: the address advances by `1ul << order` and may
wrap around to 0. The model runs it for at most `fuel` rounds and answers `none` when the loop
has not ended by then.
-/

namespace UcxProofs.Pgtable

/-- `ucs_pgtable_search_recurs` from `pte`, which covers `2 ^ shift` bytes: the regions passed
to the callback, in order, and `last` after. -/
def ucsPgtableSearchRecurs (address : UInt64) (order : ℕ) :
    ℕ → UcsPgtEntry → Option UcsPgtRegion → List UcsPgtRegion × Option UcsPgtRegion
  | _, .empty, last => ([], last)
  | _, .region r, last => if last = some r then ([], last) else ([r], some r)
  | shift, .dir entries _, last =>
    if order < shift then
      -- one of the sub-entries covers the page
      ucsPgtableSearchRecurs address order (shift - 4)
        (entries (ucsPgtEntryIndex address (shift - 4))) last
    else
      -- the page covers every sub-entry
      (List.finRange 16).foldl (fun acc i =>
          let r := ucsPgtableSearchRecurs address order (shift - 4) (entries i) acc.2
          (acc.1 ++ r.1, r.2)) ([], last)

/-- The loop of `ucs_pgtable_search_range` from `address`, for at most `fuel` rounds: the
regions found, in order, or `none` if the loop has not ended. -/
def searchRangeLoop (t : UcsPgtable) («to» «end» : UInt64) :
    ℕ → UInt64 → Option UcsPgtRegion → Option (List UcsPgtRegion)
  | 0, _, _ => none
  | fuel + 1, address, last =>
    if address ≤ «to» then
      let order := ucsPgtableGetNextPageOrder address «end»
      let r :=
        if address &&& t.mask = t.base then
          ucsPgtableSearchRecurs address order t.shift t.root last
        else ([], last)
      if order = 64 then some r.1
      else (searchRangeLoop t «to» «end» fuel (ucsPgtAddressAdvance address order) r.2).map
        (r.1 ++ ·)
    else some []

/-- `ucs_pgtable_search_range`: the regions passed to the callback, in order. -/
def ucsPgtableSearchRange (fuel : ℕ) (t : UcsPgtable) («from» «to» : UInt64) :
    Option (List UcsPgtRegion) :=
  let address := «from» &&& ~~~15
  let «end» := («to» + 15) &&& ~~~15
  -- intersect the range with the span of the table
  let range :=
    if t.shift < 64 then (max address t.base, min «end» (t.base + (1 : UInt64) <<< t.shift.toUInt64))
    else (address, «end»)
  searchRangeLoop t «to» range.2 fuel range.1 none

/-- A loop that has ended gives the same answer with more fuel. -/
lemma searchRangeLoop_fuel_mono {t : UcsPgtable} {«to» «end» address : UInt64}
    {last : Option UcsPgtRegion} {fuel : ℕ} {regions : List UcsPgtRegion}
    (h : searchRangeLoop t «to» «end» fuel address last = some regions) (extra : ℕ) :
    searchRangeLoop t «to» «end» (fuel + extra) address last = some regions := by
  induction fuel generalizing address last regions with
  | zero => simp [searchRangeLoop] at h
  | succ fuel ih =>
    rw [Nat.succ_add]
    simp only [searchRangeLoop] at h ⊢
    split_ifs at h ⊢ with hle hmask horder
    all_goals first
      | exact h
      | (obtain ⟨rest, hrest, rfl⟩ := Option.map_eq_some_iff.mp h
         rw [ih hrest]; rfl)

/-- **A search up to the top of the address space visits regions twice.** With the regions
`[0x10, 0x20)` and `[0x20, 0x30)` inserted, a search from `0x20` to `0xffffffffffffffff` reports
`[0x20, 0x30)`, then `[0x10, 0x20)`, which it does not intersect, and `[0x20, 0x30)` again. The
aligned end `to + 15` wraps to 0, the pages run up to the top of the address space, the address
wraps around to 0 and passes `address <= to`, and the page of order 64 at 0 covers the whole
table. -/
theorem ucsPgtableSearchRange_wraparound :
    let r1 : UcsPgtRegion := ⟨0x10, 0x20, 1⟩
    let r2 : UcsPgtRegion := ⟨0x20, 0x30, 2⟩
    let t1 := ucsPgtableInsert ucsPgtableInit r1
    let t2 := ucsPgtableInsert t1.2 r2
    t1.1 = .ok ∧ t2.1 = .ok ∧
      ∀ fuel ≥ 300, ucsPgtableSearchRange fuel t2.2 0x20 0xffffffffffffffff = some [r2, r1, r2] := by
  intro r1 r2 t1 t2
  refine ⟨by decide, by decide, fun fuel hfuel => ?_⟩
  obtain ⟨extra, rfl⟩ := Nat.exists_eq_add_of_le hfuel
  exact searchRangeLoop_fuel_mono (by decide +kernel) extra

end UcxProofs.Pgtable
