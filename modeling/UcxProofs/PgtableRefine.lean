import UcxProofs.PgtableTable

/-!
What the page table is for: a finite set of regions that do not overlap, each holding the
addresses `[start, end)`. Inserting a region adds it when it overlaps no region of the set,
removing a region takes it out when it is there, and a lookup finds the region that holds an
address.

`Represents` relates a table to such a set: the leaves of the table are the pages of the
regions of the set, and the region count is the size of the set. Each operation keeps the
relation and answers as the set does, so over any sequence of inserts and removes from the
empty table the page table behaves as the set (`ucsPgtable_refines_regions`).
-/

namespace UcxProofs.Pgtable

open AddrBits

/-! ### Regions as sets of addresses -/

/-- Region `r` holds address `a`. -/
def UcsPgtRegion.Holds (r : UcsPgtRegion) (a : ℕ) : Prop := r.start.toNat ≤ a ∧ a < r.end.toNat

/-- Regions `r` and `r'` share an address. -/
def UcsPgtRegion.Overlaps (r r' : UcsPgtRegion) : Prop :=
  r.start.toNat < r'.end.toNat ∧ r'.start.toNat < r.end.toNat

instance (r r' : UcsPgtRegion) : Decidable (r.Overlaps r') :=
  inferInstanceAs (Decidable (_ ∧ _))

lemma UcsPgtRegion.overlaps_comm {r r' : UcsPgtRegion} : r.Overlaps r' ↔ r'.Overlaps r :=
  And.comm

/-- The regions that `ucs_pgtable_insert` and `ucs_pgtable_remove` accept: not empty, with both
ends aligned to 16 bytes. -/
def UcsPgtRegion.Valid (r : UcsPgtRegion) : Prop :=
  r.start < r.end ∧ r.start.toNat % 16 = 0 ∧ r.end.toNat % 16 = 0

instance (r : UcsPgtRegion) : Decidable r.Valid := inferInstanceAs (Decidable (_ ∧ _ ∧ _))

lemma UcsPgtRegion.Valid.overlaps_self {r : UcsPgtRegion} (hr : r.Valid) : r.Overlaps r := by
  have := UInt64.lt_iff_toNat_lt.mp hr.1
  exact ⟨this, this⟩

lemma ucsPgtIsAddrAligned_iff (a : UInt64) : ucsPgtIsAddrAligned a = true ↔ a.toNat % 16 = 0 := by
  unfold ucsPgtIsAddrAligned
  rw [decide_eq_true_iff, ← UInt64.toNat_inj, UInt64.toNat_and,
    show (15 : UInt64).toNat = 2 ^ 4 - 1 from rfl, Nat.and_two_pow_sub_one_eq_mod]
  rfl

/-- The parameter check of `ucs_pgtable_insert` and `ucs_pgtable_remove` rejects exactly the
regions that are not valid. -/
lemma regionCheck_iff (r : UcsPgtRegion) :
    (r.start ≥ r.end ∨ (!ucsPgtIsAddrAligned r.start) = true ∨
      (!ucsPgtIsAddrAligned r.end) = true) ↔ ¬ r.Valid := by
  simp only [UcsPgtRegion.Valid, Bool.not_eq_true', ← Bool.not_eq_true, ucsPgtIsAddrAligned_iff,
    ge_iff_le, not_and_or, UInt64.not_lt]

/-! ### The pages of a region -/

/-- The pages that `ucs_pgtable_insert` and `ucs_pgtable_remove` cut a region into. -/
def regionPages (r : UcsPgtRegion) : List (UInt64 × ℕ) := ucsPgtablePages r.start r.end

section RegionPages

variable {r : UcsPgtRegion} (hr : r.Valid)
include hr

lemma regionPages_eq :
    regionPages r = pagesFrom r.end ((r.end.toNat - r.start.toNat) / 16 + 1) r.start :=
  ucsPgtablePages_eq (UInt64.le_of_lt hr.1)

/-- A page of a valid region lies in it and is one the page operations take. -/
lemma mem_regionPages {pg : UInt64 × ℕ} (hpg : pg ∈ regionPages r) :
    r.start.toNat ≤ pg.1.toNat ∧ pg.1.toNat + 2 ^ pg.2 ≤ r.end.toNat ∧ PageOk pg := by
  rw [regionPages_eq hr] at hpg
  obtain ⟨h1, h2, hal, ho4, ho⟩ := mem_pagesFrom hr.2.2 hr.2.1 (p := pg.1) (o := pg.2) hpg
  exact ⟨h1, h2, hal, ho4, ho,
    (le_sixty_of_fits ho (lt_of_le_of_lt h2 (UInt64.toNat_lt _))).trans (by norm_num)⟩

lemma regionPages_pairwise : (regionPages r).Pairwise PageBefore := by
  rw [regionPages_eq hr]
  exact pagesFrom_pairwise hr.2.2 hr.2.1

/-- The pages of a region cover exactly its addresses. -/
lemma holds_iff_regionPages (a : ℕ) :
    r.Holds a ↔ ∃ pg ∈ regionPages r, Covers (pageLeaf r pg) a := by
  rw [regionPages_eq hr]
  exact mem_range_iff_pagesFrom hr.2.2 hr.2.1 (Nat.lt_succ_self _) a

lemma regionPages_cons : ∃ pg l, regionPages r = pg :: l := by
  rw [regionPages_eq hr, pagesFrom, if_pos hr.1]
  exact ⟨_, _, rfl⟩

end RegionPages

/-! ### The abstract model -/

/-- `ucs_pgtable_insert` on the set of regions: a valid region that overlaps none of the set
joins it. -/
def regionsInsert (S : Finset UcsPgtRegion) (r : UcsPgtRegion) : UcsStatus × Finset UcsPgtRegion :=
  if ¬ r.Valid then (.errInvalidParam, S)
  else if ∃ r' ∈ S, r.Overlaps r' then (.errAlreadyExists, S)
  else (.ok, insert r S)

/-- `ucs_pgtable_remove` on the set of regions: a region of the set leaves it. -/
def regionsRemove (S : Finset UcsPgtRegion) (r : UcsPgtRegion) : UcsStatus × Finset UcsPgtRegion :=
  if r ∈ S then (.ok, S.erase r) else (.errNoElem, S)

/-- The table represents the set: well formed, with the pages of the regions of the set as its
leaves and the size of the set as its region count. The regions of the set are valid and do not
overlap. -/
structure Represents (t : UcsPgtable) (S : Finset UcsPgtRegion) : Prop where
  inv : t.Inv
  valid : ∀ r ∈ S, r.Valid
  disjoint : ∀ r ∈ S, ∀ r' ∈ S, r ≠ r' → ¬ r.Overlaps r'
  leaves : ∀ x, t.HasLeaf x ↔ ∃ r ∈ S, ∃ pg ∈ regionPages r, x = pageLeaf r pg
  numRegions : t.numRegions = S.card

lemma represents_init : Represents ucsPgtableInit ∅ where
  inv := ucsPgtableInit_inv
  valid := by simp
  disjoint := by simp
  leaves x := by simp [not_hasLeaf_init x]
  numRegions := rfl

section Represents

variable {t : UcsPgtable} {S : Finset UcsPgtRegion}

/-- The shape of a table does not look at its region count. -/
lemma UcsPgtable.Inv.setNumRegions (h : t.Inv) (n : ℕ) : { t with numRegions := n }.Inv :=
  ⟨h.shift_mod, h.four_le_shift, h.shift_le, h.mask_eq, h.base_aligned, h.wf⟩

@[simp] lemma hasLeaf_setNumRegions {n : ℕ} {x : ℕ × ℕ × UcsPgtRegion} :
    { t with numRegions := n }.HasLeaf x ↔ t.HasLeaf x := Iff.rfl

/-- **A lookup finds the region of the set that holds the address.** -/
lemma ucsPgtableLookup_of_represents (h : Represents t S) (a : UInt64) (r : UcsPgtRegion) :
    ucsPgtableLookup t a = some r ↔ r ∈ S ∧ r.Holds a.toNat := by
  rw [ucsPgtableLookup_eq_some_iff h.inv]
  constructor
  · rintro ⟨p, o, hl, hc⟩
    obtain ⟨r', hr', pg, hpg, heq⟩ := (h.leaves _).mp hl
    simp only [pageLeaf, Prod.mk.injEq] at heq
    obtain ⟨rfl, rfl, rfl⟩ := heq
    exact ⟨hr', (holds_iff_regionPages (h.valid r hr') _).mpr ⟨pg, hpg, hc⟩⟩
  · rintro ⟨hr, hold⟩
    obtain ⟨pg, hpg, hc⟩ := (holds_iff_regionPages (h.valid r hr) _).mp hold
    exact ⟨pg.1.toNat, pg.2, (h.leaves _).mpr ⟨r, hr, pg, hpg, rfl⟩, hc⟩

/-- A leaf that overlaps a page of `r` belongs to a region of the set that overlaps `r`. -/
lemma overlaps_of_leaf_overlaps (h : Represents t S) {r : UcsPgtRegion} (hr : r.Valid)
    {pg : UInt64 × ℕ} (hpg : pg ∈ regionPages r) {x : ℕ × ℕ × UcsPgtRegion} (hx : t.HasLeaf x)
    (hov : Overlaps x pg.1.toNat pg.2) : ∃ r' ∈ S, r.Overlaps r' := by
  obtain ⟨r', hr', pg', hpg', rfl⟩ := (h.leaves x).mp hx
  have b := mem_regionPages hr hpg
  have b' := mem_regionPages (h.valid r' hr') hpg'
  simp only [Overlaps, pageLeaf] at hov
  exact ⟨r', hr', by simp only [UcsPgtRegion.Overlaps]; omega⟩

/-- A region of the set that overlaps `r` has a leaf that overlaps a page of `r`: both hold the
larger of the two starts. -/
lemma leaf_overlaps_of_overlaps (h : Represents t S) {r r' : UcsPgtRegion} (hr : r.Valid)
    (hr' : r' ∈ S) (hov : r.Overlaps r') :
    ∃ pg ∈ regionPages r, ∃ x, t.HasLeaf x ∧ Overlaps x pg.1.toNat pg.2 := by
  have hv := UInt64.lt_iff_toNat_lt.mp hr.1
  have hv' := UInt64.lt_iff_toNat_lt.mp (h.valid r' hr').1
  obtain ⟨h1, h2⟩ := hov
  obtain ⟨pg, hpg, hc⟩ := (holds_iff_regionPages hr (max r.start.toNat r'.start.toNat)).mp
    ⟨le_max_left _ _, by omega⟩
  obtain ⟨pg', hpg', hc'⟩ := (holds_iff_regionPages (h.valid r' hr') (max r.start.toNat r'.start.toNat)).mp
    ⟨le_max_right _ _, by omega⟩
  refine ⟨pg, hpg, pageLeaf r' pg', (h.leaves _).mpr ⟨r', hr', pg', hpg', rfl⟩, ?_⟩
  simp only [Covers, pageLeaf] at hc hc'
  simp only [Overlaps, pageLeaf]
  omega

/-- A page is a leaf that overlaps itself. -/
lemma overlaps_pageLeaf_self (r : UcsPgtRegion) (pg : UInt64 × ℕ) :
    Overlaps (pageLeaf r pg) pg.1.toNat pg.2 := by
  have := Nat.one_le_two_pow (n := pg.2)
  simp only [Overlaps, pageLeaf]
  omega

/-- **An insert answers and changes the table as the set.** A valid region that no region of the
set overlaps has all its pages inserted; otherwise the insert stops at the first page that a
leaf overlaps and removes the pages before it again. -/
lemma ucsPgtableInsert_refines (h : Represents t S) (r : UcsPgtRegion) :
    (ucsPgtableInsert t r).1 = (regionsInsert S r).1 ∧
      Represents (ucsPgtableInsert t r).2 (regionsInsert S r).2 := by
  unfold ucsPgtableInsert regionsInsert
  by_cases hr : r.Valid
  · rw [if_neg ((regionCheck_iff r).not.mpr (not_not.mpr hr)), if_neg (not_not.mpr hr)]
    have hspec := insertPages_spec r h.inv (fun pg hpg => (mem_regionPages hr hpg).2.2)
      (regionPages_pairwise hr)
    rw [regionPages] at hspec
    generalize insertPages r (ucsPgtablePages r.start r.end) t = res at hspec ⊢
    obtain ⟨_ | ⟨status, c⟩, t'⟩ := res
    · -- every page went in: no region of the set overlaps `r`
      obtain ⟨hinv, hnum, hno, hleaves⟩ := hspec
      have hdisj : ¬ ∃ r' ∈ S, r.Overlaps r' := by
        rintro ⟨r', hr', hov⟩
        obtain ⟨pg, hpg, x, hx, hovx⟩ := leaf_overlaps_of_overlaps h hr hr' hov
        exact hno pg hpg x hx hovx
      have hrS : r ∉ S := fun hrS => hdisj ⟨r, hrS, hr.overlaps_self⟩
      rw [if_neg hdisj]
      dsimp only
      refine ⟨rfl, ⟨hinv.setNumRegions _, ?_, ?_, fun x => ?_, ?_⟩⟩
      · simpa [Finset.forall_mem_insert] using ⟨hr, h.valid⟩
      · simp only [Finset.mem_insert]
        rintro r₁ (rfl | h₁) r₂ (rfl | h₂) hne
        · exact absurd rfl hne
        · exact fun hov => hdisj ⟨r₂, h₂, hov⟩
        · exact fun hov => hdisj ⟨r₁, h₁, UcsPgtRegion.overlaps_comm.mp hov⟩
        · exact h.disjoint r₁ h₁ r₂ h₂ hne
      · rw [hasLeaf_setNumRegions, hleaves, h.leaves, Finset.exists_mem_insert, or_comm]
        rfl
      · show t'.numRegions + 1 = _
        rw [hnum, h.numRegions, Finset.card_insert_of_notMem hrS]
    · -- the insert stopped at page `c`: a region of the set overlaps `r`
      obtain ⟨rfl, hinv, hnum, pre, o, post, hl, ⟨x, hx, hov⟩, hpre, hleaves⟩ := hspec
      have hc : (c, o) ∈ regionPages r := by rw [regionPages, hl]; simp
      rw [if_pos (overlaps_of_leaf_overlaps h hr hc hx hov)]
      dsimp only
      -- the rollback recomputes the pages before `c`
      have hstart := (mem_regionPages hr hc).1
      have hupTo : ucsPgtablePages r.start c = pre := by
        rw [ucsPgtablePages_eq (UInt64.le_iff_toNat_le.mpr hstart)]
        exact pagesFrom_upTo hr.2.2 hr.2.1 (by rw [← regionPages_eq hr, regionPages, hl])
          (Nat.lt_succ_self _)
      have hpw : pre.Pairwise PageBefore := by
        have := regionPages_pairwise hr
        rw [regionPages, hl] at this
        exact (List.pairwise_append.mp this).1
      obtain ⟨hinv', hnum', hleaves'⟩ :=
        removeFold_spec r hinv (fun q hq => (hleaves _).mpr (.inr ⟨q, hq, rfl⟩)) hpw
      rw [hupTo]
      refine ⟨rfl, ⟨hinv', h.valid, h.disjoint, fun y => ?_, hnum'.trans (hnum.trans h.numRegions)⟩⟩
      rw [hleaves', hleaves, ← h.leaves y]
      constructor
      · rintro ⟨hy | ⟨pg, hpg, rfl⟩, hne⟩
        · exact hy
        · exact absurd rfl (hne pg hpg)
      · -- a leaf of the table overlaps none of the pages inserted before `c`
        intro hy
        refine ⟨.inl hy, fun q hq heq => ?_⟩
        subst heq
        exact hpre q hq _ hy (overlaps_pageLeaf_self r q)
  · rw [if_pos ((regionCheck_iff r).mpr hr), if_pos hr]
    exact ⟨rfl, h⟩

/-- **A remove answers and changes the table as the set.** The pages of a region of the set are
all leaves and are removed in turn; a region not in the set has no leaf, and the first page
fails. -/
lemma ucsPgtableRemove_refines (h : Represents t S) (r : UcsPgtRegion) :
    (ucsPgtableRemove t r).1 = (regionsRemove S r).1 ∧
      Represents (ucsPgtableRemove t r).2 (regionsRemove S r).2 := by
  unfold ucsPgtableRemove regionsRemove
  by_cases hr : r.Valid
  · rw [if_neg ((regionCheck_iff r).not.mpr (not_not.mpr hr)),
      show ucsPgtablePages r.start r.end = regionPages r from rfl]
    by_cases hrS : r ∈ S
    · have hl : ∀ q ∈ regionPages r, t.HasLeaf (pageLeaf r q) :=
        fun q hq => (h.leaves _).mpr ⟨r, hrS, q, hq, rfl⟩
      rw [if_pos hrS, removePages_of_hasLeaf r h.inv hl (regionPages_pairwise hr)]
      dsimp only
      obtain ⟨hinv, hnum, hleaves⟩ := removeFold_spec r h.inv hl (regionPages_pairwise hr)
      refine ⟨rfl, ⟨hinv.setNumRegions _, fun r' hr' => h.valid r' (Finset.mem_of_mem_erase hr'),
        fun r₁ h₁ r₂ h₂ => h.disjoint r₁ (Finset.mem_of_mem_erase h₁) r₂
          (Finset.mem_of_mem_erase h₂), fun x => ?_, ?_⟩⟩
      · rw [hasLeaf_setNumRegions, hleaves, h.leaves]
        constructor
        · rintro ⟨⟨r', hr', pg, hpg, rfl⟩, hne⟩
          -- the pages of `r` are gone, so the leaf is of another region
          have hr'r : r' ≠ r := by
            rintro rfl
            exact hne pg hpg rfl
          exact ⟨r', Finset.mem_erase.mpr ⟨hr'r, hr'⟩, pg, hpg, rfl⟩
        · rintro ⟨r', hr', pg, hpg, rfl⟩
          obtain ⟨hr'r, hr'S⟩ := Finset.mem_erase.mp hr'
          exact ⟨⟨r', hr'S, pg, hpg, rfl⟩, fun q _ heq => hr'r (congrArg (·.2.2) heq)⟩
      · show _ - 1 = _
        rw [hnum, h.numRegions, Finset.card_erase_of_mem hrS]
    · obtain ⟨pg, l, hpages⟩ := regionPages_cons hr
      have hno : ∀ x, t.HasLeaf x → x.2.2 ≠ r := by
        intro x hx hxr
        obtain ⟨r', hr', pg', -, rfl⟩ := (h.leaves x).mp hx
        exact hrS (hxr ▸ hr')
      rw [if_neg hrS, hpages, removePages_of_no_leaf h.inv hno pg l]
      exact ⟨rfl, h⟩
  · have hrS : r ∉ S := fun hrS => hr (h.valid r hrS)
    rw [if_pos ((regionCheck_iff r).mpr hr), if_neg hrS]
    exact ⟨rfl, h⟩

end Represents

/-! ### Runs -/

/-- A call to the page table. -/
inductive PgtOp
  | insert (r : UcsPgtRegion)
  | remove (r : UcsPgtRegion)

/-- One call on the table: its status and the table after. -/
def pgtStep (t : UcsPgtable) : PgtOp → UcsStatus × UcsPgtable
  | .insert r => ucsPgtableInsert t r
  | .remove r => ucsPgtableRemove t r

/-- A sequence of calls: the statuses and the table after. -/
def pgtRun (t : UcsPgtable) : List PgtOp → List UcsStatus × UcsPgtable
  | [] => ([], t)
  | op :: ops =>
    let (st, t) := pgtStep t op
    let (sts, t) := pgtRun t ops
    (st :: sts, t)

/-- One call on the set of regions. -/
def regionsStep (S : Finset UcsPgtRegion) : PgtOp → UcsStatus × Finset UcsPgtRegion
  | .insert r => regionsInsert S r
  | .remove r => regionsRemove S r

/-- A sequence of calls on the set of regions. -/
def regionsRun (S : Finset UcsPgtRegion) : List PgtOp → List UcsStatus × Finset UcsPgtRegion
  | [] => ([], S)
  | op :: ops =>
    let (st, S) := regionsStep S op
    let (sts, S) := regionsRun S ops
    (st :: sts, S)

lemma pgtStep_refines {t : UcsPgtable} {S : Finset UcsPgtRegion} (h : Represents t S)
    (op : PgtOp) : (pgtStep t op).1 = (regionsStep S op).1 ∧
      Represents (pgtStep t op).2 (regionsStep S op).2 := by
  cases op with
  | insert r => exact ucsPgtableInsert_refines h r
  | remove r => exact ucsPgtableRemove_refines h r

/-- From a table that represents a set, a run answers as the set and ends in a table that
represents the set after. -/
lemma pgtRun_refines_from {t : UcsPgtable} {S : Finset UcsPgtRegion} (h : Represents t S)
    (ops : List PgtOp) : (pgtRun t ops).1 = (regionsRun S ops).1 ∧
      Represents (pgtRun t ops).2 (regionsRun S ops).2 := by
  induction ops generalizing t S with
  | nil => exact ⟨rfl, h⟩
  | cons op ops ih =>
    obtain ⟨hst, hstep⟩ := pgtStep_refines h op
    obtain ⟨hsts, hrun⟩ := ih hstep
    simp only [pgtRun, regionsRun]
    exact ⟨by rw [hst, hsts], hrun⟩

/-- **The page table refines a finite set of disjoint regions.** Over any sequence of
`ucs_pgtable_insert` and `ucs_pgtable_remove` calls from the empty table, every call returns what
the set answers: an insert succeeds exactly when the region is valid and overlaps no region of
the set, which it then joins, and fails with `UCS_ERR_ALREADY_EXISTS` on an overlap, leaving the
set as it was; a remove succeeds exactly when the region is in the set, and then takes it out.
After the run, the region count is the size of the set, and a lookup of any address returns the
region of the set that holds it. -/
theorem ucsPgtable_refines_regions (ops : List PgtOp) :
    (pgtRun ucsPgtableInit ops).1 = (regionsRun ∅ ops).1 ∧
      (pgtRun ucsPgtableInit ops).2.numRegions = (regionsRun ∅ ops).2.card ∧
      ∀ (a : UInt64) (r : UcsPgtRegion), ucsPgtableLookup (pgtRun ucsPgtableInit ops).2 a = some r ↔
        r ∈ (regionsRun ∅ ops).2 ∧ r.start ≤ a ∧ a < r.end := by
  obtain ⟨hsts, hrep⟩ := pgtRun_refines_from represents_init ops
  refine ⟨hsts, hrep.numRegions, fun a r => ?_⟩
  rw [ucsPgtableLookup_of_represents hrep, UcsPgtRegion.Holds, UInt64.le_iff_toNat_le,
    UInt64.lt_iff_toNat_lt]

end UcxProofs.Pgtable
