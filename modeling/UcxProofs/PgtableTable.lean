import UcxProofs.PgtableTree
import UcxProofs.PgtablePages

/-!
The table as a whole. The root entry covers `[base, base + 2 ^ shift)` and `mask` selects the
bits above `shift`; `UcsPgtable.Inv` is the shape every operation keeps, and the leaves of the
root (`UcsPgtable.HasLeaf`) are what the table holds. Expanding and shrinking the root keep the
leaves (`SameLeaves`); a page insert adds the page, or fails on a leaf that overlaps it and keeps
the leaves; a page remove takes out the leaf of the region that covers the address; a lookup
finds that leaf.
-/

namespace UcxProofs.Pgtable

open AddrBits

/-- The shape of a table: the shift is a multiple of 4 from 4 to 64, the mask selects the bits
from `shift` up, the base is aligned to the block, and the root is well formed. -/
structure UcsPgtable.Inv (t : UcsPgtable) : Prop where
  shift_mod : t.shift % 4 = 0
  four_le_shift : 4 ≤ t.shift
  shift_le : t.shift ≤ 64
  mask_eq : t.mask.toNat = 2 ^ 64 - 2 ^ t.shift
  base_aligned : t.base.toNat % 2 ^ t.shift = 0
  wf : WF t.root t.shift

/-- A leaf of the table: a page it holds, with its region. -/
def UcsPgtable.HasLeaf (t : UcsPgtable) (x : ℕ × ℕ × UcsPgtRegion) : Prop :=
  Leaf t.root t.base.toNat t.shift x

lemma ucsPgtableInit_inv : ucsPgtableInit.Inv where
  shift_mod := rfl
  four_le_shift := le_rfl
  shift_le := by decide
  mask_eq := by decide
  base_aligned := rfl
  wf := trivial

lemma not_hasLeaf_init (x : ℕ × ℕ × UcsPgtRegion) : ¬ ucsPgtableInit.HasLeaf x := leaf_empty

/-- `t'` is a well-formed table with the leaves and the region count of `t`. -/
structure SameLeaves (t t' : UcsPgtable) : Prop where
  inv : t'.Inv
  leaves : ∀ x, t'.HasLeaf x ↔ t.HasLeaf x
  numRegions : t'.numRegions = t.numRegions

lemma SameLeaves.refl {t : UcsPgtable} (h : t.Inv) : SameLeaves t t := ⟨h, fun _ => Iff.rfl, rfl⟩

lemma SameLeaves.trans {t t' t'' : UcsPgtable} (h : SameLeaves t t') (h' : SameLeaves t' t'') :
    SameLeaves t t'' :=
  ⟨h'.inv, fun x => (h'.leaves x).trans (h.leaves x), h'.numRegions.trans h.numRegions⟩

section Table

variable {t : UcsPgtable}

/-- An address is in the block of the table exactly when its bits above `shift` are `base`. -/
lemma UcsPgtable.Inv.and_mask_eq_iff (h : t.Inv) (a : UInt64) :
    a &&& t.mask = t.base ↔ t.base.toNat ≤ a.toNat ∧ a.toNat < t.base.toNat + 2 ^ t.shift :=
  AddrBits.and_mask_eq_iff h.mask_eq h.shift_le h.base_aligned

/-- An address that a leaf covers is in the block of the table. -/
lemma UcsPgtable.Inv.and_mask_eq_of_covers (h : t.Inv) {p o : ℕ} {r : UcsPgtRegion} {a : UInt64}
    (hx : t.HasLeaf (p, o, r)) (hc : Covers (p, o, r) a.toNat) : a &&& t.mask = t.base := by
  have := Leaf.bounds hx h.wf
  rw [h.and_mask_eq_iff]
  simp only [Covers] at hc
  omega

/-! ### Expand and shrink -/

@[simp] lemma ucsPgtableExpand_shift : (ucsPgtableExpand t).shift = t.shift + 4 := rfl
@[simp] lemma ucsPgtableExpand_mask : (ucsPgtableExpand t).mask = t.mask <<< 4 := rfl
@[simp] lemma ucsPgtableExpand_base : (ucsPgtableExpand t).base = t.base &&& t.mask <<< 4 := rfl
@[simp] lemma ucsPgtableExpand_numRegions : (ucsPgtableExpand t).numRegions = t.numRegions := rfl

lemma ucsPgtableReset_inv (h : t.root = .empty) : (ucsPgtableReset t).Inv where
  shift_mod := by simp [ucsPgtableReset]
  four_le_shift := by simp [ucsPgtableReset]
  shift_le := by simp [ucsPgtableReset]
  mask_eq := by
    simp only [ucsPgtableReset]
    decide
  base_aligned := by simp [ucsPgtableReset]
  wf := by simp [ucsPgtableReset, h]

lemma presentCount_single (i : Fin 16) {e : UcsPgtEntry} (he : e.present) :
    presentCount (Function.update (fun _ => .empty) i e) = 1 := by
  have hupd := presentCount_update (fun _ => .empty) i e
  have hzero : presentCount (fun _ : Fin 16 => UcsPgtEntry.empty) = 0 := by
    simp [presentCount]
  simp only [hzero, he, present_empty] at hupd
  simpa using hupd

/-- **Expanding the root keeps the shape and the leaves.** The root moves into part
`base / 2 ^ shift % 16` of a directory whose block starts at `base` rounded down. -/
lemma ucsPgtableExpand_spec (h : t.Inv) (hs : t.shift < 64) :
    SameLeaves t (ucsPgtableExpand t) ∧ (ucsPgtableExpand t).shift = t.shift + 4 := by
  have hs60 : t.shift + 4 ≤ 64 := by have := h.shift_mod; omega
  have hmask := toNat_mask_shiftLeft_four h.mask_eq hs60
  have hbase : (t.base &&& t.mask <<< 4).toNat =
      t.base.toNat / 2 ^ (t.shift + 4) * 2 ^ (t.shift + 4) := toNat_and_of_mask hmask hs60
  -- the old block is part `base / 2 ^ shift % 16` of the new one
  have hpart : (t.base &&& t.mask <<< 4).toNat +
      (ucsPgtEntryIndex t.base t.shift).val * 2 ^ t.shift = t.base.toNat := by
    rw [hbase, ucsPgtEntryIndex_val hs, pow_add]
    exact div_mul_add_mod_mul h.base_aligned
  refine ⟨⟨⟨?_, ?_, hs60, hmask, ?_, ?_⟩, fun x => ?_, rfl⟩, rfl⟩
  · have := h.shift_mod
    simp only [ucsPgtableExpand_shift]
    omega
  · simp only [ucsPgtableExpand_shift]
    omega
  · simp only [ucsPgtableExpand_base, ucsPgtableExpand_shift, hbase]
    exact Nat.mul_mod_left _ _
  · simp only [ucsPgtableExpand]
    split
    · rename_i hp
      refine ⟨by have := h.four_le_shift; omega, (presentCount_single _ hp).symm, one_pos,
        fun j => ?_⟩
      by_cases hj : j = ucsPgtEntryIndex t.base t.shift
      · subst hj
        simpa using h.wf
      · simp [Function.update_of_ne hj]
    · -- an absent root stays empty
      rename_i hp
      cases hr : t.root <;> simp_all [UcsPgtEntry.present]
  · simp only [UcsPgtable.HasLeaf, ucsPgtableExpand]
    split
    · rw [leaf_dir_update_iff, Nat.add_sub_cancel, hpart]
      simp
    · rename_i hp
      have hp' : t.root.present = false := by simpa using hp
      simp [not_leaf_of_not_present hp']

/-- The only present entry of a directory that counts one. -/
lemma not_present_of_presentCount_eq_one {entries : Fin 16 → UcsPgtEntry}
    (h : presentCount entries = 1) {i : Fin 16} (hi : (entries i).present) {j : Fin 16}
    (hj : j ≠ i) : (entries j).present = false := by
  have hupd := presentCount_update entries i .empty
  simp only [hi, present_empty, h, if_true, Bool.false_eq_true, if_false] at hupd
  have h0 : presentCount (Function.update entries i .empty) = 0 := by omega
  have := not_present_of_presentCount_eq_zero h0 j
  rwa [Function.update_of_ne hj] at this

/-- The base of a shrunk table: the base of part `i`. -/
lemma shrink_base_toNat {base : UInt64} {s : ℕ} (hb : base.toNat % 2 ^ s = 0) (h4 : 4 ≤ s)
    (hs : s ≤ 64) (i : Fin 16) :
    (base ||| i.val.toUInt64 <<< (s - 4).toUInt64).toNat = base.toNat + i.val * 2 ^ (s - 4) := by
  have hpart : i.val * 2 ^ (s - 4) < 2 ^ s := by
    have := part_le (b := 0) h4 i
    have := Nat.one_le_two_pow (n := s - 4)
    omega
  have h64 : 2 ^ s ≤ 2 ^ 64 := Nat.pow_le_pow_right (by norm_num) hs
  have hi : i.val.toUInt64.toNat = i.val := toNat_toUInt64_of_lt (by omega)
  rw [UInt64.toNat_or, toNat_shiftLeft_of_lt (by omega) (by rw [hi]; omega), hi,
    or_eq_add_of_mod hb hpart]

/-- **Shrinking the root keeps the shape and the leaves.** A directory with a single present
entry gives way to that entry, whose block is its part of the old one. -/
lemma ucsPgtableShrink_spec (h : t.Inv) : SameLeaves t (ucsPgtableShrink t).2 := by
  obtain ⟨root, base, mask, shift, num⟩ := t
  cases root with
  | empty =>
    refine ⟨ucsPgtableReset_inv rfl, fun x => ?_, rfl⟩
    simp [UcsPgtable.HasLeaf, ucsPgtableShrink, ucsPgtableReset]
  | region r => exact SameLeaves.refl h
  | dir entries count =>
    obtain ⟨hmod, h4, hs, hmask, hb, hs8, hcount, hpos, hwfs⟩ := h
    dsimp only at hmod h4 hs hmask hb hs8 hcount hpos hwfs
    simp only [ucsPgtableShrink]
    split
    · exact SameLeaves.refl ⟨hmod, h4, hs, hmask, hb, hs8, hcount, hpos, hwfs⟩
    · split
      · exact SameLeaves.refl ⟨hmod, h4, hs, hmask, hb, hs8, hcount, hpos, hwfs⟩
      · rename_i hc i hfind
        have hi := List.find?_some hfind
        have hone : presentCount entries = 1 := by omega
        have hbase := shrink_base_toNat hb h4 hs i
        refine ⟨⟨by dsimp only; omega, by dsimp only; omega, by dsimp only; omega,
          toNat_mask_or_fifteen hmask h4 hs, ?_, hwfs i⟩, fun x => ?_, rfl⟩
        · simp only [hbase]
          exact part_aligned hb i
        · simp only [UcsPgtable.HasLeaf, hbase, leaf_dir_iff]
          constructor
          · exact fun hx => ⟨i, hx⟩
          · rintro ⟨j, hj⟩
            -- the other entries are absent
            by_cases hji : j = i
            · subst hji
              exact hj
            · exact absurd hj (not_leaf_of_not_present (not_present_of_presentCount_eq_one hone hi hji))

lemma ucsPgtableShrinkLoop_spec (fuel : ℕ) :
    ∀ {t : UcsPgtable}, t.Inv → SameLeaves t (ucsPgtableShrinkLoop fuel t) := by
  induction fuel with
  | zero => exact fun h => SameLeaves.refl h
  | succ fuel ih =>
    intro t h
    have hsh := ucsPgtableShrink_spec h
    simp only [ucsPgtableShrinkLoop]
    split
    · rename_i t' heq
      rw [heq] at hsh
      exact hsh.trans (ih hsh.inv)
    · rename_i t' heq
      rw [heq] at hsh
      exact hsh

lemma ucsPgtableShrinkAll_spec (h : t.Inv) : SameLeaves t (ucsPgtableShrinkAll t) :=
  ucsPgtableShrinkLoop_spec 16 h

/-- **An expand loop whose condition fails on a full-width table ends with the condition false,
the shape and the leaves kept.** Each round adds 4 to the shift, so `(64 - shift) / 4` rounds
suffice. -/
lemma ucsPgtableExpandWhile_spec {cond : UcsPgtable → Bool}
    (hcond : ∀ t : UcsPgtable, t.Inv → cond t → t.shift < 64) (fuel : ℕ) :
    ∀ {t : UcsPgtable}, t.Inv → (64 - t.shift) / 4 < fuel →
      SameLeaves t (ucsPgtableExpandWhile cond fuel t) ∧
        cond (ucsPgtableExpandWhile cond fuel t) = false ∧
        t.shift ≤ (ucsPgtableExpandWhile cond fuel t).shift := by
  induction fuel with
  | zero => intro t _ h; omega
  | succ fuel ih =>
    intro t h hfuel
    simp only [ucsPgtableExpandWhile]
    split
    · rename_i hc
      have hs := hcond t h hc
      obtain ⟨hsame, hshift⟩ := ucsPgtableExpand_spec h hs
      have hmod := h.shift_mod
      obtain ⟨hsame', hc', hle⟩ := ih hsame.inv (by omega)
      exact ⟨hsame.trans hsame', hc', by omega⟩
    · rename_i hc
      exact ⟨SameLeaves.refl h, by simpa using hc, le_rfl⟩

/-! ### Insert a page -/

/-- The table the insert descent of `ucs_pgtable_insert_page` starts from: after the expand
loops, or with the base of the page's block when the root is empty. -/
def insertPageTable (t : UcsPgtable) (address : UInt64) (order : ℕ) : UcsPgtable :=
  let t := ucsPgtableExpandWhile (fun t => t.shift < order) 16 t
  if t.root.present then ucsPgtableExpandWhile (fun t => address &&& t.mask ≠ t.base) 16 t
  else { t with base := address &&& t.mask }

lemma ucsPgtableInsertPage_eq (t : UcsPgtable) (address : UInt64) (order : ℕ)
    (region : UcsPgtRegion) :
    ucsPgtableInsertPage t address order region =
      match ucsPgtableInsertPageRecurs address order region (insertPageTable t address order).shift
          (insertPageTable t address order).root with
      | some root => (.ok, { insertPageTable t address order with root })
      | none => (.errAlreadyExists, ucsPgtableShrinkAll (insertPageTable t address order)) :=
  rfl

/-- At full width the mask is zero and so is the base: every address has the bits of the
base. -/
lemma shift_lt_of_and_mask_ne {t : UcsPgtable} (ht : t.Inv) {a : UInt64}
    (hc : decide (a &&& t.mask ≠ t.base) = true) : t.shift < 64 := by
  by_contra hs
  have hs64 : t.shift = 64 := by have := ht.shift_le; omega
  have hm : t.mask = 0 := UInt64.toNat_inj.mp (by rw [ht.mask_eq, hs64]; rfl)
  have hb : t.base = 0 := UInt64.toNat_inj.mp (by
    have := ht.base_aligned
    rw [hs64, Nat.mod_eq_of_lt (UInt64.toNat_lt _)] at this
    simpa using this)
  simp [hm, hb] at hc

/-- **The expand loops bring the page's block into the table.** The table after them holds the
same leaves, its entries are at least as large as the page, and the page's address has the bits
of its base. -/
lemma insertPageTable_spec (h : t.Inv) {a : UInt64} {o : ℕ} (ho : o ≤ 64) :
    SameLeaves t (insertPageTable t a o) ∧ o ≤ (insertPageTable t a o).shift ∧
      a &&& (insertPageTable t a o).mask = (insertPageTable t a o).base := by
  have h4 := h.four_le_shift
  obtain ⟨hs1, hc1, -⟩ := @ucsPgtableExpandWhile_spec (fun t => t.shift < o)
    (fun t _ hc => by simp only [decide_eq_true_eq] at hc; omega) 16 t h (by omega)
  unfold insertPageTable
  generalize ucsPgtableExpandWhile (fun t => decide (t.shift < o)) 16 t = t1 at hs1 hc1 ⊢
  have ho1 : o ≤ t1.shift := by simpa using hc1
  have hinv := hs1.inv
  dsimp only
  split
  · have h16 : (64 - t1.shift) / 4 < 16 := by have := hinv.four_le_shift; omega
    obtain ⟨hs2, hc2, hle⟩ :=
      ucsPgtableExpandWhile_spec (fun t ht hc => shift_lt_of_and_mask_ne ht hc) 16 hinv h16
    exact ⟨hs1.trans hs2, by omega, by simpa using hc2⟩
  · -- an empty root takes the block of the address
    rename_i hp
    have hp' : t1.root.present = false := by simpa using hp
    refine ⟨hs1.trans ⟨⟨hinv.shift_mod, hinv.four_le_shift, hinv.shift_le, hinv.mask_eq, ?_,
      hinv.wf⟩, fun x => ?_, rfl⟩, ho1, rfl⟩
    · simp only [toNat_and_of_mask hinv.mask_eq hinv.shift_le]
      exact Nat.mul_mod_left _ _
    · simp [UcsPgtable.HasLeaf, not_leaf_of_not_present hp']

/-- What `ucs_pgtable_insert_page` does to a well-formed table: it fails on a leaf that overlaps
the page and keeps the leaves, or adds the page. -/
def InsertPageSpec (t : UcsPgtable) (a o : ℕ) (r : UcsPgtRegion) : UcsStatus × UcsPgtable → Prop
  | (status, t') => t'.Inv ∧ t'.numRegions = t.numRegions ∧
    ((status = .errAlreadyExists ∧ (∃ x, t.HasLeaf x ∧ Overlaps x a o) ∧
        ∀ x, t'.HasLeaf x ↔ t.HasLeaf x) ∨
      (status = .ok ∧ (∀ x, t.HasLeaf x → ¬ Overlaps x a o) ∧
        ∀ x, t'.HasLeaf x ↔ t.HasLeaf x ∨ x = (a, o, r)))

/-- **A page insert adds the page exactly when no leaf overlaps it.** -/
lemma ucsPgtableInsertPage_spec (h : t.Inv) {a : UInt64} {o : ℕ} (r : UcsPgtRegion)
    (ha : a.toNat % 2 ^ o = 0) (ho4 : 4 ≤ o) (ho : o % 4 = 0) (ho64 : o ≤ 64) :
    InsertPageSpec t a.toNat o r (ucsPgtableInsertPage t a o r) := by
  obtain ⟨hsame, hos, hmask⟩ := insertPageTable_spec h (a := a) ho64
  rw [ucsPgtableInsertPage_eq]
  generalize insertPageTable t a o = t2 at hsame hos hmask ⊢
  have hinv := hsame.inv
  -- the page lies in the block of the table
  obtain ⟨hab, hae⟩ := (hinv.and_mask_eq_iff a).mp hmask
  have hin := add_two_pow_le_of_aligned ha hinv.base_aligned hos hae
  have hmod : (t2.shift - o) % 4 = 0 := by have := hinv.shift_mod; omega
  have hspec := insertPageRecurs_spec (r := r) ho4 ha hinv.wf hinv.shift_le hinv.base_aligned hos
    hmod hab hin
  cases hrec : ucsPgtableInsertPageRecurs a o r t2.shift t2.root with
  | none =>
    rw [hrec] at hspec
    obtain ⟨x, hx, hov⟩ := hspec
    have hshr := ucsPgtableShrinkAll_spec hinv
    refine ⟨hshr.inv, hshr.numRegions.trans hsame.numRegions,
      .inl ⟨rfl, ⟨x, (hsame.leaves x).mp hx, hov⟩, fun y => (hshr.leaves y).trans (hsame.leaves y)⟩⟩
  | some root =>
    rw [hrec] at hspec
    obtain ⟨hno, hwf, -, hleaves⟩ := hspec
    refine ⟨⟨hinv.shift_mod, hinv.four_le_shift, hinv.shift_le, hinv.mask_eq, hinv.base_aligned,
      hwf⟩, hsame.numRegions, .inr ⟨rfl, fun x hx => hno x ((hsame.leaves x).mpr hx), fun x => ?_⟩⟩
    rw [← hsame.leaves x]
    exact hleaves x

/-! ### Remove a page, look up an address -/

/-- What `ucs_pgtable_remove_page` does to a well-formed table: it fails and changes nothing
when no leaf of the region covers the address, and otherwise takes that leaf out. -/
def RemovePageSpec (t : UcsPgtable) (a : ℕ) (r : UcsPgtRegion) : UcsStatus × UcsPgtable → Prop
  | (status, t') => (status = .errNoElem ∧ t' = t ∧ ∀ p o, t.HasLeaf (p, o, r) → ¬ Covers (p, o, r) a) ∨
    (status = .ok ∧ ∃ p o, t.HasLeaf (p, o, r) ∧ Covers (p, o, r) a ∧ t'.Inv ∧
      t'.numRegions = t.numRegions ∧ ∀ x, t'.HasLeaf x ↔ t.HasLeaf x ∧ x ≠ (p, o, r))

/-- **A page remove takes out the leaf of the region that covers the address.** -/
lemma ucsPgtableRemovePage_spec (h : t.Inv) (a : UInt64) (r : UcsPgtRegion) :
    RemovePageSpec t a.toNat r (ucsPgtableRemovePage t a r) := by
  unfold ucsPgtableRemovePage
  split
  · -- outside the block no leaf covers the address
    rename_i hout
    exact .inl ⟨rfl, rfl, fun p o hx hc => hout (h.and_mask_eq_of_covers hx hc)⟩
  · rename_i hin
    obtain ⟨hab, hae⟩ := (h.and_mask_eq_iff a).mp (by simpa using hin)
    have hspec := removePageRecurs_spec (r := r) h.wf h.shift_le h.base_aligned hab hae
    cases hrec : ucsPgtableRemovePageRecurs a r t.shift t.root with
    | none =>
      rw [hrec] at hspec
      exact .inl ⟨rfl, rfl, hspec⟩
    | some root =>
      rw [hrec] at hspec
      obtain ⟨p, o, hl, hc, hwf, hleaves⟩ := hspec
      have hshr := ucsPgtableShrinkAll_spec (t := { t with root })
        ⟨h.shift_mod, h.four_le_shift, h.shift_le, h.mask_eq, h.base_aligned, hwf⟩
      exact .inr ⟨rfl, p, o, hl, hc, hshr.inv, hshr.numRegions,
        fun x => (hshr.leaves x).trans (hleaves x)⟩

/-- A page remove at the start of a leaf of the region takes that leaf out. -/
lemma ucsPgtableRemovePage_of_hasLeaf (h : t.Inv) {a : UInt64} {o : ℕ} {r : UcsPgtRegion}
    (hl : t.HasLeaf (a.toNat, o, r)) :
    (ucsPgtableRemovePage t a r).1 = .ok ∧ (ucsPgtableRemovePage t a r).2.Inv ∧
      (ucsPgtableRemovePage t a r).2.numRegions = t.numRegions ∧
      ∀ x, (ucsPgtableRemovePage t a r).2.HasLeaf x ↔ t.HasLeaf x ∧ x ≠ (a.toNat, o, r) := by
  have hcov : Covers (a.toNat, o, r) a.toNat := ⟨le_rfl, by simp⟩
  have hspec := ucsPgtableRemovePage_spec h a r
  generalize ucsPgtableRemovePage t a r = res at hspec ⊢
  obtain ⟨status, t'⟩ := res
  rcases hspec with ⟨-, -, hno⟩ | ⟨rfl, p, o', hl', hc, hinv, hnum, hleaves⟩
  · exact absurd hcov (hno _ _ hl)
  · -- the leaf taken out is the one at `a`: only one leaf covers an address
    have heq := Leaf.eq_of_covers hl' hl h.wf hc hcov
    rw [heq] at hleaves
    exact ⟨rfl, hinv, hnum, hleaves⟩

/-- **A lookup finds the leaf that covers the address.** -/
lemma ucsPgtableLookup_eq_some_iff (h : t.Inv) (a : UInt64) (r : UcsPgtRegion) :
    ucsPgtableLookup t a = some r ↔ ∃ p o, t.HasLeaf (p, o, r) ∧ Covers (p, o, r) a.toNat := by
  unfold ucsPgtableLookup
  split
  · rename_i hout
    simp only [reduceCtorEq, false_iff, not_exists, not_and]
    exact fun p o hx hc => hout (h.and_mask_eq_of_covers hx hc)
  · rename_i hin
    obtain ⟨hab, hae⟩ := (h.and_mask_eq_iff a).mp (by simpa using hin)
    exact lookupRecurs_eq_some_iff h.wf h.shift_le h.base_aligned hab hae

/-! ### The page loops -/

/-- A page the loops pass to the page operations: aligned to its size, of order `4 + 4k` up
to 64. -/
def PageOk (pg : UInt64 × ℕ) : Prop := pg.1.toNat % 2 ^ pg.2 = 0 ∧ 4 ≤ pg.2 ∧ pg.2 % 4 = 0 ∧ pg.2 ≤ 64

/-- Page `p` ends where or before page `q` starts. -/
def PageBefore (p q : UInt64 × ℕ) : Prop := p.1.toNat + 2 ^ p.2 ≤ q.1.toNat

/-- The leaf that stores page `pg` of region `r`. -/
def pageLeaf (r : UcsPgtRegion) (pg : UInt64 × ℕ) : ℕ × ℕ × UcsPgtRegion := (pg.1.toNat, pg.2, r)

/-- A page that ends before another does not overlap it. -/
lemma not_overlaps_of_before {r : UcsPgtRegion} {p q : UInt64 × ℕ} (h : PageBefore p q) :
    ¬ Overlaps (pageLeaf r p) q.1.toNat q.2 := by
  simp only [Overlaps, pageLeaf, PageBefore] at h ⊢
  omega

/-- What the insert loop of `ucs_pgtable_insert` does with pages `l`: it inserts them all, when
no leaf overlaps any of them; or it stops at the first page that a leaf overlaps, with the pages
before it inserted. -/
def InsertPagesSpec (t : UcsPgtable) (r : UcsPgtRegion) (l : List (UInt64 × ℕ)) :
    Option (UcsStatus × UInt64) × UcsPgtable → Prop
  | (none, t') => t'.Inv ∧ t'.numRegions = t.numRegions ∧
    (∀ pg ∈ l, ∀ x, t.HasLeaf x → ¬ Overlaps x pg.1.toNat pg.2) ∧
    ∀ x, t'.HasLeaf x ↔ t.HasLeaf x ∨ ∃ pg ∈ l, x = pageLeaf r pg
  | (some (status, c), t') => status = .errAlreadyExists ∧ t'.Inv ∧ t'.numRegions = t.numRegions ∧
    ∃ pre o post, l = pre ++ (c, o) :: post ∧ (∃ x, t.HasLeaf x ∧ Overlaps x c.toNat o) ∧
      (∀ pg ∈ pre, ∀ x, t.HasLeaf x → ¬ Overlaps x pg.1.toNat pg.2) ∧
      ∀ x, t'.HasLeaf x ↔ t.HasLeaf x ∨ ∃ pg ∈ pre, x = pageLeaf r pg

/-- **The insert loop stops exactly at the first page that a leaf of the table overlaps.** The
pages are in order, so the pages it inserted never overlap a later one. -/
lemma insertPages_spec (r : UcsPgtRegion) {l : List (UInt64 × ℕ)} :
    ∀ {t : UcsPgtable}, t.Inv → (∀ pg ∈ l, PageOk pg) → l.Pairwise PageBefore →
      InsertPagesSpec t r l (insertPages r l t) := by
  induction l with
  | nil => exact fun h _ _ => ⟨h, rfl, by simp, by simp⟩
  | cons pg l ih =>
    intro t h hok hpw
    obtain ⟨c, o⟩ := pg
    obtain ⟨hal, ho4, ho, ho64⟩ := hok (c, o) List.mem_cons_self
    obtain ⟨hbefore, hpw⟩ := List.pairwise_cons.mp hpw
    have hspec := ucsPgtableInsertPage_spec h r hal ho4 ho ho64
    simp only [insertPages]
    generalize ucsPgtableInsertPage t c o r = res at hspec ⊢
    obtain ⟨status, t1⟩ := res
    obtain ⟨hinv, hnum, ⟨rfl, hov, hleaves⟩ | ⟨rfl, hno, hleaves⟩⟩ := hspec
    · -- the first page overlaps a leaf
      exact ⟨rfl, hinv, hnum, [], o, l, rfl, hov, by simp, by simpa using hleaves⟩
    · show InsertPagesSpec t r ((c, o) :: l) (insertPages r l t1)
      have hrest := ih hinv (fun pg hpg => hok pg (List.mem_cons_of_mem _ hpg)) hpw
      generalize insertPages r l t1 = res at hrest ⊢
      obtain ⟨_ | ⟨status, c'⟩, t2⟩ := res
      · obtain ⟨hinv2, hnum2, hno2, hleaves2⟩ := hrest
        refine ⟨hinv2, hnum2.trans hnum, fun pg hpg x hx => ?_, fun x => ?_⟩
        · rcases List.mem_cons.mp hpg with rfl | hpg
          · exact hno x hx
          · exact hno2 pg hpg x ((hleaves x).mpr (.inl hx))
        · rw [hleaves2, hleaves]
          simp only [List.mem_cons, exists_eq_or_imp, pageLeaf, or_assoc]
      · obtain ⟨rfl, hinv2, hnum2, pre, o', post, rfl, ⟨x, hx, hov⟩, hpre, hleaves2⟩ := hrest
        refine ⟨rfl, hinv2, hnum2.trans hnum, (c, o) :: pre, o', post, rfl, ⟨x, ?_, hov⟩,
          fun pg hpg y hy => ?_, fun y => ?_⟩
        · -- the leaf that stops the loop is not the first page, which ends before
          rcases (hleaves x).mp hx with hx | rfl
          · exact hx
          · exact absurd hov (not_overlaps_of_before (hbefore (c', o') (by simp)))
        · rcases List.mem_cons.mp hpg with rfl | hpg
          · exact hno y hy
          · exact hpre pg hpg y ((hleaves y).mpr (.inl hy))
        · rw [hleaves2, hleaves]
          simp only [List.mem_cons, exists_eq_or_imp, pageLeaf, or_assoc]

/-- One round of a loop that removes pages of `r`, all of them leaves, in order: the remove
succeeds, takes out the first page, and the later pages stay. -/
lemma removePage_step (h : t.Inv) {r : UcsPgtRegion} {pg : UInt64 × ℕ} {l : List (UInt64 × ℕ)}
    (hl : ∀ q ∈ pg :: l, t.HasLeaf (pageLeaf r q)) (hpw : (pg :: l).Pairwise PageBefore) :
    let t' := (ucsPgtableRemovePage t pg.1 r).2
    (ucsPgtableRemovePage t pg.1 r).1 = .ok ∧ t'.Inv ∧ t'.numRegions = t.numRegions ∧
      (∀ x, t'.HasLeaf x ↔ t.HasLeaf x ∧ x ≠ pageLeaf r pg) ∧ ∀ q ∈ l, t'.HasLeaf (pageLeaf r q) := by
  obtain ⟨hok, hinv, hnum, hleaves⟩ := ucsPgtableRemovePage_of_hasLeaf h (hl pg List.mem_cons_self)
  refine ⟨hok, hinv, hnum, hleaves, fun q hq => (hleaves _).mpr ⟨hl q (List.mem_cons_of_mem _ hq), ?_⟩⟩
  -- a later page starts after the first one ends
  have hb := List.rel_of_pairwise_cons hpw hq
  simp only [PageBefore] at hb
  simp only [pageLeaf, ne_eq, Prod.mk.injEq, not_and]
  have := Nat.one_le_two_pow (n := pg.2)
  omega

/-- **Removing pages that are all leaves, in order, takes exactly them out.** This is the
rollback of a failed insert. -/
lemma removeFold_spec (r : UcsPgtRegion) {l : List (UInt64 × ℕ)} :
    ∀ {t : UcsPgtable}, t.Inv → (∀ q ∈ l, t.HasLeaf (pageLeaf r q)) → l.Pairwise PageBefore →
      let t' := l.foldl (fun t page => (ucsPgtableRemovePage t page.1 r).2) t
      t'.Inv ∧ t'.numRegions = t.numRegions ∧
        ∀ x, t'.HasLeaf x ↔ t.HasLeaf x ∧ ∀ q ∈ l, x ≠ pageLeaf r q := by
  induction l with
  | nil => exact fun h _ _ => ⟨h, rfl, by simp⟩
  | cons pg l ih =>
    intro t h hl hpw
    obtain ⟨-, hinv, hnum, hleaves, hrest⟩ := removePage_step h hl hpw
    obtain ⟨hinv', hnum', hleaves'⟩ := ih hinv hrest (List.pairwise_cons.mp hpw).2
    refine ⟨hinv', hnum'.trans hnum, fun x => ?_⟩
    rw [List.foldl_cons, hleaves', hleaves, List.forall_mem_cons, and_assoc]

/-- The remove loop of `ucs_pgtable_remove` over pages that are all leaves removes them in turn,
as the rollback does. -/
lemma removePages_of_hasLeaf (r : UcsPgtRegion) {l : List (UInt64 × ℕ)} :
    ∀ {t : UcsPgtable}, t.Inv → (∀ q ∈ l, t.HasLeaf (pageLeaf r q)) → l.Pairwise PageBefore →
      removePages r l t = (.ok, l.foldl (fun t page => (ucsPgtableRemovePage t page.1 r).2) t) := by
  induction l with
  | nil => exact fun _ _ _ => rfl
  | cons pg l ih =>
    intro t h hl hpw
    obtain ⟨hok, hinv, -, -, hrest⟩ := removePage_step h hl hpw
    obtain ⟨c, o⟩ := pg
    simp only [removePages, List.foldl_cons]
    generalize ucsPgtableRemovePage t c r = res at hok hinv hrest ⊢
    obtain ⟨status, t1⟩ := res
    obtain rfl : status = .ok := hok
    exact ih hinv hrest (List.pairwise_cons.mp hpw).2

/-- The remove loop fails on its first page, and changes nothing, when no leaf is of the
region. -/
lemma removePages_of_no_leaf (h : t.Inv) {r : UcsPgtRegion} (hno : ∀ x, t.HasLeaf x → x.2.2 ≠ r)
    (pg : UInt64 × ℕ) (l : List (UInt64 × ℕ)) : removePages r (pg :: l) t = (.errNoElem, t) := by
  have hspec := ucsPgtableRemovePage_spec h pg.1 r
  obtain ⟨c, o⟩ := pg
  simp only [removePages]
  generalize ucsPgtableRemovePage t c r = res at hspec ⊢
  obtain ⟨status, t1⟩ := res
  rcases hspec with ⟨rfl, rfl, -⟩ | ⟨-, p, o', hl, -⟩
  · rfl
  · exact absurd rfl (hno _ hl)

end Table

end UcxProofs.Pgtable
