import UcxProofs.Lib.AddrBits
import UcxProofs.Pgtable

/-!
What a page-table entry holds: its region entries, each the page `[p, p + 2 ^ o)` of a region,
found by descending from the entry (`Leaf`). An entry covers `2 ^ shift` bytes from an address
aligned to that size; the entries of a directory cover a sixteenth each.

`WF` is the shape the operations keep: region entries cover pages of at least 16 bytes, and a
directory counts its present entries in `count` and has one. Over well-formed entries the three
descents of the source (insert, remove, lookup) act on the set of leaves: an insert adds a page
exactly when no leaf overlaps it, a remove takes out the leaf that holds the address, and a
lookup finds it.
-/

namespace UcxProofs.Pgtable

open AddrBits

/-- A region entry under `pte`, which covers `2 ^ shift` bytes from `base`: the page it covers,
as address and order, and its region. -/
inductive Leaf : UcsPgtEntry → ℕ → ℕ → ℕ × ℕ × UcsPgtRegion → Prop
  | region (r : UcsPgtRegion) (base shift : ℕ) : Leaf (.region r) base shift (base, shift, r)
  | dir {entries : Fin 16 → UcsPgtEntry} {count base shift : ℕ} {x : ℕ × ℕ × UcsPgtRegion}
      (i : Fin 16) (h : Leaf (entries i) (base + i.val * 2 ^ (shift - 4)) (shift - 4) x) :
      Leaf (.dir entries count) base shift x

section LeafLemmas

variable {b s : ℕ} {x : ℕ × ℕ × UcsPgtRegion}

@[simp] lemma leaf_empty : ¬ Leaf .empty b s x := by
  rintro ⟨⟩

@[simp] lemma leaf_region_iff {r : UcsPgtRegion} : Leaf (.region r) b s x ↔ x = (b, s, r) :=
  ⟨by rintro ⟨⟩; rfl, by rintro rfl; exact .region r b s⟩

@[simp] lemma leaf_dir_iff {entries : Fin 16 → UcsPgtEntry} {count : ℕ} :
    Leaf (.dir entries count) b s x ↔
      ∃ i : Fin 16, Leaf (entries i) (b + i.val * 2 ^ (s - 4)) (s - 4) x := by
  constructor
  · intro h
    cases h with
    | dir i h => exact ⟨i, h⟩
  · rintro ⟨i, h⟩
    exact .dir i h

end LeafLemmas

@[simp] lemma present_empty : UcsPgtEntry.empty.present = false := rfl
@[simp] lemma present_region (r : UcsPgtRegion) : (UcsPgtEntry.region r).present = true := rfl
@[simp] lemma present_dir (entries : Fin 16 → UcsPgtEntry) (count : ℕ) :
    (UcsPgtEntry.dir entries count).present = true := rfl

/-- The number of present entries of a directory. -/
def presentCount (entries : Fin 16 → UcsPgtEntry) : ℕ :=
  ∑ i, if (entries i).present then 1 else 0

/-- Replacing one entry changes the count by what the old and the new entry contribute. -/
lemma presentCount_update (entries : Fin 16 → UcsPgtEntry) (i : Fin 16) (e : UcsPgtEntry) :
    presentCount (Function.update entries i e) + (if (entries i).present then 1 else 0) =
      presentCount entries + (if e.present then 1 else 0) := by
  unfold presentCount
  have hupd : (fun j => if (Function.update entries i e j).present then 1 else 0) =
      Function.update (fun j => if (entries j).present then 1 else 0) i
        (if e.present then 1 else 0) := by
    funext j
    by_cases hj : j = i
    · subst hj; simp
    · simp [Function.update_of_ne hj]
  rw [hupd, Finset.sum_update_of_mem (Finset.mem_univ i), ← Finset.add_sum_erase _ _
    (Finset.mem_univ i), Finset.sdiff_singleton_eq_erase]
  ring

lemma presentCount_pos {entries : Fin 16 → UcsPgtEntry} (h : 0 < presentCount entries) :
    ∃ i, (entries i).present := by
  by_contra hne
  simp only [not_exists, Bool.not_eq_true] at hne
  simp [presentCount, hne] at h

/-- The shape the operations keep: region entries cover at least 16 bytes, directories at least
256, and a directory counts its present entries and has one. -/
def WF : UcsPgtEntry → ℕ → Prop
  | .empty, _ => True
  | .region _, shift => 4 ≤ shift
  | .dir entries count, shift =>
    8 ≤ shift ∧ count = presentCount entries ∧ 0 < count ∧ ∀ i, WF (entries i) (shift - 4)

@[simp] lemma wf_empty (s : ℕ) : WF .empty s := trivial

/-- The sixteen parts of a block of `2 ^ s` bytes. -/
lemma two_pow_eq_sixteen_mul {s : ℕ} (hs : 4 ≤ s) : 2 ^ s = 16 * 2 ^ (s - 4) := by
  rw [show (16 : ℕ) = 2 ^ 4 by rfl, ← pow_add]
  congr 1
  omega

/-- Part `i` of a block lies inside it. -/
lemma part_le {b s : ℕ} (hs : 4 ≤ s) (i : Fin 16) :
    b + i.val * 2 ^ (s - 4) + 2 ^ (s - 4) ≤ b + 2 ^ s := by
  rw [two_pow_eq_sixteen_mul hs]
  have : i.val * 2 ^ (s - 4) + 2 ^ (s - 4) ≤ 16 * 2 ^ (s - 4) := by
    rw [← Nat.succ_mul]
    exact Nat.mul_le_mul_right _ i.isLt
  omega

/-- Part `i` of an aligned block is aligned to its own size. -/
lemma part_aligned {b s : ℕ} (hb : b % 2 ^ s = 0) (i : Fin 16) :
    (b + i.val * 2 ^ (s - 4)) % 2 ^ (s - 4) = 0 := by
  have hdvd : 2 ^ (s - 4) ∣ b :=
    Nat.dvd_trans (Nat.pow_dvd_pow 2 (Nat.sub_le s 4)) (Nat.dvd_of_mod_eq_zero hb)
  exact Nat.mod_eq_zero_of_dvd (Nat.dvd_add hdvd (Nat.dvd_mul_left _ _))

/-- A leaf lies inside its entry's block, is at least 16 bytes, and its order is that of the
entry less a multiple of 4. -/
lemma Leaf.bounds {e : UcsPgtEntry} {b s p o : ℕ} {r : UcsPgtRegion} (h : Leaf e b s (p, o, r))
    (hwf : WF e s) : b ≤ p ∧ p + 2 ^ o ≤ b + 2 ^ s ∧ 4 ≤ o ∧ o ≤ s ∧ (s - o) % 4 = 0 := by
  generalize hx : (p, o, r) = x at h
  induction h with
  | region r' b' s' =>
    cases hx
    exact ⟨le_rfl, le_rfl, hwf, le_rfl, by simp⟩
  | @dir entries count b' s' x' i hchild ih =>
    subst hx
    obtain ⟨hs8, -, -, hwfs⟩ := hwf
    obtain ⟨h1, h2, h3, h4, h5⟩ := ih (hwfs i) rfl
    have hpart := part_le (b := b') (by omega : 4 ≤ s') i
    refine ⟨by omega, by omega, h3, by omega, by omega⟩

/-- A present well-formed entry holds a leaf. -/
lemma WF.exists_leaf {e : UcsPgtEntry} {s : ℕ} (hwf : WF e s) (hp : e.present) (b : ℕ) :
    ∃ x, Leaf e b s x := by
  induction e generalizing b s with
  | empty => simp [UcsPgtEntry.present] at hp
  | region r => exact ⟨_, .region r b s⟩
  | dir entries count ih =>
    obtain ⟨-, hcount, hpos, hwfs⟩ := hwf
    obtain ⟨i, hi⟩ := presentCount_pos (hcount ▸ hpos)
    obtain ⟨x, hx⟩ := ih i (hwfs i) hi (b + i.val * 2 ^ (s - 4))
    exact ⟨x, .dir i hx⟩

/-- Two parts of a block that share an address are the same part. -/
lemma part_eq_of_mem {b n a : ℕ} {i j : Fin 16} (hi : b + i.val * n ≤ a ∧ a < b + i.val * n + n)
    (hj : b + j.val * n ≤ a ∧ a < b + j.val * n + n) : i = j := by
  have hlt : ∀ {i j : Fin 16}, i.val < j.val → b + i.val * n + n ≤ b + j.val * n := by
    intro i j h
    have := Nat.mul_le_mul_right n (Nat.succ_le_of_lt h)
    rw [Nat.succ_mul] at this
    omega
  rcases lt_trichotomy i.val j.val with h | h | h
  · have := hlt h; omega
  · exact Fin.ext h
  · have := hlt h; omega

/-- The page of leaf `x` holds the address `a`. -/
def Covers (x : ℕ × ℕ × UcsPgtRegion) (a : ℕ) : Prop := x.1 ≤ a ∧ a < x.1 + 2 ^ x.2.1

/-- The page of leaf `x` and the block of `2 ^ o` bytes at `a` share an address. -/
def Overlaps (x : ℕ × ℕ × UcsPgtRegion) (a o : ℕ) : Prop := x.1 < a + 2 ^ o ∧ a < x.1 + 2 ^ x.2.1

/-- At most one leaf covers an address: the leaves of a well-formed entry do not overlap. -/
lemma Leaf.eq_of_covers {e : UcsPgtEntry} {b s a : ℕ} {x y : ℕ × ℕ × UcsPgtRegion}
    (hx : Leaf e b s x) (hy : Leaf e b s y) (hwf : WF e s) (hax : Covers x a) (hay : Covers y a) :
    x = y := by
  induction hx with
  | region r b' s' =>
    rw [leaf_region_iff] at hy
    exact hy.symm
  | @dir entries count b' s' x' i hchild ih =>
    obtain ⟨hs8, -, -, hwfs⟩ := hwf
    obtain ⟨j, hj⟩ := leaf_dir_iff.mp hy
    obtain ⟨p, o, r⟩ := x'
    obtain ⟨q, o', r'⟩ := y
    have bi := hchild.bounds (hwfs i)
    have bj := hj.bounds (hwfs j)
    have hij : i = j := part_eq_of_mem (b := b') (n := 2 ^ (s' - 4)) (a := a)
      (by simp only [Covers] at hax; omega) (by simp only [Covers] at hay; omega)
    subst hij
    exact ih hj (hwfs i) hax


/-! ### Directories with one entry replaced -/

lemma not_leaf_of_not_present {e : UcsPgtEntry} {b s : ℕ} {x : ℕ × ℕ × UcsPgtRegion}
    (h : e.present = false) : ¬ Leaf e b s x := by
  cases e <;> simp_all [UcsPgtEntry.present]

/-- The leaves of a directory with entry `i` replaced: those of the new entry, and those of the
other entries. -/
lemma leaf_dir_update_iff {entries : Fin 16 → UcsPgtEntry} {i : Fin 16} {e : UcsPgtEntry}
    {count b s : ℕ} {x : ℕ × ℕ × UcsPgtRegion} :
    Leaf (.dir (Function.update entries i e) count) b s x ↔
      Leaf e (b + i.val * 2 ^ (s - 4)) (s - 4) x ∨
        ∃ j ≠ i, Leaf (entries j) (b + j.val * 2 ^ (s - 4)) (s - 4) x := by
  rw [leaf_dir_iff]
  constructor
  · rintro ⟨j, hj⟩
    by_cases hji : j = i
    · subst hji
      exact .inl (by simpa using hj)
    · exact .inr ⟨j, hji, by simpa [Function.update_of_ne hji] using hj⟩
  · rintro (h | ⟨j, hji, hj⟩)
    · exact ⟨i, by simpa using h⟩
    · exact ⟨j, by simpa [Function.update_of_ne hji] using hj⟩

/-- A directory with one entry replaced by a well-formed one is well formed, with the count of
its present entries. -/
lemma wf_dir_update {entries : Fin 16 → UcsPgtEntry} {i : Fin 16} {e : UcsPgtEntry} {s : ℕ}
    (hwf : ∀ j, WF (entries j) (s - 4)) (he : WF e (s - 4)) (hs : 8 ≤ s)
    (hpos : 0 < presentCount (Function.update entries i e)) :
    WF (.dir (Function.update entries i e) (presentCount (Function.update entries i e))) s := by
  refine ⟨hs, rfl, hpos, fun j => ?_⟩
  by_cases hji : j = i
  · subst hji
    simpa using he
  · simpa [Function.update_of_ne hji] using hwf j

/-! ### The address of a descent -/

/-- `ucsPgtEntryIndex` is bits `s` to `s + 3` of the address. -/
lemma ucsPgtEntryIndex_val {a : UInt64} {s : ℕ} (hs : s < 64) :
    (ucsPgtEntryIndex a s).val = a.toNat / 2 ^ s % 16 := by
  unfold ucsPgtEntryIndex
  rw [Fin.val_ofNat, UInt64.toNat_and, toNat_shiftRight_of_lt hs,
    show (15 : UInt64).toNat = 2 ^ 4 - 1 from rfl, Nat.and_two_pow_sub_one_eq_mod, Nat.mod_mod]

/-- The descent from an entry of `2 ^ s` bytes that covers `a` goes to the part that covers `a`. -/
lemma mem_index_part {a : UInt64} {b s : ℕ} (hs4 : 4 ≤ s) (hs : s ≤ 64) (hb : b % 2 ^ s = 0)
    (hab : b ≤ a.toNat) (hae : a.toNat < b + 2 ^ s) :
    b + (ucsPgtEntryIndex a (s - 4)).val * 2 ^ (s - 4) ≤ a.toNat ∧
      a.toNat < b + (ucsPgtEntryIndex a (s - 4)).val * 2 ^ (s - 4) + 2 ^ (s - 4) := by
  rw [ucsPgtEntryIndex_val (by omega)]
  rw [two_pow_eq_sixteen_mul hs4] at hb hae
  exact part_bounds hb hab hae

/-- A leaf in part `j` that overlaps a page in part `i` is in part `i`. -/
lemma part_eq_of_overlaps {b n a o : ℕ} {i j : Fin 16} {x : ℕ × ℕ × UcsPgtRegion}
    (hx : b + j.val * n ≤ x.1 ∧ x.1 + 2 ^ x.2.1 ≤ b + j.val * n + n)
    (ha : b + i.val * n ≤ a ∧ a + 2 ^ o ≤ b + i.val * n + n) (hov : Overlaps x a o) : i = j := by
  obtain ⟨h1, h2⟩ := hov
  have := Nat.one_le_two_pow (n := o)
  have := Nat.one_le_two_pow (n := x.2.1)
  exact part_eq_of_mem (b := b) (n := n) (a := max x.1 a) (by omega) (by omega)

/-! ### Lookup -/

/-- **The lookup descent finds the leaf that covers the address.** -/
lemma lookupRecurs_eq_some_iff {e : UcsPgtEntry} {b s : ℕ} {a : UInt64} {r : UcsPgtRegion}
    (hwf : WF e s) (hs : s ≤ 64) (hb : b % 2 ^ s = 0) (hab : b ≤ a.toNat)
    (hae : a.toNat < b + 2 ^ s) :
    ucsPgtableLookupRecurs a s e = some r ↔ ∃ p o, Leaf e b s (p, o, r) ∧ Covers (p, o, r) a.toNat := by
  induction e generalizing b s with
  | empty => simp [ucsPgtableLookupRecurs]
  | region r' =>
    simp only [ucsPgtableLookupRecurs, Option.some.injEq, leaf_region_iff, Prod.mk.injEq]
    constructor
    · rintro rfl
      exact ⟨b, s, ⟨rfl, rfl, rfl⟩, hab, hae⟩
    · rintro ⟨p, o, ⟨rfl, rfl, rfl⟩, -⟩
      rfl
  | dir entries count ih =>
    obtain ⟨hs8, -, -, hwfs⟩ := hwf
    have hmem := mem_index_part (by omega) hs hb hab hae
    simp only [ucsPgtableLookupRecurs]
    rw [ih _ (hwfs _) (by omega) (part_aligned hb _) hmem.1 hmem.2]
    constructor
    · rintro ⟨p, o, hl, hc⟩
      exact ⟨p, o, .dir _ hl, hc⟩
    · rintro ⟨p, o, hl, hc⟩
      obtain ⟨j, hj⟩ := leaf_dir_iff.mp hl
      -- the covering leaf is in part `j`, and `a` is in the part the descent takes
      have bj := hj.bounds (hwfs j)
      have hji : j = ucsPgtEntryIndex a (s - 4) :=
        part_eq_of_mem (b := b) (a := a.toNat) (by simp only [Covers] at hc; omega) hmem
      subst hji
      exact ⟨p, o, hj, hc⟩

/-! ### Insert -/

lemma presentCount_pos_of_present {entries : Fin 16 → UcsPgtEntry} {i : Fin 16}
    (h : (entries i).present) : 0 < presentCount entries := by
  unfold presentCount
  calc 0 < (if (entries i).present then 1 else 0) := by simp [h]
    _ ≤ ∑ j, if (entries j).present then 1 else 0 :=
      Finset.single_le_sum (f := fun j => if (entries j).present then 1 else 0)
        (fun _ _ => Nat.zero_le _) (Finset.mem_univ i)

section DirEntries

/-! An insert descends through an entry that is not a region as through a directory: an empty
entry becomes a fresh directory with no present entry. -/

variable {pte : UcsPgtEntry} {s : ℕ} (hreg : pte.isRegion = false)
include hreg

lemma wf_dirEntries (hwf : WF pte s) (i : Fin 16) : WF (pte.dirEntries i) (s - 4) := by
  cases pte with
  | empty => trivial
  | region => simp [UcsPgtEntry.isRegion] at hreg
  | dir entries count => exact hwf.2.2.2 i

lemma dirCount_eq_presentCount (hwf : WF pte s) : pte.dirCount = presentCount pte.dirEntries := by
  cases pte with
  | empty => simp [UcsPgtEntry.dirCount, UcsPgtEntry.dirEntries, presentCount, UcsPgtEntry.present]
  | region => simp [UcsPgtEntry.isRegion] at hreg
  | dir entries count => exact hwf.2.1

lemma leaf_iff_dirEntries {b : ℕ} {x : ℕ × ℕ × UcsPgtRegion} :
    Leaf pte b s x ↔ ∃ j : Fin 16, Leaf (pte.dirEntries j) (b + j.val * 2 ^ (s - 4)) (s - 4) x := by
  cases pte with
  | empty => simp [UcsPgtEntry.dirEntries]
  | region => simp [UcsPgtEntry.isRegion] at hreg
  | dir entries count => exact leaf_dir_iff

end DirEntries

/-- What the insert descent does from an entry: it fails exactly when a leaf overlaps the page;
otherwise the entry after is well formed and present and holds the page as one more leaf. -/
def InsertSpec (e : UcsPgtEntry) (b s a o : ℕ) (r : UcsPgtRegion) : Option UcsPgtEntry → Prop
  | none => ∃ x, Leaf e b s x ∧ Overlaps x a o
  | some e' => (∀ x, Leaf e b s x → ¬ Overlaps x a o) ∧ WF e' s ∧ e'.present ∧
      ∀ x, Leaf e' b s x ↔ Leaf e b s x ∨ x = (a, o, r)

/-- **The insert descent adds the page exactly when no leaf overlaps it.** The induction follows
the descent: at the page's own level the entry must be empty; above it a region entry overlaps the
page, and a directory, or an empty entry that becomes one, passes the page to the part that holds
it. -/
lemma insertPageRecurs_spec {a : UInt64} {o : ℕ} {r : UcsPgtRegion} (ho : 4 ≤ o)
    (hao : a.toNat % 2 ^ o = 0) {s : ℕ} {e : UcsPgtEntry} :
    ∀ {b : ℕ}, WF e s → s ≤ 64 → b % 2 ^ s = 0 → o ≤ s → (s - o) % 4 = 0 → b ≤ a.toNat →
      a.toNat + 2 ^ o ≤ b + 2 ^ s →
      InsertSpec e b s a.toNat o r (ucsPgtableInsertPageRecurs a o r s e) := by
  have hpos := Nat.one_le_two_pow (n := o)
  fun_induction ucsPgtableInsertPageRecurs a o r s e with
  | case1 pte hp =>
    -- the page's own level is taken
    intro b hwf _ _ _ _ hab hae
    obtain ⟨⟨p, o', r'⟩, hx⟩ := hwf.exists_leaf hp b
    have := hx.bounds hwf
    have := Nat.one_le_two_pow (n := o')
    exact ⟨_, hx, by simp only [Overlaps]; omega⟩
  | case2 pte hp =>
    intro b hwf _ _ _ _ hab hae
    have hpe : pte.present = false := by simpa using hp
    have hba : a.toNat = b := by omega
    refine ⟨fun x hx => absurd hx (not_leaf_of_not_present hpe), ho, rfl, fun x => ?_⟩
    simp [not_leaf_of_not_present hpe, hba]
  | case3 shift pte hne hreg =>
    -- a region entry above the page's level overlaps it
    intro b hwf _ _ _ _ hab hae
    cases pte with
    | region r' => exact ⟨(b, shift, r'), .region r' b shift, by simp only [Overlaps]; omega⟩
    | _ => simp [UcsPgtEntry.isRegion] at hreg
  | case4 pte hreg n entries i hne =>
    rename_i ih
    rw [show n.succ.succ.succ.succ = n + 4 from rfl]
    intro b hwf hs hb hos hmod hab hae
    have hreg' : pte.isRegion = false := by simpa using hreg
    -- the page lies in part `i`
    have hmem := mem_index_part (s := n + 4) (by omega) hs hb hab (by omega)
    rw [Nat.add_sub_cancel] at hmem
    have hbi : (b + i.val * 2 ^ n) % 2 ^ n = 0 := by
      simpa using part_aligned (s := n + 4) hb i
    have hin : a.toNat + 2 ^ o ≤ b + i.val * 2 ^ n + 2 ^ n :=
      add_two_pow_le_of_aligned hao hbi (by omega) hmem.2
    have hwfs : ∀ j, WF (entries j) n := by simpa using wf_dirEntries hreg' hwf
    have hspec := ih (hwfs i) (by omega) hbi (by omega) (by omega) hmem.1 hin
    have hleaf : ∀ x, Leaf pte b (n + 4) x ↔ ∃ j : Fin 16, Leaf (entries j) (b + j.val * 2 ^ n) n x :=
      by simpa using fun x => leaf_iff_dirEntries hreg' (b := b) (s := n + 4) (x := x)
    -- leaves outside part `i` do not reach the page
    have hother : ∀ j ≠ i, ∀ x, Leaf (entries j) (b + j.val * 2 ^ n) n x → ¬ Overlaps x a.toNat o := by
      intro j hji x hx hov
      obtain ⟨p, o', r'⟩ := x
      have := hx.bounds (hwfs j)
      exact hji (part_eq_of_overlaps (n := 2 ^ n) (by simp only; omega) ⟨hmem.1, hin⟩ hov).symm
    cases hrec : ucsPgtableInsertPageRecurs a o r n (entries i) with
    | none =>
      rw [hrec] at hspec
      obtain ⟨x, hx, hov⟩ := hspec
      exact ⟨x, (hleaf x).mpr ⟨i, hx⟩, hov⟩
    | some e' =>
      rw [hrec] at hspec
      obtain ⟨hno, hwf', hpres, hleaves⟩ := hspec
      simp only [Option.map_some]
      have hcount : (if (entries i).present then pte.dirCount else pte.dirCount + 1) =
          presentCount (Function.update entries i e') := by
        have hupd := presentCount_update entries i e'
        have hdc : pte.dirCount = presentCount entries := dirCount_eq_presentCount hreg' hwf
        rw [hdc]
        cases hpi : (entries i).present <;> simp [hpi, hpres] at hupd ⊢ <;> omega
      refine ⟨fun x hx hov => ?_, ?_, rfl, fun x => ?_⟩
      · obtain ⟨j, hj⟩ := (hleaf x).mp hx
        by_cases hji : j = i
        · subst hji
          exact hno x hj hov
        · exact hother j hji x hj hov
      · rw [hcount]
        exact wf_dir_update (s := n + 4) (by simpa using hwfs) (by simpa using hwf') (by omega)
          (presentCount_pos_of_present (i := i) (by simpa using hpres))
      · rw [leaf_dir_update_iff, hleaf]
        simp only [Nat.add_sub_cancel, hleaves]
        constructor
        · rintro ((hx | rfl) | ⟨j, -, hj⟩)
          · exact .inl ⟨i, hx⟩
          · exact .inr rfl
          · exact .inl ⟨j, hj⟩
        · rintro (⟨j, hj⟩ | rfl)
          · by_cases hji : j = i
            · subst hji
              exact .inl (.inl hj)
            · exact .inr ⟨j, hji, hj⟩
          · exact .inl (.inr rfl)
  | case5 shift pte hne hreg hshift =>
    intro b _ _ _ hos _ _ _
    exact (hshift (shift - 4) (by omega)).elim

/-! ### Remove -/

lemma Leaf.present {e : UcsPgtEntry} {b s : ℕ} {x : ℕ × ℕ × UcsPgtRegion} (h : Leaf e b s x) :
    e.present := by
  cases h <;> rfl

lemma not_present_of_presentCount_eq_zero {entries : Fin 16 → UcsPgtEntry}
    (h : presentCount entries = 0) (j : Fin 16) : (entries j).present = false := by
  by_contra hj
  have := presentCount_pos_of_present (i := j) (by simpa using hj)
  omega

/-- What the remove descent does from an entry: it fails exactly when no leaf of the region
covers the address; otherwise it takes that leaf out. -/
def RemoveSpec (e : UcsPgtEntry) (b s a : ℕ) (r : UcsPgtRegion) : Option UcsPgtEntry → Prop
  | none => ∀ p o, Leaf e b s (p, o, r) → ¬ Covers (p, o, r) a
  | some e' => ∃ p o, Leaf e b s (p, o, r) ∧ Covers (p, o, r) a ∧ WF e' s ∧
      ∀ x, Leaf e' b s x ↔ Leaf e b s x ∧ x ≠ (p, o, r)

/-- **The remove descent takes out the leaf of the region that covers the address.** The
induction is on the entry; a directory whose last present entry goes becomes empty. -/
lemma removePageRecurs_spec {a : UInt64} {r : UcsPgtRegion} {e : UcsPgtEntry} :
    ∀ {b s : ℕ}, WF e s → s ≤ 64 → b % 2 ^ s = 0 → b ≤ a.toNat → a.toNat < b + 2 ^ s →
      RemoveSpec e b s a.toNat r (ucsPgtableRemovePageRecurs a r s e) := by
  induction e with
  | empty =>
    intro b s _ _ _ _ _
    simp [ucsPgtableRemovePageRecurs, RemoveSpec]
  | region r' =>
    intro b s hwf _ _ hab hae
    by_cases hr : r' = r
    · subst hr
      simp only [ucsPgtableRemovePageRecurs, ne_eq, not_true_eq_false, if_false]
      exact ⟨b, s, .region r' b s, ⟨hab, hae⟩, trivial, fun x => by simp⟩
    · simp only [ucsPgtableRemovePageRecurs, ne_eq, hr, not_false_eq_true, if_true]
      intro p o hl
      simp only [leaf_region_iff, Prod.mk.injEq] at hl
      exact absurd hl.2.2.symm hr
  | dir entries count ih =>
    intro b s hwf hs hb hab hae
    obtain ⟨hs8, hcount, hpos, hwfs⟩ := hwf
    have hmem := mem_index_part (by omega) hs hb hab hae
    set i := ucsPgtEntryIndex a (s - 4)
    have hspec := ih i (hwfs i) (by omega) (part_aligned hb i) hmem.1 hmem.2
    -- a leaf of the directory that covers `a` is in part `i`
    have hin : ∀ j x, Leaf (entries j) (b + j.val * 2 ^ (s - 4)) (s - 4) x → Covers x a.toNat →
        j = i := by
      intro j x hj hc
      obtain ⟨p, o, r'⟩ := x
      have := hj.bounds (hwfs j)
      exact part_eq_of_mem (b := b) (a := a.toNat) (by simp only [Covers] at hc; omega) hmem
    simp only [ucsPgtableRemovePageRecurs]
    cases hrec : ucsPgtableRemovePageRecurs a r (s - 4) (entries i) with
    | none =>
      rw [hrec] at hspec
      intro p o hl hc
      obtain ⟨j, hj⟩ := leaf_dir_iff.mp hl
      obtain rfl := hin j _ hj hc
      exact hspec p o hj hc
    | some e' =>
      rw [hrec] at hspec
      obtain ⟨p, o, hl, hc, hwf', hleaves⟩ := hspec
      have hcount' : (if e'.present then count else count - 1) =
          presentCount (Function.update entries i e') := by
        have hupd := presentCount_update entries i e'
        cases hp : e'.present <;> simp [hp, hl.present] at hupd ⊢ <;> omega
      dsimp only
      rw [hcount']
      cases Nat.eq_zero_or_pos (presentCount (Function.update entries i e')) with
      | inl h0 =>
        -- the directory has no present entry left, and the entry becomes empty
        rw [if_pos h0]
        refine ⟨p, o, .dir i hl, hc, trivial, fun x => ?_⟩
        have hnp := not_present_of_presentCount_eq_zero h0
        simp only [leaf_empty, false_iff, not_and, not_not]
        intro hx
        obtain ⟨j, hj⟩ := leaf_dir_iff.mp hx
        by_cases hji : j = i
        · subst hji
          by_contra hne
          have hp := ((hleaves x).mpr ⟨hj, hne⟩).present
          have hnp' := hnp i
          rw [Function.update_self] at hnp'
          exact absurd hp (by simp [hnp'])
        · have hnp' := hnp j
          rw [Function.update_of_ne hji] at hnp'
          exact absurd hj.present (by simp [hnp'])
      | inr h0 =>
        rw [if_neg (Nat.pos_iff_ne_zero.mp h0)]
        refine ⟨p, o, .dir i hl, hc, ?_, fun x => ?_⟩
        · exact wf_dir_update hwfs hwf' hs8 h0
        · rw [leaf_dir_update_iff, leaf_dir_iff, hleaves]
          constructor
          · rintro (⟨hx, hne⟩ | ⟨j, hji, hj⟩)
            · exact ⟨⟨i, hx⟩, hne⟩
            · refine ⟨⟨j, hj⟩, ?_⟩
              rintro rfl
              exact hji (hin j _ hj hc)
          · rintro ⟨⟨j, hj⟩, hne⟩
            by_cases hji : j = i
            · subst hji
              exact .inl ⟨hj, hne⟩
            · exact .inr ⟨j, hji, hj⟩

end UcxProofs.Pgtable
