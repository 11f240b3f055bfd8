import UcxProofs.Lib.AddrBits
import UcxProofs.Pgtable

/-!
The pages of a region. `ucs_pgtable_insert` and `ucs_pgtable_remove` cut `[start, end)` into
pages of orders `4, 8, …`: from each address the largest page that is aligned to its size and
ends by `end` (`le_getNextPageOrder_iff`). The pages tile the range in order
(`pagesFrom_pairwise`, `mem_range_iff_pagesFrom`), the fuel of the model does not change them
once it covers the range (`pagesFrom_fuel`), and the pages up to one of them are the pages
before it (`pagesFrom_upTo`): this is why the rollback of a failed insert, which recomputes
them up to the failing page, removes exactly the pages inserted.
-/

namespace UcxProofs.Pgtable

open AddrBits BitScan

/-! ### The order of the next page -/

lemma getNextPageOrder_mod_four (start e : UInt64) : ucsPgtableGetNextPageOrder start e % 4 = 0 := by
  simp only [ucsPgtableGetNextPageOrder]
  omega

lemma four_le_getNextPageOrder (start e : UInt64) : 4 ≤ ucsPgtableGetNextPageOrder start e := by
  simp only [ucsPgtableGetNextPageOrder]
  omega

/-- The length of a page as a minimum: its size divides the address and fits in the range. -/
lemma le_min_trailingZeros_log2_iff {s d m : ℕ} (hd0 : d ≠ 0) (hd : d < 2 ^ 64) :
    m ≤ min (trailingZeros 64 s) d.log2 ↔ 2 ^ m ∣ s ∧ 2 ^ m ≤ d := by
  rw [le_min_iff, Nat.le_log2 hd0]
  constructor
  · rintro ⟨hz, hl⟩
    have hm : m ≤ 64 := le_trans hz (trailingZeros_le 64 s)
    exact ⟨(le_trailingZeros_iff hm).mp hz, hl⟩
  · rintro ⟨hdvd, hl⟩
    -- a page that fits in the address space is shorter than `2 ^ 64`
    have hm : m ≤ 64 := by
      by_contra hm
      have := Nat.pow_le_pow_right (show 0 < 2 by norm_num) (show 64 ≤ m by omega)
      omega
    exact ⟨(le_trailingZeros_iff hm).mpr hdvd, hl⟩

/-- **The order of the next page is the largest order `4 + 4k` of an aligned page that fits.**
Among the multiples of 4, those up to `ucs_pgtable_get_next_page_order start end` are exactly
those of the pages at `start` aligned to their size that end by `end`. -/
lemma le_getNextPageOrder_iff {start e : UInt64} (hlt : start < e) (hs : start.toNat % 16 = 0)
    (he : e.toNat % 16 = 0) {m : ℕ} (hm : m % 4 = 0) :
    m ≤ ucsPgtableGetNextPageOrder start e ↔
      start.toNat % 2 ^ m = 0 ∧ start.toNat + 2 ^ m ≤ e.toNat := by
  have hlt' := UInt64.lt_iff_toNat_lt.mp hlt
  have hd : (e - start).toNat = e.toNat - start.toNat :=
    UInt64.toNat_sub_of_le e start (UInt64.le_of_lt hlt)
  have hd0 : (e - start).toNat ≠ 0 := by omega
  have hd64 : (e - start).toNat < 2 ^ 64 := UInt64.toNat_lt _
  -- the minimum, or the logarithm alone when `start` is 0, in the terms of the lemma above
  have hlen : ∀ n, n ≤ (if start ≠ 0 then min (ucsFfs64 start) (ucsIlog2 (e - start))
      else ucsIlog2 (e - start)) ↔ start.toNat % 2 ^ n = 0 ∧ start.toNat + 2 ^ n ≤ e.toNat := by
    intro n
    split
    · rw [ucsFfs64, ucsIlog2, le_min_trailingZeros_log2_iff hd0 hd64, Nat.dvd_iff_mod_eq_zero, hd]
      omega
    · rename_i h0
      have hz : start.toNat = 0 := by
        rw [not_not] at h0
        rw [h0, UInt64.toNat_zero]
      rw [ucsIlog2, Nat.le_log2 hd0, hd, hz]
      simp
  have hne : ¬ (e = 0 ∧ start = 0) := by
    rintro ⟨rfl, rfl⟩
    exact absurd hlt (by decide)
  have hne' : ¬ e = start := fun h => absurd hlt (by simp [h])
  simp only [ucsPgtableGetNextPageOrder, if_neg hne, if_neg hne']
  have h4 := (hlen 4).mpr ⟨by omega, by
    have : start.toNat + 16 ≤ e.toNat := by omega
    simpa using this⟩
  rw [← hlen m]
  omega

/-- The next page is aligned to its size and ends by `end`. -/
lemma getNextPageOrder_fits {start e : UInt64} (hlt : start < e) (hs : start.toNat % 16 = 0)
    (he : e.toNat % 16 = 0) :
    start.toNat % 2 ^ ucsPgtableGetNextPageOrder start e = 0 ∧
      start.toNat + 2 ^ ucsPgtableGetNextPageOrder start e ≤ e.toNat :=
  (le_getNextPageOrder_iff hlt hs he (getNextPageOrder_mod_four _ _)).mp le_rfl

/-- A page order that fits below the top of the address space is at most 60. -/
lemma le_sixty_of_fits {p o : ℕ} (ho : o % 4 = 0) (h : p + 2 ^ o < 2 ^ 64) : o ≤ 60 := by
  have h2 : 2 ^ o < 2 ^ 64 := by omega
  have : o < 64 := (Nat.pow_lt_pow_iff_right (show 1 < 2 by norm_num)).mp h2
  omega

/-- **Cutting at a later page boundary keeps the order.** If the page at `start` ends by `c`, and
`c` is at most `end`, the next page towards `c` is the next page towards `end`. -/
lemma getNextPageOrder_eq_of_le {start e c : UInt64} (hlt : start < e)
    (hs : start.toNat % 16 = 0) (he : e.toNat % 16 = 0) (hc : c.toNat % 16 = 0)
    (h1 : start.toNat + 2 ^ ucsPgtableGetNextPageOrder start e ≤ c.toNat) (h2 : c ≤ e) :
    ucsPgtableGetNextPageOrder start c = ucsPgtableGetNextPageOrder start e := by
  have hpos := Nat.one_le_two_pow (n := ucsPgtableGetNextPageOrder start e)
  have hlt' : start < c := UInt64.lt_iff_toNat_lt.mpr (by omega)
  have h2' := UInt64.le_iff_toNat_le.mp h2
  have hfe := getNextPageOrder_fits hlt hs he
  have hfc := getNextPageOrder_fits hlt' hs hc
  apply le_antisymm
  · exact (le_getNextPageOrder_iff hlt hs he (getNextPageOrder_mod_four _ _)).mpr ⟨hfc.1, by omega⟩
  · exact (le_getNextPageOrder_iff hlt' hs hc (getNextPageOrder_mod_four _ _)).mpr ⟨hfe.1, h1⟩

/-- `ucs_pgt_address_advance` past a page that ends below the top does not wrap. -/
lemma ucsPgtAddressAdvance_toNat {a : UInt64} {o : ℕ} (h : a.toNat + 2 ^ o < 2 ^ 64) :
    (ucsPgtAddressAdvance a o).toNat = a.toNat + 2 ^ o := by
  have h2 : 2 ^ o < 2 ^ 64 := by omega
  have ho : o < 64 := (Nat.pow_lt_pow_iff_right (show 1 < 2 by norm_num)).mp h2
  unfold ucsPgtAddressAdvance
  rw [UInt64.toNat_add, toNat_shiftLeft_of_lt ho (by simp; omega)]
  simp only [UInt64.toNat_one, one_mul]
  exact Nat.mod_eq_of_lt h

/-- One page: where it starts and ends, and where the next starts. -/
lemma nextPage_spec {a e : UInt64} (hlt : a < e) (ha : a.toNat % 16 = 0) (he : e.toNat % 16 = 0) :
    let o := ucsPgtableGetNextPageOrder a e
    a.toNat % 2 ^ o = 0 ∧ a.toNat + 2 ^ o ≤ e.toNat ∧
      (ucsPgtAddressAdvance a o).toNat = a.toNat + 2 ^ o ∧
      (ucsPgtAddressAdvance a o).toNat % 16 = 0 ∧ 16 ≤ 2 ^ o := by
  intro o
  obtain ⟨hal, hfit⟩ := getNextPageOrder_fits hlt ha he
  have h16 : 16 ≤ 2 ^ o := by
    simpa using Nat.pow_le_pow_right (show 0 < 2 by norm_num) (four_le_getNextPageOrder a e)
  have hadv := ucsPgtAddressAdvance_toNat (o := o) (lt_of_le_of_lt hfit (UInt64.toNat_lt e))
  have hdvd : 16 ∣ 2 ^ o := by
    simpa using Nat.pow_dvd_pow 2 (four_le_getNextPageOrder a e)
  refine ⟨hal, hfit, hadv, ?_, h16⟩
  rw [hadv]
  omega

/-! ### The pages of a range -/

section Pages

variable {e : UInt64}

/-- Every page visited is aligned to its size, of order `4 + 4k`, and inside the range. -/
lemma mem_pagesFrom (he : e.toNat % 16 = 0) {fuel : ℕ} :
    ∀ {a : UInt64}, a.toNat % 16 = 0 → ∀ {p : UInt64} {o : ℕ}, (p, o) ∈ pagesFrom e fuel a →
      a.toNat ≤ p.toNat ∧ p.toNat + 2 ^ o ≤ e.toNat ∧ p.toNat % 2 ^ o = 0 ∧ 4 ≤ o ∧ o % 4 = 0 := by
  induction fuel with
  | zero => simp [pagesFrom]
  | succ fuel ih =>
    intro a ha p o h
    simp only [pagesFrom] at h
    split at h
    · rename_i hlt
      obtain ⟨hal, hfit, hadv, hadv16, h16⟩ := nextPage_spec hlt ha he
      rcases List.mem_cons.mp h with h | h
      · -- the page at `a`
        obtain ⟨rfl, rfl⟩ := Prod.mk.inj h
        exact ⟨le_rfl, hfit, hal, four_le_getNextPageOrder _ _, getNextPageOrder_mod_four _ _⟩
      · obtain ⟨h1, h2⟩ := ih hadv16 h
        exact ⟨by omega, h2⟩
    · simp at h

/-- The pages come in order, each ending where or before the next starts. -/
lemma pagesFrom_pairwise (he : e.toNat % 16 = 0) {fuel : ℕ} :
    ∀ {a : UInt64}, a.toNat % 16 = 0 →
      (pagesFrom e fuel a).Pairwise (fun p q => p.1.toNat + 2 ^ p.2 ≤ q.1.toNat) := by
  induction fuel with
  | zero => simp [pagesFrom]
  | succ fuel ih =>
    intro a ha
    simp only [pagesFrom]
    split
    · rename_i hlt
      obtain ⟨-, -, hadv, hadv16, -⟩ := nextPage_spec hlt ha he
      refine List.pairwise_cons.mpr ⟨fun q hq => ?_, ih hadv16⟩
      have := (mem_pagesFrom he hadv16 (p := q.1) (o := q.2) hq).1
      dsimp only
      omega
    · exact List.Pairwise.nil

/-- With fuel for every page, the pages cover the range. -/
lemma mem_range_iff_pagesFrom (he : e.toNat % 16 = 0) {fuel : ℕ} :
    ∀ {a : UInt64}, a.toNat % 16 = 0 → (e.toNat - a.toNat) / 16 < fuel → ∀ x : ℕ,
      (a.toNat ≤ x ∧ x < e.toNat) ↔
        ∃ pg ∈ pagesFrom e fuel a, pg.1.toNat ≤ x ∧ x < pg.1.toNat + 2 ^ pg.2 := by
  induction fuel with
  | zero => intro a _ h; omega
  | succ fuel ih =>
    intro a ha hfuel x
    simp only [pagesFrom]
    split
    · rename_i hlt
      obtain ⟨-, hfit, hadv, hadv16, h16⟩ := nextPage_spec hlt ha he
      have hlt' := UInt64.lt_iff_toNat_lt.mp hlt
      -- the range is the first page and the range after it
      simp only [List.mem_cons, exists_eq_or_imp]
      rw [← ih hadv16 (by omega) x, hadv]
      omega
    · rename_i hlt
      have := UInt64.lt_iff_toNat_lt.not.mp hlt
      simp only [List.not_mem_nil, false_and, exists_const, iff_false, not_and, not_lt]
      omega

/-- **Fuel for every page gives the same pages.** -/
lemma pagesFrom_fuel (he : e.toNat % 16 = 0) {f : ℕ} :
    ∀ {a : UInt64} {g : ℕ}, a.toNat % 16 = 0 → (e.toNat - a.toNat) / 16 < f →
      (e.toNat - a.toNat) / 16 < g → pagesFrom e f a = pagesFrom e g a := by
  induction f with
  | zero => intro a g _ h; omega
  | succ f ih =>
    intro a g ha h1 h2
    obtain ⟨g, rfl⟩ : ∃ k, g = k + 1 := ⟨g - 1, by omega⟩
    simp only [pagesFrom]
    split
    · rename_i hlt
      obtain ⟨-, hfit, hadv, hadv16, h16⟩ := nextPage_spec hlt ha he
      rw [ih (g := g) hadv16 (by omega) (by omega)]
    · rfl

/-- **The pages up to a page boundary are the pages before it.** -/
lemma pagesFrom_upTo (he : e.toNat % 16 = 0) {c : UInt64} {o : ℕ}
    {post : List (UInt64 × ℕ)} :
    ∀ {pre : List (UInt64 × ℕ)} {a : UInt64} {f f' : ℕ}, a.toNat % 16 = 0 →
      pagesFrom e f a = pre ++ (c, o) :: post → (c.toNat - a.toNat) / 16 < f' →
      pagesFrom c f' a = pre := by
  intro pre
  induction pre with
  | nil =>
    intro a f f' _ h hf'
    obtain ⟨f, rfl⟩ : ∃ g, f = g + 1 := ⟨f - 1, by cases f <;> simp_all [pagesFrom]⟩
    obtain ⟨f', rfl⟩ : ∃ g, f' = g + 1 := ⟨f' - 1, by omega⟩
    simp only [pagesFrom, List.nil_append] at h ⊢
    split at h
    · -- the page that failed is the first: nothing before it
      obtain ⟨hpg, -⟩ := List.cons.inj h
      obtain ⟨rfl, -⟩ := Prod.mk.inj hpg
      simp
    · simp at h
  | cons pg pre ih =>
    intro a f f' ha h hf'
    obtain ⟨f, rfl⟩ : ∃ g, f = g + 1 := ⟨f - 1, by cases f <;> simp_all [pagesFrom]⟩
    simp only [pagesFrom, List.cons_append] at h
    split at h
    · rename_i hlt
      obtain ⟨hpg, hrest⟩ := List.cons.inj h
      obtain ⟨-, hfit, hadv, hadv16, h16⟩ := nextPage_spec hlt ha he
      -- the page `c` comes after the first page and ends by `end`
      have hc := mem_pagesFrom he hadv16 (p := c) (o := o) (by rw [hrest]; simp)
      have hc16 : c.toNat % 16 = 0 := by
        have : 16 ∣ 2 ^ o := by simpa using Nat.pow_dvd_pow 2 hc.2.2.2.1
        exact Nat.mod_eq_zero_of_dvd (Nat.dvd_trans this (Nat.dvd_of_mod_eq_zero hc.2.2.1))
      have hce : c ≤ e := UInt64.le_iff_toNat_le.mpr (by omega)
      have hac : a < c := UInt64.lt_iff_toNat_lt.mpr (by omega)
      obtain ⟨f', rfl⟩ : ∃ g, f' = g + 1 := ⟨f' - 1, by omega⟩
      simp only [pagesFrom, if_pos hac]
      rw [getNextPageOrder_eq_of_le hlt ha he hc16 (by omega) hce, ← hpg,
        ih hadv16 hrest (by omega)]
    · simp at h

end Pages

/-- The pages of a valid range: it is the range from `start` with fuel for every page. -/
lemma ucsPgtablePages_eq {start e : UInt64} (hle : start ≤ e) :
    ucsPgtablePages start e = pagesFrom e ((e.toNat - start.toNat) / 16 + 1) start := by
  rw [ucsPgtablePages, UInt64.toNat_sub_of_le e start hle]

/-- The insert loop stops, if it stops early, at one of the pages it is given. -/
lemma insertPages_eq_some {region : UcsPgtRegion} {status : UcsStatus} {c : UInt64}
    {t' : UcsPgtable} : ∀ {l : List (UInt64 × ℕ)} {t : UcsPgtable},
    insertPages region l t = (some (status, c), t') → ∃ pre o post, l = pre ++ (c, o) :: post := by
  intro l
  induction l with
  | nil => intro t h; simp [insertPages] at h
  | cons pg l ih =>
    intro t h
    obtain ⟨a, o⟩ := pg
    simp only [insertPages] at h
    split at h
    · obtain ⟨pre, o', post, rfl⟩ := ih h
      exact ⟨(a, o) :: pre, o', post, rfl⟩
    · -- the page at `a` failed
      simp only [Prod.mk.injEq, Option.some.injEq] at h
      obtain ⟨⟨-, rfl⟩, -⟩ := h
      exact ⟨[], o, l, rfl⟩

/-- **The pages of a range are a partition of it.** For a range `[start, end)` with both ends
16-byte aligned, the walk stops within `(end - start) / 16 + 1` pages, every page is aligned to
its size, of order `4 + 4k` and inside the range, the pages come in order without overlap and
cover every address of the range. Insert and remove walk these pages, and the rollback of an
insert that fails at a page walks exactly the pages before it. -/
theorem ucsPgtablePages_partition {start e : UInt64} (hs : start.toNat % 16 = 0)
    (he : e.toNat % 16 = 0) (hlt : start < e) :
    (∀ fuel, (e.toNat - start.toNat) / 16 < fuel →
        pagesFrom e fuel start = ucsPgtablePages start e) ∧
      (∀ pg ∈ ucsPgtablePages start e, pg.1.toNat % 2 ^ pg.2 = 0 ∧ (∃ k, pg.2 = 4 + 4 * k) ∧
        start.toNat ≤ pg.1.toNat ∧ pg.1.toNat + 2 ^ pg.2 ≤ e.toNat) ∧
      (ucsPgtablePages start e).Pairwise (fun p q => p.1.toNat + 2 ^ p.2 ≤ q.1.toNat) ∧
      (∀ x : ℕ, (start.toNat ≤ x ∧ x < e.toNat) ↔
        ∃ pg ∈ ucsPgtablePages start e, pg.1.toNat ≤ x ∧ x < pg.1.toNat + 2 ^ pg.2) ∧
      (∀ (region : UcsPgtRegion) (t : UcsPgtable) (status : UcsStatus) (c : UInt64)
        (t' : UcsPgtable), insertPages region (ucsPgtablePages start e) t = (some (status, c), t') →
        ∃ o post, ucsPgtablePages start e = ucsPgtablePages start c ++ (c, o) :: post) := by
  have hpages := ucsPgtablePages_eq (UInt64.le_of_lt hlt)
  have hfuel : (e.toNat - start.toNat) / 16 < (e.toNat - start.toNat) / 16 + 1 := Nat.lt_succ_self _
  refine ⟨fun fuel hf => ?_, fun pg hpg => ?_, ?_, ?_, ?_⟩
  · rw [hpages]
    exact pagesFrom_fuel he hs hf hfuel
  · rw [hpages] at hpg
    obtain ⟨hstart, hend, hal, h4, hmod⟩ := mem_pagesFrom he hs hpg
    exact ⟨hal, ⟨(pg.2 - 4) / 4, by omega⟩, hstart, hend⟩
  · rw [hpages]
    exact pagesFrom_pairwise he hs
  · rw [hpages]
    exact mem_range_iff_pagesFrom he hs hfuel
  · intro region t status c t' h
    obtain ⟨pre, o, post, hl⟩ := insertPages_eq_some h
    -- the failing page starts inside the range, so the pages up to it are those before it
    have hc := (mem_pagesFrom he hs (p := c) (o := o) (by rw [← hpages, hl]; simp)).1
    have hupTo : ucsPgtablePages start c = pre := by
      rw [ucsPgtablePages_eq (UInt64.le_iff_toNat_le.mpr hc)]
      exact pagesFrom_upTo he hs (by rw [← hpages, hl]) (Nat.lt_succ_self _)
    exact ⟨o, post, by rw [hupTo, hl]⟩

theorem ucsPgtablePages_partition_three_pages :
    (0 : UInt64).toNat % 16 = 0 ∧ (48 : UInt64).toNat % 16 = 0 ∧ (0 : UInt64) < 48 ∧
      ucsPgtablePages 0 48 = [(0, 4), (16, 4), (32, 4)] ∧
      ∀ x : ℕ, ((0 : UInt64).toNat ≤ x ∧ x < (48 : UInt64).toNat) ↔
        ∃ pg ∈ ucsPgtablePages 0 48, pg.1.toNat ≤ x ∧ x < pg.1.toNat + 2 ^ pg.2 :=
  ⟨by decide, by decide, by decide, by decide,
    (@ucsPgtablePages_partition 0 48 (by decide) (by decide) (by decide)).2.2.2.1⟩

end UcxProofs.Pgtable
