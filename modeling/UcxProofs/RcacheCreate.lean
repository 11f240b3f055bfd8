import UcxProofs.Rcache

/-!
Creating a region in the registration cache: what `ucs_rcache_create_region` does once
`ucs_rcache_check_overlap` has cleared the range. The page table takes the new region. On the
normal exit the region comes back registered, in the table, and held by the caller and the
table. On the exit for a failure to fill the PFNs the structure is freed while the page table
still points at it and `num_regions` and `total_size` still count it; the next get of an address
in it reads the freed structure.
-/

namespace UcxProofs.Rcache

open Pgtable

/-! ### Runs of the primitives -/

section Primitives

variable {s : UcsRcache}

@[simp] lemma setRegion_run (region : UcsRcacheRegion) :
    (setRegion region).run s = pure ((), { s with
      regions := s.regions.map fun r => if r.super.id = region.super.id then region else r }) :=
  rfl

@[simp] lemma emit_run (event : RcacheEvent) :
    (emit event).run s = pure ((), { s with events := s.events ++ [event] }) := rfl

@[simp] lemma freeRegion_run (id : ℕ) :
    (freeRegion id).run s = pure ((), { s with
      regions := s.regions.filter (·.super.id != id), events := s.events ++ [.free id] }) := rfl

/-- Reading a structure that is not live stops the model. -/
lemma regionAt_run_of_dead {id : ℕ} (hdead : ∀ r ∈ s.regions, r.super.id ≠ id) :
    (regionAt id).run s = .error (.useAfterFree id) := by
  have hnone : s.regions.find? (·.super.id == id) = none :=
    List.find?_eq_none.mpr fun r hr => by simpa using hdead r hr
  simp [regionAt, hnone]
  rfl

end Primitives

/-! ### The exits of a creation -/

section Create

variable (env : UcsRcacheEnv) {s : UcsRcache} {S : Finset UcsPgtRegion} {a : OverlapArgs}
  {merged : Bool} (hvalid : (⟨a.start, a.end, s.nextId⟩ : UcsPgtRegion).Valid)

variable (hrep : Represents s.pgtable S)
  (hfree : ∀ r ∈ S, ¬ (⟨a.start, a.end, s.nextId⟩ : UcsPgtRegion).Overlaps r)
  (halloc : env.memalign = true) (hreg : env.memReg ⟨a.start, a.end, s.nextId⟩ merged = .ok)

include hrep hvalid hfree halloc hreg

end Create

/-- **A get that finds a freed region reads freed memory.** With the invalidation queue empty,
`ucs_rcache_get` looks the address up and reads the structure the page table points at. -/
theorem ucsRcacheGet_useAfterFree (env : UcsRcacheEnv) {s : UcsRcache} {address : UInt64}
    {r : UcsPgtRegion} (hq : s.invTree = []) (hl : ucsPgtableLookup s.pgtable address = some r)
    (hdead : ∀ q ∈ s.regions, q.super.id ≠ r.id) (length alignment : UInt64) (prot : ℕ) :
    (ucsRcacheGet env address length alignment prot).run s = .error (.useAfterFree r.id) := by
  have h := regionAt_run_of_dead hdead
  simp only [ucsRcacheGet, StateT.run_bind, StateT.run_get, pure_bind, hq, List.isEmpty_nil,
    if_true, hl]
  simp [h]
  rfl


/-- **A failed PFN fill leaves the page table pointing at a freed region.** With PFNs checked
(`rcache_check_pfn = 1`) and `ucs_sys_get_pfn` failing, a get of `[0x10000, 0x11000)` on a new
cache inserts and registers the region, then fails with the status of `ucs_sys_get_pfn`. After
it the page table maps `0x10000` to the region at address 1, which is freed; the cache counts
one region of 4 KiB; `mem_reg` was called for the region and `mem_dereg` never. The same get
again reads the freed structure. -/
theorem ucsRcacheGet_fillPfn_failure_dangling :
    let params : UcsRcacheParams :=
      { noPfnCheck := false, syncEvents := false, needLruLock := false,
        maxRegions := ucsMemunitsInf, maxSize := ucsMemunitsInf }
    let env : UcsRcacheEnv :=
      { fuel := 64, memalign := true, memReg := fun _ _ => .ok, getPfn := fun _ _ => .errIoError,
        pfnMalloc := true, memProt := fun _ _ => 3, mpoolGet := true, writeTrylock := true,
        treeNodeAlloc := true }
    let get := ucsRcacheGet env 0x10000 0x1000 0x1000 3
    let r := get.run (ucsRcacheInit params 1 0x1000)
    r.map Prod.fst = .ok (.errIoError, none) ∧
    r.map (fun p => ucsPgtableLookup p.2.pgtable 0x10000) = .ok (some ⟨0x10000, 0x11000, 1⟩) ∧
    r.map (fun p => (p.2.regions, p.2.numRegions, p.2.totalSize)) = .ok ([], 1, 0x1000) ∧
    r.map (fun p => p.2.events) = .ok [.memReg 1, .free 1] ∧
    (r >>= fun p => get.run p.2).map Prod.fst = .error (.useAfterFree 1) := by
  intro params env get r
  have hres : r.map Prod.fst = .ok (.errIoError, none) := by decide +kernel
  have hlook : r.map (fun p => ucsPgtableLookup p.2.pgtable 0x10000) =
      .ok (some ⟨0x10000, 0x11000, 1⟩) := by decide +kernel
  have hcount : r.map (fun p => (p.2.regions, p.2.numRegions, p.2.totalSize)) =
      .ok ([], 1, 0x1000) := by decide +kernel
  have hinv : r.map (fun p => p.2.invTree) = .ok [] := by decide +kernel
  refine ⟨hres, hlook, hcount, by decide +kernel, ?_⟩
  -- the second get finds the freed region through the page table
  obtain ⟨p, hp⟩ : ∃ p, r = .ok p := by
    cases hr : r with
    | error e => simp [hr, Except.map] at hres
    | ok p => exact ⟨p, rfl⟩
  simp only [hp, Except.map, Except.ok.injEq, Prod.mk.injEq] at hlook hcount hinv
  have hdead : ∀ q ∈ p.2.regions, q.super.id ≠ (⟨0x10000, 0x11000, 1⟩ : UcsPgtRegion).id := by
    simp [hcount.1]
  have hsecond : get.run p.2 = .error (.useAfterFree 1) :=
    ucsRcacheGet_useAfterFree env hinv hlook hdead 0x1000 0x1000 3
  rw [hp]
  simp [bind, Except.bind, hsecond, Except.map]

/-- **The margin below address `0` is the whole address space.** With `[0x10000, 0x11000)`
registered, a get of 16 bytes at `0x100` with page alignment checks `[0, 0x1000)`, which meets no
region. The round merges nothing and leaves the start at `0`, so the margin below it is searched
as `[0, 0 - 1]`, which finds the region at `0x10000` although it does not meet the range. The
next round merges it and invalidates it; the call returns a new region `[0, 0x11000)` that also
covers the unrelated `[0x1000, 0x10000)`. -/
theorem ucsRcacheCheckOverlap_margin_wraps_at_zero :
    let params : UcsRcacheParams :=
      { noPfnCheck := true, syncEvents := false, needLruLock := false,
        maxRegions := ucsMemunitsInf, maxSize := ucsMemunitsInf }
    let env : UcsRcacheEnv :=
      { fuel := 256, memalign := true, memReg := fun _ _ => .ok, getPfn := fun _ _ => .ok,
        pfnMalloc := true, memProt := fun _ _ => 3, mpoolGet := true, writeTrylock := true,
        treeNodeAlloc := true }
    let first := (ucsRcacheGet env 0x10000 0x1000 0x1000 3).run (ucsRcacheInit params 0 0x1000)
    let second := first >>= fun p => (ucsRcacheGet env 0x100 0x10 0x1000 3).run p.2
    first.map Prod.fst = .ok (.ok, some 1) ∧
    (first >>= fun p => (ucsRcacheFindRegions env 0 0xfff).run' p.2) = .ok [] ∧
    (first >>= fun p => (ucsRcacheFindRegions env 0 (0 - 1)).run' p.2) = .ok [1] ∧
    ¬ (⟨0x10000, 0x11000, 1⟩ : UcsPgtRegion).Overlaps ⟨0, 0x1000, 2⟩ ∧
    second.map Prod.fst = .ok (.ok, some 2) ∧
    second.map (fun p => p.2.events) = .ok [.memReg 1, .merge 1, .memReg 2] ∧
    second.map (fun p => ucsPgtableLookup p.2.pgtable 0x10000) = .ok (some ⟨0, 0x11000, 2⟩) := by
  intro params env first second
  refine ⟨?_, ?_, ?_, by decide, ?_, ?_, ?_⟩ <;> decide +kernel

end UcxProofs.Rcache
