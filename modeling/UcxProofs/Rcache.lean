import UcxProofs.PgtableSearch
import UcxProofs.PgtableRefine

/-!
The registration cache of `ucs/memory/rcache.{c,inl}`: memory regions registered through the
callbacks `mem_reg` and `mem_dereg`, found by address in the page table, shared by the users
that hold them, and dropped when their memory is unmapped.

One thread runs the cache, so the locks are left out; an unmapped event runs between two calls.
What the cache asks of the outside (the callbacks, `ucs_sys_get_pfn`, the allocations,
`ucs_get_mem_prot`, the write trylock of the event handler) is answered by an environment
`UcsRcacheEnv`, which may fail each of them.

A region structure lives at an address, its `id`; the page table holds the `ucs_pgt_region_t`
of the structure with that `id`, as the source holds a pointer. The structures allocated and not
freed are the list `regions`. Reading a structure that is not on it is a use after free, and
the model stops there with `RcacheFault.useAfterFree`. A loop whose rounds no list bounds runs
on the `fuel` of the environment and stops with `RcacheFault.outOfFuel` when it runs out.

Left out: the statistics and the size distribution; `unreleased_size` and the wakeup of the
async pipe it triggers (the cleanup that wakeup runs is `ucsRcacheClean`); the PFN values,
whose validation only compares them and stops the process on a mismatch; the memory of the
PFN lists.
-/

namespace UcxProofs.Rcache

open Pgtable

/-! ### Arithmetic of `ucs/sys` -/

/-- `ucs_align_down_pow2`. -/
def ucsAlignDownPow2 (n alignment : UInt64) : UInt64 := n &&& ~~~(alignment - 1)

/-- `ucs_align_up_pow2`. -/
def ucsAlignUpPow2 (n alignment : UInt64) : UInt64 :=
  ucsAlignDownPow2 (n + alignment - 1) alignment

/-- `ucs_align_down`. -/
def ucsAlignDown (n alignment : UInt64) : UInt64 := n - n % alignment

/-- `ucs_align_up`, with `ucs_padding` written out. -/
def ucsAlignUp (n alignment : UInt64) : UInt64 := n + (alignment - n % alignment) % alignment

/-- `ucs_test_all_flags`. -/
def ucsTestAllFlags (value mask : ℕ) : Bool := value &&& mask == mask

/-- `UCS_MEMUNITS_INF`, `(size_t)-1`. -/
def ucsMemunitsInf : UInt64 := 0xffffffffffffffff

/-! ### State -/

/-- `ucs_rcache_lru_mode_t`; `byOtherLock` is `UCS_RCACHE_LRU_UNSAFE`, an LRU list that another
lock protects. -/
inductive UcsRcacheLruMode
  | disabled
  | locked
  | byOtherLock
  deriving DecidableEq, Repr

/-- `ucs_rcache_params_t`: the flags `UCS_RCACHE_FLAG_NO_PFN_CHECK`, `UCS_RCACHE_FLAG_SYNC_EVENTS`
and `UCS_RCACHE_FLAG_NEED_LRU_LOCK`, and the limits of the LRU. -/
structure UcsRcacheParams where
  noPfnCheck : Bool
  syncEvents : Bool
  needLruLock : Bool
  maxRegions : UInt64
  maxSize : UInt64
  deriving DecidableEq, Repr

/-- `ucs_rcache_region_t`: the page-table region `super`, the flags
`UCS_RCACHE_REGION_FLAG_REGISTERED` and `UCS_RCACHE_REGION_FLAG_PGTABLE`, the LRU flag
`UCS_RCACHE_LRU_FLAG_IN_LRU`, and the arguments of the completions on `comp_list`. -/
structure UcsRcacheRegion where
  super : UcsPgtRegion
  registered : Bool
  pgtable : Bool
  inLru : Bool
  refcount : UInt32
  status : UcsStatus
  prot : ℕ
  alignment : UInt64
  compList : List ℕ
  deriving DecidableEq, Repr

/-- A region structure as `memset` leaves it, for the range `super`. -/
def UcsRcacheRegion.zeroed (super : UcsPgtRegion) : UcsRcacheRegion :=
  { super, registered := false, pgtable := false, inLru := false, refcount := 0, status := .ok,
    prot := 0, alignment := 0, compList := [] }

/-- The calls the cache makes to the outside, and the frees of region structures. -/
inductive RcacheEvent
  | memReg (id : ℕ)
  | memDereg (id : ℕ)
  | merge (id : ℕ)
  | comp (arg : ℕ)
  | free (id : ℕ)
  deriving DecidableEq, Repr

/-- `ucs_rcache_t`, with `ucs_global_opts.rcache_check_pfn` and the page size. The invalidation
tree `inv_tree` is the list of its ranges in order of start; `gc_list` and the LRU list hold
region addresses. `events` records what the cache called, in order. -/
structure UcsRcache where
  params : UcsRcacheParams
  checkPfn : ℕ
  pageSize : UInt64
  lruMode : UcsRcacheLruMode
  pgtable : UcsPgtable
  regions : List UcsRcacheRegion
  nextId : ℕ
  invTree : List (UInt64 × UInt64)
  gcList : List ℕ
  lru : List ℕ
  numRegions : UInt64
  totalSize : UInt64
  events : List RcacheEvent

/-- The answers of the outside world to one call of the cache: the result of `mem_reg` for a
region (and whether errors are hidden, the region being merged), of `ucs_sys_get_pfn` at an
address for a number of pages, of `ucs_get_mem_prot` on a range, of the allocations and of the
write trylock; and the fuel of the loops. -/
structure UcsRcacheEnv where
  fuel : ℕ
  memalign : Bool
  memReg : UcsPgtRegion → Bool → UcsStatus
  getPfn : UInt64 → ℕ → UcsStatus
  pfnMalloc : Bool
  memProt : UInt64 → UInt64 → ℕ
  mpoolGet : Bool
  writeTrylock : Bool
  treeNodeAlloc : Bool

/-- Where the model stops: a freed region structure is read, or a loop ran out of fuel. -/
inductive RcacheFault
  | useAfterFree (id : ℕ)
  | outOfFuel
  deriving DecidableEq, Repr

/-- The cache's computations. -/
abbrev RcacheM := StateT UcsRcache (Except RcacheFault)

/-- `ucs_rcache_lru_get_mode`. -/
def ucsRcacheLruGetMode (params : UcsRcacheParams) : UcsRcacheLruMode :=
  if params.maxSize = ucsMemunitsInf ∧ params.maxRegions = ucsMemunitsInf then .disabled
  else if params.needLruLock then .locked
  else .byOtherLock

/-- The cache as `UCS_CLASS_INIT_FUNC(ucs_rcache_t)` leaves it. Allocations take fresh
addresses from 1 up. -/
def ucsRcacheInit (params : UcsRcacheParams) (checkPfn : ℕ) (pageSize : UInt64) : UcsRcache where
  params := params
  checkPfn := checkPfn
  pageSize := pageSize
  lruMode := ucsRcacheLruGetMode params
  pgtable := ucsPgtableInit
  regions := []
  nextId := 1
  invTree := []
  gcList := []
  lru := []
  numRegions := 0
  totalSize := 0
  events := []

/-! ### Region structures -/

/-- Dereference the region at `id`. -/
def regionAt (id : ℕ) : RcacheM UcsRcacheRegion := do
  match (← get).regions.find? (·.super.id == id) with
  | some region => pure region
  | none => throw (.useAfterFree id)

/-- Write the fields of a region back. -/
def setRegion (region : UcsRcacheRegion) : RcacheM Unit :=
  modify fun s => { s with
    regions := s.regions.map fun r => if r.super.id = region.super.id then region else r }

/-- Record a call to the outside. -/
def emit (event : RcacheEvent) : RcacheM Unit :=
  modify fun s => { s with events := s.events ++ [event] }

/-- `ucs_free` of a region structure. -/
def freeRegion (id : ℕ) : RcacheM Unit := do
  modify fun s => { s with regions := s.regions.filter (·.super.id != id) }
  emit (.free id)

/-- `ucs_rcache_region_test`: registered, with the protection asked for, and aligned enough. -/
def ucsRcacheRegionTest (region : UcsRcacheRegion) (prot : ℕ) (alignment : UInt64) : Bool :=
  region.registered && ucsTestAllFlags region.prot prot &&
    (alignment == 1 || region.alignment ≥ alignment)

/-- `ucs_rcache_region_hold`. -/
def ucsRcacheRegionHold (id : ℕ) : RcacheM Unit := do
  let region ← regionAt id
  setRegion { region with refcount := region.refcount + 1 }

/-- `ucs_rcache_region_lru_get_impl`. -/
def ucsRcacheRegionLruGetImpl (id : ℕ) : RcacheM Unit := do
  let region ← regionAt id
  modify fun s => { s with lru := s.lru.erase id }
  setRegion { region with inLru := false }

/-- `ucs_rcache_region_lru_get`: a region in use leaves the LRU list. -/
def ucsRcacheRegionLruGet (id : ℕ) : RcacheM Unit := do
  if (← get).lruMode = .disabled then return
  let region ← regionAt id
  if !region.inLru then return
  ucsRcacheRegionLruGetImpl id

/-- `ucs_rcache_region_lru_put`: a region no longer used joins the end of the LRU list. -/
def ucsRcacheRegionLruPut (id : ℕ) : RcacheM Unit := do
  if (← get).lruMode = .disabled then return
  let region ← regionAt id
  if region.inLru then return
  modify fun s => { s with lru := s.lru ++ [id] }
  setRegion { region with inLru := true }

/-- `ucs_rcache_region_page_count`. -/
def ucsRcacheRegionPageCount (pageSize : UInt64) (region : UcsPgtRegion) : UInt32 :=
  ((ucsAlignUp region.end pageSize - ucsAlignDown region.start pageSize) / pageSize).toUInt32

section Operations

variable (env : UcsRcacheEnv)

/-- `ucs_rcache_fill_pfn`, which reads only the range of the region. -/
def ucsRcacheFillPfn (checkPfn : ℕ) (pageSize : UInt64) (region : UcsPgtRegion) : UcsStatus :=
  if checkPfn = 0 then .ok
  else if checkPfn = 1 then env.getPfn region.start 1
  else if !env.pfnMalloc then .errNoMemory
  else env.getPfn region.start (min (ucsRcacheRegionPageCount pageSize region).toNat checkPfn)

/-! ### Destruction and invalidation -/

/-- `ucs_mem_region_destroy_internal`. -/
def ucsMemRegionDestroyInternal (id : ℕ) : RcacheM Unit := do
  let region ← regionAt id
  if region.registered then emit (.memDereg id)
  ucsRcacheRegionLruGet id
  modify fun s => { s with
    numRegions := s.numRegions - 1
    totalSize := s.totalSize - (region.super.end - region.super.start) }
  region.compList.forM fun arg => emit (.comp arg)
  freeRegion id

/-- `ucs_rcache_region_put_internal`. Of its flags only `UCS_RCACHE_REGION_PUT_FLAG_ADD_TO_GC`
changes what it does; the others take the lock or are checked by assertions. -/
def ucsRcacheRegionPutInternal (addToGc : Bool) (id : ℕ) : RcacheM Unit := do
  let region ← regionAt id
  setRegion { region with refcount := region.refcount - 1 }
  if region.refcount != 1 then return
  if addToGc then
    modify fun s => { s with gcList := s.gcList ++ [id] }
  else
    ucsMemRegionDestroyInternal id

/-- `ucs_rcache_region_invalidate_internal`. -/
def ucsRcacheRegionInvalidateInternal (addToGc : Bool) (id : ℕ) : RcacheM Unit := do
  let region ← regionAt id
  if region.pgtable then
    -- a failure to remove is only reported
    let t := (ucsPgtableRemove (← get).pgtable region.super).2
    modify fun s => { s with pgtable := t }
    setRegion { region with pgtable := false }
    ucsRcacheRegionPutInternal addToGc id

/-- `ucs_rcache_find_regions`: the regions that `ucs_pgtable_search_range` passes to its
callback, in order. -/
def ucsRcacheFindRegions («from» «to» : UInt64) : RcacheM (List ℕ) := do
  match ucsPgtableSearchRange env.fuel (← get).pgtable «from» «to» with
  | some found => pure (found.map (·.id))
  | none => throw .outOfFuel

/-- `ucs_rcache_invalidate_range`. -/
def ucsRcacheInvalidateRange (start «end» : UInt64) (addToGc : Bool) : RcacheM Unit := do
  let found ← ucsRcacheFindRegions env start («end» - 1)
  found.forM (ucsRcacheRegionInvalidateInternal addToGc)

/-! ### The invalidation queue -/

/-- The test of `ucs_interval_tree_find_overlap`: the ranges overlap or touch. -/
def ucsIntervalTouches (range node : UInt64 × UInt64) : Bool :=
  range.1 ≤ node.2 + 1 && node.1 ≤ range.2 + 1

/-- `ucs_interval_tree_remove_overlapping`: take out the nodes that touch the range, widening it
over each. The tree finds them in the order of its shape and the list in order of start; both
stop when no node touches the widened range. Each round takes out a node, so the length of the
list bounds the rounds. -/
def ucsIntervalTreeRemoveOverlapping :
    ℕ → UInt64 × UInt64 → List (UInt64 × UInt64) → (UInt64 × UInt64) × List (UInt64 × UInt64)
  | 0, range, nodes => (range, nodes)
  | fuel + 1, range, nodes =>
    match nodes.find? (ucsIntervalTouches range) with
    | none => (range, nodes)
    | some node =>
      ucsIntervalTreeRemoveOverlapping fuel (min range.1 node.1, max range.2 node.2)
        (nodes.erase node)

/-- `ucs_interval_tree_insert_slow`. When the node cannot be allocated, the nodes merged into it
are already gone. A new node goes after the nodes that start no later. -/
def ucsIntervalTreeInsertSlow (nodeAlloc : Bool) (tree : List (UInt64 × UInt64))
    (range : UInt64 × UInt64) : UcsStatus × List (UInt64 × UInt64) :=
  let (merged, rest) := ucsIntervalTreeRemoveOverlapping tree.length range tree
  if nodeAlloc then
    let (before, after) := rest.span (·.1 ≤ merged.1)
    (.ok, before ++ merged :: after)
  else (.errNoMemory, rest)

/-- `ucs_interval_tree_insert`: a range that touches the only node widens it. -/
def ucsIntervalTreeInsert (nodeAlloc : Bool) (tree : List (UInt64 × UInt64))
    (range : UInt64 × UInt64) : UcsStatus × List (UInt64 × UInt64) :=
  match tree with
  | [root] =>
    if ucsIntervalTouches range root then (.ok, [(min root.1 range.1, max root.2 range.2)])
    else ucsIntervalTreeInsertSlow nodeAlloc tree range
  | _ => ucsIntervalTreeInsertSlow nodeAlloc tree range

/-- The loop of `ucs_rcache_check_inv_queue`, which pops the first range
(`ucs_interval_tree_pop_any`) and invalidates it. -/
def checkInvQueueLoop (addToGc : Bool) (fuel : ℕ) : RcacheM Unit := do
  match (← get).invTree, fuel with
  | [], _ => pure ()
  | _ :: _, 0 => throw .outOfFuel
  | range :: rest, fuel + 1 =>
    modify fun s => { s with invTree := rest }
    ucsRcacheInvalidateRange env range.1 range.2 addToGc
    checkInvQueueLoop addToGc fuel

/-- `ucs_rcache_check_inv_queue`. Nothing in a round adds a range, so the number of ranges
bounds the rounds. -/
def ucsRcacheCheckInvQueue (addToGc : Bool) : RcacheM Unit := do
  checkInvQueueLoop env addToGc (← get).invTree.length

/-- The loop of `ucs_rcache_check_gc_list`, which destroys the regions of the list in order. -/
def checkGcListLoop (fuel : ℕ) : RcacheM Unit := do
  match (← get).gcList, fuel with
  | [], _ => pure ()
  | _ :: _, 0 => throw .outOfFuel
  | id :: rest, fuel + 1 =>
    modify fun s => { s with gcList := rest }
    ucsMemRegionDestroyInternal id
    checkGcListLoop fuel

/-- `ucs_rcache_check_gc_list`. A destroy adds nothing to the list. -/
def ucsRcacheCheckGcList : RcacheM Unit := do
  checkGcListLoop (← get).gcList.length

/-- `ucs_rcache_unmapped_callback` for the range `[address, address + size)` of a
`UCM_EVENT_VM_UNMAPPED` or `UCM_EVENT_MEM_TYPE_FREE` event. Without `SYNC_EVENTS`, and if it gets
the lock, it invalidates the range at once and puts the regions that drop to no reference on the
GC list; otherwise it queues the range. -/
def ucsRcacheUnmappedCallback (address size : UInt64) : RcacheM Unit := do
  let start := address
  let «end» := address + size
  if !(← get).params.syncEvents && env.writeTrylock then
    ucsRcacheInvalidateRange env start «end» true
    ucsRcacheCheckInvQueue env true
  else
    -- a failed insert is only reported
    let tree := (ucsIntervalTreeInsert env.treeNodeAlloc (← get).invTree (start, «end»)).2
    modify fun s => { s with invTree := tree }

/-- `ucs_rcache_clean`. -/
def ucsRcacheClean : RcacheM Unit := do
  ucsRcacheCheckInvQueue env false
  ucsRcacheCheckGcList

/-! ### LRU eviction -/

/-- The loop of `ucs_rcache_lru_evict`. Each round takes the head off the list: a region in use
or out of the page table leaves it, and an unused one is invalidated and destroyed. -/
def lruEvictLoop (fuel : ℕ) : RcacheM Unit := do
  let s ← get
  match s.lru, fuel with
  | [], _ => pure ()
  | id :: _, fuel =>
    if s.numRegions > s.params.maxRegions || s.totalSize > s.params.maxSize then
      match fuel with
      | 0 => throw .outOfFuel
      | fuel + 1 =>
        let region ← regionAt id
        if !region.pgtable || region.refcount > 1 then
          ucsRcacheRegionLruGetImpl id
        else
          ucsRcacheRegionInvalidateInternal false id
        lruEvictLoop fuel

/-- `ucs_rcache_lru_evict`. -/
def ucsRcacheLruEvict : RcacheM Unit := do
  if (← get).lruMode = .disabled then return
  lruEvictLoop (← get).lru.length

/-! ### Creating a region -/

/-- The range, alignment and protection that `ucs_rcache_check_overlap` updates through its
pointers. -/
structure OverlapArgs where
  start : UInt64
  «end» : UInt64
  alignment : UInt64
  prot : ℕ
  deriving DecidableEq, Repr

/-- `ucs_rcache_check_overlap_one`: merge with the region, or invalidate it when the memory does
not allow the protection of both. -/
def ucsRcacheCheckOverlapOne (a : OverlapArgs) (id : ℕ) : RcacheM (UcsStatus × OverlapArgs) := do
  let region ← regionAt id
  let mut prot := a.prot
  if !ucsTestAllFlags a.prot region.prot then
    let memProt := env.memProt a.start a.end
    if !ucsTestAllFlags memProt a.prot then
      ucsRcacheRegionInvalidateInternal false id
      return (.errCanceled, a)
    else if ucsTestAllFlags memProt region.prot then
      prot := a.prot ||| region.prot
    else
      ucsRcacheRegionInvalidateInternal false id
      return (.errCanceled, a)
  emit (.merge id)
  let a : OverlapArgs :=
    { start := min a.start region.super.start, «end» := max a.end region.super.end,
      alignment := max a.alignment region.alignment, prot }
  ucsRcacheRegionInvalidateInternal false id
  return (.ok, a)

/-- The `do … while` loop of `ucs_rcache_check_overlap`: merge the regions found, align the
widened range, and go on with the regions in what the widening added. -/
def checkOverlapLoop (fuel : ℕ) (a : OverlapArgs) (merged : Bool) (found : List ℕ) :
    RcacheM (OverlapArgs × Bool) := do
  let oldStart := a.start
  let oldEnd := a.end
  let (a, merged) ← found.foldlM (fun (a, merged) id => do
      let (status, a) ← ucsRcacheCheckOverlapOne env a id
      pure (a, merged || status == .ok)) (a, merged)
  let a := { a with
    start := ucsAlignDownPow2 a.start a.alignment, «end» := ucsAlignUpPow2 a.end a.alignment }
  let found₁ ← ucsRcacheFindRegions env a.start (oldStart - 1)
  let found₂ ← ucsRcacheFindRegions env oldEnd (a.end - 1)
  match found₁ ++ found₂, fuel with
  | [], _ => pure (a, merged)
  | _ :: _, 0 => throw .outOfFuel
  | found, fuel + 1 => checkOverlapLoop fuel a merged found

/-- What `ucs_rcache_check_overlap` returns: `UCS_ERR_ALREADY_EXISTS` with a region that
contains the range and is now held, or `UCS_OK` with the widened arguments and whether a region
was merged. It returns no other status. -/
inductive OverlapResult
  | alreadyExists (id : ℕ)
  | ok (a : OverlapArgs) (merged : Bool)

/-- `ucs_rcache_check_overlap`. -/
def ucsRcacheCheckOverlap (a : OverlapArgs) : RcacheM OverlapResult := do
  ucsRcacheCheckInvQueue env false
  ucsRcacheCheckGcList
  let found ← ucsRcacheFindRegions env a.start (a.end - 1)
  if let [id] := found then
    let region ← regionAt id
    if a.start ≥ region.super.start && a.end ≤ region.super.end &&
        ucsRcacheRegionTest region a.prot a.alignment then
      ucsRcacheRegionHold id
      return .alreadyExists id
  let (a, merged) ← checkOverlapLoop env env.fuel a false found
  return .ok a merged

/-- The part of `ucs_rcache_create_region` after `ucs_rcache_check_overlap` returned `UCS_OK`:
allocate the region, insert it into the page table, register it and fill its PFNs. It returns
the status and region of the call, or `none` when a merged region failed to register and the
call goes back to `retry`. -/
def ucsRcacheCreateRegionNew (a : OverlapArgs) (merged : Bool) :
    RcacheM (Option (UcsStatus × Option ℕ)) := do
  if !env.memalign then return some (.errNoMemory, none)
  let s ← get
  let id := s.nextId
  let super : UcsPgtRegion := ⟨a.start, a.end, id⟩
  set { s with nextId := id + 1, regions := s.regions ++ [UcsRcacheRegion.zeroed super] }
  let (status, t) := ucsPgtableInsert s.pgtable super
  modify fun s => { s with pgtable := t }
  if status != .ok then
    freeRegion id
    return some (status, none)
  let region : UcsRcacheRegion :=
    { UcsRcacheRegion.zeroed super with
      prot := a.prot, pgtable := true, refcount := 1, status := .inprogress,
      alignment := a.alignment }
  setRegion region
  modify fun s => { s with
    numRegions := s.numRegions + 1, totalSize := s.totalSize + (a.end - a.start) }
  emit (.memReg id)
  let status := env.memReg super merged
  setRegion { region with status }
  if status != .ok then
    if merged then
      -- the merge may be what failed: drop the region and start again from the request
      ucsRcacheRegionInvalidateInternal false id
      return none
    return some (status, none)
  setRegion { region with status, registered := true, refcount := 2 }
  let s ← get
  if !s.params.noPfnCheck then
    let status := ucsRcacheFillPfn env s.checkPfn s.pageSize super
    if status != .ok then
      freeRegion id
      return some (status, none)
    ucsRcacheLruEvict
  return some (.ok, some id)

/-- The `retry` loop of `ucs_rcache_create_region`. The alignment and protection that
`ucs_rcache_check_overlap` widened stay widened for the next round. -/
def createRegionLoop (address length : UInt64) (fuel : ℕ) (alignment : UInt64) (prot : ℕ) :
    RcacheM (UcsStatus × Option ℕ) := do
  let a : OverlapArgs :=
    { start := ucsAlignDownPow2 address alignment,
      «end» := ucsAlignUpPow2 (address + length) alignment, alignment, prot }
  match ← ucsRcacheCheckOverlap env a with
  | .alreadyExists id => return ((← regionAt id).status, some id)
  | .ok a merged =>
    match ← ucsRcacheCreateRegionNew env a merged, fuel with
    | some result, _ => pure result
    | none, 0 => throw .outOfFuel
    | none, fuel + 1 => createRegionLoop address length fuel a.alignment a.prot

/-- `ucs_rcache_create_region`: the status and, unless it failed, the region it set. -/
def ucsRcacheCreateRegion (address length alignment : UInt64) (prot : ℕ) :
    RcacheM (UcsStatus × Option ℕ) :=
  createRegionLoop env address length env.fuel alignment prot

/-! ### The interface -/

/-- `ucs_rcache_get`: a region that covers the range and passes the test is held at once;
otherwise the region is created. -/
def ucsRcacheGet (address length alignment : UInt64) (prot : ℕ) :
    RcacheM (UcsStatus × Option ℕ) := do
  let s ← get
  if s.invTree.isEmpty then
    if let some pgtRegion := ucsPgtableLookup s.pgtable address then
      let region ← regionAt pgtRegion.id
      if address + length ≤ region.super.end && ucsRcacheRegionTest region prot alignment then
        ucsRcacheRegionHold pgtRegion.id
        ucsRcacheRegionLruGet pgtRegion.id
        return (.ok, some pgtRegion.id)
  ucsRcacheCreateRegion env address length alignment prot

/-- `ucs_rcache_region_put`. -/
def ucsRcacheRegionPut (id : ℕ) : RcacheM Unit := do
  ucsRcacheRegionLruPut id
  ucsRcacheRegionPutInternal false id

/-- `ucs_rcache_region_invalidate` with a completion whose argument is `arg`. -/
def ucsRcacheRegionInvalidate (id arg : ℕ) : RcacheM Unit := do
  if env.mpoolGet then
    let region ← regionAt id
    setRegion { region with compList := region.compList ++ [arg] }
  ucsRcacheRegionInvalidateInternal false id

end Operations

end UcxProofs.Rcache
