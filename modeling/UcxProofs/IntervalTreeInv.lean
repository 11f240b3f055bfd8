import UcxProofs.IntervalTree
import UcxProofs.Lib.AddrBits

/-!
What the interval tree holds when no range ends at `UINT64_MAX`, so that no `+ 1` wraps: the
nodes in order are separated, they cover the union of the inserted ranges less the popped ones,
`num_nodes` counts them and `total_size` adds up their `end - start`, and `pop_any` returns the
node that starts first. Whatever the search meets first, the fast path of the insertion leaves
the tree the slow path would.
-/

namespace UcxProofs.IntervalTree

open Ranges AddrBits UcsIntervalTreeRange

/-! ### Ranges -/

/-- A range as the code asserts it, `start ≤ end + 1`, whose `end + 1` does not wrap. -/
structure UcsIntervalTreeRange.Admissible (range : UcsIntervalTreeRange) : Prop where
  hi_lt : range.hi + 1 < 2 ^ 64
  proper : Proper lo hi range

variable {range node : UcsIntervalTreeRange}

/-- Without a wrap, the code's test is the test on integers. -/
lemma touches_iff (hr : range.Admissible) (hn : node.Admissible) :
    ucsIntervalTouches range node = true ↔ Touches lo hi range node := by
  simp only [ucsIntervalTouches, Bool.and_eq_true, decide_eq_true_eq, UInt64.le_iff_toNat_le,
    toNat_add_one_of_lt hr.hi_lt, toNat_add_one_of_lt hn.hi_lt]
  rfl

lemma hull_admissible (hr : range.Admissible) (hn : node.Admissible) :
    (⟨min range.start node.start, max range.end node.end⟩ : UcsIntervalTreeRange).Admissible := by
  have hr1 := hr.hi_lt
  have hr2 := hr.proper
  have hn1 := hn.hi_lt
  simp only [Proper, lo, hi] at hr1 hr2 hn1
  constructor
  · simp only [hi, toNat_max]
    omega
  · simp only [Proper, lo, hi, toNat_min, toNat_max]
    omega

lemma toSet_hull (h : Touches lo hi range node) :
    (⟨min range.start node.start, max range.end node.end⟩ : UcsIntervalTreeRange).toSet =
      range.toSet ∪ node.toSet :=
  Icc_union_of_touches h (toNat_min _ _) (toNat_max _ _)

/-! ### The invariant -/

/-- The invariant of the tree: admissible nodes, separated in order, counted by `num_nodes` and
summed, modulo `2 ^ 64`, by `total_size`. -/
structure UcsIntervalTree.Valid (tree : UcsIntervalTree) : Prop where
  admissible : ∀ node ∈ tree.nodes, node.Admissible
  separated : tree.nodes.Pairwise Separated
  numNodes_eq : tree.numNodes = tree.nodes.length
  totalSize_eq : tree.totalSize = (tree.nodes.map fun node => node.end - node.start).sum

lemma valid_init : ucsIntervalTreeInit.Valid := by
  constructor <;> simp [ucsIntervalTreeInit]

variable {tree : UcsIntervalTree}

/-- A separated list of admissible nodes is in strictly increasing order of start. -/
lemma UcsIntervalTree.Valid.start_lt {prev next : UcsIntervalTreeRange} (hv : tree.Valid)
    (hp : prev ∈ tree.nodes) (h : prev.Separated next) : prev.start < next.start := by
  have hlt : lo prev < lo next := Sep.lo_lt (hv.admissible prev hp).proper h
  exact UInt64.lt_iff_toNat_lt.mpr hlt

/-- `total_size` is the sum of the nodes' sizes, modulo 2^64. -/
def UcsIntervalTree.Counted (tree : UcsIntervalTree) : Prop :=
  tree.totalSize = (tree.nodes.map fun node => node.end - node.start).sum

lemma UcsIntervalTree.Counted.removeNode (h : tree.Counted) (hn : node ∈ tree.nodes) :
    (ucsIntervalTreeRemoveNode tree node).Counted := by
  have hsum := ((List.perm_cons_erase hn).map fun node => node.end - node.start).sum_eq
  simp only [List.map_cons, List.sum_cons] at hsum
  unfold UcsIntervalTree.Counted at h ⊢
  simp only [ucsIntervalTreeRemoveNode, h, hsum, add_sub_cancel_left]

lemma UcsIntervalTree.Valid.removeNode (hv : tree.Valid) (hn : node ∈ tree.nodes) :
    (ucsIntervalTreeRemoveNode tree node).Valid where
  admissible s hs := hv.admissible s (List.mem_of_mem_erase hs)
  separated := hv.separated.erase node
  numNodes_eq := by
    simp [ucsIntervalTreeRemoveNode, hv.numNodes_eq, List.length_erase_of_mem hn]
  totalSize_eq := UcsIntervalTree.Counted.removeNode hv.totalSize_eq hn

lemma cover_removeNode (hv : tree.Valid) (hn : node ∈ tree.nodes) :
    cover (ucsIntervalTreeRemoveNode tree node).nodes = cover tree.nodes \ node.toSet :=
  cover_erase_of_pairwise hv.separated hn

/-! ### The insertion -/

section Insert

variable (F : UcsIntervalTreeFinder)

/-- **The merge loop.** With a node count of fuel, `remove_overlapping` ends with a range that
touches no node left, and the nodes left and the range cover what the tree and the range did. -/
theorem removeOverlapping_spec :
    ∀ (fuel : ℕ) {tree : UcsIntervalTree} {range : UcsIntervalTreeRange} {tree' merged},
      tree.Valid → range.Admissible → tree.nodes.length ≤ fuel →
      ucsIntervalTreeRemoveOverlapping F fuel tree range = (tree', merged) →
      tree'.Valid ∧ merged.Admissible ∧ cover tree'.nodes ∪ merged.toSet = cover tree.nodes ∪ range.toSet ∧
        ∀ node ∈ tree'.nodes, ¬ Touches lo hi merged node
  | 0, tree, range, tree', merged, hv, hr, hlen, h => by
    have hnil : tree.nodes = [] := List.eq_nil_of_length_eq_zero (Nat.le_zero.mp hlen)
    simp only [ucsIntervalTreeRemoveOverlapping, Prod.mk.injEq] at h
    obtain ⟨rfl, rfl⟩ := h
    exact ⟨hv, hr, rfl, by simp [hnil]⟩
  | fuel + 1, tree, range, tree', merged, hv, hr, hlen, h => by
    simp only [ucsIntervalTreeRemoveOverlapping] at h
    cases hf : F.find tree.nodes range with
    | none =>
      -- no node touches the range: the loop stops
      rw [hf, Prod.mk.injEq] at h
      obtain ⟨rfl, rfl⟩ := h
      refine ⟨hv, hr, rfl, fun node hn => ?_⟩
      rw [← touches_iff hr (hv.admissible node hn), F.not_touches_of_find hf node hn]
      decide
    | some overlap =>
      -- the node found goes, and the range widens over it
      rw [hf] at h
      obtain ⟨hmem, htouch⟩ := F.mem_of_find hf
      have hov := hv.admissible overlap hmem
      have hlen' : (ucsIntervalTreeRemoveNode tree overlap).nodes.length ≤ fuel := by
        simp only [ucsIntervalTreeRemoveNode, List.length_erase_of_mem hmem]
        omega
      obtain ⟨hv', hm, hcov, hsep⟩ :=
        removeOverlapping_spec fuel (hv.removeNode hmem) (hull_admissible hr hov) hlen' h
      refine ⟨hv', hm, ?_, hsep⟩
      rw [hcov, toSet_hull ((touches_iff hr hov).mp htouch)]
      change Ranges.cover lo hi (tree.nodes.erase overlap) ∪ (range.toSet ∪ overlap.toSet) =
        Ranges.cover lo hi tree.nodes ∪ range.toSet
      rw [cover_erase hmem]
      ext x
      simp only [Set.mem_union]
      tauto

/-- The insertion of a node that touches no node of a separated list keeps it separated, and
only adds the node. -/
lemma insertNode_spec {nodes : List UcsIntervalTreeRange} (hs : nodes.Pairwise Separated)
    (ha : ∀ s ∈ nodes, s.Admissible) (hn : node.Admissible)
    (ht : ∀ s ∈ nodes, ¬ Touches lo hi node s) :
    (ucsIntervalTreeInsertNode nodes node).Pairwise Separated ∧
      (ucsIntervalTreeInsertNode nodes node).Perm (node :: nodes) := by
  have hp : (fun s : UcsIntervalTreeRange => decide (s.start ≤ node.start)) =
      fun s => decide (lo s ≤ lo node) := by
    funext s
    exact decide_eq_decide.mpr UInt64.le_iff_toNat_le
  have hins : ucsIntervalTreeInsertNode nodes node =
      nodes.takeWhile (fun s => decide (lo s ≤ lo node)) ++
        node :: nodes.dropWhile (fun s => decide (lo s ≤ lo node)) := by
    simp only [ucsIntervalTreeInsertNode, List.span_eq_takeWhile_dropWhile, hp]
  rw [hins]
  refine ⟨?_, ?_⟩
  · apply pairwise_sep_insert
    · rw [List.takeWhile_append_dropWhile]
      exact hs
    · exact hn.proper
    · rw [List.takeWhile_append_dropWhile]
      exact fun s hs' => (ha s hs').proper
    · rw [List.takeWhile_append_dropWhile]
      exact ht
    · intro s hs'
      simpa using List.mem_takeWhile_imp hs'
    · intro s hs'
      exact lt_lo_of_mem_dropWhile hs (fun s hs' => (ha s hs').proper) hs'
  · refine List.perm_middle.trans ?_
    rw [List.takeWhile_append_dropWhile]

/-- **The slow path.** On a valid tree, with a node from the pool, `insert_slow` succeeds and
leaves a valid tree covering the old one and the range. -/
theorem insertSlow_spec (hv : tree.Valid) (hr : range.Admissible) :
    (ucsIntervalTreeInsertSlow F true tree range).1 = .ok ∧
      (ucsIntervalTreeInsertSlow F true tree range).2.Valid ∧
      cover (ucsIntervalTreeInsertSlow F true tree range).2.nodes =
        cover tree.nodes ∪ range.toSet := by
  rcases h : ucsIntervalTreeRemoveOverlapping F tree.nodes.length tree range with ⟨tree', merged⟩
  obtain ⟨hv', hm, hcov, hsep⟩ := removeOverlapping_spec F _ hv hr le_rfl h
  obtain ⟨hpw, hperm⟩ := insertNode_spec hv'.separated hv'.admissible hm hsep
  simp only [ucsIntervalTreeInsertSlow, h, if_true]
  refine ⟨trivial, ⟨?_, hpw, ?_, ?_⟩, ?_⟩
  · intro s hs
    rcases List.mem_cons.mp (hperm.mem_iff.mp hs) with rfl | hs
    · exact hm
    · exact hv'.admissible s hs
  · simp [hperm.length_eq, hv'.numNodes_eq]
  · dsimp only
    rw [(hperm.map _).sum_eq, List.map_cons, List.sum_cons, hv'.totalSize_eq]
    exact add_comm _ _
  · change Ranges.cover lo hi _ = _
    rw [cover_perm hperm, cover_cons, ← hcov]
    exact Set.union_comm _ _

/-- **The fast path leaves the tree the slow path would.** A range that touches the only node
widens it in place; the slow path takes the node out, merges it and inserts the merged node, with
the same node, the same `num_nodes` and the same `total_size`. This holds for every tree. -/
theorem ucsIntervalTreeInsert_eq_insertSlow (tree : UcsIntervalTree)
    (range : UcsIntervalTreeRange) :
    ucsIntervalTreeInsert F true tree range = ucsIntervalTreeInsertSlow F true tree range := by
  unfold ucsIntervalTreeInsert
  split
  · rename_i root hroot
    split_ifs with hfast
    · obtain ⟨hnum, ht⟩ := hfast
      -- the search can only meet the root
      have hfind : F.find [root] range = some root := by
        cases hf : F.find [root] range with
        | none => simp [F.not_touches_of_find hf root (List.mem_singleton_self root)] at ht
        | some n =>
          obtain ⟨hm, -⟩ := F.mem_of_find hf
          rw [List.mem_singleton.mp hm]
      have hmin : min range.start root.start = min root.start range.start :=
        UInt64.toNat_inj.mp (by simp only [toNat_min]; omega)
      have hmax : max range.end root.end = max root.end range.end :=
        UInt64.toNat_inj.mp (by simp only [toNat_max]; omega)
      simp only [ucsIntervalTreeInsertSlow, hroot, List.length_singleton,
        ucsIntervalTreeRemoveOverlapping, hfind, ucsIntervalTreeRemoveNode, List.erase_cons_head,
        ucsIntervalTreeInsertNode, List.span_eq_takeWhile_dropWhile, List.takeWhile_nil, List.dropWhile_nil, if_true, hnum, hmin, hmax]
      congr 2
      grind
    · rfl
  · rfl

end Insert

/-! ### `pop_any` -/

lemma popAny_eq_none_iff : (ucsIntervalTreePopAny tree).1 = none ↔ tree.nodes = [] := by
  unfold ucsIntervalTreePopAny
  split <;> simp_all

/-- **`pop_any` returns the node that starts first** and takes out exactly its integers. -/
theorem popAny_spec (hv : tree.Valid) (h : (ucsIntervalTreePopAny tree).1 = some node) :
    node ∈ tree.nodes ∧ (∀ s ∈ tree.nodes, node.start ≤ s.start) ∧
      (ucsIntervalTreePopAny tree).2 = ucsIntervalTreeRemoveNode tree node := by
  obtain ⟨first, rest, hnodes⟩ : ∃ first rest, tree.nodes = first :: rest := by
    cases hn : tree.nodes with
    | nil => simp [ucsIntervalTreePopAny, hn] at h
    | cons first rest => exact ⟨first, rest, rfl⟩
  have hpop : ucsIntervalTreePopAny tree = (some first, ucsIntervalTreeRemoveNode tree first) := by
    simp [ucsIntervalTreePopAny, hnodes]
  rw [hpop] at h ⊢
  obtain rfl := Option.some.inj h
  have hpw := hv.separated
  rw [hnodes, List.pairwise_cons] at hpw
  refine ⟨by simp [hnodes], fun s hs => ?_, rfl⟩
  rw [hnodes] at hs
  rw [UInt64.le_iff_toNat_le]
  rcases List.mem_cons.mp hs with rfl | hs
  · exact le_rfl
  · exact (UInt64.lt_iff_toNat_lt.mp (hv.start_lt (by simp [hnodes]) (hpw.1 s hs))).le

/-! ### Runs -/

/-- A call on the tree: the insertion of a range, or `pop_any`. -/
inductive UcsIntervalTreeOp
  | insert (range : UcsIntervalTreeRange)
  | popAny

/-- The tree after a call, with the memory pool never running dry. -/
def ucsIntervalTreeStep (F : UcsIntervalTreeFinder) (tree : UcsIntervalTree) :
    UcsIntervalTreeOp → UcsIntervalTree
  | .insert range => (ucsIntervalTreeInsert F true tree range).2
  | .popAny => (ucsIntervalTreePopAny tree).2

/-- The integers the tree should hold after a call: an insertion adds the range's, `pop_any`
takes out those of the range it returns. -/
def coverStep (tree : UcsIntervalTree) (S : Set ℕ) : UcsIntervalTreeOp → Set ℕ
  | .insert range => S ∪ range.toSet
  | .popAny =>
    match (ucsIntervalTreePopAny tree).1 with
    | some range => S \ range.toSet
    | none => S

/-- A run of calls, with the integers the tree should hold alongside. -/
def ucsIntervalTreeRun (F : UcsIntervalTreeFinder) :
    UcsIntervalTree × Set ℕ → List UcsIntervalTreeOp → UcsIntervalTree × Set ℕ
  | p, [] => p
  | p, op :: ops => ucsIntervalTreeRun F (ucsIntervalTreeStep F p.1 op, coverStep p.1 p.2 op) ops

/-- A call whose range, if any, is admissible. -/
def UcsIntervalTreeOp.Admissible : UcsIntervalTreeOp → Prop
  | .insert range => range.Admissible
  | .popAny => True

/-- One call keeps the invariant and the cover. -/
lemma step_spec (F : UcsIntervalTreeFinder) {op : UcsIntervalTreeOp} {S : Set ℕ}
    (hv : tree.Valid) (hS : cover tree.nodes = S) (hop : op.Admissible) :
    (ucsIntervalTreeStep F tree op).Valid ∧
      cover (ucsIntervalTreeStep F tree op).nodes = coverStep tree S op := by
  cases op with
  | insert range =>
    obtain ⟨-, hv', hcov⟩ := insertSlow_spec F hv hop
    simp only [ucsIntervalTreeStep, coverStep, ucsIntervalTreeInsert_eq_insertSlow]
    exact ⟨hv', hS ▸ hcov⟩
  | popAny =>
    cases hp : (ucsIntervalTreePopAny tree).1 with
    | none =>
      -- an empty tree stays as it is
      have hnil := popAny_eq_none_iff.mp hp
      simp only [ucsIntervalTreeStep, coverStep, ucsIntervalTreePopAny, hnil]
      exact ⟨hv, hnil ▸ hS⟩
    | some node =>
      obtain ⟨hn, -, hpop⟩ := popAny_spec hv hp
      simp only [ucsIntervalTreeStep, coverStep, hp, hpop]
      exact ⟨hv.removeNode hn, hS ▸ cover_removeNode hv hn⟩

/-- **The interval tree holds the union of what was inserted.** From a valid tree covering `S`,
after any calls whose ranges are admissible, the tree is valid, so its nodes are separated in
order and counted and summed by the counters, and it covers the integers `S` with the inserted
ranges added and the popped ones taken out, in the order of the calls. -/
theorem ucsIntervalTreeRun_valid (F : UcsIntervalTreeFinder) :
    ∀ (ops : List UcsIntervalTreeOp) (tree : UcsIntervalTree) (S : Set ℕ),
      (∀ op ∈ ops, op.Admissible) → tree.Valid → cover tree.nodes = S →
      (ucsIntervalTreeRun F (tree, S) ops).1.Valid ∧
        cover (ucsIntervalTreeRun F (tree, S) ops).1.nodes = (ucsIntervalTreeRun F (tree, S) ops).2
  | [], _, _, _, hv, hS => ⟨hv, hS⟩
  | op :: ops, tree, S, hops, hv, hS => by
    obtain ⟨hv', hS'⟩ := step_spec F hv hS (hops op List.mem_cons_self)
    exact ucsIntervalTreeRun_valid F ops _ _ (fun op' h => hops op' (List.mem_cons_of_mem op h))
      hv' hS'

/-- **What a run from an empty tree leaves**, for ranges that do not end at `UINT64_MAX`: the nodes
read in order are separated, they cover the inserted ranges less the popped ones, `num_nodes`
counts them, `total_size` is the sum of their `end - start` modulo `2 ^ 64`, and `pop_any`
returns the node that starts first. -/
theorem ucsIntervalTree_run_from_init (F : UcsIntervalTreeFinder) (ops : List UcsIntervalTreeOp)
    (hops : ∀ op ∈ ops, op.Admissible) :
    let p := ucsIntervalTreeRun F (ucsIntervalTreeInit, ∅) ops
    p.1.nodes.IsChain Separated ∧ cover p.1.nodes = p.2 ∧ p.1.numNodes = p.1.nodes.length ∧
      p.1.totalSize = (p.1.nodes.map fun node => node.end - node.start).sum ∧
      ∀ node, (ucsIntervalTreePopAny p.1).1 = some node → ∀ s ∈ p.1.nodes, node.start ≤ s.start := by
  intro p
  obtain ⟨hv, hS⟩ := ucsIntervalTreeRun_valid F ops ucsIntervalTreeInit ∅ hops valid_init
    (by simp [ucsIntervalTreeInit, cover])
  exact ⟨hv.separated.isChain, hS, hv.numNodes_eq, hv.totalSize_eq,
    fun node h => (popAny_spec hv h).2.1⟩

/-- Two ranges one apart and a pop. -/
theorem ucsIntervalTree_run_from_init_two_ranges :
    (∀ op ∈ [.insert ⟨1, 2⟩, .insert ⟨4, 5⟩, .popAny], UcsIntervalTreeOp.Admissible op) ∧
      (ucsIntervalTreeRun UcsIntervalTreeFinder.firstTouching (ucsIntervalTreeInit, ∅)
        [.insert ⟨1, 2⟩, .insert ⟨4, 5⟩, .popAny]).1.nodes.IsChain Separated := by
  have hops : ∀ op ∈ [.insert ⟨1, 2⟩, .insert ⟨4, 5⟩, .popAny], UcsIntervalTreeOp.Admissible op := by
    simp only [List.mem_cons, List.not_mem_nil, or_false, forall_eq_or_imp, forall_eq]
    refine ⟨⟨by decide, by decide⟩, ⟨by decide, by decide⟩, trivial⟩
  exact ⟨hops, (ucsIntervalTree_run_from_init _ _ hops).1⟩

end UcxProofs.IntervalTree
