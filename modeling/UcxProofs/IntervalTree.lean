import UcxProofs.Status
import UcxProofs.Lib.Intervals

/-!
The interval tree of `ucs/datastruct/interval_tree.{c,h}`: a red-black tree of inclusive ranges
`[start, end]` ordered by start, into which `ucs_interval_tree_insert` merges every node that
overlaps or touches the new range.

The tree is kept as its in-order sequence of nodes. Colours, rotations and parent links change
only the shape, and the shape decides only which touching node `ucs_interval_tree_find_overlap`
meets first. That choice is an argument of the model, a `UcsIntervalTreeFinder`, bound by what
the pruned search guarantees: it returns a node of the tree that touches the range, and returns
nothing only when no node does. `ucs_interval_tree_remove_node` searches by start; it is the
removal of the node found, which the start names while starts are distinct.
-/

namespace UcxProofs.IntervalTree

/-- `ucs_interval_tree_range_t`: the inclusive range `[start, end]`. -/
structure UcsIntervalTreeRange where
  start : UInt64
  «end» : UInt64
  deriving DecidableEq, Repr

/-- `ucs_interval_tree_t`: the nodes in order, `num_nodes` and `total_size`. -/
structure UcsIntervalTree where
  nodes : List UcsIntervalTreeRange
  numNodes : ℕ
  totalSize : UInt64
  deriving DecidableEq, Repr

/-- `ucs_interval_tree_init`. -/
def ucsIntervalTreeInit : UcsIntervalTree := ⟨[], 0, 0⟩

/-- `ucs_interval_tree_is_empty`. -/
def ucsIntervalTreeIsEmpty (tree : UcsIntervalTree) : Bool := tree.numNodes == 0

/-- The test of `ucs_interval_tree_find_overlap`: the ranges overlap or touch. Both `+ 1` are
taken in 64 bits. -/
def ucsIntervalTouches (range node : UcsIntervalTreeRange) : Bool :=
  range.start ≤ node.end + 1 && node.start ≤ range.end + 1

/-- What `ucs_interval_tree_find_overlap` returns for the tree's nodes and a range. The search
prunes a right subtree only when its root starts past `range.end + 1`, and every node of that
subtree starts no earlier, so it misses no touching node. -/
structure UcsIntervalTreeFinder where
  find : List UcsIntervalTreeRange → UcsIntervalTreeRange → Option UcsIntervalTreeRange
  mem_of_find {nodes range node} :
    find nodes range = some node → node ∈ nodes ∧ ucsIntervalTouches range node = true
  not_touches_of_find {nodes range} :
    find nodes range = none → ∀ node ∈ nodes, ucsIntervalTouches range node = false

namespace UcsIntervalTreeFinder

variable (F : UcsIntervalTreeFinder) {nodes : List UcsIntervalTreeRange}
  {range : UcsIntervalTreeRange}

lemma find_eq_none (h : ∀ node ∈ nodes, ucsIntervalTouches range node = false) :
    F.find nodes range = none := by
  cases hf : F.find nodes range with
  | none => rfl
  | some node =>
    obtain ⟨hm, ht⟩ := F.mem_of_find hf
    simp [h node hm] at ht

/-- The search that meets the nodes in order. -/
def firstTouching : UcsIntervalTreeFinder where
  find nodes range := nodes.find? (ucsIntervalTouches range)
  mem_of_find h := ⟨List.mem_of_find?_eq_some h, List.find?_some h⟩
  not_touches_of_find h := by simpa using List.find?_eq_none.mp h

end UcsIntervalTreeFinder

/-! ### The operations -/

section Operations

variable (F : UcsIntervalTreeFinder)

/-- `ucs_interval_tree_remove_node` with `ucs_interval_tree_delete_node`: the node leaves the
sequence and both counters. When the node has two children the code copies its successor's key
into it, taking its own size off `total_size` and putting the successor's on, and then deletes
the successor; the counters end the same. -/
def ucsIntervalTreeRemoveNode (tree : UcsIntervalTree) (node : UcsIntervalTreeRange) :
    UcsIntervalTree :=
  { nodes := tree.nodes.erase node, numNodes := tree.numNodes - 1,
    totalSize := tree.totalSize - (node.end - node.start) }

/-- `ucs_interval_tree_insert_node`: the search by start goes right on equal starts, so the node
lands after every node that starts no later. -/
def ucsIntervalTreeInsertNode (nodes : List UcsIntervalTreeRange) (node : UcsIntervalTreeRange) :
    List UcsIntervalTreeRange :=
  (nodes.span (·.start ≤ node.start)).1 ++ node :: (nodes.span (·.start ≤ node.start)).2

/-- `ucs_interval_tree_remove_overlapping`: remove a touching node and widen the range over it,
until none touches. Each round removes a node, so the node count is fuel enough. -/
def ucsIntervalTreeRemoveOverlapping :
    ℕ → UcsIntervalTree → UcsIntervalTreeRange → UcsIntervalTree × UcsIntervalTreeRange
  | 0, tree, range => (tree, range)
  | fuel + 1, tree, range =>
    match F.find tree.nodes range with
    | none => (tree, range)
    | some overlap =>
      ucsIntervalTreeRemoveOverlapping fuel (ucsIntervalTreeRemoveNode tree overlap)
        ⟨min range.start overlap.start, max range.end overlap.end⟩

/-- `ucs_interval_tree_insert_slow`, with `ucs_interval_tree_node_create` counting the merged
node. When the memory pool has no node the merged nodes are already gone. -/
def ucsIntervalTreeInsertSlow (nodeAlloc : Bool) (tree : UcsIntervalTree)
    (range : UcsIntervalTreeRange) : UcsStatus × UcsIntervalTree :=
  let (tree, merged) := ucsIntervalTreeRemoveOverlapping F tree.nodes.length tree range
  if nodeAlloc then
    (.ok, { nodes := ucsIntervalTreeInsertNode tree.nodes merged, numNodes := tree.numNodes + 1,
            totalSize := tree.totalSize + (merged.end - merged.start) })
  else (.errNoMemory, tree)

/-- `ucs_interval_tree_insert`: with one node, a range that touches it widens it in place. -/
def ucsIntervalTreeInsert (nodeAlloc : Bool) (tree : UcsIntervalTree)
    (range : UcsIntervalTreeRange) : UcsStatus × UcsIntervalTree :=
  match tree.nodes with
  | [root] =>
    if tree.numNodes = 1 ∧ ucsIntervalTouches range root = true then
      let node : UcsIntervalTreeRange :=
        ⟨min root.start range.start, max root.end range.end⟩
      (.ok, { tree with nodes := [node],
                        totalSize := tree.totalSize + ((node.end - node.start) -
                          (root.end - root.start)) })
    else ucsIntervalTreeInsertSlow F nodeAlloc tree range
  | _ => ucsIntervalTreeInsertSlow F nodeAlloc tree range

end Operations

/-- `ucs_interval_tree_pop_any`: the leftmost node, the one first in order. -/
def ucsIntervalTreePopAny (tree : UcsIntervalTree) :
    Option UcsIntervalTreeRange × UcsIntervalTree :=
  match tree.nodes with
  | [] => (none, tree)
  | node :: _ => (some node, ucsIntervalTreeRemoveNode tree node)

/-! ### What the tree stands for -/

namespace UcsIntervalTreeRange

/-- The first integer of a range. -/
def lo (range : UcsIntervalTreeRange) : ℕ := range.start.toNat

/-- The last integer of a range. -/
def hi (range : UcsIntervalTreeRange) : ℕ := range.end.toNat

/-- The integers of a range. -/
def toSet (range : UcsIntervalTreeRange) : Set ℕ := Set.Icc range.lo range.hi

/-- Two nodes in order neither overlap nor touch: `next.start > prev.end + 1`. -/
def Separated : UcsIntervalTreeRange → UcsIntervalTreeRange → Prop := Ranges.Sep lo hi

instance (prev next : UcsIntervalTreeRange) : Decidable (prev.Separated next) :=
  inferInstanceAs (Decidable (Ranges.Sep _ _ _ _))

end UcsIntervalTreeRange

/-- The integers the nodes cover. -/
def cover : List UcsIntervalTreeRange → Set ℕ :=
  Ranges.cover UcsIntervalTreeRange.lo UcsIntervalTreeRange.hi

/-- The sum of `end - start` over the nodes, as integers. -/
def sizeSum (nodes : List UcsIntervalTreeRange) : ℕ := (nodes.map fun node => node.hi - node.lo).sum

/-! ### A range that ends at `UINT64_MAX` -/

/-- **The touch test wraps at `UINT64_MAX`.** After `[0, UINT64_MAX]` (which the code's assertion
admits), `[5, 6]` is tested against `end + 1 = 0` and touches nothing, whichever node the search
meets first: the tree keeps two overlapping nodes, `total_size` has wrapped to `0` while the
sizes add up to `2^64`, and `pop_any` returns `[0, UINT64_MAX]` and leaves `[5, 6]` in the tree,
which was covered by the popped range. -/
theorem ucsIntervalTreeInsert_wraps_at_max (F : UcsIntervalTreeFinder) :
    let tree := (ucsIntervalTreeInsert F true ucsIntervalTreeInit ⟨0, 0xffffffffffffffff⟩).2
    let tree' := (ucsIntervalTreeInsert F true tree ⟨5, 6⟩).2
    tree'.nodes = [⟨0, 0xffffffffffffffff⟩, ⟨5, 6⟩] ∧
      ¬ tree'.nodes.IsChain UcsIntervalTreeRange.Separated ∧
      tree'.numNodes = 2 ∧ tree'.totalSize = 0 ∧ sizeSum tree'.nodes = 2 ^ 64 ∧
      (ucsIntervalTreePopAny tree').1 = some ⟨0, 0xffffffffffffffff⟩ ∧
      (ucsIntervalTreePopAny tree').2.nodes = [⟨5, 6⟩] ∧
      5 ∈ cover (ucsIntervalTreePopAny tree').2.nodes ∧
      5 ∈ (⟨0, 0xffffffffffffffff⟩ : UcsIntervalTreeRange).toSet := by
  intro tree tree'
  -- the second insert takes the slow path, where no node touches `[5, 6]`
  have hnone : F.find [⟨0, 0xffffffffffffffff⟩] ⟨5, 6⟩ = none :=
    F.find_eq_none (by decide)
  have htree : tree = ⟨[⟨0, 0xffffffffffffffff⟩], 1, 0xffffffffffffffff⟩ := rfl
  have htree' : tree' = ⟨[⟨0, 0xffffffffffffffff⟩, ⟨5, 6⟩], 2, 0⟩ := by
    simp only [tree', htree, ucsIntervalTreeInsert, ucsIntervalTreeInsertSlow,
      ucsIntervalTreeRemoveOverlapping, List.length_singleton, hnone]
    decide
  rw [htree']
  refine ⟨rfl, by decide, rfl, rfl, rfl, rfl, rfl, ?_, ?_⟩
  · simp [ucsIntervalTreePopAny, ucsIntervalTreeRemoveNode, cover, UcsIntervalTreeRange.lo,
      UcsIntervalTreeRange.hi]
  · simp [UcsIntervalTreeRange.toSet, UcsIntervalTreeRange.lo, UcsIntervalTreeRange.hi]

end UcxProofs.IntervalTree
