import UcxProofs.Lib.RedBlack
import UcxProofs.IntervalTreeInv

/-!
The interval tree of `ucs/datastruct/interval_tree.c` as the code keeps it in memory: nodes of a
memory pool, linked by `left`, `right` and `parent` pointers and painted red or black, under
`tree->root`, with `num_nodes` and `total_size`.

A pointer is a natural number and `nodes p` the node it points to; the pool is its free list, from
which `ucs_mpool_get_inline` takes the first element and to which `ucs_mpool_put_inline` gives one
back. A `ucs_interval_node_t **` is a `Slot`: `tree->root` or a child field of a node. The two
rotations and the two halves of each fixup loop are mirror images of each other, and are one
definition over the `Side` the code's left-hand version names `left`.

The recursions and loops over the tree take fuel, `num_nodes + 1` at each call, and give `none`
when it runs out; `IntervalRbRun` shows that on a valid tree it never does.
-/

namespace UcxProofs.IntervalRb

open RBTree RBColor UcxProofs.RedBlack
open UcxProofs.IntervalTree (UcsIntervalTreeRange ucsIntervalTouches UcsIntervalTreeOp)

/-- A pointer to a node of the pool. -/
abbrev Ptr := ℕ

/-- `ucs_interval_node_t`. -/
structure UcsIntervalNode where
  left : Option Ptr
  right : Option Ptr
  parent : Option Ptr
  start : UInt64
  «end» : UInt64
  color : RBColor
  deriving DecidableEq, Repr

namespace UcsIntervalNode

/-- The child on side `d`. -/
def child (node : UcsIntervalNode) : Side → Option Ptr
  | .left => node.left
  | .right => node.right

/-- The node with its child on side `d` set to `q`. -/
def setChild (node : UcsIntervalNode) : Side → Option Ptr → UcsIntervalNode
  | .left, q => { node with left := q }
  | .right, q => { node with right := q }

/-- The node with its parent link set to `q`. -/
def setParent (node : UcsIntervalNode) (q : Option Ptr) : UcsIntervalNode :=
  { node with parent := q }

/-- The node painted `c`. -/
def setColor (node : UcsIntervalNode) (c : RBColor) : UcsIntervalNode :=
  { node with color := c }

variable (node : UcsIntervalNode) (d d' : Side) (q : Option Ptr) (c : RBColor)

@[simp] lemma child_left : node.child .left = node.left := rfl
@[simp] lemma child_right : node.child .right = node.right := rfl
@[simp] lemma child_setChild : (node.setChild d q).child d = q := by cases d <;> rfl
@[simp] lemma child_opp_setChild : (node.setChild d q).child d.opp = node.child d.opp := by
  cases d <;> rfl
@[simp] lemma child_setChild_opp : (node.setChild d.opp q).child d = node.child d := by
  cases d <;> rfl
lemma child_setChild_eq_ite : (node.setChild d q).child d' = if d' = d then q else node.child d' := by
  cases d <;> cases d' <;> rfl
@[simp] lemma parent_setChild : (node.setChild d q).parent = node.parent := by cases d <;> rfl
@[simp] lemma color_setChild : (node.setChild d q).color = node.color := by cases d <;> rfl
@[simp] lemma start_setChild : (node.setChild d q).start = node.start := by cases d <;> rfl
@[simp] lemma end_setChild : (node.setChild d q).end = node.end := by cases d <;> rfl
@[simp] lemma child_setParent : (node.setParent q).child d = node.child d := by cases d <;> rfl
@[simp] lemma left_setParent : (node.setParent q).left = node.left := rfl
@[simp] lemma right_setParent : (node.setParent q).right = node.right := rfl
@[simp] lemma parent_setParent : (node.setParent q).parent = q := rfl
@[simp] lemma color_setParent : (node.setParent q).color = node.color := rfl
@[simp] lemma start_setParent : (node.setParent q).start = node.start := rfl
@[simp] lemma end_setParent : (node.setParent q).end = node.end := rfl
@[simp] lemma child_setColor : (node.setColor c).child d = node.child d := by cases d <;> rfl
@[simp] lemma left_setColor : (node.setColor c).left = node.left := rfl
@[simp] lemma right_setColor : (node.setColor c).right = node.right := rfl
@[simp] lemma parent_setColor : (node.setColor c).parent = node.parent := rfl
@[simp] lemma color_setColor : (node.setColor c).color = c := rfl
@[simp] lemma start_setColor : (node.setColor c).start = node.start := rfl
@[simp] lemma end_setColor : (node.setColor c).end = node.end := rfl

end UcsIntervalNode

/-- `ucs_interval_tree_t` with the nodes of its memory pool. -/
structure UcsIntervalTree where
  nodes : Ptr → UcsIntervalNode
  root : Option Ptr
  mpool : List Ptr
  numNodes : ℕ
  totalSize : UInt64

/-- Where a node pointer is kept: `tree->root`, or the child field on side `d` of the node `p`. -/
inductive Slot
  | root
  | child (p : Ptr) (d : Side)
  deriving DecidableEq, Repr

namespace UcsIntervalTree

variable (tree : UcsIntervalTree)

/-- The tree with the node at `p` rewritten by `f`. -/
def modify (p : Ptr) (f : UcsIntervalNode → UcsIntervalNode) : UcsIntervalTree :=
  { tree with nodes := Function.update tree.nodes p (f (tree.nodes p)) }

/-- `p->left = q` or `p->right = q`. -/
def setChild (p : Ptr) (d : Side) (q : Option Ptr) : UcsIntervalTree :=
  tree.modify p (·.setChild d q)

/-- `p->parent = q`. -/
def setParent (p : Ptr) (q : Option Ptr) : UcsIntervalTree :=
  tree.modify p (·.setParent q)

/-- `p->color = c`. -/
def setColor (p : Ptr) (c : RBColor) : UcsIntervalTree :=
  tree.modify p (·.setColor c)

/-- `if (p != NULL) { p->parent = q; }`. -/
def setParentOf : Option Ptr → Option Ptr → UcsIntervalTree
  | some p, q => tree.setParent p q
  | none, _ => tree

/-- `if (p != NULL) { p->color = c; }`. -/
def setColorOf : Option Ptr → RBColor → UcsIntervalTree
  | some p, c => tree.setColor p c
  | none, _ => tree

/-- `*slot`. -/
def getSlot : Slot → Option Ptr
  | .root => tree.root
  | .child p d => (tree.nodes p).child d

/-- `*slot = q`. -/
def setSlot : Slot → Option Ptr → UcsIntervalTree
  | .root, q => { tree with root := q }
  | .child p d, q => tree.setChild p d q

/-- `(x == NULL) || (x->color == UCS_INTERVAL_NODE_BLACK)`. -/
def blackOrNull : Option Ptr → Bool
  | none => true
  | some x => (tree.nodes x).color = black

/-- `if (p->left != NULL) { p->left->parent = p; }`, on side `d`: the child's parent link put
back after a recursive call rewrote the child. -/
def relinkChild (p : Ptr) (d : Side) : UcsIntervalTree :=
  tree.setParentOf ((tree.nodes p).child d) (some p)

/-- The slot that holds `p`, found as a rotation finds it: `tree->root` if `p` has no parent,
else the parent's child on side `d` if that is `p`, else the other. -/
def parentSlot (d : Side) (p : Ptr) : Slot :=
  match (tree.nodes p).parent with
  | none => .root
  | some np => if some p = (tree.nodes np).child d then .child np d else .child np d.opp

/-! Each write changes one node, or the root; the reads after it are these. -/

section Writes

variable {tree} {p z : Ptr} {f : UcsIntervalNode → UcsIntervalNode} {d : Side}
  {q v : Option Ptr} {c : RBColor}

lemma nodes_modify : (tree.modify p f).nodes z = if z = p then f (tree.nodes p) else tree.nodes z := by
  simp [modify, Function.update_apply]

lemma nodes_setChild : (tree.setChild p d q).nodes z =
    if z = p then (tree.nodes p).setChild d q else tree.nodes z := nodes_modify

lemma nodes_setParent : (tree.setParent p q).nodes z =
    if z = p then (tree.nodes p).setParent q else tree.nodes z := nodes_modify

lemma nodes_setColor : (tree.setColor p c).nodes z =
    if z = p then (tree.nodes p).setColor c else tree.nodes z := nodes_modify

lemma nodes_setParentOf : (tree.setParentOf q v).nodes z =
    if some z = q then (tree.nodes z).setParent v else tree.nodes z := by
  cases q with
  | none => simp [setParentOf]
  | some p =>
    simp only [setParentOf, nodes_setParent, Option.some.injEq]
    split_ifs with h <;> simp [h]

lemma nodes_setColorOf : (tree.setColorOf q c).nodes z =
    if some z = q then (tree.nodes z).setColor c else tree.nodes z := by
  cases q with
  | none => simp [setColorOf]
  | some p =>
    simp only [setColorOf, nodes_setColor, Option.some.injEq]
    split_ifs with h <;> simp [h]

@[simp] lemma nodes_setSlot_root : (tree.setSlot .root q).nodes = tree.nodes := rfl
@[simp] lemma root_setSlot_root : (tree.setSlot .root q).root = q := rfl
@[simp] lemma setSlot_child : tree.setSlot (.child p d) q = tree.setChild p d q := rfl

@[simp] lemma root_modify : (tree.modify p f).root = tree.root := rfl
@[simp] lemma mpool_modify : (tree.modify p f).mpool = tree.mpool := rfl
@[simp] lemma numNodes_modify : (tree.modify p f).numNodes = tree.numNodes := rfl
@[simp] lemma totalSize_modify : (tree.modify p f).totalSize = tree.totalSize := rfl
@[simp] lemma root_setChild : (tree.setChild p d q).root = tree.root := rfl
@[simp] lemma mpool_setChild : (tree.setChild p d q).mpool = tree.mpool := rfl
@[simp] lemma numNodes_setChild : (tree.setChild p d q).numNodes = tree.numNodes := rfl
@[simp] lemma root_setParent : (tree.setParent p q).root = tree.root := rfl
@[simp] lemma mpool_setParent : (tree.setParent p q).mpool = tree.mpool := rfl
@[simp] lemma numNodes_setParent : (tree.setParent p q).numNodes = tree.numNodes := rfl
@[simp] lemma root_setColor : (tree.setColor p c).root = tree.root := rfl
@[simp] lemma mpool_setColor : (tree.setColor p c).mpool = tree.mpool := rfl
@[simp] lemma numNodes_setColor : (tree.setColor p c).numNodes = tree.numNodes := rfl
@[simp] lemma root_setParentOf : (tree.setParentOf q v).root = tree.root := by
  cases q <;> rfl
@[simp] lemma mpool_setParentOf : (tree.setParentOf q v).mpool = tree.mpool := by
  cases q <;> rfl
@[simp] lemma numNodes_setParentOf : (tree.setParentOf q v).numNodes = tree.numNodes := by
  cases q <;> rfl
@[simp] lemma root_setColorOf : (tree.setColorOf q c).root = tree.root := by cases q <;> rfl
@[simp] lemma mpool_setColorOf : (tree.setColorOf q c).mpool = tree.mpool := by cases q <;> rfl
@[simp] lemma numNodes_setColorOf : (tree.setColorOf q c).numNodes = tree.numNodes := by
  cases q <;> rfl
@[simp] lemma totalSize_setChild : (tree.setChild p d q).totalSize = tree.totalSize := rfl
@[simp] lemma totalSize_setParent : (tree.setParent p q).totalSize = tree.totalSize := rfl
@[simp] lemma totalSize_setColor : (tree.setColor p c).totalSize = tree.totalSize := rfl
@[simp] lemma totalSize_setParentOf : (tree.setParentOf q v).totalSize = tree.totalSize := by
  cases q <;> rfl
@[simp] lemma totalSize_setColorOf : (tree.setColorOf q c).totalSize = tree.totalSize := by
  cases q <;> rfl
@[simp] lemma mpool_setSlot {s : Slot} : (tree.setSlot s q).mpool = tree.mpool := by
  cases s <;> rfl
@[simp] lemma numNodes_setSlot {s : Slot} : (tree.setSlot s q).numNodes = tree.numNodes := by
  cases s <;> rfl
@[simp] lemma totalSize_setSlot {s : Slot} : (tree.setSlot s q).totalSize = tree.totalSize := by
  cases s <;> rfl

end Writes

end UcsIntervalTree

open UcsIntervalTree

/-! ### Rotations -/

/-- `ucs_interval_tree_rotate_left` for `d = left`, `ucs_interval_tree_rotate_right` for
`d = right`: `node` becomes the child on side `d` of its child `r` on the other side, which takes
its place below `node->parent` or at `tree->root`. -/
def rotate (d : Side) (tree : UcsIntervalTree) (node : Ptr) : UcsIntervalTree :=
  match (tree.nodes node).child d.opp with
  | none => tree
  | some r =>
    let tree := tree.setChild node d.opp ((tree.nodes r).child d)
    let tree := tree.setParentOf ((tree.nodes r).child d) (some node)
    let tree := tree.setParent r (tree.nodes node).parent
    let tree := tree.setSlot (tree.parentSlot d node) (some r)
    let tree := tree.setChild r d (some node)
    tree.setParent node (some r)

/-- `ucs_interval_tree_rotate_left`. -/
def ucsIntervalTreeRotateLeft : UcsIntervalTree → Ptr → UcsIntervalTree := rotate .left

/-- `ucs_interval_tree_rotate_right`. -/
def ucsIntervalTreeRotateRight : UcsIntervalTree → Ptr → UcsIntervalTree := rotate .right

/-! ### Insertion -/

/-- The `else` branch of a round of `ucs_interval_tree_insert_fixup` whose red `parent` is the
child on side `d` of its parent, when the uncle is black or missing: a node on the inner side
moves up to the parent by a rotation, then the parent is painted black, the grandparent red, and
the grandparent rotated the other way. The second component is the node to go on from, `none` at
the `break`. Painting does not change the parent links, so `node->parent` is read once. -/
def insertFixupRotate (d : Side) (tree : UcsIntervalTree) (node parent : Ptr) :
    UcsIntervalTree × Option Ptr :=
  let (tree, node) :=
    if some node = (tree.nodes parent).child d.opp then (rotate d tree parent, parent)
    else (tree, node)
  match (tree.nodes node).parent with
  | none => (tree, none)
  | some p =>
    match (tree.nodes p).parent with
    | none => (tree, none)
    | some g =>
      let tree := (tree.setColor p black).setColor g red
      (rotate d.opp tree g, some node)

/-- A round of `ucs_interval_tree_insert_fixup` whose red `parent` is the child on side `d` of
`gp`: a red uncle is painted black with the parent, `gp` red, and the loop goes on from `gp`. -/
def insertFixupSide (d : Side) (tree : UcsIntervalTree) (node parent gp : Ptr) :
    UcsIntervalTree × Option Ptr :=
  match (tree.nodes gp).child d.opp with
  | some uncle =>
    if (tree.nodes uncle).color = red then
      (((tree.setColor parent black).setColor uncle black).setColor gp red, some gp)
    else insertFixupRotate d tree node parent
  | none => insertFixupRotate d tree node parent

/-- The loop of `ucs_interval_tree_insert_fixup`: while `node` has a red parent and a
grandparent. -/
def insertFixupLoop : ℕ → UcsIntervalTree → Ptr → Option UcsIntervalTree
  | 0, _, _ => none
  | fuel + 1, tree, node =>
    match (tree.nodes node).parent with
    | none => some tree
    | some parent =>
      match (tree.nodes parent).parent with
      | none => some tree
      | some gp =>
        if (tree.nodes parent).color = red then
          let d := if some parent = (tree.nodes gp).left then Side.left else Side.right
          match insertFixupSide d tree node parent gp with
          | (tree, some node) => insertFixupLoop fuel tree node
          | (tree, none) => some tree
        else some tree

/-- `ucs_interval_tree_insert_fixup`: the loop, then `tree->root->color = BLACK`. -/
def ucsIntervalTreeInsertFixup (tree : UcsIntervalTree) (node : Ptr) : Option UcsIntervalTree :=
  (insertFixupLoop (tree.numNodes + 1) tree node).map fun tree => tree.setColorOf tree.root black

/-- `ucs_interval_tree_insert_node`: `newNode` hung below the subtree at `root`, left of a node
that starts later and right of the others; the subtree's root is returned. -/
def ucsIntervalTreeInsertNode :
    ℕ → UcsIntervalTree → Option Ptr → Ptr → Option (UcsIntervalTree × Option Ptr)
  | 0, _, _, _ => none
  | _ + 1, tree, none, newNode => some (tree, some newNode)
  | fuel + 1, tree, some root, newNode =>
    let d := if (tree.nodes newNode).start < (tree.nodes root).start then Side.left else Side.right
    match ucsIntervalTreeInsertNode fuel tree ((tree.nodes root).child d) newNode with
    | none => none
    | some (tree, sub) => some (((tree.setChild root d sub).relinkChild root d), some root)

/-- `ucs_interval_tree_node_create`: a red node without links from the pool, counted in
`num_nodes` and `total_size`; `none` when the pool is empty. -/
def ucsIntervalTreeNodeCreate (tree : UcsIntervalTree) (start «end» : UInt64) :
    Option (UcsIntervalTree × Ptr) :=
  match tree.mpool with
  | [] => none
  | node :: free =>
    some ({ tree with
      nodes := Function.update tree.nodes node ⟨none, none, none, start, «end», red⟩
      mpool := free
      numNodes := tree.numNodes + 1
      totalSize := tree.totalSize + («end» - start) }, node)

/-! ### Removal -/

/-- `ucs_interval_tree_delete_node`: the node leaves the counters and goes back to the pool. -/
def ucsIntervalTreeDeleteNode (tree : UcsIntervalTree) (node : Ptr) : UcsIntervalTree :=
  { tree with
    totalSize := tree.totalSize - ((tree.nodes node).end - (tree.nodes node).start)
    numNodes := tree.numNodes - 1
    mpool := node :: tree.mpool }

@[simp] lemma nodes_ucsIntervalTreeDeleteNode (tree : UcsIntervalTree) (node : Ptr) :
    (ucsIntervalTreeDeleteNode tree node).nodes = tree.nodes := rfl
@[simp] lemma root_ucsIntervalTreeDeleteNode (tree : UcsIntervalTree) (node : Ptr) :
    (ucsIntervalTreeDeleteNode tree node).root = tree.root := rfl
@[simp] lemma mpool_ucsIntervalTreeDeleteNode (tree : UcsIntervalTree) (node : Ptr) :
    (ucsIntervalTreeDeleteNode tree node).mpool = node :: tree.mpool := rfl
@[simp] lemma numNodes_ucsIntervalTreeDeleteNode (tree : UcsIntervalTree) (node : Ptr) :
    (ucsIntervalTreeDeleteNode tree node).numNodes = tree.numNodes - 1 := rfl

/-- `node = parent; parent = parent->parent;` and `root_ptr` to the slot of `node` in its new
parent, kept when there is none. -/
def deleteFixupUp (tree : UcsIntervalTree) (rootPtr : Slot) (parent : Ptr) :
    Slot × Option Ptr × Option Ptr :=
  match (tree.nodes parent).parent with
  | none => (rootPtr, some parent, none)
  | some pp =>
    ((if (tree.nodes pp).left = some parent then .child pp .left else .child pp .right),
      some parent, some pp)

/-- The end of a round of `ucs_interval_tree_delete_fixup` at a black `sibling` with a red child:
a red inner child is painted black and the sibling red, and the sibling rotated; then the sibling
takes the parent's colour, the parent and the outer child are painted black, and the parent is
rotated. -/
def deleteFixupRotate (d : Side) (tree : UcsIntervalTree) (parent sibling : Ptr) :
    UcsIntervalTree :=
  let (tree, sibling) :=
    if tree.blackOrNull ((tree.nodes sibling).child d.opp) then
      let tree := tree.setColorOf ((tree.nodes sibling).child d) black
      let tree := rotate d.opp (tree.setColor sibling red) sibling
      (tree, (tree.nodes parent).child d.opp)
    else (tree, some sibling)
  match sibling with
  | none => tree
  | some sibling =>
    let tree := (tree.setColor sibling (tree.nodes parent).color).setColor parent black
    let tree := tree.setColorOf ((tree.nodes sibling).child d.opp) black
    rotate d tree parent

/-- A round of `ucs_interval_tree_delete_fixup` with the hole at `root_ptr` on side `d` of
`parent`: a red sibling is painted black and the parent red, and the parent rotated; a missing
sibling, or a black one with black children painted red, moves the hole up; otherwise the round
ends the loop. `some` the state to go on from, `none` at the `break`. -/
def deleteFixupSide (d : Side) (tree : UcsIntervalTree) (rootPtr : Slot) (parent : Ptr) :
    UcsIntervalTree × Option (Slot × Option Ptr × Option Ptr) :=
  let (tree, sibling) :=
    match (tree.nodes parent).child d.opp with
    | some s =>
      if (tree.nodes s).color = red then
        let tree := rotate d ((tree.setColor s black).setColor parent red) parent
        (tree, (tree.nodes parent).child d.opp)
      else (tree, some s)
    | none => (tree, none)
  match sibling with
  | none => (tree, some (deleteFixupUp tree rootPtr parent))
  | some s =>
    if tree.blackOrNull ((tree.nodes s).child d) ∧ tree.blackOrNull ((tree.nodes s).child d.opp)
    then
      let tree := tree.setColor s red
      (tree, some (deleteFixupUp tree rootPtr parent))
    else (deleteFixupRotate d tree parent s, none)

/-- The loop of `ucs_interval_tree_delete_fixup`: while the node at the hole is missing or black
and has a parent. It returns the state at its end: the tree, `root_ptr`, `node` and `parent`. -/
def deleteFixupLoop : ℕ → UcsIntervalTree → Slot → Option Ptr → Option Ptr →
    Option (UcsIntervalTree × Slot × Option Ptr × Option Ptr)
  | 0, _, _, _, _ => none
  | _ + 1, tree, rootPtr, node, none => some (tree, rootPtr, node, none)
  | fuel + 1, tree, rootPtr, node, some parent =>
    if tree.blackOrNull node then
      let d := if rootPtr = .child parent .left then Side.left else Side.right
      match deleteFixupSide d tree rootPtr parent with
      | (tree, some (rootPtr, node, parent)) => deleteFixupLoop fuel tree rootPtr node parent
      | (tree, none) => some (tree, rootPtr, node, some parent)
    else some (tree, rootPtr, node, some parent)

/-- `ucs_interval_tree_delete_fixup`: the loop from the node at `root_ptr`, then that node painted
black, and `tree->root` set when the hole was the root's. -/
def ucsIntervalTreeDeleteFixup (tree : UcsIntervalTree) (rootPtr : Slot) (parent : Option Ptr) :
    Option UcsIntervalTree :=
  (deleteFixupLoop (tree.numNodes + 1) tree rootPtr (tree.getSlot rootPtr) parent).map
    fun (tree, rootPtr, node, parent) =>
      let tree := tree.setColorOf node black
      if parent = none ∧ rootPtr = .root then { tree with root := node } else tree

/-- `while (node->left != NULL) { node = node->left; }`. -/
def leftmost : ℕ → UcsIntervalTree → Ptr → Option Ptr
  | 0, _, _ => none
  | fuel + 1, tree, node =>
    match (tree.nodes node).left with
    | none => some node
    | some l => leftmost fuel tree l

/-- The found node `root` at `*root_ptr` with at most one child, `replacement`: the child takes its
slot and its parent, the node is deleted, and the fixup runs if it was black. -/
def removeSplice (tree : UcsIntervalTree) (rootPtr : Slot) (root : Ptr)
    (replacement : Option Ptr) : Option UcsIntervalTree :=
  let parent := (tree.nodes root).parent
  let removedColor := (tree.nodes root).color
  let tree := tree.setSlot rootPtr replacement
  let tree := tree.setParentOf replacement parent
  let tree := ucsIntervalTreeDeleteNode tree root
  if removedColor = black then ucsIntervalTreeDeleteFixup tree rootPtr parent else some tree

/-- `ucs_interval_tree_remove_node`: the search by start from `*root_ptr` for `target`; the node
found is spliced out if it has at most one child, and otherwise takes its successor's range and
the successor is removed from its right subtree. -/
def ucsIntervalTreeRemoveNode : ℕ → UcsIntervalTree → Slot → Ptr → Option UcsIntervalTree
  | 0, _, _, _ => none
  | fuel + 1, tree, rootPtr, target =>
    match tree.getSlot rootPtr with
    | none => some tree
    | some root =>
      if (tree.nodes target).start < (tree.nodes root).start then
        (ucsIntervalTreeRemoveNode fuel tree (.child root .left) target).map
          (·.relinkChild root .left)
      else if (tree.nodes target).start > (tree.nodes root).start then
        (ucsIntervalTreeRemoveNode fuel tree (.child root .right) target).map
          (·.relinkChild root .right)
      else
        match (tree.nodes root).left, (tree.nodes root).right with
        | none, right => removeSplice tree rootPtr root right
        | some left, none => removeSplice tree rootPtr root (some left)
        | some _, some right =>
          match leftmost fuel tree right with
          | none => none
          | some successor =>
            let tree := { tree with
              totalSize := tree.totalSize - ((tree.nodes root).end - (tree.nodes root).start) }
            let tree := tree.modify root fun node =>
              { node with start := (tree.nodes successor).start,
                          «end» := (tree.nodes successor).end }
            let tree := { tree with
              totalSize := tree.totalSize + ((tree.nodes root).end - (tree.nodes root).start) }
            (ucsIntervalTreeRemoveNode fuel tree (.child root .right) successor).map
              (·.relinkChild root .right)

/-! ### The interface -/

/-- `ucs_interval_tree_init` over the nodes and the free list of the pool. -/
def ucsIntervalTreeInit (nodes : Ptr → UcsIntervalNode) (mpool : List Ptr) : UcsIntervalTree :=
  ⟨nodes, none, mpool, 0, 0⟩

/-- `ucs_interval_tree_cleanup_recursive`: the left subtree, the right one, then the node, back to
the pool. -/
def ucsIntervalTreeCleanupRecursive : ℕ → UcsIntervalTree → Option Ptr → Option UcsIntervalTree
  | 0, _, _ => none
  | _ + 1, tree, none => some tree
  | fuel + 1, tree, some node =>
    (ucsIntervalTreeCleanupRecursive fuel tree (tree.nodes node).left).bind fun tree =>
      (ucsIntervalTreeCleanupRecursive fuel tree (tree.nodes node).right).map fun tree =>
        ucsIntervalTreeDeleteNode tree node

/-- `ucs_interval_tree_cleanup`; `tree->root` is left as it is. -/
def ucsIntervalTreeCleanup (tree : UcsIntervalTree) : Option UcsIntervalTree :=
  ucsIntervalTreeCleanupRecursive (tree.numNodes + 1) tree tree.root

/-- `ucs_interval_tree_find_overlap`: a node that overlaps or touches `range`, searching the node,
its left subtree, and its right subtree unless the node starts past `range.end + 1`. `some none`
when there is none. -/
def ucsIntervalTreeFindOverlap : ℕ → UcsIntervalTree → Option Ptr → UcsIntervalTreeRange →
    Option (Option Ptr)
  | 0, _, _, _ => none
  | _ + 1, _, none, _ => some none
  | fuel + 1, tree, some node, range =>
    if ucsIntervalTouches range ⟨(tree.nodes node).start, (tree.nodes node).end⟩ then
      some (some node)
    else
      match ucsIntervalTreeFindOverlap fuel tree (tree.nodes node).left range with
      | none => none
      | some (some found) => some (some found)
      | some none =>
        if (tree.nodes node).start ≤ range.end + 1 then
          ucsIntervalTreeFindOverlap fuel tree (tree.nodes node).right range
        else some none

/-- `ucs_interval_tree_remove_overlapping`: while a node touches the range, widen the range over
it and remove it from the root. -/
def ucsIntervalTreeRemoveOverlapping : ℕ → UcsIntervalTree → UcsIntervalTreeRange →
    Option (UcsIntervalTree × UcsIntervalTreeRange)
  | 0, _, _ => none
  | fuel + 1, tree, range =>
    match ucsIntervalTreeFindOverlap (tree.numNodes + 1) tree tree.root range with
    | none => none
    | some none => some (tree, range)
    | some (some overlap) =>
      let range : UcsIntervalTreeRange :=
        ⟨min range.start (tree.nodes overlap).start, max range.end (tree.nodes overlap).end⟩
      match ucsIntervalTreeRemoveNode (tree.numNodes + 1) tree .root overlap with
      | none => none
      | some tree => ucsIntervalTreeRemoveOverlapping fuel tree range

/-- `ucs_interval_tree_insert_slow`: the touching nodes merged into the range and removed, then a
new node for the merged range hung in and the tree rebalanced. -/
def ucsIntervalTreeInsertSlow (tree : UcsIntervalTree) (range : UcsIntervalTreeRange) :
    Option (UcsStatus × UcsIntervalTree) :=
  match ucsIntervalTreeRemoveOverlapping (tree.numNodes + 1) tree range with
  | none => none
  | some (tree, merged) =>
    match ucsIntervalTreeNodeCreate tree merged.start merged.end with
    | none => some (.errNoMemory, tree)
    | some (tree, newNode) =>
      match ucsIntervalTreeInsertNode (tree.numNodes + 1) tree tree.root newNode with
      | none => none
      | some (tree, root) =>
        let tree := { tree with root := root }
        let tree := tree.setParentOf tree.root none
        (ucsIntervalTreeInsertFixup tree newNode).map fun tree => (.ok, tree)

/-- `ucs_interval_tree_insert`: with a single node that the range touches, the node is widened in
place; otherwise the slow path. -/
def ucsIntervalTreeInsert (tree : UcsIntervalTree) (range : UcsIntervalTreeRange) :
    Option (UcsStatus × UcsIntervalTree) :=
  match tree.root with
  | some root =>
    if tree.numNodes = 1 ∧
        ucsIntervalTouches range ⟨(tree.nodes root).start, (tree.nodes root).end⟩ = true then
      let oldSize := (tree.nodes root).end - (tree.nodes root).start
      let tree := tree.modify root fun node =>
        { node with start := min node.start range.start, «end» := max node.end range.end }
      some (.ok, { tree with
        totalSize := tree.totalSize + (((tree.nodes root).end - (tree.nodes root).start) - oldSize) })
    else ucsIntervalTreeInsertSlow tree range
  | none => ucsIntervalTreeInsertSlow tree range

/-- `ucs_interval_tree_pop_any`: the range of the leftmost node, which is removed; `none` for an
empty tree. -/
def ucsIntervalTreePopAny (tree : UcsIntervalTree) :
    Option (Option UcsIntervalTreeRange × UcsIntervalTree) :=
  match tree.root with
  | none => some (none, tree)
  | some root =>
    match leftmost (tree.numNodes + 1) tree root with
    | none => none
    | some node =>
      (ucsIntervalTreeRemoveNode (tree.numNodes + 1) tree .root node).map
        fun tree' => (some ⟨(tree.nodes node).start, (tree.nodes node).end⟩, tree')

/-- The tree after a call. -/
def ucsIntervalTreeStep (tree : UcsIntervalTree) : UcsIntervalTreeOp → Option UcsIntervalTree
  | .insert range => (ucsIntervalTreeInsert tree range).map (·.2)
  | .popAny => (ucsIntervalTreePopAny tree).map (·.2)

/-- The tree after a sequence of calls. -/
def ucsIntervalTreeRun : UcsIntervalTree → List UcsIntervalTreeOp → Option UcsIntervalTree
  | tree, [] => some tree
  | tree, op :: ops => (ucsIntervalTreeStep tree op).bind (ucsIntervalTreeRun · ops)

end UcxProofs.IntervalRb
