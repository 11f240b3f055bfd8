import UcxProofs.Lib.SerialNumber

/-!
The fragment list of `ucs/datastruct/frag_list.{h,c}`.

Elements arrive with 16-bit sequence numbers in any order and leave in sequence-number order.
`head_sn` is the last sequence number handed out. Out-of-order elements wait in hole lists:
each is a run of consecutive sequence numbers, headed by its first element, which records the
run's first and last number and chains the others behind it. When the run right after
`head_sn` is pulled, its head is returned and the rest of the run moves to the ready list,
from which it is pulled one element at a time.

Sequence numbers are compared with `UCS_CIRCULAR_COMPARE16`, except in one place of
`ucs_frag_list_insert_slow`, which compares `first_sn` with `sn + 1` as plain `int`s; the
model keeps that comparison as the source has it. The statistics counters are left out.
-/

namespace UcxProofs.FragList

/-- `UCS_CIRCULAR_COMPARE16 (a, op, b)` is `ucsCircularCompare16 a b op 0`: the difference
`a - b` read as an `int16_t`. -/
def ucsCircularCompare16 (a b : UInt16) : ℤ := SerialNumber.diff a.toBitVec b.toBitVec

/-! ### Distances on the circle -/

lemma toNat_sub_of_le_sub {x a c : UInt16} (h : (a - c).toNat ≤ (x - c).toNat) :
    (x - a).toNat = (x - c).toNat - (a - c).toNat := by
  simp only [UInt16.toNat_sub] at h ⊢
  have := x.toNat_lt; have := a.toNat_lt; have := c.toNat_lt
  omega

lemma toNat_add_one_sub {x c : UInt16} (h : (x - c).toNat + 1 < 2 ^ 16) :
    (x + 1 - c).toNat = (x - c).toNat + 1 := by
  simp only [UInt16.toNat_sub, UInt16.toNat_add, UInt16.toNat_one] at h ⊢
  have := x.toNat_lt; have := c.toNat_lt
  omega

lemma toNat_sub_bitVec (x y : UInt16) : (x.toBitVec - y.toBitVec).toNat = (x - y).toNat := by
  rw [← UInt16.toBitVec_sub]
  rfl

/-- Two serial numbers less than half the circle ahead of a common `c` compare as their
distances from `c` do. -/
theorem ucsCircularCompare16_eq_sub {a b c : UInt16} (ha : (a - c).toNat < 2 ^ 15)
    (hb : (b - c).toNat < 2 ^ 15) :
    ucsCircularCompare16 a b = ((a - c).toNat : ℤ) - (b - c).toNat := by
  unfold ucsCircularCompare16
  rw [SerialNumber.diff_eq_sub_of_lt (c := c.toBitVec) (by rw [toNat_sub_bitVec]; omega)
    (by rw [toNat_sub_bitVec]; omega), toNat_sub_bitVec, toNat_sub_bitVec]

lemma ucsCircularCompare16_pos_iff {a b : UInt16} :
    0 < ucsCircularCompare16 a b ↔ 0 < (a - b).toNat ∧ (a - b).toNat < 2 ^ 15 := by
  unfold ucsCircularCompare16
  rw [SerialNumber.diff_pos_iff, toNat_sub_bitVec]
  omega

lemma ucsCircularCompare16_eq_zero_iff {a b : UInt16} : ucsCircularCompare16 a b = 0 ↔ a = b := by
  unfold ucsCircularCompare16
  rw [SerialNumber.diff_eq_zero_iff, UInt16.toBitVec_inj]

/-- `a` is at or behind `b` when `b` is less than half the circle ahead of it. -/
lemma ucsCircularCompare16_nonpos_of_lt {a b : UInt16} (h : (b - a).toNat < 2 ^ 15) :
    ucsCircularCompare16 a b ≤ 0 := by
  rw [ucsCircularCompare16_eq_sub (c := a) (by simp) h]
  simp

/-- `ucs_frag_list_ooo_type_t`. -/
inductive UcsFragListOooType
  | insertFast
  | insertFirst
  | insertSlow
  | insertDup
  | insertReady
  | insertFail
  deriving DecidableEq, Repr

/-- An element heading a hole list: the element, the first and last sequence numbers of its
run, and the elements chained behind it (`head.list`). -/
structure UcsFragListHead (α : Type) where
  elem : α
  firstSn : UInt16
  lastSn : UInt16
  list : List α
  deriving DecidableEq, Repr

/-- `ucs_frag_list_t`. The `unsigned` counters are 32-bit and wrap. -/
structure UcsFragList (α : Type) where
  list : List (UcsFragListHead α)
  readyList : List α
  headSn : UInt16
  elemCount : UInt32
  listCount : UInt32
  maxHoles : ℤ
  deriving DecidableEq, Repr

variable {α : Type}

/-- `ucs_frag_list_init`. -/
def ucsFragListInit (initialSn : UInt16) (maxHoles : ℤ) : UcsFragList α :=
  ⟨[], [], initialSn, 0, 0, maxHoles⟩

/-! ### The hole-list surgery -/

/-- `frag_list_replace_head`: `newH` heads the run one sequence number earlier, and the old
head becomes the first element chained behind it. -/
def fragListReplaceHead (h : UcsFragListHead α) (newH : α) : UcsFragListHead α :=
  ⟨newH, h.firstSn - 1, h.lastSn, h.elem :: h.list⟩

/-- `frag_list_add_tail`. -/
def fragListAddTail (h : UcsFragListHead α) (elem : α) : UcsFragListHead α :=
  { h with lastSn := h.lastSn + 1, list := h.list ++ [elem] }

/-- `frag_list_merge_heads`: the run of `h2` is appended to that of `h1`. -/
def fragListMergeHeads (h1 h2 : UcsFragListHead α) : UcsFragListHead α :=
  { h1 with lastSn := h2.lastSn, list := h1.list ++ h2.elem :: h2.list }

/-- The one-element run that `frag_list_insert_head` and `frag_list_insert_tail` make. -/
def fragListNewHole (newH : α) (sn : UInt16) : UcsFragListHead α := ⟨newH, sn, sn, []⟩

/-- How the walk over the holes in `ucs_frag_list_insert_slow` ended. -/
inductive SlowWalk (α : Type)
  | dup
  /-- The element joined a run; the number of runs is unchanged. -/
  | joined (list : List (UcsFragListHead α))
  /-- The element joined a run, which was then merged with the next one. -/
  | merged (list : List (UcsFragListHead α))
  /-- The element is a run of its own. -/
  | newHole (list : List (UcsFragListHead α))
  deriving DecidableEq, Repr

/-- Put back a run the walk went past. -/
def SlowWalk.cons (h : UcsFragListHead α) : SlowWalk α → SlowWalk α
  | .dup => .dup
  | .joined l => .joined (h :: l)
  | .merged l => .merged (h :: l)
  | .newHole l => .newHole (h :: l)

/-- The `ucs_queue_for_each` loop of `ucs_frag_list_insert_slow`, with the
`frag_list_insert_tail` after it. -/
def insertSlowWalk (elem : α) (sn : UInt16) : List (UcsFragListHead α) → SlowWalk α
  | [] => .newHole [fragListNewHole elem sn]
  | h :: rest =>
    if ucsCircularCompare16 sn h.firstSn ≥ 0 ∧ ucsCircularCompare16 sn h.lastSn ≤ 0 then .dup
    else if ucsCircularCompare16 (sn + 1) h.firstSn = 0 then
      .joined (fragListReplaceHead h elem :: rest)
    else if ucsCircularCompare16 (h.lastSn + 1) sn = 0 then
      match rest with
      | nexth :: rest' =>
        -- `nexth->head.first_sn == (sn + 1)`: both sides are promoted to `int`
        if nexth.firstSn.toNat = sn.toNat + 1 then
          .merged (fragListMergeHeads (fragListAddTail h elem) nexth :: rest')
        else .joined (fragListAddTail h elem :: rest)
      | [] => .joined [fragListAddTail h elem]
    else if ucsCircularCompare16 sn h.firstSn < 0 then
      .newHole (fragListNewHole elem sn :: h :: rest)
    else (insertSlowWalk elem sn rest).cons h

/-! ### Insert and pull -/

/-- `ucs_frag_list_insert_head`, the case `sn == head_sn + 1`. -/
def ucsFragListInsertHead (head : UcsFragList α) (elem : α) (sn : UInt16) :
    UcsFragListOooType × UcsFragList α :=
  let h := head.list.head?
  if h.any (fun h => ucsCircularCompare16 sn h.firstSn ≥ 0) then (.insertDup, head)
  else
    let head := { head with headSn := head.headSn + 1 }
    if head.readyList ≠ [] then (.insertReady, { head with readyList := head.readyList ++ [elem] })
    else if h.any (fun h => ucsCircularCompare16 h.firstSn (sn + 1) = 0) then
      (.insertFirst, head)
    else (.insertFast, head)

/-- `ucs_frag_list_insert_slow`. -/
def ucsFragListInsertSlow (head : UcsFragList α) (elem : α) (sn : UInt16) :
    UcsFragListOooType × UcsFragList α :=
  if ucsCircularCompare16 sn (head.headSn + 1) = 0 then ucsFragListInsertHead head elem sn
  else if ucsCircularCompare16 sn head.headSn ≤ 0 then (.insertDup, head)
  else if head.maxHoles = 0 then (.insertFail, head)
  else
    match insertSlowWalk elem sn head.list with
    | .dup => (.insertDup, head)
    | .joined l => (.insertSlow, { head with list := l, elemCount := head.elemCount + 1 })
    | .merged l =>
      (.insertSlow,
        { head with list := l, elemCount := head.elemCount + 1, listCount := head.listCount - 1 })
    | .newHole l =>
      (.insertSlow,
        { head with list := l, elemCount := head.elemCount + 1, listCount := head.listCount + 1 })

/-- `ucs_frag_list_insert` (without statistics). -/
def ucsFragListInsert (head : UcsFragList α) (elem : α) (sn : UInt16) :
    UcsFragListOooType × UcsFragList α :=
  if ucsCircularCompare16 sn (head.headSn + 1) = 0 ∧ head.elemCount = 0 then
    (.insertFast, { head with headSn := sn })
  else ucsFragListInsertSlow head elem sn

/-- `ucs_frag_list_pull_slow`. The source calls it only with a hole list that is not empty. -/
def ucsFragListPullSlow (head : UcsFragList α) (force : Bool) : Option α × UcsFragList α :=
  match head.list with
  | [] => (none, head)
  | h :: rest =>
    if !force ∧ ucsCircularCompare16 h.firstSn (head.headSn + 1) ≠ 0 then (none, head)
    else
      (some h.elem,
        { head with list := rest, readyList := head.readyList ++ h.list, headSn := h.lastSn,
                    elemCount := head.elemCount - 1, listCount := head.listCount - 1 })

/-- `ucs_frag_list_remove`. -/
def ucsFragListRemove (head : UcsFragList α) (force : Bool) : Option α × UcsFragList α :=
  match head.readyList with
  | e :: rest => (some e, { head with readyList := rest, elemCount := head.elemCount - 1 })
  | [] => if head.list ≠ [] then ucsFragListPullSlow head force else (none, head)

/-- `ucs_frag_list_pull`. -/
def ucsFragListPull (head : UcsFragList α) : Option α × UcsFragList α :=
  ucsFragListRemove head false

end UcxProofs.FragList
