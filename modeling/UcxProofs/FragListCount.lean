import UcxProofs.SrdRx

/-!
What `elem_count` of a fragment list counts.

`ucs_frag_list_insert_head` appends to the ready list without counting the element when the
ready list is not empty (`UCS_FRAG_LIST_INSERT_READY`), while `ucs_frag_list_remove` counts
down for every element it takes from the ready list. Over any run of inserts and removes from
`ucs_frag_list_init`, `elem_count` is therefore the number of elements held less the number of
`INSERT_READY` insertions, modulo 2^32: every other insert and every remove keeps the two in
step. Once such an element is pulled from an otherwise empty list the counter wraps below zero.
-/

namespace UcxProofs.FragList

open SrdRx

variable {α : Type}

/-- The elements waiting in the hole lists: each run's head and the elements behind it. -/
def holesCount (l : List (UcsFragListHead α)) : ℕ := (l.map fun h => h.list.length + 1).sum

@[simp] lemma holesCount_nil : holesCount ([] : List (UcsFragListHead α)) = 0 := rfl

@[simp] lemma holesCount_cons (h : UcsFragListHead α) (l : List (UcsFragListHead α)) :
    holesCount (h :: l) = h.list.length + 1 + holesCount l := rfl

lemma heldCount_eq (head : UcsFragList α) :
    heldCount head = head.readyList.length + holesCount head.list := rfl

/-- The number of elements the walk leaves in the hole lists, against the list it walked. -/
def SlowWalk.count : SlowWalk α → Option ℕ
  | .dup => none
  | .joined l | .merged l | .newHole l => some (holesCount l)

lemma SlowWalk.count_cons (h : UcsFragListHead α) (w : SlowWalk α) :
    (w.cons h).count = w.count.map (h.list.length + 1 + ·) := by
  cases w <;> rfl

/-- Every way the walk stores the element adds exactly one element to the hole lists. -/
theorem insertSlowWalk_count (elem : α) (sn : UInt16) (l : List (UcsFragListHead α)) :
    (insertSlowWalk elem sn l).count = none ∨
      (insertSlowWalk elem sn l).count = some (holesCount l + 1) := by
  induction l with
  | nil => exact .inr rfl
  | cons h rest ih =>
    unfold insertSlowWalk
    split
    · exact .inl rfl
    split
    · -- the element heads the run, in front of the old head
      right
      simp [SlowWalk.count, fragListReplaceHead]
      omega
    split
    · -- the element goes after the run's tail, perhaps merging with the next run
      right
      rcases rest with _ | ⟨nexth, rest'⟩
      · simp [SlowWalk.count, fragListAddTail]
      · simp only
        split
        · simp [SlowWalk.count, fragListMergeHeads, fragListAddTail]
          omega
        · simp [SlowWalk.count, fragListAddTail]
          omega
    split
    · right
      simp [SlowWalk.count, fragListNewHole]
      omega
    · rw [SlowWalk.count_cons]
      rcases ih with ih | ih
      · exact .inl (by rw [ih]; rfl)
      · right
        rw [ih]
        simp
        omega

/-- A remove takes one held element and counts it down, or changes nothing. -/
theorem ucsFragListRemove_count (head : UcsFragList α) (force : Bool) :
    (ucsFragListRemove head force).2 = head ∨
      (heldCount (ucsFragListRemove head force).2 + 1 = heldCount head ∧
        (ucsFragListRemove head force).2.elemCount = head.elemCount - 1) := by
  unfold ucsFragListRemove ucsFragListPullSlow
  rcases hr : head.readyList with _ | ⟨e, rest⟩
  · rcases hl : head.list with _ | ⟨h, rest⟩
    · simp
    · simp only [ne_eq, reduceCtorEq, not_false_eq_true, if_true]
      split
      · exact .inl rfl
      · right
        simp [heldCount_eq, hr, hl]
        omega
  · right
    simp [heldCount_eq, hr]
    omega

/-- What an insert does to the count: `INSERT_READY` stores the element without counting
it, every other outcome stores and counts it, or neither. -/
theorem ucsFragListInsert_count (head : UcsFragList α) (elem : α) (sn : UInt16) :
    ((ucsFragListInsert head elem sn).1 = .insertReady ∧
        heldCount (ucsFragListInsert head elem sn).2 = heldCount head + 1 ∧
        (ucsFragListInsert head elem sn).2.elemCount = head.elemCount) ∨
      ((ucsFragListInsert head elem sn).1 ≠ .insertReady ∧
        ((heldCount (ucsFragListInsert head elem sn).2 = heldCount head ∧
            (ucsFragListInsert head elem sn).2.elemCount = head.elemCount) ∨
          (heldCount (ucsFragListInsert head elem sn).2 = heldCount head + 1 ∧
            (ucsFragListInsert head elem sn).2.elemCount = head.elemCount + 1))) := by
  -- the `INSERT_HEAD` path: only the ready-list append stores the element
  have hhead : ∀ head : UcsFragList α,
      ((ucsFragListInsertHead head elem sn).1 = .insertReady ∧
        heldCount (ucsFragListInsertHead head elem sn).2 = heldCount head + 1 ∧
        (ucsFragListInsertHead head elem sn).2.elemCount = head.elemCount) ∨
      ((ucsFragListInsertHead head elem sn).1 ≠ .insertReady ∧
        heldCount (ucsFragListInsertHead head elem sn).2 = heldCount head ∧
        (ucsFragListInsertHead head elem sn).2.elemCount = head.elemCount) := fun head => by
    unfold ucsFragListInsertHead
    dsimp only
    split
    · exact .inr ⟨by simp, rfl, rfl⟩
    · split
      · left
        simp [heldCount_eq]
        omega
      · split <;> exact .inr ⟨by simp, rfl, rfl⟩
  unfold ucsFragListInsert ucsFragListInsertSlow
  split
  · exact .inr ⟨by simp, .inl ⟨rfl, rfl⟩⟩
  split
  · rcases hhead head with h | h
    · exact .inl h
    · exact .inr ⟨h.1, .inl h.2⟩
  split
  · exact .inr ⟨by simp, .inl ⟨rfl, rfl⟩⟩
  split
  · exact .inr ⟨by simp, .inl ⟨rfl, rfl⟩⟩
  have hw := insertSlowWalk_count elem sn head.list
  split <;> rename_i l hl <;> rw [hl] at hw
  · exact .inr ⟨by simp, .inl ⟨rfl, rfl⟩⟩
  all_goals
    refine .inr ⟨by simp, .inr ⟨?_, rfl⟩⟩
    simp only [SlowWalk.count, reduceCtorEq, Option.some.injEq, false_or] at hw
    simp [heldCount_eq, hw]
    omega

/-! ### Runs -/

/-- `ucs_frag_list_insert` and `ucs_frag_list_remove` (`ucs_frag_list_pull` is `force = 0`). -/
inductive FragListOp (α : Type)
  | insert (elem : α) (sn : UInt16)
  | remove (force : Bool)

/-- One operation; the second component counts the insertions that returned
`UCS_FRAG_LIST_INSERT_READY`. -/
def fragListStep : UcsFragList α × ℕ → FragListOp α → UcsFragList α × ℕ
  | (head, r), .insert elem sn =>
    ((ucsFragListInsert head elem sn).2,
      if (ucsFragListInsert head elem sn).1 = .insertReady then r + 1 else r)
  | (head, r), .remove force => ((ucsFragListRemove head force).2, r)

def fragListRun (s : UcsFragList α × ℕ) (ops : List (FragListOp α)) : UcsFragList α × ℕ :=
  ops.foldl fragListStep s

@[simp] lemma fragListRun_nil (s : UcsFragList α × ℕ) : fragListRun s [] = s := rfl

@[simp] lemma fragListRun_cons (s : UcsFragList α × ℕ) (op : FragListOp α)
    (ops : List (FragListOp α)) :
    fragListRun s (op :: ops) = fragListRun (fragListStep s op) ops := rfl

/-- The counter is the held count less the uncounted insertions, modulo 2^32. -/
def CountInv (s : UcsFragList α × ℕ) : Prop :=
  (s.1.elemCount.toNat + s.2) % 2 ^ 32 = heldCount s.1 % 2 ^ 32

theorem CountInv.step {s : UcsFragList α × ℕ} (h : CountInv s) (op : FragListOp α) :
    CountInv (fragListStep s op) := by
  obtain ⟨head, r⟩ := s
  unfold CountInv at h ⊢
  cases op with
  | insert elem sn =>
    rcases ucsFragListInsert_count head elem sn with ⟨hr, hc, he⟩ | ⟨hr, ⟨hc, he⟩ | ⟨hc, he⟩⟩
    · simp only [fragListStep, hr, if_true, hc, he]
      simp only at h
      omega
    · simp only [fragListStep, hr, if_false, hc, he]
      exact h
    · simp only [fragListStep, hr, if_false, hc, he, UInt32.toNat_add, UInt32.toNat_one]
      simp only at h
      omega
  | remove force =>
    rcases ucsFragListRemove_count head force with hs | ⟨hc, he⟩
    · simpa [fragListStep, hs] using h
    · simp only [fragListStep, he, UInt32.toNat_sub, UInt32.toNat_one]
      simp only at h
      omega

theorem CountInv.run {s : UcsFragList α × ℕ} (h : CountInv s) (ops : List (FragListOp α)) :
    CountInv (fragListRun s ops) := by
  induction ops generalizing s with
  | nil => exact h
  | cons op ops ih => exact ih (h.step op)

/-- From `ucs_frag_list_init`, after any inserts and removes, `elem_count` plus the number of
`INSERT_READY` insertions is the number of elements held, modulo 2^32. -/
theorem fragListRun_elemCount (initialSn : UInt16) (maxHoles : ℤ) (ops : List (FragListOp α)) :
    ((fragListRun (ucsFragListInit initialSn maxHoles, 0) ops).1.elemCount.toNat +
        (fragListRun (ucsFragListInit initialSn maxHoles, 0) ops).2) % 2 ^ 32 =
      heldCount (fragListRun (ucsFragListInit initialSn maxHoles, 0) ops).1 % 2 ^ 32 :=
  CountInv.run (by simp [CountInv, ucsFragListInit, heldCount]) ops

/-- Arrivals 2, 3, 1 with a pull after the in-order 1, then 4 while 3 waits on the ready list:
4 is appended to the ready list uncounted, and pulling 3 and 4 empties the list with
`elem_count` wrapped to `UINT_MAX`, so that the assertion of `ucs_frag_list_cleanup` fails. -/
theorem fragListRun_elemCount_wraps :
    ∃ s, fragListRun (ucsFragListInit 0 (-1), 0)
        [.insert 2 2, .insert 3 3, .insert 1 1, .remove false, .insert 4 4, .remove false,
          .remove false] = s ∧
      s.1.list = [] ∧ s.1.readyList = [] ∧ s.1.elemCount = 4294967295 ∧ s.2 = 1 :=
  ⟨_, rfl, by decide⟩

end UcxProofs.FragList
