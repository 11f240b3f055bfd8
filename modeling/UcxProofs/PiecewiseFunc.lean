import UcxProofs.Status

/-!
Piecewise linear functions, `ucs/datastruct/piecewise_func.c`. A function is its list of
segments in list order, each a linear function and the last point it covers; the segment of
a point `x` is the first whose end is at least `x`. The coefficients are rationals, so that
sums are exact. `ucs_malloc` is modelled by the number of segments it can still give: a
split fails with `UCS_ERR_NO_MEMORY` once that number is zero.

When range addition returns `UCS_OK` it has added the function exactly on `[start, end]`,
and on every outcome the segment list still passes `ucs_piecewise_func_check`. A failure is
not undone: a first split that succeeded and the segments summed before the failing split
stay, so the function denoted after a failed call may differ from the one before.
-/

namespace UcxProofs.PiecewiseFunc

/-- `ucs_linear_func_t`, the function `c + m * x`. -/
structure UcsLinearFunc where
  c : ℚ
  m : ℚ
  deriving DecidableEq, Repr

/-- `UCS_LINEAR_FUNC_ZERO`. -/
def ucsLinearFuncZero : UcsLinearFunc := ⟨0, 0⟩

def ucsLinearFuncApply (f : UcsLinearFunc) (x : ℚ) : ℚ := f.c + f.m * x

def ucsLinearFuncAdd (func1 func2 : UcsLinearFunc) : UcsLinearFunc :=
  ⟨func1.c + func2.c, func1.m + func2.m⟩

/-- `SIZE_MAX`. -/
def sizeMax : ℕ := 2 ^ 64 - 1

/-- `ucs_piecewise_segment_t`. -/
structure UcsPiecewiseSegment where
  func : UcsLinearFunc
  /-- `end`, the last point of the segment; it starts one past the previous segment's end. -/
  segEnd : ℕ
  deriving DecidableEq, Repr

/-- The segments' ends in list order. -/
def ends (segs : List UcsPiecewiseSegment) : List ℕ := segs.map (·.segEnd)

@[simp] lemma ends_nil : ends [] = [] := rfl

@[simp] lemma ends_cons (seg : UcsPiecewiseSegment) (segs : List UcsPiecewiseSegment) :
    ends (seg :: segs) = seg.segEnd :: ends segs := rfl

@[simp] lemma ends_append (segs segs' : List UcsPiecewiseSegment) :
    ends (segs ++ segs') = ends segs ++ ends segs' := List.map_append

/-- `ucs_piecewise_func_check`: every end is above the one before, and the last is
`SIZE_MAX`. -/
def ucsPiecewiseFuncCheck (segs : List UcsPiecewiseSegment) : Prop :=
  (ends segs).IsChain (· < ·) ∧ (ends segs).getLast? = some sizeMax

instance : DecidablePred ucsPiecewiseFuncCheck :=
  fun _ => inferInstanceAs (Decidable (_ ∧ _))

/-- `ucs_piecewise_func_init`: one segment, zero on `[0, SIZE_MAX]`; `mem` segments can be
allocated, and the result says how many are left. -/
def ucsPiecewiseFuncInit (mem : ℕ) : UcsStatus × List UcsPiecewiseSegment × ℕ :=
  match mem with
  | 0 => (.errNoMemory, [], 0)
  | mem + 1 => (.ok, [⟨ucsLinearFuncZero, sizeMax⟩], mem)

def ucsPiecewiseFuncFindSegment (segs : List UcsPiecewiseSegment) (x : ℕ) :
    Option UcsPiecewiseSegment :=
  segs.find? fun seg => x ≤ seg.segEnd

def ucsPiecewiseFuncApply (segs : List UcsPiecewiseSegment) (x : ℕ) : Option ℚ :=
  (ucsPiecewiseFuncFindSegment segs x).map fun seg => ucsLinearFuncApply seg.func x

/-- The linear function on the segment that `ucs_piecewise_func_find_segment` selects. -/
def funcAt (segs : List UcsPiecewiseSegment) (x : ℕ) : Option UcsLinearFunc :=
  (ucsPiecewiseFuncFindSegment segs x).map (·.func)

/-- `ucs_piecewise_segment_split`: `seg` now ends at `splitPoint` and is followed by a new
copy of it with the old end. -/
def ucsPiecewiseSegmentSplit (mem : ℕ) (seg : UcsPiecewiseSegment) (splitPoint : ℕ) :
    Option (UcsPiecewiseSegment × UcsPiecewiseSegment × ℕ) :=
  match mem with
  | 0 => none
  | mem + 1 => some ({ seg with segEnd := splitPoint }, seg, mem)

/-- The first affected segment is split at `start - 1` when it starts before `start`: the
segments left in front and the segment the loop moves to. -/
def splitFirst (mem segStart start : ℕ) (seg : UcsPiecewiseSegment) :
    Option (List UcsPiecewiseSegment × UcsPiecewiseSegment × ℕ) :=
  if segStart < start then
    (ucsPiecewiseSegmentSplit mem seg (start - 1)).map fun (first, second, mem) =>
      ([first], second, mem)
  else some ([], seg, mem)

/-- The last affected segment is split at `end` when it ends after `end`: the segment the loop
goes on with and the segments behind it. -/
def splitLast (mem rangeEnd : ℕ) (seg : UcsPiecewiseSegment) :
    Option (UcsPiecewiseSegment × List UcsPiecewiseSegment × ℕ) :=
  if rangeEnd < seg.segEnd then
    (ucsPiecewiseSegmentSplit mem seg rangeEnd).map fun (first, second, mem) =>
      (first, [second], mem)
  else some (seg, [], mem)

/-- The loop of `ucs_piecewise_func_add_range` over the segments from one that starts at
`segStart`; `rangeEnd` is the parameter `end`. It gives the status, the segments in place of
the ones walked, and the allocations left. -/
def addRangeLoop (start rangeEnd : ℕ) (rangeFunc : UcsLinearFunc) :
    ℕ → ℕ → List UcsPiecewiseSegment → UcsStatus × List UcsPiecewiseSegment × ℕ
  | mem, _, [] => (.ok, [], mem)
  | mem, segStart, seg :: rest =>
    if start ≤ seg.segEnd then
      match splitFirst mem segStart start seg with
      | none => (.errNoMemory, seg :: rest, mem)
      | some (before, seg, mem) =>
        match splitLast mem rangeEnd seg with
        | none => (.errNoMemory, before ++ seg :: rest, mem)
        | some (seg, after, mem) =>
          -- sum up the functions of a segment the range covers
          let seg := if seg.segEnd ≤ rangeEnd then
            { seg with func := ucsLinearFuncAdd seg.func rangeFunc } else seg
          if rangeEnd = seg.segEnd then (.ok, before ++ seg :: after ++ rest, mem)
          else
            let r := addRangeLoop start rangeEnd rangeFunc mem (seg.segEnd + 1) rest
            (r.1, before ++ seg :: after ++ r.2.1, r.2.2)
    else
      let r := addRangeLoop start rangeEnd rangeFunc mem (seg.segEnd + 1) rest
      (r.1, seg :: r.2.1, r.2.2)

/-- `ucs_piecewise_func_add_range`. -/
def ucsPiecewiseFuncAddRange (mem : ℕ) (segs : List UcsPiecewiseSegment) (start rangeEnd : ℕ)
    (rangeFunc : UcsLinearFunc) : UcsStatus × List UcsPiecewiseSegment × ℕ :=
  addRangeLoop start rangeEnd rangeFunc mem 0 segs

/-- The loop of `ucs_piecewise_func_add_inplace` over the source segments from one that starts
at `segStart`. -/
def addInplaceLoop (mem segStart : ℕ) (dst : List UcsPiecewiseSegment) :
    List UcsPiecewiseSegment → UcsStatus × List UcsPiecewiseSegment × ℕ
  | [] => (.ok, dst, mem)
  | seg :: rest =>
    let r := ucsPiecewiseFuncAddRange mem dst segStart seg.segEnd seg.func
    if r.1 = .ok then addInplaceLoop r.2.2 (seg.segEnd + 1) r.2.1 rest else r

/-- `ucs_piecewise_func_add_inplace`. -/
def ucsPiecewiseFuncAddInplace (mem : ℕ) (dst src : List UcsPiecewiseSegment) :
    UcsStatus × List UcsPiecewiseSegment × ℕ :=
  addInplaceLoop mem 0 dst src

/-! ### The segment of a point -/

@[simp] lemma funcAt_nil (x : ℕ) : funcAt [] x = none := rfl

lemma funcAt_cons (seg : UcsPiecewiseSegment) (segs : List UcsPiecewiseSegment) (x : ℕ) :
    funcAt (seg :: segs) x = if x ≤ seg.segEnd then some seg.func else funcAt segs x := by
  unfold funcAt ucsPiecewiseFuncFindSegment
  rw [List.find?_cons]
  by_cases h : x ≤ seg.segEnd <;> simp [h]

/-! ### Ends that increase from a bound -/

/-- The ends increase strictly, from `b` on. -/
def Above : ℕ → List ℕ → Prop
  | _, [] => True
  | b, e :: l => b ≤ e ∧ Above (e + 1) l

@[simp] lemma above_nil (b : ℕ) : Above b [] := trivial

@[simp] lemma above_cons (b e : ℕ) (l : List ℕ) : Above b (e :: l) ↔ b ≤ e ∧ Above (e + 1) l :=
  Iff.rfl

lemma above_iff (b : ℕ) (l : List ℕ) :
    Above b l ↔ (∀ e ∈ l.head?, b ≤ e) ∧ l.IsChain (· < ·) := by
  induction l generalizing b with
  | nil => simp
  | cons e l ih =>
    rw [above_cons, ih, List.isChain_cons]
    simp only [Option.mem_def, List.head?_cons, Option.some.injEq, forall_eq']
    constructor
    · rintro ⟨hb, hl, hc⟩
      exact ⟨hb, fun y hy => hl y hy, hc⟩
    · rintro ⟨hb, hl, hc⟩
      exact ⟨hb, fun y hy => hl y hy, hc⟩

lemma ucsPiecewiseFuncCheck_iff (segs : List UcsPiecewiseSegment) :
    ucsPiecewiseFuncCheck segs ↔ Above 0 (ends segs) ∧ (ends segs).getLast? = some sizeMax := by
  simp [ucsPiecewiseFuncCheck, above_iff]

/-! ### The two splits -/

lemma splitFirst_eq_some {mem segStart start mem' : ℕ}
    {seg seg' : UcsPiecewiseSegment} {before : List UcsPiecewiseSegment}
    (h : splitFirst mem segStart start seg = some (before, seg', mem')) :
    seg' = seg ∧ ((segStart < start ∧ before = [{ seg with segEnd := start - 1 }] ∧
      mem = mem' + 1) ∨ (start ≤ segStart ∧ before = [] ∧ mem' = mem)) := by
  unfold splitFirst at h
  split_ifs at h with hs
  · cases mem with
    | zero => simp [ucsPiecewiseSegmentSplit] at h
    | succ mem =>
      simp only [ucsPiecewiseSegmentSplit, Option.map_some, Option.some.injEq,
        Prod.mk.injEq] at h
      obtain ⟨rfl, rfl, rfl⟩ := h
      exact ⟨rfl, .inl ⟨hs, rfl, rfl⟩⟩
  · simp only [Option.some.injEq, Prod.mk.injEq] at h
    obtain ⟨rfl, rfl, rfl⟩ := h
    exact ⟨rfl, .inr ⟨by omega, rfl, rfl⟩⟩

lemma splitLast_eq_some {mem rangeEnd mem' : ℕ}
    {seg seg' : UcsPiecewiseSegment} {after : List UcsPiecewiseSegment}
    (h : splitLast mem rangeEnd seg = some (seg', after, mem')) :
    (rangeEnd < seg.segEnd ∧ seg' = { seg with segEnd := rangeEnd } ∧ after = [seg] ∧
      mem = mem' + 1) ∨ (seg.segEnd ≤ rangeEnd ∧ seg' = seg ∧ after = [] ∧ mem' = mem) := by
  unfold splitLast at h
  split_ifs at h with hs
  · cases mem with
    | zero => simp [ucsPiecewiseSegmentSplit] at h
    | succ mem =>
      simp only [ucsPiecewiseSegmentSplit, Option.map_some, Option.some.injEq,
        Prod.mk.injEq] at h
      obtain ⟨rfl, rfl, rfl⟩ := h
      exact .inl ⟨hs, rfl, rfl, rfl⟩
  · simp only [Option.some.injEq, Prod.mk.injEq] at h
    obtain ⟨rfl, rfl, rfl⟩ := h
    exact .inr ⟨by omega, rfl, rfl, rfl⟩

lemma splitFirst_eq_none {mem segStart start : ℕ} {seg : UcsPiecewiseSegment}
    (h : splitFirst mem segStart start seg = none) : segStart < start ∧ mem = 0 := by
  unfold splitFirst at h
  split_ifs at h with hs
  cases mem <;> simp_all [ucsPiecewiseSegmentSplit]

lemma splitLast_eq_none {mem rangeEnd : ℕ} {seg : UcsPiecewiseSegment}
    (h : splitLast mem rangeEnd seg = none) : rangeEnd < seg.segEnd ∧ mem = 0 := by
  unfold splitLast at h
  split_ifs at h with hs
  cases mem <;> simp_all [ucsPiecewiseSegmentSplit]

section splits

variable {mem mem' segStart start rangeEnd : ℕ} {seg seg' : UcsPiecewiseSegment}
  {before after : List UcsPiecewiseSegment}

/-- The segment left in front by the first split covers the points before `start`. -/
lemma splitFirst_funcAt (h : splitFirst mem segStart start seg = some (before, seg', mem'))
    (l : List UcsPiecewiseSegment) {x : ℕ} (hx : segStart ≤ x) :
    funcAt (before ++ l) x = if x < start then some seg.func else funcAt l x := by
  rcases (splitFirst_eq_some h).2 with ⟨hs, rfl, -⟩ | ⟨hs, rfl, -⟩
  · rw [List.singleton_append, funcAt_cons]
    by_cases hx' : x < start
    · simp [hx', show x ≤ start - 1 by omega]
    · simp [hx', show ¬ x ≤ start - 1 by omega]
  · simp [show ¬ x < start by omega]

lemma splitFirst_above (h : splitFirst mem segStart start seg = some (before, seg', mem'))
    (l : List UcsPiecewiseSegment) :
    Above segStart (ends (before ++ l)) ↔ Above (max segStart start) (ends l) := by
  rcases (splitFirst_eq_some h).2 with ⟨hs, rfl, -⟩ | ⟨hs, rfl, -⟩
  · simp only [List.singleton_append, ends_cons, above_cons, show start - 1 + 1 = start by omega,
      show max segStart start = start by omega]
    exact and_iff_right (by omega)
  · simp [show max segStart start = segStart by omega]

lemma splitLast_func (h : splitLast mem rangeEnd seg = some (seg', after, mem')) :
    seg'.func = seg.func := by
  rcases splitLast_eq_some h with ⟨-, rfl, -⟩ | ⟨-, rfl, -⟩ <;> rfl

lemma splitLast_segEnd (h : splitLast mem rangeEnd seg = some (seg', after, mem')) :
    seg'.segEnd = min rangeEnd seg.segEnd := by
  rcases splitLast_eq_some h with ⟨hs, rfl, -⟩ | ⟨hs, rfl, -⟩
  · simp only
    omega
  · omega

/-- Past the end of the split segment, the segment behind it covers the rest of the old one. -/
lemma splitLast_funcAt (h : splitLast mem rangeEnd seg = some (seg', after, mem'))
    (l : List UcsPiecewiseSegment) {x : ℕ} (hx : seg'.segEnd < x) :
    funcAt (after ++ l) x = if x ≤ seg.segEnd then some seg.func else funcAt l x := by
  rcases splitLast_eq_some h with ⟨-, rfl, rfl, -⟩ | ⟨-, rfl, rfl, -⟩
  · rw [List.singleton_append, funcAt_cons]
  · simp [show ¬ x ≤ seg'.segEnd by omega]

lemma splitLast_above (h : splitLast mem rangeEnd seg = some (seg', after, mem'))
    (l : List UcsPiecewiseSegment) (b : ℕ) :
    Above b (seg'.segEnd :: ends (after ++ l)) ↔
      b ≤ seg'.segEnd ∧ Above (seg.segEnd + 1) (ends l) := by
  rcases splitLast_eq_some h with ⟨hs, rfl, rfl, -⟩ | ⟨-, rfl, rfl, -⟩
  · simp only [List.singleton_append, ends_cons, above_cons]
    exact and_congr_right fun _ => and_iff_right hs
  · simp

lemma splitLast_getLast (h : splitLast mem rangeEnd seg = some (seg', after, mem'))
    (l : List UcsPiecewiseSegment) :
    (seg'.segEnd :: ends (after ++ l)).getLast? = (seg.segEnd :: ends l).getLast? := by
  rcases splitLast_eq_some h with ⟨-, rfl, rfl, -⟩ | ⟨-, rfl, rfl, -⟩
  · simp only [List.singleton_append, ends_cons, List.getLast?_cons_cons]
  · rfl

lemma splitFirst_mem (h : splitFirst mem segStart start seg = some (before, seg', mem')) :
    mem' ≤ mem ∧ mem ≤ mem' + 1 ∧ (start ≤ segStart → mem' = mem) := by
  rcases (splitFirst_eq_some h).2 with ⟨hs, -, rfl⟩ | ⟨hs, -, rfl⟩ <;> omega

lemma splitLast_mem (h : splitLast mem rangeEnd seg = some (seg', after, mem')) :
    mem' ≤ mem ∧ mem ≤ mem' + 1 ∧ (seg.segEnd ≤ rangeEnd → mem' = mem) := by
  rcases splitLast_eq_some h with ⟨hs, -, -, rfl⟩ | ⟨hs, -, -, rfl⟩ <;> omega

end splits

/-! ### One iteration of the range loop -/

/-- Everything one iteration can do with the segment in front: pass it by, fail in the first or
in the last split, or sum up the range's function on the covered part and then stop or go on. -/
lemma addRangeLoop_cons (start rangeEnd : ℕ) (g : UcsLinearFunc) (mem segStart : ℕ)
    (seg : UcsPiecewiseSegment) (rest : List UcsPiecewiseSegment) :
    (seg.segEnd < start ∧ addRangeLoop start rangeEnd g mem segStart (seg :: rest) =
        ((addRangeLoop start rangeEnd g mem (seg.segEnd + 1) rest).1,
          seg :: (addRangeLoop start rangeEnd g mem (seg.segEnd + 1) rest).2.1,
          (addRangeLoop start rangeEnd g mem (seg.segEnd + 1) rest).2.2)) ∨
    (start ≤ seg.segEnd ∧ splitFirst mem segStart start seg = none ∧
      addRangeLoop start rangeEnd g mem segStart (seg :: rest) =
        (.errNoMemory, seg :: rest, mem)) ∨
    (∃ before mem1, start ≤ seg.segEnd ∧ splitFirst mem segStart start seg = some (before, seg, mem1) ∧
      splitLast mem1 rangeEnd seg = none ∧
      addRangeLoop start rangeEnd g mem segStart (seg :: rest) =
        (.errNoMemory, before ++ seg :: rest, mem1)) ∨
    (∃ before seg2 after mem1 mem2, start ≤ seg.segEnd ∧
      splitFirst mem segStart start seg = some (before, seg, mem1) ∧
      splitLast mem1 rangeEnd seg = some (seg2, after, mem2) ∧
      addRangeLoop start rangeEnd g mem segStart (seg :: rest) =
        if rangeEnd = seg2.segEnd then
          (.ok, before ++ { seg2 with func := ucsLinearFuncAdd seg2.func g } :: after ++ rest,
            mem2)
        else
          ((addRangeLoop start rangeEnd g mem2 (seg2.segEnd + 1) rest).1,
            before ++ { seg2 with func := ucsLinearFuncAdd seg2.func g } :: after ++
              (addRangeLoop start rangeEnd g mem2 (seg2.segEnd + 1) rest).2.1,
            (addRangeLoop start rangeEnd g mem2 (seg2.segEnd + 1) rest).2.2)) := by
  by_cases hs : start ≤ seg.segEnd
  · rcases hf : splitFirst mem segStart start seg with _ | ⟨before, seg1, mem1⟩
    · exact .inr (.inl ⟨hs, rfl, by simp [addRangeLoop, hs, hf]⟩)
    obtain ⟨rfl, -⟩ := splitFirst_eq_some hf
    rcases hl : splitLast mem1 rangeEnd seg1 with _ | ⟨seg2, after, mem2⟩
    · exact .inr (.inr (.inl ⟨before, mem1, hs, rfl, hl,
        by simp [addRangeLoop, hs, hf, hl]⟩))
    -- after the last split the segment ends at `end` at the latest, so it is summed up
    have hle : seg2.segEnd ≤ rangeEnd := by
      rw [splitLast_segEnd hl]
      omega
    refine .inr (.inr (.inr ⟨before, seg2, after, mem1, mem2, hs, rfl, hl, ?_⟩))
    simp only [addRangeLoop, hs, if_true, hf, hl, hle]
  · exact .inl ⟨by omega, by simp [addRangeLoop, hs]⟩

section loop

variable {start rangeEnd : ℕ} {g : UcsLinearFunc}

/-- The function a range addition should leave at `x`. -/
def addedAt (start rangeEnd : ℕ) (g : UcsLinearFunc) (segs : List UcsPiecewiseSegment)
    (x : ℕ) : Option UcsLinearFunc :=
  if start ≤ x ∧ x ≤ rangeEnd then (funcAt segs x).map (ucsLinearFuncAdd · g) else funcAt segs x

lemma addedAt_cons_of_le {seg : UcsPiecewiseSegment} {rest : List UcsPiecewiseSegment} {x : ℕ}
    (hx : x ≤ seg.segEnd) :
    addedAt start rangeEnd g (seg :: rest) x =
      if start ≤ x ∧ x ≤ rangeEnd then some (ucsLinearFuncAdd seg.func g) else some seg.func := by
  unfold addedAt
  rw [funcAt_cons, if_pos hx]
  split_ifs <;> rfl

lemma addedAt_cons_of_lt {seg : UcsPiecewiseSegment} {rest : List UcsPiecewiseSegment} {x : ℕ}
    (hx : seg.segEnd < x) :
    addedAt start rangeEnd g (seg :: rest) x = addedAt start rangeEnd g rest x := by
  have hx' : ¬ x ≤ seg.segEnd := by omega
  simp only [addedAt, funcAt_cons, hx', if_false]

/-- On the first segment the range touches: up to the end of its summed part, a point has the
function the range addition should leave, whatever follows. -/
lemma funcAt_split_of_le {mem segStart mem1 mem2 : ℕ} {seg seg2 : UcsPiecewiseSegment}
    {before after : List UcsPiecewiseSegment}
    (hf : splitFirst mem segStart start seg = some (before, seg, mem1))
    (hl : splitLast mem1 rangeEnd seg = some (seg2, after, mem2))
    (rest tail : List UcsPiecewiseSegment) {x : ℕ} (hx : segStart ≤ x) (hx2 : x ≤ seg2.segEnd) :
    funcAt (before ++ { seg2 with func := ucsLinearFuncAdd seg2.func g } :: after ++ tail) x =
      addedAt start rangeEnd g (seg :: rest) x := by
  have hend := splitLast_segEnd hl
  rw [List.append_assoc, List.cons_append, splitFirst_funcAt hf _ hx, funcAt_cons, addedAt_cons_of_le (by omega), splitLast_func hl]
  by_cases hxs : x < start
  · simp [hxs, show ¬ start ≤ x by omega]
  · simp [hxs, hx2, show x ≤ rangeEnd by omega, show start ≤ x by omega]

/-- When the loop returns `UCS_OK`, every point from `segStart` on has the range's function
added exactly when it lies in `[start, end]`. -/
theorem addRangeLoop_funcAt (hse : start ≤ rangeEnd) {mem segStart : ℕ}
    {segs : List UcsPiecewiseSegment} (hok : (addRangeLoop start rangeEnd g mem segStart segs).1 = .ok)
    {x : ℕ} (hx : segStart ≤ x) :
    funcAt (addRangeLoop start rangeEnd g mem segStart segs).2.1 x =
      addedAt start rangeEnd g segs x := by
  induction segs generalizing mem segStart with
  | nil => simp [addRangeLoop, addedAt]
  | cons seg rest ih =>
    rcases addRangeLoop_cons start rangeEnd g mem segStart seg rest with
      ⟨hs, heq⟩ | ⟨-, -, heq⟩ | ⟨before, mem1, -, -, -, heq⟩ |
        ⟨before, seg2, after, mem1, mem2, hs, hf, hl, heq⟩
    · -- the segment ends before the range and is kept as it is
      rw [heq] at hok ⊢
      rw [funcAt_cons]
      by_cases hxs : x ≤ seg.segEnd
      · rw [if_pos hxs, addedAt_cons_of_le hxs, if_neg (by omega)]
      · rw [if_neg hxs, addedAt_cons_of_lt (by omega)]
        exact ih hok (by omega)
    · rw [heq] at hok
      cases hok
    · rw [heq] at hok
      cases hok
    · have hend := splitLast_segEnd hl
      rw [heq] at hok ⊢
      split_ifs at hok ⊢ with hb
      · -- the range ends with this segment
        dsimp only
        by_cases hx2 : x ≤ seg2.segEnd
        · exact funcAt_split_of_le hf hl rest rest hx hx2
        -- past the summed part: the copy the last split left, then the segments behind it
        rw [List.append_assoc, List.cons_append, splitFirst_funcAt hf _ hx, if_neg (by omega),
          funcAt_cons, if_neg hx2, splitLast_funcAt hl _ (by omega)]
        by_cases hxs : x ≤ seg.segEnd
        · rw [if_pos hxs, addedAt_cons_of_le hxs, if_neg (by omega)]
        · rw [if_neg hxs, addedAt_cons_of_lt (by omega)]
          unfold addedAt
          rw [if_neg (by omega)]
      · -- the segment ends inside the range, so nothing was split off behind it
        dsimp only at hok ⊢
        by_cases hx2 : x ≤ seg2.segEnd
        · exact funcAt_split_of_le hf hl rest _ hx hx2
        rw [List.append_assoc, List.cons_append, splitFirst_funcAt hf _ hx, if_neg (by omega),
          funcAt_cons, if_neg hx2, splitLast_funcAt hl _ (by omega), if_neg (by omega),
          addedAt_cons_of_lt (by omega)]
        exact ih hok (by omega)

/-- The ends of the segments an iteration leaves in place of the one it split. -/
lemma ends_split {mem segStart mem1 mem2 : ℕ} {seg seg2 : UcsPiecewiseSegment}
    {before after : List UcsPiecewiseSegment}
    (hf : splitFirst mem segStart start seg = some (before, seg, mem1))
    (hl : splitLast mem1 rangeEnd seg = some (seg2, after, mem2)) (f : UcsLinearFunc)
    (tail : List UcsPiecewiseSegment) :
    (Above segStart (ends (before ++ { seg2 with func := f } :: after ++ tail)) ↔
        max segStart start ≤ seg2.segEnd ∧ Above (seg.segEnd + 1) (ends tail)) ∧
      (ends (before ++ { seg2 with func := f } :: after ++ tail)).getLast? =
        (seg.segEnd :: ends tail).getLast? := by
  rw [List.append_assoc, List.cons_append]
  constructor
  · rw [splitFirst_above hf, ends_cons]
    exact splitLast_above hl tail _
  · rw [ends_append, ends_cons, List.getLast?_append_cons]
    exact splitLast_getLast hl tail

/-- On every outcome the ends still increase from `segStart` on, and the last end stays. -/
theorem addRangeLoop_above (hse : start ≤ rangeEnd) (mem segStart : ℕ)
    {segs : List UcsPiecewiseSegment} (hstart : segStart ≤ rangeEnd)
    (ha : Above segStart (ends segs)) :
    Above segStart (ends (addRangeLoop start rangeEnd g mem segStart segs).2.1) ∧
      (ends (addRangeLoop start rangeEnd g mem segStart segs).2.1).getLast? =
        (ends segs).getLast? := by
  induction segs generalizing mem segStart with
  | nil => simp [addRangeLoop]
  | cons seg rest ih =>
    rw [ends_cons, above_cons] at ha
    rcases addRangeLoop_cons start rangeEnd g mem segStart seg rest with
      ⟨hs, heq⟩ | ⟨-, -, heq⟩ | ⟨before, mem1, hs, hf, -, heq⟩ |
        ⟨before, seg2, after, mem1, mem2, hs, hf, hl, heq⟩
    · obtain ⟨ha', hlast⟩ := ih mem _ (by omega) ha.2
      rw [heq]
      simp only [ends_cons, above_cons, List.getLast?_cons, hlast, and_true]
      exact ⟨ha.1, ha'⟩
    · rw [heq]
      exact ⟨ha, rfl⟩
    · -- the first split stays when the last one fails
      rw [heq]
      constructor
      · rw [splitFirst_above hf, ends_cons, above_cons]
        exact ⟨by omega, ha.2⟩
      · simp only [ends_append, ends_cons, List.getLast?_append_cons]
    · have hend := splitLast_segEnd hl
      by_cases hb : rangeEnd = seg2.segEnd
      · rw [heq, if_pos hb]
        obtain ⟨habove, hlast⟩ := ends_split hf hl (ucsLinearFuncAdd seg2.func g) rest
        exact ⟨habove.2 ⟨by omega, ha.2⟩, hlast⟩
      · -- the segment ends inside the range: the loop goes on past its old end
        rw [heq, if_neg hb]
        have h2 : seg2.segEnd = seg.segEnd := by omega
        obtain ⟨habove, hlast⟩ := ends_split hf hl (ucsLinearFuncAdd seg2.func g)
          (addRangeLoop start rangeEnd g mem2 (seg2.segEnd + 1) rest).2.1
        obtain ⟨ha', hlast'⟩ := ih mem2 _ (by omega) (h2 ▸ ha.2)
        refine ⟨habove.2 ⟨by omega, h2 ▸ ha'⟩, ?_⟩
        rw [hlast, List.getLast?_cons, hlast', ends_cons, List.getLast?_cons]

/-- The loop needs two allocations while it may still split at `start - 1` and one after that:
given as many it returns `UCS_OK`, and it never takes more. -/
theorem addRangeLoop_mem (mem segStart : ℕ) {segs : List UcsPiecewiseSegment}
    (ha : Above segStart (ends segs)) :
    mem ≤ (addRangeLoop start rangeEnd g mem segStart segs).2.2 +
        (if segStart < start then 2 else 1) ∧
      ((if segStart < start then 2 else 1) ≤ mem →
        (addRangeLoop start rangeEnd g mem segStart segs).1 = .ok) := by
  induction segs generalizing mem segStart with
  | nil => simp [addRangeLoop]
  | cons seg rest ih =>
    rw [ends_cons, above_cons] at ha
    rcases addRangeLoop_cons start rangeEnd g mem segStart seg rest with
      ⟨hs, heq⟩ | ⟨-, hf, heq⟩ | ⟨before, mem1, -, hf, hl, heq⟩ |
        ⟨before, seg2, after, mem1, mem2, hs, hf, hl, heq⟩
    · -- passing a segment by needs no allocation
      obtain ⟨hm, hok⟩ := ih mem _ ha.2
      rw [heq, if_pos (show segStart < start by omega)]
      dsimp only
      refine ⟨by split_ifs at hm <;> omega, fun h => hok (by split_ifs <;> omega)⟩
    · obtain ⟨hs, rfl⟩ := splitFirst_eq_none hf
      rw [heq, if_pos hs]
      exact ⟨by omega, fun h => absurd h (by omega)⟩
    · have hm1 := splitFirst_mem hf
      obtain ⟨-, rfl⟩ := splitLast_eq_none hl
      rw [heq]
      dsimp only
      by_cases h : segStart < start
      · rw [if_pos h]
        exact ⟨by omega, fun h' => absurd h' (by omega)⟩
      · rw [if_neg h]
        exact ⟨by omega, fun h' => absurd h' (by omega)⟩
    · have hend := splitLast_segEnd hl
      have hm1 := splitFirst_mem hf
      have hm2 := splitLast_mem hl
      by_cases hb : rangeEnd = seg2.segEnd
      · rw [heq, if_pos hb]
        dsimp only
        refine ⟨?_, fun _ => rfl⟩
        by_cases h : segStart < start
        · rw [if_pos h]
          omega
        · rw [if_neg h]
          have := hm1.2.2 (by omega)
          omega
      · -- the rest of the loop can only split at `end`
        rw [heq, if_neg hb]
        dsimp only
        obtain ⟨hm, hok⟩ := ih mem2 (seg2.segEnd + 1)
          (by rw [show seg2.segEnd = seg.segEnd by omega]; exact ha.2)
        rw [if_neg (by omega)] at hm hok
        have : mem2 = mem1 := hm2.2.2 (by omega)
        by_cases h : segStart < start
        · rw [if_pos h]
          exact ⟨by omega, fun _ => hok (by omega)⟩
        · rw [if_neg h]
          have := hm1.2.2 (by omega)
          exact ⟨by omega, fun _ => hok (by omega)⟩

end loop

/-! ### The checked function: where it is defined -/

lemma above_le_of_getLast {b M : ℕ} {l : List ℕ} (ha : Above b l) (hl : l.getLast? = some M) :
    ∀ e ∈ l, e ≤ M := by
  induction l generalizing b with
  | nil => simp
  | cons e l ih =>
    rw [above_cons] at ha
    rcases l with _ | ⟨e', l⟩
    · simp only [List.getLast?_singleton, Option.some.injEq] at hl
      simp [hl]
    · rw [List.getLast?_cons_cons] at hl
      have hrest := ih ha.2 hl
      -- the head is below the next end, which is at most the last
      have he : e + 1 ≤ e' := ha.2.1
      have he' : e' ≤ M := hrest e' List.mem_cons_self
      intro x hx
      rcases List.mem_cons.1 hx with rfl | hx
      · omega
      · exact hrest x hx

/-- A checked function has a segment for every `size_t` point and none past `SIZE_MAX`. -/
lemma funcAt_eq_none_iff {segs : List UcsPiecewiseSegment} (hf : ucsPiecewiseFuncCheck segs)
    (x : ℕ) : funcAt segs x = none ↔ sizeMax < x := by
  rw [ucsPiecewiseFuncCheck_iff] at hf
  have hle := above_le_of_getLast hf.1 hf.2
  obtain ⟨last, hlast, hend⟩ := List.mem_map.1 (List.mem_of_getLast? hf.2)
  unfold funcAt ucsPiecewiseFuncFindSegment
  rw [Option.map_eq_none_iff, List.find?_eq_none]
  constructor
  · intro h
    have := h last hlast
    simp only [decide_eq_true_eq] at this
    omega
  · intro h seg hseg
    have := hle seg.segEnd (List.mem_map_of_mem hseg)
    simp only [decide_eq_true_eq]
    omega

/-! ### Range addition -/

section addRange

variable {segs : List UcsPiecewiseSegment} {start rangeEnd : ℕ}

lemma ucsPiecewiseFuncInit_check (mem : ℕ) :
    ucsPiecewiseFuncCheck (ucsPiecewiseFuncInit (mem + 1)).2.1 := by
  simp [ucsPiecewiseFuncInit, ucsPiecewiseFuncCheck, ends]

theorem ucsPiecewiseFuncAddRange_check (hf : ucsPiecewiseFuncCheck segs) (hse : start ≤ rangeEnd)
    (g : UcsLinearFunc) (mem : ℕ) :
    ucsPiecewiseFuncCheck (ucsPiecewiseFuncAddRange mem segs start rangeEnd g).2.1 := by
  rw [ucsPiecewiseFuncCheck_iff] at hf ⊢
  obtain ⟨ha, hlast⟩ := addRangeLoop_above (g := g) hse mem 0 (Nat.zero_le _) hf.1
  exact ⟨ha, hlast.trans hf.2⟩

theorem ucsPiecewiseFuncAddRange_funcAt (hse : start ≤ rangeEnd) {g : UcsLinearFunc} {mem : ℕ}
    (hok : (ucsPiecewiseFuncAddRange mem segs start rangeEnd g).1 = .ok) (x : ℕ) :
    funcAt (ucsPiecewiseFuncAddRange mem segs start rangeEnd g).2.1 x =
      addedAt start rangeEnd g segs x :=
  addRangeLoop_funcAt hse hok (Nat.zero_le x)

/-- Range addition takes at most two allocations, and returns `UCS_OK` given two. -/
theorem ucsPiecewiseFuncAddRange_mem (hf : ucsPiecewiseFuncCheck segs) (g : UcsLinearFunc)
    (mem : ℕ) :
    mem ≤ (ucsPiecewiseFuncAddRange mem segs start rangeEnd g).2.2 + 2 ∧
      (2 ≤ mem → (ucsPiecewiseFuncAddRange mem segs start rangeEnd g).1 = .ok) := by
  rw [ucsPiecewiseFuncCheck_iff] at hf
  unfold ucsPiecewiseFuncAddRange
  obtain ⟨hm, hok⟩ := @addRangeLoop_mem start rangeEnd g mem 0 segs hf.1
  exact ⟨by split_ifs at hm <;> omega, fun h => hok (by split_ifs <;> omega)⟩

end addRange

/-! ### In-place addition -/

section addInplace

variable {dst src : List UcsPiecewiseSegment}

theorem addInplaceLoop_check (mem segStart : ℕ) (hd : ucsPiecewiseFuncCheck dst)
    (hs : Above segStart (ends src)) :
    ucsPiecewiseFuncCheck (addInplaceLoop mem segStart dst src).2.1 := by
  induction src generalizing mem segStart dst with
  | nil => exact hd
  | cons seg rest ih =>
    rw [ends_cons, above_cons] at hs
    have hd' := ucsPiecewiseFuncAddRange_check hd hs.1 seg.func mem
    simp only [addInplaceLoop]
    split_ifs
    · exact ih _ _ hd' hs.2
    · exact hd'

/-- When the loop returns `UCS_OK`, every point from `segStart` on has the source's function
added where the source has one. -/
theorem addInplaceLoop_funcAt (mem segStart : ℕ) (hs : Above segStart (ends src))
    (hok : (addInplaceLoop mem segStart dst src).1 = .ok) (x : ℕ) :
    funcAt (addInplaceLoop mem segStart dst src).2.1 x =
      if segStart ≤ x then
        (funcAt src x).elim (funcAt dst x) fun f => (funcAt dst x).map (ucsLinearFuncAdd · f)
      else funcAt dst x := by
  induction src generalizing mem segStart dst with
  | nil => simp [addInplaceLoop]
  | cons seg rest ih =>
    rw [ends_cons, above_cons] at hs
    simp only [addInplaceLoop] at hok ⊢
    by_cases h1 : (ucsPiecewiseFuncAddRange mem dst segStart seg.segEnd seg.func).1 = .ok
    · -- the source segment is added on `[segStart, end]`, the rest of the loop adds above it
      rw [if_pos h1] at hok ⊢
      rw [ih _ _ hs.2 hok, ucsPiecewiseFuncAddRange_funcAt hs.1 h1 x, funcAt_cons]
      unfold addedAt
      by_cases hx : x ≤ seg.segEnd
      · rw [if_neg (show ¬ seg.segEnd + 1 ≤ x by omega), if_pos hx]
        by_cases hx' : segStart ≤ x
        · simp [hx, hx']
        · simp [hx']
      · rw [if_pos (show seg.segEnd + 1 ≤ x by omega), if_neg hx,
          if_neg (show ¬ (segStart ≤ x ∧ x ≤ seg.segEnd) by omega),
          if_pos (show segStart ≤ x by omega)]
    · rw [if_neg h1] at hok
      exact absurd hok h1

theorem addInplaceLoop_ok (mem segStart : ℕ) (hd : ucsPiecewiseFuncCheck dst)
    (hs : Above segStart (ends src)) (hmem : 2 * src.length ≤ mem) :
    (addInplaceLoop mem segStart dst src).1 = .ok := by
  induction src generalizing mem segStart dst with
  | nil => rfl
  | cons seg rest ih =>
    rw [ends_cons, above_cons] at hs
    rw [List.length_cons] at hmem
    -- one range addition, with at most two allocations
    obtain ⟨hm, hok⟩ := @ucsPiecewiseFuncAddRange_mem dst segStart seg.segEnd hd seg.func mem
    simp only [addInplaceLoop, hok (by omega), if_true]
    exact ih _ _ (ucsPiecewiseFuncAddRange_check hd hs.1 _ _) hs.2 (by omega)

theorem ucsPiecewiseFuncAddInplace_funcAt (hd : ucsPiecewiseFuncCheck dst)
    (hs : ucsPiecewiseFuncCheck src) {mem : ℕ}
    (hok : (ucsPiecewiseFuncAddInplace mem dst src).1 = .ok) (x : ℕ) :
    funcAt (ucsPiecewiseFuncAddInplace mem dst src).2.1 x =
      Option.map₂ ucsLinearFuncAdd (funcAt dst x) (funcAt src x) := by
  have ha := ((ucsPiecewiseFuncCheck_iff src).1 hs).1
  rw [ucsPiecewiseFuncAddInplace, addInplaceLoop_funcAt mem 0 ha hok x, if_pos (Nat.zero_le x)]
  rcases hx : funcAt src x with _ | f
  · -- past `SIZE_MAX` neither function has a segment
    rw [(funcAt_eq_none_iff hd x).2 ((funcAt_eq_none_iff hs x).1 hx)]
    rfl
  · rw [Option.elim_some, Option.map₂_coe_right]

end addInplace

/-! ### What range and in-place addition guarantee -/

/-- `ucs_piecewise_func_init` passes the check, and both additions keep it on every outcome.
When range addition returns `UCS_OK` the selected segment of every point carries the old
function plus the range's function on `[start, end]` and the old function elsewhere; when
in-place addition returns `UCS_OK` it carries the sum of the two functions. Two allocations
for a range addition, and two for each source segment of an in-place addition, are enough
for `UCS_OK`. -/
theorem ucsPiecewiseFunc_add_spec :
    (∀ mem, ucsPiecewiseFuncCheck (ucsPiecewiseFuncInit (mem + 1)).2.1) ∧
    (∀ segs, ucsPiecewiseFuncCheck segs → ∀ start rangeEnd, start ≤ rangeEnd → ∀ g mem,
      ucsPiecewiseFuncCheck (ucsPiecewiseFuncAddRange mem segs start rangeEnd g).2.1 ∧
      ((ucsPiecewiseFuncAddRange mem segs start rangeEnd g).1 = .ok →
        ∀ x, funcAt (ucsPiecewiseFuncAddRange mem segs start rangeEnd g).2.1 x =
          if start ≤ x ∧ x ≤ rangeEnd then (funcAt segs x).map (ucsLinearFuncAdd · g)
          else funcAt segs x) ∧
      (2 ≤ mem → (ucsPiecewiseFuncAddRange mem segs start rangeEnd g).1 = .ok)) ∧
    (∀ dst src, ucsPiecewiseFuncCheck dst → ucsPiecewiseFuncCheck src → ∀ mem,
      ucsPiecewiseFuncCheck (ucsPiecewiseFuncAddInplace mem dst src).2.1 ∧
      ((ucsPiecewiseFuncAddInplace mem dst src).1 = .ok →
        ∀ x, funcAt (ucsPiecewiseFuncAddInplace mem dst src).2.1 x =
          Option.map₂ ucsLinearFuncAdd (funcAt dst x) (funcAt src x)) ∧
      (2 * src.length ≤ mem → (ucsPiecewiseFuncAddInplace mem dst src).1 = .ok)) := by
  refine ⟨ucsPiecewiseFuncInit_check, ?_, ?_⟩
  · intro segs hf start rangeEnd hse g mem
    exact ⟨ucsPiecewiseFuncAddRange_check hf hse g mem,
      ucsPiecewiseFuncAddRange_funcAt hse,
      (ucsPiecewiseFuncAddRange_mem hf g mem).2⟩
  · intro dst src hd hs mem
    have ha := ((ucsPiecewiseFuncCheck_iff src).1 hs).1
    exact ⟨addInplaceLoop_check mem 0 hd ha, ucsPiecewiseFuncAddInplace_funcAt hd hs,
      addInplaceLoop_ok mem 0 hd ha⟩

theorem ucsPiecewiseFunc_add_spec_init :
    ucsPiecewiseFuncCheck (ucsPiecewiseFuncInit 1).2.1 ∧
      ucsPiecewiseFuncCheck (ucsPiecewiseFuncAddRange 2 (ucsPiecewiseFuncInit 1).2.1 0 10 ⟨1, 0⟩).2.1 ∧
      (ucsPiecewiseFuncAddInplace 2 (ucsPiecewiseFuncInit 1).2.1 (ucsPiecewiseFuncInit 1).2.1).1 =
        .ok :=
  ⟨ucsPiecewiseFunc_add_spec.1 0,
    (ucsPiecewiseFunc_add_spec.2.1 _ (ucsPiecewiseFunc_add_spec.1 0) 0 10 (by decide) _ 2).1,
    (ucsPiecewiseFunc_add_spec.2.2 _ _ (ucsPiecewiseFunc_add_spec.1 0)
      (ucsPiecewiseFunc_add_spec.1 0) 2).2.2 (by decide)⟩

/-- A failed range addition is not undone. From one segment, `[0, 10]` gets `1`; then adding
`x` on `[5, 20]` with one allocation left splits `[0, 10]` at `4`, sums up `[5, 10]`, and
fails to split `[11, SIZE_MAX]` at `20`: the call returns `UCS_ERR_NO_MEMORY` with the value
at `7` moved from `1` to `8`. -/
theorem ucsPiecewiseFuncAddRange_noMemory_changes :
    let f := (ucsPiecewiseFuncAddRange 1 (ucsPiecewiseFuncInit 1).2.1 0 10 ⟨1, 0⟩).2.1
    let r := ucsPiecewiseFuncAddRange 1 f 5 20 ⟨0, 1⟩
    r.1 = .errNoMemory ∧ ucsPiecewiseFuncApply f 7 = some 1 ∧
      ucsPiecewiseFuncApply r.2.1 7 = some 8 := by
  simp [ucsPiecewiseFuncAddRange, addRangeLoop, ucsPiecewiseFuncInit, splitFirst, splitLast,
    ucsPiecewiseSegmentSplit, ucsPiecewiseFuncApply, ucsPiecewiseFuncFindSegment,
    ucsLinearFuncApply, ucsLinearFuncAdd, ucsLinearFuncZero, sizeMax]
  norm_num

end UcxProofs.PiecewiseFunc
