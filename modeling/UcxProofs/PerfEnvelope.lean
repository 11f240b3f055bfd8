import Mathlib.Algebra.Order.Archimedean.Real.Basic
import Mathlib.Algebra.Order.Floor.Semifield
import Mathlib.Data.List.Nodup
import UcxProofs.Lib.Lines

/-!
The performance envelope of linear cost functions (ucp_proto_perf_envelope_make,
src/ucp/proto/proto_init.c, with ucs_linear_func_t from src/ucs/datastruct/linear_func.h).
The message-length range is cut into segments, and each segment names the function that is
best on it: lowest for a convex envelope, highest for a concave one.

The doubles of the source are read over an ordered field `α` with a floor, where the
arithmetic is exact; the 64-bit mask of candidate functions is the list of its set bits in
the increasing order in which ucs_for_each_bit visits them.

Appending to the envelope array is taken to succeed: the model has no outcome for the
`ucs_array_append` that grows the array and returns `UCS_ERR_NO_MEMORY` when it cannot, leaving
the segments appended so far in the caller's array. Every statement below is about runs in which
each append succeeds.
-/

namespace UcxProofs.PerfEnvelope

open UcxProofs.Lines

/-- `a` is at least as good as `b` for the envelope: not above it for a convex envelope, not
below it for a concave one. -/
def Better {β : Type*} [LinearOrder β] (convex : Bool) (a b : β) : Prop :=
  if convex then a ≤ b else b ≤ a

section Better

variable {β : Type*} [LinearOrder β] {convex : Bool} {a b d : β}

instance (convex : Bool) (a b : β) : Decidable (Better convex a b) :=
  inferInstanceAs (Decidable (if convex then a ≤ b else b ≤ a))

theorem better_refl (convex : Bool) (a : β) : Better convex a a := by
  cases convex <;> simp [Better]

theorem Better.trans (hab : Better convex a b) (hbd : Better convex b d) : Better convex a d := by
  cases convex
  · exact le_trans (show d ≤ b from hbd) (show b ≤ a from hab)
  · exact le_trans (show a ≤ b from hab) (show b ≤ d from hbd)

/-- The comparison of the first loop: a trend that replaces the best one is at least as good. -/
theorem better_of_replace (h : (decide (a < b) == convex) = true) : Better convex a b := by
  cases convex <;> simp [Better] at h ⊢
  · exact h
  · exact h.le

/-- A trend that does not replace the best one is at most as good. -/
theorem better_of_not_replace (h : ¬(decide (a < b) == convex) = true) : Better convex b a := by
  cases convex <;> simp [Better] at h ⊢
  · exact h.le
  · exact h

end Better

variable {α : Type*} [Field α] [LinearOrder α]

/-- ucs_linear_func_t: the function `c + m * x`. -/
structure UcsLinearFunc (α : Type*) where
  c : α
  m : α

def ucsLinearFuncApply (f : UcsLinearFunc α) (x : α) : α := f.c + f.m * x

/-- The crossing point of two functions, or none for parallel ones (UCS_ERR_INVALID_PARAM);
over the field the NaN and infinity checks of the source never fire. -/
def ucsLinearFuncIntersect (func1 func2 : UcsLinearFunc α) : Option α :=
  if func1.m = func2.m then none else some ((func2.c - func1.c) / (func1.m - func2.m))

/-- A function read the envelope's way up: itself for a convex envelope, its negation for a
concave one, so that the better of two values is always the lower. -/
def orient (convex : Bool) (f : UcsLinearFunc α) : UcsLinearFunc α :=
  if convex then f else ⟨-f.c, -f.m⟩

theorem intersect_orient (convex : Bool) (f g : UcsLinearFunc α) :
    ucsLinearFuncIntersect (orient convex f) (orient convex g) = ucsLinearFuncIntersect f g := by
  cases convex
  · unfold ucsLinearFuncIntersect orient
    simp only [Bool.false_eq_true, if_false, neg_inj]
    split_ifs
    · rfl
    · rw [← neg_div_neg_eq]
      congr 2 <;> ring
  · simp [orient]

theorem intersect_eq_some {f g : UcsLinearFunc α} {x : α} :
    ucsLinearFuncIntersect f g = some x ↔ f.m ≠ g.m ∧ x = crossing f.c f.m g.c g.m := by
  unfold ucsLinearFuncIntersect crossing
  split_ifs with hm <;> simp [hm, eq_comm]

/-- Two functions are equal at their crossing point. -/
theorem apply_eq_of_intersect {f g : UcsLinearFunc α} {x : α}
    (hc : ucsLinearFuncIntersect f g = some x) :
    ucsLinearFuncApply f x = ucsLinearFuncApply g x := by
  obtain ⟨hm, rfl⟩ := intersect_eq_some.1 hc
  exact line_eq_at_crossing hm

section Ordered

variable [IsStrictOrderedRing α]

theorem better_iff (convex : Bool) (f g : UcsLinearFunc α) (x : α) :
    Better convex (ucsLinearFuncApply f x) (ucsLinearFuncApply g x) ↔
      ucsLinearFuncApply (orient convex f) x ≤ ucsLinearFuncApply (orient convex g) x := by
  cases convex
  · simp only [Better, orient, ucsLinearFuncApply, Bool.false_eq_true, if_false, neg_mul]
    constructor <;> intro h <;> linarith
  · simp [Better, orient]

/-! ### One crossing

The best trend `b` of a segment against another trend `r`, from a point `a` where `b` is at
least as good: the order changes at most once, at the crossing `ucs_linear_func_intersect(r, b)`.
-/

section Crossing

variable {convex : Bool} {b r : UcsLinearFunc α} {a x xc : α}
  (hbr : Better convex (ucsLinearFuncApply b a) (ucsLinearFuncApply r a))
include hbr

theorem better_until_crossing (hc : ucsLinearFuncIntersect r b = some xc) (ha : a < xc)
    (hx : x ≤ xc) : Better convex (ucsLinearFuncApply b x) (ucsLinearFuncApply r x) := by
  rw [better_iff] at hbr ⊢
  rw [← intersect_orient convex, intersect_eq_some] at hc
  obtain ⟨hm, rfl⟩ := hc
  exact le_of_le_crossing hbr hm ha hx

theorem better_after_crossing (hc : ucsLinearFuncIntersect r b = some xc) (ha : a < xc)
    (hx : xc < x) : Better convex (ucsLinearFuncApply r x) (ucsLinearFuncApply b x) := by
  rw [better_iff] at hbr ⊢
  rw [← intersect_orient convex, intersect_eq_some] at hc
  obtain ⟨hm, rfl⟩ := hc
  exact (lt_of_crossing_lt hbr hm ha hx).le

theorem better_of_crossing_lt (hc : ucsLinearFuncIntersect r b = some xc) (ha : xc < a)
    (hx : a ≤ x) : Better convex (ucsLinearFuncApply b x) (ucsLinearFuncApply r x) := by
  rw [better_iff] at hbr ⊢
  rw [← intersect_orient convex, intersect_eq_some] at hc
  obtain ⟨hm, rfl⟩ := hc
  exact Lines.le_of_crossing_lt hbr hm ha hx

theorem better_of_intersect_none (hc : ucsLinearFuncIntersect r b = none) :
    Better convex (ucsLinearFuncApply b x) (ucsLinearFuncApply r x) := by
  rw [better_iff] at hbr ⊢
  rw [← intersect_orient convex] at hc
  have hm : (orient convex r).m = (orient convex b).m := by
    by_contra hne
    simp [ucsLinearFuncIntersect, hne] at hc
  exact le_of_slope_eq hbr hm

end Crossing

end Ordered

/-! ### The best-trend scan -/

section BestScan

variable (funcs : ℕ → UcsLinearFunc α) (convex : Bool)

/-- One pass of the first ucs_for_each_bit loop: the trend `index` replaces `best` when
there is none yet or when `(curr.result < best.result) == convex`. -/
def bestStep (xSample : α) (best : Option (ℕ × α)) (index : ℕ) : Option (ℕ × α) :=
  let result := ucsLinearFuncApply (funcs index) xSample
  match best with
  | none => some (index, result)
  | some (_, bestResult) =>
    if (decide (result < bestResult) == convex) = true then some (index, result) else best

/-- The best trend at `xSample` among the functions of `mask` (none stands for
best.index == UINT_MAX). -/
def findBest (xSample : α) (mask : List ℕ) : Option (ℕ × α) :=
  mask.foldl (bestStep funcs convex xSample) none

end BestScan

/-- `best` holds a trend of `S` with its value at `x`, at least as good as every trend of `S`;
it is none only while `S` is empty. -/
def IsBest (funcs : ℕ → UcsLinearFunc α) (convex : Bool) (x : α) (S : List ℕ) :
    Option (ℕ × α) → Prop
  | none => S = []
  | some (b, r) => r = ucsLinearFuncApply (funcs b) x ∧ b ∈ S ∧
      ∀ j ∈ S, Better convex (ucsLinearFuncApply (funcs b) x) (ucsLinearFuncApply (funcs j) x)

section Scans

variable {funcs : ℕ → UcsLinearFunc α} {convex : Bool} {x : α}

theorem IsBest.step {S : List ℕ} {best : Option (ℕ × α)} (h : IsBest funcs convex x S best)
    (i : ℕ) : IsBest funcs convex x (S ++ [i]) (bestStep funcs convex x best i) := by
  match best, h with
  | none, h =>
    -- the first trend of the mask becomes the best one
    have hS : S = [] := h
    subst hS
    refine ⟨rfl, List.mem_singleton_self i, fun j hj => ?_⟩
    rw [List.mem_singleton.1 hj]
    exact better_refl convex _
  | some (b, _), ⟨rfl, hb, hbest⟩ =>
    simp only [bestStep]
    split_ifs with hrep
    · have hnew := better_of_replace hrep
      refine ⟨rfl, List.mem_append_right S (List.mem_singleton_self i), fun j hj => ?_⟩
      rcases List.mem_append.1 hj with hj | hj
      · exact hnew.trans (hbest j hj)
      · rw [List.mem_singleton.1 hj]
        exact better_refl convex _
    · have hold := better_of_not_replace hrep
      refine ⟨rfl, List.mem_append_left [i] hb, fun j hj => ?_⟩
      rcases List.mem_append.1 hj with hj | hj
      · exact hbest j hj
      · rw [List.mem_singleton.1 hj]
        exact hold

theorem isBest_foldl (mask : List ℕ) : ∀ {S : List ℕ} {best : Option (ℕ × α)},
    IsBest funcs convex x S best →
      IsBest funcs convex x (S ++ mask) (mask.foldl (bestStep funcs convex x) best) := by
  induction mask with
  | nil => intro S best h; simpa using h
  | cons i mask ih =>
    intro S best h
    simpa using ih (h.step i)

/-- The first loop finds a trend of a non-empty mask that is at least as good as all of them. -/
theorem findBest_spec (funcs : ℕ → UcsLinearFunc α) (convex : Bool) (x : α) {mask : List ℕ}
    (hmask : mask ≠ []) :
    ∃ b, findBest funcs convex x mask = some (b, ucsLinearFuncApply (funcs b) x) ∧ b ∈ mask ∧
      ∀ j ∈ mask, Better convex (ucsLinearFuncApply (funcs b) x) (ucsLinearFuncApply (funcs j) x) := by
  have h : IsBest funcs convex x mask (findBest funcs convex x mask) := by
    simpa [findBest] using isBest_foldl mask (show IsBest funcs convex x [] none from rfl)
  rcases hfb : findBest funcs convex x mask with _ | ⟨b, r⟩
  · rw [hfb] at h
    exact absurd h hmask
  · rw [hfb] at h
    obtain ⟨rfl, hb, hbest⟩ := h
    exact ⟨b, rfl, hb, hbest⟩

end Scans

/-! ### Envelope elements and sample points -/

/-- UCP_PROTO_MSGLEN_EPSILON -/
def ucpProtoMsglenEpsilon : α := 1 / 2

/-- ucp_proto_perf_envelope_elem_t -/
structure UcpProtoPerfEnvelopeElem where
  index : ℕ
  maxLength : ℕ
deriving DecidableEq, Repr

/-- x_sample: the segment's start, moved into the segment by UCP_PROTO_MSGLEN_EPSILON unless
it is the end of the range. -/
def sampleAt (start rangeEnd : ℕ) : α :=
  if (start : α) < rangeEnd then start + ucpProtoMsglenEpsilon else start

/-! ### What a segment promises -/

/-- The envelope's promise for the segment `[start, e.maxLength]`: it lies in the range, its
function is at least as good as all `funcsNum` functions at the sample point, and, unless a
function with another slope ties it there, at every real `x` from the sample point to half a
unit before the segment's end. -/
structure SegmentOptimal (funcs : ℕ → UcsLinearFunc α) (funcsNum rangeEnd : ℕ) (convex : Bool)
    (start : ℕ) (e : UcpProtoPerfEnvelopeElem) : Prop where
  start_le : start ≤ e.maxLength
  le_rangeEnd : e.maxLength ≤ rangeEnd
  atSample : ∀ j < funcsNum,
    Better convex (ucsLinearFuncApply (funcs e.index) (sampleAt start rangeEnd))
      (ucsLinearFuncApply (funcs j) (sampleAt start rangeEnd))
  onSegment : (∀ j < funcsNum, ucsLinearFuncApply (funcs j) (sampleAt start rangeEnd) =
      ucsLinearFuncApply (funcs e.index) (sampleAt start rangeEnd) →
        (funcs j).m = (funcs e.index).m) →
    ∀ x : α, sampleAt start rangeEnd ≤ x → x + 1 / 2 ≤ e.maxLength → ∀ j < funcsNum,
      Better convex (ucsLinearFuncApply (funcs e.index) x) (ucsLinearFuncApply (funcs j) x)

/-- `P` holds of every segment of an envelope whose first segment starts at `start`; each
later segment starts right after the previous one ends (start = midpoint + 1). -/
def ForallSegments (P : ℕ → UcpProtoPerfEnvelopeElem → Prop) :
    ℕ → List UcpProtoPerfEnvelopeElem → Prop
  | _, [] => True
  | start, e :: es => P start e ∧ ForallSegments P (e.maxLength + 1) es

/-! ### The loop invariant -/

/-- The state at the top of an iteration: the candidates are distinct indices of `funcs`, and
each function already dropped is beaten by some candidate from the sample point on. -/
structure LoopInv (funcs : ℕ → UcsLinearFunc α) (funcsNum rangeEnd : ℕ) (convex : Bool)
    (start : ℕ) (mask : List ℕ) : Prop where
  lt : ∀ j ∈ mask, j < funcsNum
  nodup : mask.Nodup
  ne_nil : mask ≠ []
  start_le : start ≤ rangeEnd
  dominated : ∀ d < funcsNum, d ∉ mask → ∀ x : α, sampleAt start rangeEnd ≤ x →
    ∃ j ∈ mask, Better convex (ucsLinearFuncApply (funcs j) x) (ucsLinearFuncApply (funcs d) x)

theorem loopInv_init (funcs : ℕ → UcsLinearFunc α) (convex : Bool) {funcsNum rangeStart rangeEnd : ℕ}
    (hnum : 0 < funcsNum) (hrange : rangeStart ≤ rangeEnd) :
    LoopInv funcs funcsNum rangeEnd convex rangeStart (List.range funcsNum) where
  lt _ hj := List.mem_range.1 hj
  nodup := List.nodup_range
  ne_nil := by simpa using hnum.ne'
  start_le := hrange
  dominated d hd hnot := absurd (List.mem_range.2 hd) hnot

/-! ### Whole runs -/

/-- The elements the loop appends from `start` with candidates `mask`: one per iteration, the
last one ending at `rangeEnd`. -/
inductive Appended (funcs : ℕ → UcsLinearFunc α) (funcsNum rangeEnd : ℕ) (convex : Bool) :
    ℕ → List ℕ → List UcpProtoPerfEnvelopeElem → Prop
  | last {start : ℕ} {mask : List ℕ} {b : ℕ} : b ∈ mask →
      SegmentOptimal funcs funcsNum rangeEnd convex start ⟨b, rangeEnd⟩ →
      Appended funcs funcsNum rangeEnd convex start mask [⟨b, rangeEnd⟩]
  | next {start : ℕ} {mask : List ℕ} {b m : ℕ} {L : List UcpProtoPerfEnvelopeElem} : b ∈ mask →
      SegmentOptimal funcs funcsNum rangeEnd convex start ⟨b, m⟩ → m < rangeEnd →
      Appended funcs funcsNum rangeEnd convex (m + 1) (mask.erase b) L →
      Appended funcs funcsNum rangeEnd convex start mask (⟨b, m⟩ :: L)

section Appended

variable {funcs : ℕ → UcsLinearFunc α} {funcsNum rangeEnd : ℕ} {convex : Bool}

/-- Each iteration appends one element and drops one candidate. -/
theorem Appended.length_le {start : ℕ} {mask : List ℕ} {L : List UcpProtoPerfEnvelopeElem}
    (h : Appended funcs funcsNum rangeEnd convex start mask L) : L.length ≤ mask.length := by
  induction h with
  | last hb =>
    simp only [List.length_singleton]
    exact List.length_pos_of_mem hb
  | next hb _ _ _ ih =>
    rw [List.length_erase_of_mem hb] at ih
    have := List.length_pos_of_mem hb
    simp only [List.length_cons]
    omega

theorem Appended.index_mem {start : ℕ} {mask : List ℕ} {L : List UcpProtoPerfEnvelopeElem}
    (h : Appended funcs funcsNum rangeEnd convex start mask L) : ∀ e ∈ L, e.index ∈ mask := by
  induction h with
  | last hb => simpa using hb
  | next hb _ _ _ ih =>
    intro e he
    rcases List.mem_cons.1 he with rfl | he
    · exact hb
    · exact List.mem_of_mem_erase (ih e he)

theorem Appended.nodup {start : ℕ} {mask : List ℕ} {L : List UcpProtoPerfEnvelopeElem}
    (h : Appended funcs funcsNum rangeEnd convex start mask L) (hnd : mask.Nodup) :
    (L.map (·.index)).Nodup := by
  induction h with
  | last => simp
  | @next _ mask b _ L _ _ _ hL ih =>
    -- the later segments draw their indices from the mask without `b`
    have hnot : b ∉ L.map (·.index) := by
      simp only [List.mem_map, not_exists, not_and]
      intro e he hbe
      exact hnd.not_mem_erase (hbe ▸ hL.index_mem e he)
    exact List.nodup_cons.2 ⟨hnot, ih (hnd.erase b)⟩

theorem Appended.start_le {start : ℕ} {mask : List ℕ} {L : List UcpProtoPerfEnvelopeElem}
    (h : Appended funcs funcsNum rangeEnd convex start mask L) : ∀ e ∈ L, start ≤ e.maxLength := by
  induction h with
  | last _ hseg => simpa using hseg.start_le
  | next _ hseg _ _ ih =>
    intro e he
    rcases List.mem_cons.1 he with rfl | he
    · exact hseg.start_le
    · exact (hseg.start_le.trans (Nat.le_succ _)).trans (ih e he)

/-- The segment ends strictly increase. -/
theorem Appended.pairwise {start : ℕ} {mask : List ℕ} {L : List UcpProtoPerfEnvelopeElem}
    (h : Appended funcs funcsNum rangeEnd convex start mask L) :
    (L.map (·.maxLength)).Pairwise (· < ·) := by
  induction h with
  | last => simp
  | next _ _ _ hL ih =>
    refine List.pairwise_cons.2 ⟨?_, ih⟩
    simp only [List.mem_map]
    rintro _ ⟨e, he, rfl⟩
    exact hL.start_le e he

theorem Appended.getLast? {start : ℕ} {mask : List ℕ} {L : List UcpProtoPerfEnvelopeElem}
    (h : Appended funcs funcsNum rangeEnd convex start mask L) :
    (L.map (·.maxLength)).getLast? = some rangeEnd := by
  induction h with
  | last => rfl
  | @next _ _ _ _ L _ _ _ hL ih =>
    have hne : L.map (·.maxLength) ≠ [] := by
      cases hL <;> simp
    rw [List.map_cons, List.getLast?_cons_of_ne_nil hne, ih]

theorem Appended.segments {start : ℕ} {mask : List ℕ} {L : List UcpProtoPerfEnvelopeElem}
    (h : Appended funcs funcsNum rangeEnd convex start mask L) :
    ForallSegments (SegmentOptimal funcs funcsNum rangeEnd convex) start L := by
  induction h with
  | last _ hseg => exact ⟨hseg, trivial⟩
  | next _ hseg _ _ ih => exact ⟨hseg, ih⟩

theorem Appended.ne_nil {start : ℕ} {mask : List ℕ} {L : List UcpProtoPerfEnvelopeElem}
    (h : Appended funcs funcsNum rangeEnd convex start mask L) : L ≠ [] := by
  cases h <;> simp

end Appended

variable [FloorSemiring α]

/-- ucs_double_to_sizet: round half up, saturating at `max`. -/
def ucsDoubleToSizet (value : α) (max : ℕ) : ℕ :=
  if value + 1 / 2 < (max : α) then ⌊value + 1 / 2⌋₊ else max

/-- SIZE_MAX -/
def sizeMax : ℕ := 2 ^ 64 - 1

section Loop

variable (funcs : ℕ → UcsLinearFunc α) (convex : Bool)

/-- One pass of the second loop: a crossing with `best` after the sample point lowers the
midpoint to the crossing, rounded. -/
def midpointStep (best : ℕ) (xSample : α) (midpoint index : ℕ) : ℕ :=
  match ucsLinearFuncIntersect (funcs index) (funcs best) with
  | some xIntersect =>
    if xSample < xIntersect then min (ucsDoubleToSizet xIntersect sizeMax) midpoint
    else midpoint
  | none => midpoint

/-- The end of the segment of `best`: the first crossing after the sample point, or
`rangeEnd`. -/
def findMidpoint (best : ℕ) (xSample : α) (rangeEnd : ℕ) (mask : List ℕ) : ℕ :=
  mask.foldl (midpointStep funcs best xSample) rangeEnd

/-- The do-while loop of ucp_proto_perf_envelope_make, one segment per iteration; `fuel`
bounds the number of iterations. -/
def envelopeLoop (rangeEnd : ℕ) :
    ℕ → ℕ → List ℕ → List UcpProtoPerfEnvelopeElem → Option (List UcpProtoPerfEnvelopeElem)
  | 0, _, _, _ => none
  | fuel + 1, start, mask, envelopeList =>
    let xSample : α := sampleAt start rangeEnd
    match findBest funcs convex xSample mask with
    -- ucs_assert(best.index != UINT_MAX)
    | none => none
    | some (best, _) =>
      let mask := mask.erase best
      let midpoint := findMidpoint funcs best xSample rangeEnd mask
      let envelopeList := envelopeList ++ [⟨best, midpoint⟩]
      if midpoint < rangeEnd then envelopeLoop rangeEnd fuel (midpoint + 1) mask envelopeList
      else some envelopeList

/-- ucp_proto_perf_envelope_make; none is the failed ucs_assertv_always on `funcs_num`. -/
def ucpProtoPerfEnvelopeMake (funcsNum rangeStart rangeEnd : ℕ)
    (envelopeList : List UcpProtoPerfEnvelopeElem) (fuel : ℕ) :
    Option (List UcpProtoPerfEnvelopeElem) :=
  if 0 < funcsNum ∧ funcsNum < 64 then
    envelopeLoop funcs convex rangeEnd fuel rangeStart (List.range funcsNum) envelopeList
  else none

end Loop

/-! ### The midpoint scan -/

/-- The trend `j` cuts the segment of `best` at `n`: they cross after the sample point, and
`n` is the crossing rounded by ucs_double_to_sizet. -/
def IsCut (funcs : ℕ → UcsLinearFunc α) (best j : ℕ) (xSample : α) (n : ℕ) : Prop :=
  ∃ xc, ucsLinearFuncIntersect (funcs j) (funcs best) = some xc ∧ xSample < xc ∧
    ucsDoubleToSizet xc sizeMax = n

section Midpoint

variable {funcs : ℕ → UcsLinearFunc α} {best j : ℕ} {xSample : α}

theorem IsCut.unique {n n' : ℕ} (h : IsCut funcs best j xSample n)
    (h' : IsCut funcs best j xSample n') : n = n' := by
  obtain ⟨xc, hxc, -, rfl⟩ := h
  obtain ⟨xc', hxc', -, rfl⟩ := h'
  rw [hxc] at hxc'
  cases hxc'
  rfl

theorem midpointStep_cases (funcs : ℕ → UcsLinearFunc α) (best j : ℕ) (xSample : α) (m : ℕ) :
    (midpointStep funcs best xSample m j = m ∧ ∀ n, ¬IsCut funcs best j xSample n) ∨
      ∃ n, IsCut funcs best j xSample n ∧ midpointStep funcs best xSample m j = min n m := by
  unfold midpointStep IsCut
  split
  · next xc hxc =>
    split_ifs with hlt
    · exact .inr ⟨_, ⟨xc, hxc, hlt, rfl⟩, rfl⟩
    · refine .inl ⟨rfl, ?_⟩
      rintro n ⟨xc', hxc', hlt', -⟩
      rw [hxc] at hxc'
      cases hxc'
      exact hlt hlt'
  · next hxc =>
    refine .inl ⟨rfl, ?_⟩
    rintro n ⟨xc', hxc', -, -⟩
    rw [hxc] at hxc'
    cases hxc'

theorem midpointStep_le (m : ℕ) : midpointStep funcs best xSample m j ≤ m := by
  rcases midpointStep_cases funcs best j xSample m with ⟨h, -⟩ | ⟨n, -, h⟩
  · exact h.le
  · rw [h]
    exact min_le_right n m

theorem foldl_midpointStep_le : ∀ (mask : List ℕ) (m : ℕ),
    mask.foldl (midpointStep funcs best xSample) m ≤ m
  | [], _ => le_rfl
  | _ :: mask, m => (foldl_midpointStep_le mask _).trans (midpointStep_le m)

/-- No cut of a trend in the mask lies before the midpoint. -/
theorem foldl_midpointStep_le_cut {n : ℕ} (hcut : IsCut funcs best j xSample n) :
    ∀ {mask : List ℕ} (m : ℕ), j ∈ mask → mask.foldl (midpointStep funcs best xSample) m ≤ n
  | i :: mask, m, hj => by
    rcases List.mem_cons.1 hj with rfl | hj
    · refine (foldl_midpointStep_le mask _).trans ?_
      rcases midpointStep_cases funcs best j xSample m with ⟨-, hno⟩ | ⟨n', hcut', h⟩
      · exact absurd hcut (hno n)
      · rw [h, hcut.unique hcut']
        exact min_le_left n' m
    · rw [List.foldl_cons]
      exact foldl_midpointStep_le_cut hcut _ hj

/-- The midpoint is where it started, or the cut of some trend of the mask. -/
theorem foldl_midpointStep_cases : ∀ (mask : List ℕ) (m : ℕ),
    mask.foldl (midpointStep funcs best xSample) m = m ∨
      ∃ j ∈ mask, IsCut funcs best j xSample (mask.foldl (midpointStep funcs best xSample) m)
  | [], _ => .inl rfl
  | i :: mask, m => by
    rw [List.foldl_cons]
    rcases foldl_midpointStep_cases mask (midpointStep funcs best xSample m i) with h | ⟨k, hk, hcut⟩
    · -- no later trend moved the midpoint: it is the one the trend `i` left
      rw [h]
      rcases midpointStep_cases funcs best i xSample m with ⟨hm, -⟩ | ⟨n, hcut, hm⟩
      · exact .inl hm
      · rw [hm]
        rcases min_choice n m with hmin | hmin <;> rw [hmin]
        · exact .inr ⟨i, List.mem_cons_self, hcut⟩
        · exact .inl rfl
    · exact .inr ⟨k, List.mem_cons_of_mem i hk, hcut⟩

theorem le_foldl_midpointStep {L : ℕ} : ∀ (mask : List ℕ) (m : ℕ), L ≤ m →
    (∀ j ∈ mask, ∀ n, IsCut funcs best j xSample n → L ≤ n) →
      L ≤ mask.foldl (midpointStep funcs best xSample) m
  | [], _, hm, _ => hm
  | i :: mask, m, hm, hcuts => by
    refine le_foldl_midpointStep mask _ ?_ fun j hj => hcuts j (List.mem_cons_of_mem i hj)
    rcases midpointStep_cases funcs best i xSample m with ⟨h, -⟩ | ⟨n, hcut, h⟩
    · rw [h]
      exact hm
    · rw [h]
      exact le_min (hcuts i List.mem_cons_self n hcut) hm

end Midpoint

/-! ### Rounding -/

section Rounding

variable {v : α}

theorem cast_ucsDoubleToSizet_le (hv : 0 ≤ v + 1 / 2) (max : ℕ) :
    (ucsDoubleToSizet v max : α) ≤ v + 1 / 2 := by
  unfold ucsDoubleToSizet
  split_ifs with h
  · exact Nat.floor_le hv
  · exact not_lt.1 h

/-- Below the saturation bound the rounding is the floor of `v + 1/2`. -/
theorem lt_ucsDoubleToSizet_add_one {max : ℕ} (h : ucsDoubleToSizet v max < max) :
    v + 1 / 2 < (ucsDoubleToSizet v max : α) + 1 := by
  unfold ucsDoubleToSizet at h ⊢
  split_ifs at h ⊢
  · exact Nat.lt_floor_add_one _
  · exact absurd h (lt_irrefl _)

theorem le_ucsDoubleToSizet {n max : ℕ} (hn : (n : α) ≤ v + 1 / 2) (hmax : n ≤ max) :
    n ≤ ucsDoubleToSizet v max := by
  unfold ucsDoubleToSizet
  split_ifs
  · exact Nat.le_floor hn
  · exact hmax

end Rounding

variable [IsStrictOrderedRing α]

/-! ### The sample point -/

theorem start_le_sampleAt (start rangeEnd : ℕ) : (start : α) ≤ sampleAt start rangeEnd := by
  unfold sampleAt ucpProtoMsglenEpsilon
  split_ifs <;> linarith

theorem sampleAt_le (start rangeEnd : ℕ) : sampleAt start rangeEnd ≤ (start : α) + 1 / 2 := by
  unfold sampleAt ucpProtoMsglenEpsilon
  split_ifs <;> linarith

section Iteration

variable {funcs : ℕ → UcsLinearFunc α} {funcsNum rangeEnd : ℕ} {convex : Bool} {start b : ℕ}
  {mask : List ℕ} (h : LoopInv funcs funcsNum rangeEnd convex start mask)
  (hend : rangeEnd ≤ sizeMax)
  (hbest : ∀ j ∈ mask, Better convex (ucsLinearFuncApply (funcs b) (sampleAt start rangeEnd))
    (ucsLinearFuncApply (funcs j) (sampleAt start rangeEnd)))
include h hend hbest

omit hbest in
/-- The segment of `b` ends at or after its start. -/
theorem LoopInv.start_le_midpoint :
    start ≤ findMidpoint funcs b (sampleAt start rangeEnd) rangeEnd (mask.erase b) := by
  refine le_foldl_midpointStep _ _ h.start_le fun j _ n ⟨xc, _, hlt, hn⟩ => ?_
  have hxc : (start : α) ≤ xc + 1 / 2 := by
    have : (start : α) ≤ sampleAt start rangeEnd := start_le_sampleAt start rangeEnd
    linarith
  rw [← hn]
  exact le_ucsDoubleToSizet hxc (h.start_le.trans hend)

omit [FloorSemiring α] [IsStrictOrderedRing α] hend in
/-- The best trend is at least as good as every function at the sample point, the dropped
ones included. -/
theorem LoopInv.atSample : ∀ j < funcsNum,
    Better convex (ucsLinearFuncApply (funcs b) (sampleAt start rangeEnd))
      (ucsLinearFuncApply (funcs j) (sampleAt start rangeEnd)) := by
  intro j hj
  by_cases hjm : j ∈ mask
  · exact hbest j hjm
  · obtain ⟨r, hr, hrj⟩ := h.dominated j hj hjm _ le_rfl
    exact (hbest r hr).trans hrj

omit h hend in
/-- Against a candidate that does not tie it at the sample point, the best trend stays at least
as good up to half a unit before the segment's end. -/
theorem better_of_mem_mask {j : ℕ} (hj : j ∈ mask)
    (hnotie : ucsLinearFuncApply (funcs j) (sampleAt start rangeEnd) =
      ucsLinearFuncApply (funcs b) (sampleAt start rangeEnd) → (funcs j).m = (funcs b).m)
    {x : α} (hx : sampleAt start rangeEnd ≤ x)
    (hxm : x + 1 / 2 ≤ findMidpoint funcs b (sampleAt start rangeEnd) rangeEnd (mask.erase b)) :
    Better convex (ucsLinearFuncApply (funcs b) x) (ucsLinearFuncApply (funcs j) x) := by
  by_cases hjb : j = b
  · rw [hjb]
    exact better_refl convex _
  have hbj := hbest j hj
  rcases hc : ucsLinearFuncIntersect (funcs j) (funcs b) with _ | xc
  · exact better_of_intersect_none hbj hc
  rcases lt_trichotomy (sampleAt start rangeEnd) xc with hlt | heq | hgt
  · -- the crossing cuts the segment, so it lies at or past x
    have hcut : IsCut funcs b j (sampleAt start rangeEnd) (ucsDoubleToSizet xc sizeMax) :=
      ⟨xc, hc, hlt, rfl⟩
    have hm := foldl_midpointStep_le_cut hcut rangeEnd ((List.mem_erase_of_ne hjb).2 hj)
    have hround : (ucsDoubleToSizet xc sizeMax : α) ≤ xc + 1 / 2 := by
      have : (start : α) ≤ sampleAt start rangeEnd := start_le_sampleAt start rangeEnd
      have : (0 : α) ≤ start := Nat.cast_nonneg start
      exact cast_ucsDoubleToSizet_le (by linarith) sizeMax
    have hcast : (findMidpoint funcs b (sampleAt start rangeEnd) rangeEnd (mask.erase b) : α) ≤
        ucsDoubleToSizet xc sizeMax := Nat.cast_le.2 hm
    exact better_until_crossing hbj hc hlt (by linarith)
  · -- a crossing at the sample point is a tie, which the hypothesis allows only for parallels
    subst heq
    have hm := (intersect_eq_some.1 hc).1
    exact absurd (hnotie (apply_eq_of_intersect hc)) hm
  · exact better_of_crossing_lt hbj hc hgt hx

theorem LoopInv.segment :
    SegmentOptimal funcs funcsNum rangeEnd convex start
      ⟨b, findMidpoint funcs b (sampleAt start rangeEnd) rangeEnd (mask.erase b)⟩ where
  start_le := h.start_le_midpoint hend
  le_rangeEnd := foldl_midpointStep_le _ _
  atSample := h.atSample hbest
  onSegment hnotie x hx hxm j hj := by
    by_cases hjm : j ∈ mask
    · exact better_of_mem_mask hbest hjm (hnotie j hj) hx hxm
    · obtain ⟨r, hr, hrj⟩ := h.dominated j hj hjm x hx
      exact (better_of_mem_mask hbest hr (hnotie r (h.lt r hr)) hx hxm).trans hrj

/-- When the segment ends before the range does, the next iteration starts in the invariant:
the dropped best trend is beaten past the crossing that ended its segment. -/
theorem LoopInv.next
    (hlt : findMidpoint funcs b (sampleAt start rangeEnd) rangeEnd (mask.erase b) < rangeEnd) :
    LoopInv funcs funcsNum rangeEnd convex
      (findMidpoint funcs b (sampleAt start rangeEnd) rangeEnd (mask.erase b) + 1)
      (mask.erase b) := by
  set m := findMidpoint funcs b (sampleAt start rangeEnd) rangeEnd (mask.erase b) with hm
  obtain ⟨j₀, hj₀, xc, hc, hxs, hround⟩ :
      ∃ j ∈ mask.erase b, IsCut funcs b j (sampleAt start rangeEnd) m := by
    have hcases : m = rangeEnd ∨ ∃ j ∈ mask.erase b, IsCut funcs b j (sampleAt start rangeEnd) m :=
      foldl_midpointStep_cases (mask.erase b) rangeEnd
    rcases hcases with heq | hcut
    · exact absurd heq hlt.ne
    · exact hcut
  -- the crossing that ended the segment lies before the next sample point
  have hxc : xc + 1 / 2 < (m : α) + 1 := by
    rw [← hround]
    exact lt_ucsDoubleToSizet_add_one (hround ▸ hlt.trans_le hend)
  have hnext : (m : α) + 1 ≤ sampleAt (m + 1) rangeEnd := by
    have : ((m + 1 : ℕ) : α) ≤ sampleAt (m + 1) rangeEnd := start_le_sampleAt (m + 1) rangeEnd
    push_cast at this
    exact this
  have hbeaten : ∀ x : α, sampleAt (m + 1) rangeEnd ≤ x →
      Better convex (ucsLinearFuncApply (funcs j₀) x) (ucsLinearFuncApply (funcs b) x) :=
    fun x hx => better_after_crossing (hbest j₀ (List.mem_of_mem_erase hj₀)) hc hxs
      (by linarith)
  refine ⟨fun j hj => h.lt j (List.mem_of_mem_erase hj), h.nodup.erase b,
    List.ne_nil_of_mem hj₀, hlt, fun d hd hnot x hx => ?_⟩
  by_cases hdb : d = b
  · exact ⟨j₀, hj₀, hdb ▸ hbeaten x hx⟩
  have hdm : d ∉ mask := fun hdm => hnot ((List.mem_erase_of_ne hdb).2 hdm)
  have hsx : sampleAt start rangeEnd ≤ x := by
    have : sampleAt start rangeEnd ≤ (start : α) + 1 / 2 := sampleAt_le start rangeEnd
    have : (start : α) ≤ m := Nat.cast_le.2 (h.start_le_midpoint hend)
    linarith
  obtain ⟨r, hr, hrd⟩ := h.dominated d hd hdm x hsx
  by_cases hrb : r = b
  · exact ⟨j₀, hj₀, (hbeaten x hx).trans (hrb ▸ hrd)⟩
  · exact ⟨r, (List.mem_erase_of_ne hrb).2 hr, hrd⟩

end Iteration

section Run

variable {funcs : ℕ → UcsLinearFunc α} {funcsNum rangeEnd : ℕ} {convex : Bool}

/-- With fuel for every candidate, the loop runs to the end of the range from any state of the
invariant, appending the segments of `Appended`. -/
theorem envelopeLoop_spec (hend : rangeEnd ≤ sizeMax) : ∀ (fuel start : ℕ) (mask : List ℕ)
    (envelopeList : List UcpProtoPerfEnvelopeElem),
    LoopInv funcs funcsNum rangeEnd convex start mask → mask.length ≤ fuel →
      ∃ L, envelopeLoop funcs convex rangeEnd fuel start mask envelopeList =
        some (envelopeList ++ L) ∧ Appended funcs funcsNum rangeEnd convex start mask L
  | 0, _, mask, _, h, hfuel => absurd (List.length_eq_zero_iff.1 (Nat.le_zero.1 hfuel)) h.ne_nil
  | fuel + 1, start, mask, envelopeList, h, hfuel => by
    obtain ⟨b, hfind, hb, hbest⟩ :=
      findBest_spec funcs convex (sampleAt start rangeEnd) h.ne_nil
    have hseg := h.segment hend hbest
    simp only [envelopeLoop, hfind]
    split_ifs with hlt
    · -- the segment ends inside the range: the loop goes on with `b` dropped
      have hlen : (mask.erase b).length ≤ fuel := by
        rw [List.length_erase_of_mem hb]
        omega
      obtain ⟨L, hrun, hL⟩ := envelopeLoop_spec hend fuel _ (mask.erase b)
        (envelopeList ++ [⟨b, _⟩]) (h.next hend hbest hlt) hlen
      exact ⟨_ :: L, by simpa using hrun, .next hb hseg hlt hL⟩
    · -- the segment reaches the end of the range: the loop stops
      have hm : findMidpoint funcs b (sampleAt start rangeEnd) rangeEnd (mask.erase b) = rangeEnd :=
        le_antisymm (foldl_midpointStep_le _ _) (not_lt.1 hlt)
      refine ⟨[_], rfl, ?_⟩
      rw [hm] at hseg ⊢
      exact .last hb hseg

end Run

/-- ucp_proto_perf_envelope_make over any ordered field with a floor, the reals among them, for
`1 ≤ funcsNum < 64` functions, `rangeStart ≤ rangeEnd ≤ SIZE_MAX` and either orientation: it
stops within `funcsNum` iterations and appends segments with distinct indices, strictly
increasing ends, the first starting at `rangeStart` and the last ending at `rangeEnd`; on each,
its function is optimal at the sample point, and up to half a unit before the segment's end
when no function of another slope ties it at the sample point. -/
theorem ucpProtoPerfEnvelopeMake_partition (funcs : ℕ → UcsLinearFunc α) (convex : Bool)
    (funcsNum rangeStart rangeEnd fuel : ℕ) (envelopeList : List UcpProtoPerfEnvelopeElem)
    (hnum : 1 ≤ funcsNum) (hnum64 : funcsNum < 64) (hrange : rangeStart ≤ rangeEnd)
    (hend : rangeEnd ≤ sizeMax) (hfuel : funcsNum ≤ fuel) :
    ∃ L, ucpProtoPerfEnvelopeMake funcs convex funcsNum rangeStart rangeEnd envelopeList fuel =
        some (envelopeList ++ L) ∧
      L ≠ [] ∧ L.length ≤ funcsNum ∧ (L.map (·.index)).Nodup ∧ (∀ e ∈ L, e.index < funcsNum) ∧
      (L.map (·.maxLength)).Pairwise (· < ·) ∧ (L.map (·.maxLength)).getLast? = some rangeEnd ∧
      ForallSegments (SegmentOptimal funcs funcsNum rangeEnd convex) rangeStart L := by
  obtain ⟨L, hrun, hL⟩ := envelopeLoop_spec hend fuel rangeStart (List.range funcsNum)
    envelopeList (loopInv_init funcs convex hnum hrange) (by simpa using hfuel)
  have hmake : ucpProtoPerfEnvelopeMake funcs convex funcsNum rangeStart rangeEnd envelopeList
      fuel = some (envelopeList ++ L) := by
    rw [ucpProtoPerfEnvelopeMake, if_pos ⟨hnum, hnum64⟩]
    exact hrun
  have hlen : L.length ≤ funcsNum := by simpa using hL.length_le
  exact ⟨L, hmake, hL.ne_nil, hlen, hL.nodup List.nodup_range,
    fun e he => List.mem_range.1 (hL.index_mem e he), hL.pairwise, hL.getLast?, hL.segments⟩

/-- The envelope of `x` and the constant `2` over `[0, 10]`. -/
theorem ucpProtoPerfEnvelopeMake_partition_two :
    (1 ≤ 2 ∧ 2 < 64 ∧ 0 ≤ 10 ∧ 10 ≤ sizeMax ∧ 2 ≤ 2) ∧
      ∃ L, ucpProtoPerfEnvelopeMake
          (fun i => if i = 0 then ⟨0, 1⟩ else ⟨2, 0⟩ : ℕ → UcsLinearFunc ℝ) true 2 0 10 [] 2 =
            some ([] ++ L) ∧
        L ≠ [] ∧ L.length ≤ 2 ∧ (L.map (·.index)).Nodup ∧ (∀ e ∈ L, e.index < 2) ∧
        (L.map (·.maxLength)).Pairwise (· < ·) ∧ (L.map (·.maxLength)).getLast? = some 10 ∧
        ForallSegments (SegmentOptimal
          (fun i => if i = 0 then ⟨0, 1⟩ else ⟨2, 0⟩ : ℕ → UcsLinearFunc ℝ) 2 10 true) 0 L :=
  ⟨⟨by norm_num, by norm_num, by norm_num, by decide, le_rfl⟩,
    ucpProtoPerfEnvelopeMake_partition _ true 2 0 10 2 [] (by norm_num) (by norm_num) (by norm_num)
      (by decide) le_rfl⟩

/-- Over the reals the chosen function need not be optimal up to the segment's end. With `x`
and the constant `1/2` the two tie at the sample point `1/2`; their crossing is not after it,
so `x` is kept for all of `[0, 10]`, where the constant is lower past `1/2`. With `x` and the
constant `18/5` the crossing `18/5` is rounded up to the end `4` of the first segment, where
the constant is already lower. -/
theorem ucpProtoPerfEnvelopeMake_not_optimal :
    ucpProtoPerfEnvelopeMake (fun i => if i = 0 then ⟨0, 1⟩ else ⟨1 / 2, 0⟩ : ℕ → UcsLinearFunc ℝ)
        true 2 0 10 [] 2 = some [⟨0, 10⟩] ∧
      ucsLinearFuncApply (⟨1 / 2, 0⟩ : UcsLinearFunc ℝ) 10 < ucsLinearFuncApply ⟨0, 1⟩ 10 ∧
    ucpProtoPerfEnvelopeMake (fun i => if i = 0 then ⟨0, 1⟩ else ⟨18 / 5, 0⟩ : ℕ → UcsLinearFunc ℝ)
        true 2 0 10 [] 2 = some [⟨0, 4⟩, ⟨1, 10⟩] ∧
      ucsLinearFuncApply (⟨18 / 5, 0⟩ : UcsLinearFunc ℝ) 4 < ucsLinearFuncApply ⟨0, 1⟩ 4 := by
  refine ⟨?_, by norm_num [ucsLinearFuncApply], ?_, by norm_num [ucsLinearFuncApply]⟩ <;>
  norm_num [ucpProtoPerfEnvelopeMake, envelopeLoop, findBest, bestStep, findMidpoint, midpointStep,
    ucsLinearFuncIntersect, ucsDoubleToSizet, sampleAt, ucpProtoMsglenEpsilon, ucsLinearFuncApply,
    List.range, List.range.loop, sizeMax]

end UcxProofs.PerfEnvelope
