import Mathlib.Data.List.TakeWhile

/-!
Lists separated by a delimiter. A reader that takes the run up to the next delimiter and then
skips all the delimiters after it visits the non-empty pieces of `l.splitOn d`
(`pieces_eq_cons`); joining pieces with the delimiter (`[d].intercalate`) is what a
writer that puts a delimiter before every piece but the first produces.
-/

namespace Separated

variable {α : Type*} [DecidableEq α] {d : α}

/-- The non-empty pieces of `l` between delimiters. -/
def pieces (d : α) (l : List α) : List (List α) := (l.splitOn d).filter (· ≠ [])

@[simp] lemma pieces_nil : pieces d [] = [] := rfl

/-- The run up to the next delimiter ends at a delimiter, if anywhere. -/
lemma eq_of_dropWhile_ne_eq_cons {l rest : List α} {c : α}
    (h : l.dropWhile (· ≠ d) = c :: rest) : c = d := by
  have hc := List.head_dropWhile_not (fun x => decide (x ≠ d)) (l := l)
    (by rw [h]; exact List.cons_ne_nil _ _)
  simp only [h, List.head_cons] at hc
  simpa using hc

/-- Skipping a run and the delimiters after it makes progress. -/
lemma length_dropWhile_dropWhile_lt {l : List α} (h : l.dropWhile (· ≠ d) ≠ []) :
    ((l.dropWhile (· ≠ d)).dropWhile (· = d)).length < l.length := by
  obtain ⟨c, rest, hnext⟩ := List.exists_cons_of_ne_nil h
  have hc : c = d := eq_of_dropWhile_ne_eq_cons hnext
  calc ((l.dropWhile (· ≠ d)).dropWhile (· = d)).length ≤ rest.length := by
        rw [hnext, hc, List.dropWhile_cons_of_pos (by simp)]
        exact List.length_dropWhile_le _ _
    _ < (l.dropWhile (· ≠ d)).length := by rw [hnext]; simp
    _ ≤ l.length := List.length_dropWhile_le _ _

/-- Leading delimiters only add empty pieces. -/
lemma pieces_dropWhile (l : List α) : pieces d (l.dropWhile (· = d)) = pieces d l := by
  unfold pieces
  induction l with
  | nil => rfl
  | cons c l ih =>
    by_cases hc : c = d
    · subst hc
      rw [List.dropWhile_cons_of_pos (by simp), ih]
      simp [List.splitOn, List.splitOnP_cons_eq_if_modifyHead]
    · rw [List.dropWhile_cons_of_neg (by simpa using hc)]

/-- **The non-empty pieces, one run at a time**: the first is the run up to the next delimiter,
and the others are those after the delimiters that end it. -/
theorem pieces_eq_cons {l : List α} (hne : l.takeWhile (· ≠ d) ≠ []) :
    pieces d l = l.takeWhile (· ≠ d) :: pieces d ((l.dropWhile (· ≠ d)).dropWhile (· = d)) := by
  unfold pieces
  have hrun : ∀ x ∈ l.takeWhile (· ≠ d), (x == d) = false := fun x hx => by
    simpa using List.mem_takeWhile_imp hx
  rw [show l.splitOn d = (l.takeWhile (· ≠ d) ++ l.dropWhile (· ≠ d)).splitOn d by
    rw [List.takeWhile_append_dropWhile]]
  rcases hnext : l.dropWhile (· ≠ d) with _ | ⟨c, rest⟩
  · -- no delimiter left: the run is the last piece
    rw [List.append_nil, List.splitOn, List.splitOnP_eq_singleton hrun,
      List.filter_cons_of_pos (by simpa using hne)]
    rfl
  · -- the run ends at a delimiter
    have hc : c = d := eq_of_dropWhile_ne_eq_cons hnext
    subst hc
    rw [List.splitOn, List.splitOnP_append_cons_of_forall_mem hrun c (by simp),
      List.dropWhile_cons_of_pos (by simp), List.filter_cons_of_pos (by simpa using hne)]
    exact congrArg _ (pieces_dropWhile rest).symm

omit [DecidableEq α] in
/-- Joining two non-empty lists of pieces puts one delimiter between them. -/
lemma intercalate_append_of_ne_nil {xs ys : List (List α)} (hx : xs ≠ []) (hy : ys ≠ []) :
    [d].intercalate (xs ++ ys) = [d].intercalate xs ++ d :: [d].intercalate ys := by
  induction xs with
  | nil => contradiction
  | cons x xs ih =>
    rcases xs with _ | ⟨x', xs⟩
    · obtain ⟨y, ys, rfl⟩ := List.exists_cons_of_ne_nil hy
      simp [List.intercalate_cons_cons]
    · rw [List.cons_append, List.cons_append, List.intercalate_cons_cons, ← List.cons_append,
        ih (by simp), List.intercalate_cons_cons]
      simp

/-- No piece holds the delimiter. -/
lemma not_mem_of_mem_splitOn {l t : List α} (ht : t ∈ l.splitOn d) : d ∉ t := by
  induction l generalizing t with
  | nil =>
    rw [List.splitOn_nil, List.mem_singleton] at ht
    simp [ht]
  | cons x l ih =>
    obtain ⟨h, tl, hsplit⟩ := List.exists_cons_of_ne_nil (List.splitOn_ne_nil d l)
    rw [List.splitOn_cons_eq_if_modifyHead, hsplit] at ht
    by_cases hx : x = d
    · -- the delimiter starts an empty piece
      rw [if_pos (by simpa using hx)] at ht
      rcases List.mem_cons.mp ht with rfl | ht
      · simp
      · exact ih (hsplit ▸ ht)
    · -- anything else joins the first piece
      rw [if_neg (by simpa using hx), List.modifyHead_cons] at ht
      rcases List.mem_cons.mp ht with rfl | ht
      · have hh : d ∉ h := ih (by rw [hsplit]; exact List.mem_cons_self)
        simp [Ne.symm hx, hh]
      · exact ih (by rw [hsplit]; exact List.mem_cons_of_mem _ ht)

lemma not_mem_of_mem_pieces {l t : List α} (ht : t ∈ pieces d l) : d ∉ t :=
  not_mem_of_mem_splitOn (List.mem_filter.mp ht).1

lemma ne_nil_of_mem_pieces {l t : List α} (ht : t ∈ pieces d l) : t ≠ [] := by
  simpa using (List.mem_filter.mp ht).2

/-- A piece without the delimiter is read whole. -/
lemma takeWhile_of_not_mem {x : List α} (hx : d ∉ x) : x.takeWhile (· ≠ d) = x :=
  List.takeWhile_eq_self_iff.mpr fun c hc => by
    have : c ≠ d := fun h => hx (h ▸ hc)
    simpa using this

/-- A piece followed by the delimiter is read up to it. -/
lemma takeWhile_append_cons {x rest : List α} (hx : d ∉ x) :
    (x ++ d :: rest).takeWhile (· ≠ d) = x := by
  rw [List.takeWhile_append_of_pos (fun c hc => by
      have : c ≠ d := fun h => hx (h ▸ hc)
      simpa using this)]
  simp

omit [DecidableEq α] in
/-- Joining a non-empty list of pieces and then some more, as a writer does it. -/
lemma intercalate_append_eq {xs ys : List (List α)} (hx : xs ≠ []) :
    [d].intercalate (xs ++ ys) =
      [d].intercalate xs ++ (if ys ≠ [] then [d] else []) ++ [d].intercalate ys := by
  by_cases hy : ys = []
  · simp [hy]
  · rw [intercalate_append_of_ne_nil hx hy, if_pos hy]
    simp

/-- After skipping the delimiters, the next character is not one. -/
lemma ne_of_mem_head?_dropWhile (l : List α) : ∀ c ∈ (l.dropWhile (· = d)).head?, c ≠ d := by
  intro c hc
  have hne : l.dropWhile (· = d) ≠ [] := by
    intro h
    rw [h] at hc
    simp at hc
  have hhead := List.head_dropWhile_not (fun x => decide (x = d)) hne
  rw [List.head?_eq_some_head hne, Option.mem_def, Option.some.injEq] at hc
  rw [← hc]
  simpa using hhead

/-- A list that does not start with the delimiter starts with its first piece. -/
lemma takeWhile_ne_nil {l : List α} (hl : l ≠ []) (hd : ∀ c ∈ l.head?, c ≠ d) :
    l.takeWhile (· ≠ d) ≠ [] := by
  obtain ⟨c, l, rfl⟩ := List.exists_cons_of_ne_nil hl
  have hc : c ≠ d := hd c rfl
  simp [hc]

omit [DecidableEq α] in
/-- **A loop that writes the delimiter before every element but the first writes the join.** -/
theorem foldl_range'_eq_intercalate (f : ℕ → List α) (s n : ℕ) :
    (List.range' s n).foldl (fun acc j => acc ++ (if s < j then [d] else []) ++ f j) [] =
      [d].intercalate ((List.range' s n).map f) := by
  induction n with
  | zero => rfl
  | succ n ih =>
    rw [List.range'_1_concat, List.foldl_append, ih, List.map_append]
    rcases n with _ | n
    · simp
    · rw [intercalate_append_of_ne_nil (by simp) (by simp)]
      simp [show s < s + (n + 1) by omega]

lemma take_range' (s n m : ℕ) : (List.range' s n).take m = List.range' s (min m n) := by
  induction n generalizing s m with
  | zero => simp
  | succ n ih =>
    rcases m with _ | m
    · simp
    · rw [List.range'_succ, List.take_succ_cons, ih, Nat.succ_min_succ, List.range'_succ]

end Separated
