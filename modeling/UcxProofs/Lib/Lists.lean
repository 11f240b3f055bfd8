import Mathlib.Data.List.Find
import Mathlib.Data.List.Basic

/-!
Lists: erasing an element under a filter that drops it, and under a map that tells it apart
from the other elements; the concatenation of lists indexed without repeats, when one of them
is replaced or an element is erased from all of them.
-/

namespace List

variable {α : Type*} [BEq α] [LawfulBEq α]

/-- Erasing an element that the filter drops does not change the filtered list. -/
theorem filter_erase_of_neg {f : α → Bool} {l : List α} {a : α} (h : f a = false) :
    (l.erase a).filter f = l.filter f := by
  rw [← List.erase_filter, List.erase_of_not_mem]
  intro hm
  simp [(List.mem_filter.mp hm).2] at h

/-- Erasing commutes with a map that is injective at the erased element only. -/
theorem map_erase_of_forall {β : Type*} [BEq β] [LawfulBEq β] {f : α → β} {a : α} {l : List α}
    (h : ∀ b ∈ l, f b = f a → b = a) : (l.erase a).map f = (l.map f).erase (f a) := by
  induction l with
  | nil => rfl
  | cons b l ih =>
    by_cases hb : b = a
    · subst hb
      simp
    · have hf : f b ≠ f a := fun hf => hb (h b mem_cons_self hf)
      rw [erase_cons_tail (by simpa using hb), map_cons, map_cons,
        erase_cons_tail (by simpa using hf), ih fun c hc => h c (mem_cons_of_mem b hc)]

section FlatMap

variable {ι : Type*} [DecidableEq ι]

omit [BEq α] [LawfulBEq α] in
/-- Replacing one list of a concatenation indexed without repeats puts the new list in the old
one's place, up to order. -/
theorem flatMap_update_perm {f : ι → List α} {s : ι} {l : List α} :
    ∀ {is : List ι}, is.Nodup → s ∈ is →
      (is.flatMap (Function.update f s l)).Perm (l ++ (is.erase s).flatMap f)
  | i :: is, hnd, hs => by
    rw [flatMap_cons]
    by_cases hi : i = s
    · subst hi
      -- the other indices are not `i`, so their lists are as before
      have hrest : is.flatMap (Function.update f i l) = is.flatMap f :=
        flatMap_congr fun j hj =>
          Function.update_of_ne (fun hji : j = i => (nodup_cons.1 hnd).1 (hji ▸ hj)) _ _
      rw [Function.update_self, hrest, erase_cons_head]
    · have hs' : s ∈ is := (mem_cons.1 hs).resolve_left (Ne.symm hi)
      rw [Function.update_of_ne hi, erase_cons_tail (by simpa using hi), flatMap_cons]
      exact ((flatMap_update_perm (nodup_cons.1 hnd).2 hs').append_left (f i)).trans
        (perm_append_comm_assoc _ _ _)

omit [DecidableEq ι] in
/-- Erasing an element from every list of a concatenation without repeats erases it from the
concatenation. -/
theorem flatMap_erase {f : ι → List α} {x : α} :
    ∀ {is : List ι}, (is.flatMap f).Nodup →
      is.flatMap (fun i => (f i).erase x) = (is.flatMap f).erase x
  | [], _ => rfl
  | i :: is, hnd => by
    rw [flatMap_cons] at hnd ⊢
    rw [flatMap_cons]
    by_cases hx : x ∈ f i
    · -- `x` is in no later list, which the erasing leaves alone
      have hrest : is.flatMap (fun j => (f j).erase x) = is.flatMap f :=
        flatMap_congr fun j hj => erase_of_not_mem fun hxj =>
          (nodup_append.1 hnd).2.2 x hx x (mem_flatMap.2 ⟨j, hj, hxj⟩) rfl
      rw [hrest, erase_append_left _ hx]
    · rw [erase_of_not_mem hx, erase_append_right _ hx, flatMap_erase (nodup_append.1 hnd).2.1]

end FlatMap

end List
