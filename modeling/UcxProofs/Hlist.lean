import Mathlib.Data.List.Nodup
import UcxProofs.Lib.Cycle

/-!
Detached-head lists (`ucs/datastruct/hlist.h`) over the links of `ucs/datastruct/list.h`.

Every element carries one `ucs_list_link_t`; `UcsListLinks` holds the `next` and `prev`
pointers of all of them at once, since the lists that share a heap share these links. A
detached head is only a pointer to the first element, NULL for an empty list, and the
elements form a ring linked both ways. `HlistRepr head links q` reads the list `q` off a head
and the links; each operation below has one spec lemma against it, and a frame lemma saying
which links it leaves alone.
-/

namespace UcxProofs.Hlist

open Function CycleList

variable {E : Type} [DecidableEq E]

/-- The `next` and `prev` pointers of every element's `ucs_list_link_t`. -/
structure UcsListLinks (E : Type) where
  next : E → E
  prev : E → E

/-- `ucs_list_head_init`: a ring of one. -/
def ucsListHeadInit (l : UcsListLinks E) (head : E) : UcsListLinks E :=
  ⟨update l.next head head, update l.prev head head⟩

/-- `ucs_list_insert_replace`: `elem` goes between `prev` and `next`. -/
def ucsListInsertReplace (l : UcsListLinks E) (prev next elem : E) : UcsListLinks E :=
  ⟨update (update l.next elem next) prev elem, update (update l.prev elem prev) next elem⟩

/-- `ucs_list_insert_before`. -/
def ucsListInsertBefore (l : UcsListLinks E) (pos newLink : E) : UcsListLinks E :=
  ucsListInsertReplace l (l.prev pos) pos newLink

/-- `ucs_list_del`: the second store reads `elem->next` after the first one. -/
def ucsListDel (l : UcsListLinks E) (elem : E) : UcsListLinks E :=
  let next := update l.next (l.prev elem) (l.next elem)
  ⟨next, update l.prev (next elem) (l.prev elem)⟩

/-- `ucs_list_is_empty`. -/
def ucsListIsEmpty (l : UcsListLinks E) (head : E) : Bool := l.next head == head

/-- `ucs_hlist_add_common`; the head is `head->ptr`, `none` for NULL. -/
def ucsHlistAddCommon (head : Option E) (l : UcsListLinks E) (elem : E) (setHeadToElem : Bool) :
    Option E × UcsListLinks E :=
  match head with
  | none => (some elem, ucsListHeadInit l elem)
  | some ptr => (if setHeadToElem then some elem else some ptr, ucsListInsertBefore l ptr elem)

/-- `ucs_hlist_add_tail`. -/
def ucsHlistAddTail (head : Option E) (l : UcsListLinks E) (elem : E) :
    Option E × UcsListLinks E :=
  ucsHlistAddCommon head l elem false

/-- `ucs_hlist_del_common`. -/
def ucsHlistDelCommon (head : Option E) (l : UcsListLinks E) (elem : E) (isHead : Bool) :
    Option E × UcsListLinks E :=
  if ucsListIsEmpty l elem then (none, l)
  else (if isHead then some (l.next elem) else head, ucsListDel l elem)

/-- `ucs_hlist_del`. -/
def ucsHlistDel (head : Option E) (l : UcsListLinks E) (elem : E) : Option E × UcsListLinks E :=
  ucsHlistDelCommon head l elem (head == some elem)

/-- The walk of `ucs_hlist_for_each` from `cur` until the body returns at an element that `p`
accepts, or until `next` is back at the first element `ptr`; `fuel` bounds the steps. -/
def hlistFindFrom (next : E → E) (ptr : E) (p : E → Bool) : ℕ → E → Option E
  | 0, _ => none
  | fuel + 1, cur =>
    if p cur then some cur else if next cur = ptr then none else hlistFindFrom next ptr p fuel (next cur)

/-- A `ucs_hlist_for_each` loop whose body returns the first element that `p` accepts. -/
def ucsHlistFind (head : Option E) (l : UcsListLinks E) (p : E → Bool) (fuel : ℕ) : Option E :=
  match head with
  | none => none
  | some ptr => hlistFindFrom l.next ptr p fuel ptr

/-- The detached-head list `head` holds the elements `q`, in order. -/
structure HlistRepr (head : Option E) (l : UcsListLinks E) (q : List E) : Prop where
  head : head = q.head?
  ring : IsDCycle l.next l.prev q
  nodup : q.Nodup

omit [DecidableEq E] in
/-- Only the links of a list's own elements matter to it. -/
theorem HlistRepr.congr {head : Option E} {l l' : UcsListLinks E} {q : List E}
    (h : HlistRepr head l q) (hl : ∀ x ∈ q, l'.next x = l.next x ∧ l'.prev x = l.prev x) :
    HlistRepr head l' q :=
  ⟨h.head, h.ring.congr (fun x hx => (hl x hx).1) (fun x hx => (hl x hx).2), h.nodup⟩

omit [DecidableEq E] in
theorem hlistRepr_none {l : UcsListLinks E} {q : List E} : HlistRepr none l q ↔ q = [] := by
  constructor
  · intro h
    exact List.head?_eq_none_iff.1 h.head.symm
  · rintro rfl
    exact ⟨rfl, ⟨isCycle_nil, isCycle_nil⟩, List.nodup_nil⟩

/-! ### Adding at the tail -/

section AddTail

variable {head : Option E} {l : UcsListLinks E} {q : List E} {elem : E}

/-- `ucs_hlist_add_tail` appends: an empty list becomes a ring of one, and otherwise the
element goes in before the first one, that is after the last. -/
theorem HlistRepr.addTail (h : HlistRepr head l q) (he : elem ∉ q) :
    HlistRepr (ucsHlistAddTail head l elem).1 (ucsHlistAddTail head l elem).2 (q ++ [elem]) := by
  rcases head with _ | a
  · obtain rfl := hlistRepr_none.1 h
    exact ⟨rfl, isDCycle_singleton.2 ⟨update_self .., update_self ..⟩, List.nodup_singleton _⟩
  · have ha : q.head? = some a := h.head.symm
    obtain ⟨t, ht⟩ := exists_getLast?_of_head? ha
    have hring := h.ring.insertBefore ha ht h.nodup he
    refine ⟨?_, ?_, List.nodup_append.2 ⟨h.nodup, List.nodup_singleton _, ?_⟩⟩
    · simp [ucsHlistAddTail, ucsHlistAddCommon, ha, List.head?_append]
    · simpa [ucsHlistAddTail, ucsHlistAddCommon, ucsListInsertBefore, ucsListInsertReplace,
        h.ring.prev_first ha ht] using hring
    · rintro x hx y hy rfl
      exact he (List.mem_singleton.1 hy ▸ hx)

/-- `ucs_hlist_add_tail` writes only the links of the list's elements and the new one. -/
theorem HlistRepr.addTail_links (h : HlistRepr head l q) {x : E} (hx : x ∉ q) (hxe : x ≠ elem) :
    (ucsHlistAddTail head l elem).2.next x = l.next x ∧
      (ucsHlistAddTail head l elem).2.prev x = l.prev x := by
  rcases head with _ | ptr
  · simp [ucsHlistAddTail, ucsHlistAddCommon, ucsListHeadInit, hxe]
  · -- the links written are those of `elem`, of the first element and of the last one
    have hptr : ptr ∈ q := List.mem_of_mem_head? h.head.symm
    have hne : x ≠ ptr := by rintro rfl; exact hx hptr
    have hprev : l.prev ptr ∈ q := by
      obtain ⟨t, ht⟩ := exists_getLast?_of_head? h.head.symm
      rw [h.ring.prev_first h.head.symm ht]
      exact List.mem_of_getLast? ht
    have hne' : x ≠ l.prev ptr := by rintro rfl; exact hx hprev
    simp [ucsHlistAddTail, ucsHlistAddCommon, ucsListInsertBefore, ucsListInsertReplace,
      update_of_ne hxe, update_of_ne hne, update_of_ne hne']

end AddTail

/-! ### Deleting -/

section Del

variable {head : Option E} {l : UcsListLinks E} {elem : E}

/-- Deleting from a list of two or more: with `a` and `t` the first and last elements of the
rest of the ring read from `elem` on, they become neighbours, and the head moves to `a` when
`elem` was the first element. -/
theorem HlistRepr.del_eq {l₁ l₂ : List E} {a t : E} (h : HlistRepr head l (l₁ ++ elem :: l₂))
    (ha : (l₂ ++ l₁).head? = some a) (ht : (l₂ ++ l₁).getLast? = some t) :
    ucsHlistDel head l elem =
      (if l₁ = [] then some a else head, ⟨update l.next t a, update l.prev a t⟩) := by
  obtain ⟨hnext, hprev, -⟩ := h.ring.unlink h.nodup ha ht
  have hnd : elem ∉ l₂ ++ l₁ := by
    have := (List.nodup_cons.1 (List.nodup_middle.1 h.nodup)).1
    simpa [or_comm] using this
  have hae : a ≠ elem := by
    rintro rfl
    exact hnd (List.mem_of_mem_head? ha)
  -- whether `elem` is the head is whether nothing stands before it
  have hhead : (head == some elem) = decide (l₁ = []) := by
    rw [h.head]
    rcases l₁ with _ | ⟨b, l₁⟩
    · simp
    · have hb : b ≠ elem := by
        rintro rfl
        exact List.not_nodup_cons_of_mem (by simp) h.nodup
      simp [hb]
  -- the second store reads `elem->next` back as `a`, whether or not `t` is `elem`
  have hnext' : update l.next t a elem = a := by
    by_cases hte : elem = t
    · rw [hte, update_self]
    · rw [update_of_ne hte, hnext]
  simp only [ucsHlistDel, ucsHlistDelCommon, ucsListIsEmpty, hnext, beq_iff_eq, hae, if_false,
    hhead, decide_eq_true_eq, ucsListDel, hprev, hnext']

/-- `ucs_hlist_del` of a member erases it. -/
theorem HlistRepr.del {q : List E} (h : HlistRepr head l q) (he : elem ∈ q) :
    HlistRepr (ucsHlistDel head l elem).1 (ucsHlistDel head l elem).2 (q.erase elem) := by
  obtain ⟨l₁, l₂, rfl⟩ := List.append_of_mem he
  have hnd := h.nodup
  have hl₁ : elem ∉ l₁ := fun hmem => (List.nodup_append.1 hnd).2.2 elem hmem elem (by simp) rfl
  rw [List.erase_append_right _ hl₁, List.erase_cons_head]
  rcases hrest : l₂ ++ l₁ with _ | ⟨a, rest⟩
  · -- the last element: `elem->next` is `elem` and the head becomes NULL
    obtain ⟨rfl, rfl⟩ := List.append_eq_nil_iff.1 hrest
    have hself : l.next elem = elem := (isDCycle_singleton.1 h.ring).1
    simpa [ucsHlistDel, ucsHlistDelCommon, ucsListIsEmpty, hself] using
      (hlistRepr_none (l := l)).2 rfl
  · have ha : (l₂ ++ l₁).head? = some a := by rw [hrest]; rfl
    obtain ⟨t, ht⟩ := exists_getLast?_of_head? ha
    obtain ⟨-, -, hring⟩ := h.ring.unlink h.nodup ha ht
    rw [h.del_eq ha ht]
    refine ⟨?_, hring, ((List.sublist_cons_self elem l₂).append_left l₁).nodup hnd⟩
    rw [h.head]
    rcases l₁ with _ | ⟨b, l₁⟩
    · simpa using ha.symm
    · simp

/-- `ucs_hlist_del` writes only the links of the list's elements. -/
theorem HlistRepr.del_links {q : List E} (h : HlistRepr head l q) (he : elem ∈ q) {x : E}
    (hx : x ∉ q) :
    (ucsHlistDel head l elem).2.next x = l.next x ∧
      (ucsHlistDel head l elem).2.prev x = l.prev x := by
  obtain ⟨l₁, l₂, rfl⟩ := List.append_of_mem he
  rcases hrest : l₂ ++ l₁ with _ | ⟨a, rest⟩
  · obtain ⟨rfl, rfl⟩ := List.append_eq_nil_iff.1 hrest
    have hself : l.next elem = elem := (isDCycle_singleton.1 h.ring).1
    simp [ucsHlistDel, ucsHlistDelCommon, ucsListIsEmpty, hself]
  · have ha : (l₂ ++ l₁).head? = some a := by rw [hrest]; rfl
    obtain ⟨t, ht⟩ := exists_getLast?_of_head? ha
    have hx' : x ∉ l₂ ++ l₁ := fun hmem => hx (by simp at hmem ⊢; tauto)
    have hxa : x ≠ a := fun hxa => hx' (hxa ▸ List.mem_of_mem_head? ha)
    have hxt : x ≠ t := fun hxt => hx' (hxt ▸ List.mem_of_getLast? ht)
    rw [h.del_eq ha ht]
    exact ⟨update_of_ne hxt .., update_of_ne hxa ..⟩

end Del

/-! ### Walking -/

section Find

variable (p : E → Bool)

/-- From `cur`, along a chain of `next` pointers that ends at `ptr`, the walk finds what
`List.find?` finds. -/
theorem hlistFindFrom_eq {next : E → E} {ptr : E} :
    ∀ (rest : List E) (cur : E) (fuel : ℕ), (cur :: rest ++ [ptr]).IsChain (fun x y => next x = y) →
      ptr ∉ rest → rest.length < fuel → hlistFindFrom next ptr p fuel cur = (cur :: rest).find? p
  | _, _, 0, _, _, hfuel => absurd hfuel (Nat.not_lt_zero _)
  | [], cur, fuel + 1, hchain, _, _ => by
    have hnext : next cur = ptr := by simpa using hchain
    simp [hlistFindFrom, hnext]
  | b :: rest, cur, fuel + 1, hchain, hptr, hfuel => by
    simp only [List.cons_append, List.isChain_cons_cons] at hchain
    have hb : b ≠ ptr := fun hb => hptr (hb ▸ List.mem_cons_self)
    have ih := hlistFindFrom_eq rest b fuel (by simpa using hchain.2)
      (fun hmem => hptr (List.mem_cons_of_mem b hmem)) (by simp at hfuel; omega)
    rw [hlistFindFrom, hchain.1, if_neg hb, ih]
    cases hc : p cur <;> simp [List.find?_cons_of_pos, List.find?_cons_of_neg, hc]

/-- With fuel for the whole list, the loop finds the first element that `p` accepts. -/
theorem HlistRepr.find {head : Option E} {l : UcsListLinks E} {q : List E}
    (h : HlistRepr head l q) {fuel : ℕ} (hfuel : q.length ≤ fuel) :
    ucsHlistFind head l p fuel = q.find? p := by
  rcases q with _ | ⟨ptr, rest⟩
  · rw [h.head]
    rfl
  · rw [h.head]
    have hchain := isCycle_cons.1 h.ring.1
    exact hlistFindFrom_eq p rest ptr fuel (by simpa using hchain)
      (List.nodup_cons.1 h.nodup).1 (by simp at hfuel; omega)

end Find

end UcxProofs.Hlist
