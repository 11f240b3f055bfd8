import Mathlib.Data.List.Chain
import Mathlib.Data.List.Nodup
import Mathlib.Logic.Function.Basic

/-!
Lists laid out as a cycle of `next` pointers.

A singly linked ring stores only a successor function; `IsCycle next q` says that following
`next` from the first element of `q` visits `q` in order and comes back to it. The lemmas
describe the pointer updates of the usual ring operations: appending after the tail, putting an
element in front of the first one, replacing the first element, and unlinking an element.
-/

namespace CycleList

open Function

variable {α : Type*} {f f' : α → α}

/-- Each element's `next` is the one after it, and the last one's is the first. -/
def IsCycle (f : α → α) (q : List α) : Prop :=
  (q ++ q.take 1).IsChain fun x y => f x = y

theorem isChain_append_singleton_congr {l : List α} {t : α}
    (h : (l ++ [t]).IsChain fun x y => f x = y) (hf : ∀ x ∈ l, f' x = f x) :
    (l ++ [t]).IsChain fun x y => f' x = y := by
  induction l with
  | nil => exact List.isChain_singleton t
  | cons a l ih =>
    rcases l with _ | ⟨b, l⟩
    · simp only [List.nil_append, List.cons_append, List.isChain_cons_cons] at h ⊢
      exact ⟨(hf a (by simp)).trans h.1, List.isChain_singleton t⟩
    · simp only [List.cons_append, List.isChain_cons_cons] at h ⊢
      refine ⟨(hf a (by simp)).trans h.1, ?_⟩
      exact ih h.2 fun x hx => hf x (List.mem_cons_of_mem a hx)

@[simp] theorem isCycle_nil : IsCycle f [] := List.isChain_nil

theorem isCycle_cons {a : α} {l : List α} :
    IsCycle f (a :: l) ↔ (a :: l ++ [a]).IsChain fun x y => f x = y := by
  simp [IsCycle]

theorem isCycle_singleton {a : α} : IsCycle f [a] ↔ f a = a := by
  simp [IsCycle]

theorem IsCycle.congr {q : List α} (h : IsCycle f q) (hf : ∀ x ∈ q, f' x = f x) :
    IsCycle f' q := by
  rcases q with _ | ⟨a, l⟩
  · exact isCycle_nil
  · exact isCycle_cons.mpr (isChain_append_singleton_congr (isCycle_cons.mp h) hf)

theorem IsCycle.update_of_not_mem [DecidableEq α] {q : List α} {x v : α} (h : IsCycle f q)
    (hx : x ∉ q) : IsCycle (update f x v) q :=
  h.congr fun y hy => update_of_ne (by rintro rfl; exact hx hy) v f

/-- A cycle is a chain closed by one more edge. -/
theorem isCycle_append_singleton {p : List α} {t a : α} (ha : (p ++ [t]).head? = some a) :
    IsCycle f (p ++ [t]) ↔ (p ++ [t]).IsChain (fun x y => f x = y) ∧ f t = a := by
  have htake : (p ++ [t]).take 1 = [a] := by
    rcases p with _ | ⟨b, p⟩ <;> simp_all
  rw [IsCycle, htake, List.isChain_append]
  simp

theorem isCycle_cons_iff_append {a : α} {l : List α} :
    IsCycle f (a :: l) ↔ IsCycle f (l ++ [a]) := by
  rcases l with _ | ⟨b, l⟩
  · rfl
  · rw [isCycle_cons, isCycle_append_singleton (a := b) (by simp)]
    simp only [List.cons_append, List.isChain_cons_cons]
    constructor
    · rintro ⟨hab, hc⟩
      exact ⟨hc, hab⟩
    · rintro ⟨hc, hab⟩
      exact ⟨hab, hc⟩

/-- Cycles are invariant under rotation. -/
theorem isCycle_append_comm {l₁ l₂ : List α} : IsCycle f (l₁ ++ l₂) ↔ IsCycle f (l₂ ++ l₁) := by
  induction l₁ generalizing l₂ with
  | nil => simp
  | cons a l₁ ih =>
    rw [List.cons_append, isCycle_cons_iff_append, List.append_assoc, ih]
    simp

theorem IsCycle.next_last {p : List α} {t a : α} (h : IsCycle f (p ++ [t]))
    (ha : (p ++ [t]).head? = some a) : f t = a :=
  ((isCycle_append_singleton ha).mp h).2

theorem IsCycle.isChain {p : List α} {t : α} (h : IsCycle f (p ++ [t])) :
    (p ++ [t]).IsChain fun x y => f x = y := by
  obtain ⟨a, ha⟩ : ∃ a, (p ++ [t]).head? = some a := by
    rcases p with _ | ⟨b, p⟩ <;> simp
  exact ((isCycle_append_singleton ha).mp h).1

/-- Inside a cycle each element's successor is the element after it. -/
theorem IsCycle.next_of_append {l₁ l₂ : List α} {x y : α} (h : IsCycle f (l₁ ++ x :: y :: l₂)) :
    f x = y := by
  unfold IsCycle at h
  rw [List.append_assoc] at h
  have hc := (List.isChain_append.mp h).2.1
  rw [List.cons_append, List.cons_append, List.isChain_cons_cons] at hc
  exact hc.1

variable [DecidableEq α]

/-- Pushing `e` after the tail `t`: `e` points at the first element and `t` at `e`. -/
theorem IsCycle.push {p : List α} {t a e : α} (h : IsCycle f (p ++ [t]))
    (ha : (p ++ [t]).head? = some a) (ht : t ∉ p) (he : e ∉ p ++ [t]) :
    IsCycle (update (update f e a) t e) (p ++ [t] ++ [e]) := by
  have hte : t ≠ e := by rintro rfl; simp at he
  rw [isCycle_append_singleton (a := a) (by rcases p with _ | ⟨b, p⟩ <;> simp_all),
    List.isChain_append]
  refine ⟨⟨?_, List.isChain_singleton e, ?_⟩, ?_⟩
  · -- the chain through `p ++ [t]` reads `next` only at `p`, where nothing changed
    refine isChain_append_singleton_congr h.isChain fun x hx => ?_
    have hxt : x ≠ t := by rintro rfl; exact ht hx
    have hxe : x ≠ e := by rintro rfl; exact he (by simp [hx])
    rw [update_of_ne hxt, update_of_ne hxe]
  · intro x hx y hy
    simp at hx hy
    subst hx hy
    rw [update_self]
  · rw [update_of_ne hte.symm, update_self]

/-- Pushing `e` in front of the first element `a`: the same two pointers as `push`. -/
theorem IsCycle.pushHead {p : List α} {t a e : α} (h : IsCycle f (p ++ [t]))
    (ha : (p ++ [t]).head? = some a) (ht : t ∉ p) (he : e ∉ p ++ [t]) :
    IsCycle (update (update f e a) t e) (e :: (p ++ [t])) :=
  isCycle_cons_iff_append.mpr (h.push ha ht he)

/-- Unlinking the last element `x`: its predecessor `t` takes over `x`'s `next`. -/
theorem IsCycle.unlink_last {p : List α} {t x : α} (h : IsCycle f (p ++ [t] ++ [x]))
    (ht : t ∉ p) : IsCycle (update f t (f x)) (p ++ [t]) := by
  obtain ⟨a, ha⟩ : ∃ a, (p ++ [t]).head? = some a := by
    rcases p with _ | ⟨b, p⟩ <;> simp
  have ha' : (p ++ [t] ++ [x]).head? = some a := by
    rcases p with _ | ⟨b, p⟩ <;> simp_all
  obtain ⟨hc, hx⟩ := (isCycle_append_singleton ha').mp h
  rw [isCycle_append_singleton ha]
  refine ⟨isChain_append_singleton_congr (List.isChain_append.mp hc).1 fun y hy => ?_, ?_⟩
  · exact update_of_ne (by rintro rfl; exact ht hy) _ _
  · rw [update_self, hx]

/-- Unlinking `x` from anywhere in a cycle: its cyclic predecessor `t` takes over `x`'s
`next`. -/
theorem IsCycle.unlink {l₁ l₂ p : List α} {t x : α} (h : IsCycle f (l₁ ++ x :: l₂))
    (hp : l₂ ++ l₁ = p ++ [t]) (ht : t ∉ p) : IsCycle (update f t (f x)) (l₁ ++ l₂) := by
  rw [isCycle_append_comm] at h ⊢
  rw [hp]
  have h' : IsCycle f (p ++ [t] ++ [x]) := by
    rw [← hp]
    exact isCycle_cons_iff_append.mp (by simpa using h)
  exact h'.unlink_last ht

/-- Replacing the first element `a` by `b`: `b` takes over `a`'s `next` and the tail `t` points
at `b`. -/
theorem IsCycle.replaceHead {p : List α} {a b t : α} (h : IsCycle f (a :: (p ++ [t])))
    (ht : t ∉ p) (hb : b ∉ p ++ [t]) :
    IsCycle (update (update f b (f a)) t b) (b :: (p ++ [t])) := by
  have h₁ : IsCycle (update f t (f a)) (p ++ [t]) :=
    (isCycle_cons_iff_append.mp h).unlink_last ht
  obtain ⟨c, hc⟩ : ∃ c, (p ++ [t]).head? = some c := by
    rcases p with _ | ⟨d, p⟩ <;> simp
  have hfa : f a = c := by
    have := (isCycle_cons.mp h)
    rcases p with _ | ⟨d, p⟩ <;> simp_all [List.isChain_cons_cons]
  have hbt : b ≠ t := by rintro rfl; simp at hb
  -- unlinking `a` and pushing `b` in front set the same two pointers
  have e : update (update (update f t (f a)) b c) t b = update (update f b (f a)) t b := by
    funext x
    by_cases hxt : x = t <;> by_cases hxb : x = b <;> simp_all
  rw [← e]
  exact h₁.pushHead hc ht hb

/-! ### Rings linked both ways -/

section DCycle

variable {next prev : α → α}

/-- A ring linked both ways: `next` goes round `q` in order and `prev` in reverse. -/
def IsDCycle (next prev : α → α) (q : List α) : Prop := IsCycle next q ∧ IsCycle prev q.reverse

omit [DecidableEq α] in
theorem isDCycle_singleton {a : α} : IsDCycle next prev [a] ↔ next a = a ∧ prev a = a := by
  simp [IsDCycle, isCycle_singleton]

omit [DecidableEq α] in
theorem IsDCycle.congr {next' prev' : α → α} {q : List α} (h : IsDCycle next prev q)
    (hn : ∀ x ∈ q, next' x = next x) (hp : ∀ x ∈ q, prev' x = prev x) :
    IsDCycle next' prev' q :=
  ⟨h.1.congr hn, h.2.congr fun x hx => hp x (List.mem_reverse.1 hx)⟩

omit [DecidableEq α] in
theorem exists_eq_append_of_getLast? {l : List α} {x : α} (h : l.getLast? = some x) :
    ∃ p, l = p ++ [x] :=
  ⟨l.dropLast, (List.dropLast_append_getLast? x h).symm⟩

omit [DecidableEq α] in
theorem exists_getLast?_of_head? {l : List α} {a : α} (h : l.head? = some a) :
    ∃ t, l.getLast? = some t := by
  rcases l with _ | ⟨b, l⟩
  · simp at h
  · exact ⟨_, List.getLast?_eq_some_getLast (List.cons_ne_nil b l)⟩

omit [DecidableEq α] in
theorem not_mem_of_nodup_append_singleton {p : List α} {x : α} (h : (p ++ [x]).Nodup) :
    x ∉ p := by
  rw [List.nodup_append] at h
  exact fun hx => h.2.2 x hx x (List.mem_singleton_self x) rfl

omit [DecidableEq α] in
/-- The backward ring read as a list from the last element `t` to the first one `a`. -/
theorem IsDCycle.reverse_eq {q : List α} {a : α} (h : IsDCycle next prev q)
    (ha : q.head? = some a) : ∃ p', q.reverse = p' ++ [a] ∧ IsCycle prev (p' ++ [a]) := by
  obtain ⟨p', hp'⟩ := exists_eq_append_of_getLast?
    (show q.reverse.getLast? = some a by rw [List.getLast?_reverse]; exact ha)
  exact ⟨p', hp', hp' ▸ h.2⟩

omit [DecidableEq α] in
/-- The first element's `prev` is the last element. -/
theorem IsDCycle.prev_first {q : List α} {a t : α} (h : IsDCycle next prev q)
    (ha : q.head? = some a) (ht : q.getLast? = some t) : prev a = t := by
  obtain ⟨p', hp', hrev⟩ := h.reverse_eq ha
  have hhead' : (p' ++ [a]).head? = some t := by
    rw [← hp', List.head?_reverse]
    exact ht
  exact hrev.next_last hhead'

/-- Inserting `e` after the last element `t`, before the first element `a`: `e` takes `a`
and `t` as its neighbours. -/
theorem IsDCycle.insertBefore {q : List α} {a t e : α} (h : IsDCycle next prev q)
    (ha : q.head? = some a) (ht : q.getLast? = some t) (hnd : q.Nodup) (he : e ∉ q) :
    IsDCycle (update (update next e a) t e) (update (update prev e t) a e) (q ++ [e]) := by
  obtain ⟨p, rfl⟩ := exists_eq_append_of_getLast? ht
  obtain ⟨p', hp', hrev⟩ := h.reverse_eq ha
  have hnd' : (p' ++ [a]).Nodup := hp' ▸ List.nodup_reverse.2 hnd
  have hhead' : (p' ++ [a]).head? = some t := by
    rw [← hp', List.head?_reverse]
    exact ht
  have he' : e ∉ p' ++ [a] := by
    rw [← hp', List.mem_reverse]
    exact he
  refine ⟨h.1.push ha (not_mem_of_nodup_append_singleton hnd) he, ?_⟩
  -- backwards, `e` comes in front of the last element
  show IsCycle _ (p ++ [t] ++ [e]).reverse
  rw [List.reverse_append, List.reverse_singleton, List.singleton_append, hp']
  exact hrev.pushHead hhead' (not_mem_of_nodup_append_singleton hnd') he'

/-- Unlinking `e` from a ring of two or more: its neighbours, the first and last elements `a`
and `t` of the rest of the ring read from `e` on, point at each other. -/
theorem IsDCycle.unlink {l₁ l₂ : List α} {e a t : α} (h : IsDCycle next prev (l₁ ++ e :: l₂))
    (hnd : (l₁ ++ e :: l₂).Nodup) (ha : (l₂ ++ l₁).head? = some a)
    (ht : (l₂ ++ l₁).getLast? = some t) :
    next e = a ∧ prev e = t ∧ IsDCycle (update next t a) (update prev a t) (l₁ ++ l₂) := by
  -- read from `e` on, the ring is `e` followed by the rest
  have hnd₂ : (e :: (l₂ ++ l₁)).Nodup := by
    have := hnd
    rw [List.nodup_append_comm] at this
    simpa using this
  obtain ⟨p, hp⟩ := exists_eq_append_of_getLast? ht
  obtain ⟨p', hp'⟩ := exists_eq_append_of_getLast?
    (show (l₂ ++ l₁).reverse.getLast? = some a by rw [List.getLast?_reverse]; exact ha)
  have hnext : next e = a := by
    have hc : IsCycle next (e :: (l₂ ++ l₁)) := by
      have := isCycle_append_comm.1 h.1
      simpa using this
    obtain ⟨r, hr⟩ : ∃ r, l₂ ++ l₁ = a :: r := by
      rcases hl : l₂ ++ l₁ with _ | ⟨b, r⟩
      · simp [hl] at ha
      · simp only [hl, List.head?_cons, Option.some.injEq] at ha
        exact ⟨r, by rw [ha]⟩
    rw [hr] at hc
    exact (show IsCycle next ([] ++ e :: a :: r) from hc).next_of_append
  have hprev : prev e = t := by
    have hc : IsCycle prev (e :: (l₂ ++ l₁).reverse) := by
      have h₂ : IsCycle prev (l₂.reverse ++ e :: l₁.reverse) := by
        simpa [List.reverse_append] using h.2
      have := isCycle_append_comm.1 h₂
      simpa [List.reverse_append] using this
    obtain ⟨r, hr⟩ : ∃ r, (l₂ ++ l₁).reverse = t :: r := by
      rw [hp]
      exact ⟨p.reverse, by simp⟩
    rw [hr] at hc
    exact (show IsCycle prev ([] ++ e :: t :: r) from hc).next_of_append
  have htp : t ∉ p := not_mem_of_nodup_append_singleton (hp ▸ hnd₂.of_cons)
  have hap' : a ∉ p' := not_mem_of_nodup_append_singleton
    (hp' ▸ List.nodup_reverse.2 hnd₂.of_cons)
  refine ⟨hnext, hprev, ?_, ?_⟩
  · rw [← hnext]
    exact h.1.unlink hp htp
  · -- backwards the rest reads `l₁.reverse ++ l₂.reverse`, whose last element is `a`
    have h₂ : IsCycle prev (l₂.reverse ++ e :: l₁.reverse) := by
      simpa [List.reverse_append] using h.2
    have hp₂ : l₁.reverse ++ l₂.reverse = p' ++ [a] := by
      rw [← hp', List.reverse_append]
    have := h₂.unlink hp₂ hap'
    rw [hprev] at this
    simpa [List.reverse_append] using this

end DCycle

end CycleList
