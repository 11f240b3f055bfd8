import Mathlib.Data.List.Nodup
import UcxProofs.Lib.Lists
import UcxProofs.ArbiterSpec

/-!
The arbiter's heap represents a scheduler state.

`RingsRepr` reads the groups: each group's tail and `next` pointers form a ring that holds
exactly its queue in order, every queued element's `group` names its group and a free
element's is NULL. `SchedRepr` reads the scheduling: the arbiter's list holds the heads of the
scheduled groups in order, a dispatch's resched list those of the groups it set aside, and a
group's head is linked exactly when the group is in one of them. While group `cur` is
dispatched its ring has the dispatch dummy in front. This module proves that the operations
outside dispatch keep the representation and act on the scheduler as `ArbiterSpec` says.
-/

namespace UcxProofs.Arbiter

open Function CycleList UcsArbiter

namespace ArbiterSpec

variable (a : ArbiterSpec) (cur : Option ℕ)

/-- Group `g`'s ring as the heap should hold it. -/
def ringOf (g : ℕ) : List Ptr :=
  (if cur = some g then [.dispatchDummy] else []) ++ (a.queues g).map .elem

/-- The pointer at the front of group `g`'s ring. -/
def headOf (g : ℕ) : Ptr := (a.ringOf cur g).headD .dispatchDummy

end ArbiterSpec

open ArbiterSpec

structure RingsRepr (s : UcsArbiter) (a : ArbiterSpec) (cur : Option ℕ) : Prop where
  tail : ∀ g, s.tail g = (a.ringOf cur g).getLast?
  cycle : ∀ g, IsCycle s.next (a.ringOf cur g)
  nodup : ∀ g, (a.queues g).Nodup
  group : ∀ e g, s.group (.elem e) = some g ↔ e ∈ a.queues g

structure SchedRepr (s : UcsArbiter) (a : ArbiterSpec) (cur : Option ℕ) (resched : List ℕ)
    (reschedList : List Ptr) : Prop where
  list : s.list = a.sched.map (a.headOf cur)
  reschedList : reschedList = resched.map (a.headOf cur)
  nodup : (a.sched ++ resched).Nodup
  nonempty : ∀ g ∈ a.sched ++ resched, a.ringOf cur g ≠ []
  linked : ∀ g, a.ringOf cur g ≠ [] →
    (s.listLinked (a.headOf cur g) = true ↔ g ∈ a.sched ++ resched)

/-- The arbiter outside any dispatch represents `a`. -/
def Represents (s : UcsArbiter) (a : ArbiterSpec) : Prop :=
  RingsRepr s a none ∧ SchedRepr s a none [] []

namespace ArbiterSpec

variable (a : ArbiterSpec) (cur : Option ℕ) {g g' e : ℕ}

@[simp] lemma ringOf_none : a.ringOf none g = (a.queues g).map .elem := by simp [ringOf]

lemma ringOf_self : a.ringOf (some g) g = .dispatchDummy :: (a.queues g).map .elem := by
  simp [ringOf]

@[simp] lemma elem_mem_ringOf : .elem e ∈ a.ringOf cur g ↔ e ∈ a.queues g := by
  unfold ringOf; split <;> simp

@[simp] lemma dispatchDummy_mem_ringOf : .dispatchDummy ∈ a.ringOf cur g ↔ cur = some g := by
  unfold ringOf; split <;> simp_all

@[simp] lemma purgeDummy_not_mem_ringOf : .purgeDummy ∉ a.ringOf cur g := by
  unfold ringOf; split <;> simp

lemma ringOf_eq_nil : a.ringOf cur g = [] ↔ cur ≠ some g ∧ a.queues g = [] := by
  unfold ringOf; split <;> simp_all

lemma ringOf_nodup (h : (a.queues g).Nodup) : (a.ringOf cur g).Nodup := by
  unfold ringOf
  split
  · simp only [List.singleton_append, List.nodup_cons, List.mem_map, reduceCtorEq, and_false,
      exists_false, not_false_eq_true, true_and]
    exact List.Nodup.map (fun _ _ h => UcsArbiterElemPtr.elem.inj h) h
  · simpa using List.Nodup.map (fun _ _ h => UcsArbiterElemPtr.elem.inj h) h

lemma ringOf_update_self {q : List ℕ} {l : List ℕ} :
    ({ queues := update a.queues g q, sched := l } : ArbiterSpec).ringOf cur g =
      (if cur = some g then [.dispatchDummy] else []) ++ q.map .elem := by
  simp [ringOf]

lemma ringOf_update_of_ne {q : List ℕ} {l : List ℕ} (hg : g' ≠ g) :
    ({ queues := update a.queues g q, sched := l } : ArbiterSpec).ringOf cur g' =
      a.ringOf cur g' := by
  simp [ringOf, hg]

@[simp] lemma ringOf_with_sched (l : List ℕ) :
    ({ a with sched := l } : ArbiterSpec).ringOf cur = a.ringOf cur := rfl

@[simp] lemma headOf_with_sched (l : List ℕ) :
    ({ a with sched := l } : ArbiterSpec).headOf cur = a.headOf cur := rfl

lemma headOf_update_of_ne {q : List ℕ} {l : List ℕ} (hg : g' ≠ g) :
    ({ queues := update a.queues g q, sched := l } : ArbiterSpec).headOf cur g' =
      a.headOf cur g' := by
  rw [headOf, ringOf_update_of_ne a cur hg, headOf]

lemma headOf_mem (h : a.ringOf cur g ≠ []) : a.headOf cur g ∈ a.ringOf cur g := by
  unfold headOf
  rcases hr : a.ringOf cur g with _ | ⟨x, l⟩
  · exact absurd hr h
  · simp

lemma headOf_of_append {a' : ArbiterSpec} {l : List Ptr} (h : a.ringOf cur g ≠ [])
    (h' : a'.ringOf cur g = a.ringOf cur g ++ l) : a'.headOf cur g = a.headOf cur g := by
  unfold headOf
  rw [h']
  rcases hr : a.ringOf cur g with _ | ⟨x, l⟩
  · exact absurd hr h
  · simp

end ArbiterSpec

namespace RingsRepr

variable {s : UcsArbiter} {a : ArbiterSpec} {cur : Option ℕ} (h : RingsRepr s a cur)
include h

lemma eq_of_mem {x : Ptr} {g₁ g₂ : ℕ} (h₁ : x ∈ a.ringOf cur g₁) (h₂ : x ∈ a.ringOf cur g₂) :
    g₁ = g₂ := by
  rcases x with e | _ | _
  · rw [elem_mem_ringOf] at h₁ h₂
    exact Option.some.inj (((h.group e g₁).mpr h₁).symm.trans ((h.group e g₂).mpr h₂))
  · rw [dispatchDummy_mem_ringOf] at h₁ h₂
    exact Option.some.inj (h₁.symm.trans h₂)
  · exact absurd h₁ (purgeDummy_not_mem_ringOf a cur)

lemma group_eq_none_iff {e : ℕ} : s.group (.elem e) = none ↔ ¬ a.Queued e := by
  constructor
  · rintro hn ⟨g, hg⟩
    rw [(h.group e g).mpr hg] at hn
    cases hn
  · intro hq
    by_contra hs
    obtain ⟨g, hg⟩ := Option.ne_none_iff_exists'.mp hs
    exact hq ⟨g, (h.group e g).mp hg⟩

lemma ringOf_eq_nil_iff {g : ℕ} : a.ringOf cur g = [] ↔ s.tail g = none := by
  rw [h.tail g, List.getLast?_eq_none_iff]

lemma ringOf_eq_append {g : ℕ} {t : Ptr} (ht : s.tail g = some t) :
    ∃ p, a.ringOf cur g = p ++ [t] ∧ t ∉ p := by
  rw [h.tail g] at ht
  obtain ⟨p, hp⟩ := List.getLast?_eq_some_iff.mp ht
  refine ⟨p, hp, fun htp => ?_⟩
  have hnd := ringOf_nodup a cur (h.nodup g)
  rw [hp] at hnd
  exact (List.nodup_append.mp hnd).2.2 t htp t (by simp) rfl

/-- The tail's `next` is the group's head. -/
lemma next_tail {g : ℕ} {t : Ptr} (ht : s.tail g = some t) : s.next t = a.headOf cur g := by
  obtain ⟨p, hp, -⟩ := h.ringOf_eq_append ht
  obtain ⟨hd, hhd⟩ : ∃ hd, (p ++ [t]).head? = some hd := by
    rcases p with _ | ⟨x, p⟩ <;> simp
  have hc : IsCycle s.next (p ++ [t]) := hp ▸ h.cycle g
  rw [hc.next_last hhd, headOf, hp]
  rcases p with _ | ⟨x, p⟩ <;> simp_all

/-- Two groups' heads differ: the rings do not share a pointer. -/
lemma headOf_ne {g g' : ℕ} (hr : a.ringOf cur g ≠ []) (hr' : a.ringOf cur g' ≠ [])
    (hg : g' ≠ g) : a.headOf cur g' ≠ a.headOf cur g := fun he =>
  hg (h.eq_of_mem (headOf_mem a cur hr') (he ▸ headOf_mem a cur hr))

lemma group_isSome_iff {e : ℕ} : (s.group (.elem e)).isSome ↔ a.Queued e := by
  rw [← not_iff_not, Option.not_isSome_iff_eq_none, h.group_eq_none_iff]

end RingsRepr

/-- The rings are read from the tails, `next` and `group` fields and the queues only. -/
lemma RingsRepr.of_eq {s s' : UcsArbiter} {a a' : ArbiterSpec} {cur : Option ℕ}
    (h : RingsRepr s a cur) (ht : s'.tail = s.tail) (hn : s'.next = s.next)
    (hg : s'.group = s.group) (hq : a'.queues = a.queues) : RingsRepr s' a' cur := by
  have hr : a'.ringOf cur = a.ringOf cur := by
    funext g
    simp [ringOf, hq]
  refine ⟨fun g => ?_, fun g => ?_, fun g => ?_, fun e g => ?_⟩
  · rw [ht, hr]; exact h.tail g
  · rw [hn, hr]; exact h.cycle g
  · rw [hq]; exact h.nodup g
  · rw [hg, hq]; exact h.group e g

variable {s s' : UcsArbiter} {a a' : ArbiterSpec} {cur : Option ℕ} {resched : List ℕ}
  {reschedList : List Ptr}

/-- The scheduling part holds as long as the arbiter's list and the scheduled groups stay,
their heads stay, and the link flags of all heads are right. -/
theorem SchedRepr.of_heads {cur' : Option ℕ} (h : SchedRepr s a cur resched reschedList)
    (hlist : s'.list = s.list) (hsched : a'.sched = a.sched)
    (hkeep : ∀ g ∈ a.sched ++ resched, a'.headOf cur' g = a.headOf cur g ∧ a'.ringOf cur' g ≠ [])
    (hlinked : ∀ g, a'.ringOf cur' g ≠ [] →
      (s'.listLinked (a'.headOf cur' g) = true ↔ g ∈ a.sched ++ resched)) :
    SchedRepr s' a' cur' resched reschedList where
  list := by
    rw [hlist, h.list, hsched]
    exact List.map_congr_left fun g hg => (hkeep g (List.mem_append_left _ hg)).1.symm
  reschedList := by
    rw [h.reschedList]
    exact List.map_congr_left fun g hg => (hkeep g (List.mem_append_right _ hg)).1.symm
  nodup := hsched ▸ h.nodup
  nonempty := fun g hg => (hkeep g (hsched ▸ hg)).2
  linked := fun g hg => hsched ▸ hlinked g hg

/-- Replacing a scheduled group's head in the arbiter's list by `P` reads as `P` standing for
that group. -/
lemma SchedRepr.map_replace_head (h : RingsRepr s a cur)
    (hs : SchedRepr s a cur resched reschedList) {g : ℕ} (hne : a.ringOf cur g ≠ []) (P : Ptr) :
    s.list.map (fun z => if z = a.headOf cur g then P else z) =
      a.sched.map fun g' => if g' = g then P else a.headOf cur g' := by
  rw [hs.list, List.map_map]
  refine List.map_congr_left fun g' hg' => ?_
  by_cases hgg : g' = g
  · subst hgg
    simp
  · have hne' := hs.nonempty g' (List.mem_append_left _ hg')
    simp [hgg, h.headOf_ne hne hne' hgg]

lemma ucsArbiterGroupPushElemAlways_of_none {g : ℕ} {x : Ptr} (ht : s.tail g = none) :
    ucsArbiterGroupPushElemAlways s g x =
      ((((s.setLinked x false).setNext x x).setTail g (some x)).setGroup x (some g)) := by
  simp [ucsArbiterGroupPushElemAlways, ht, ucsArbiterGroupHeadReset, ucsArbiterElemSetScheduled]

lemma ucsArbiterGroupPushElemAlways_of_some {g : ℕ} {x t : Ptr} (ht : s.tail g = some t) :
    ucsArbiterGroupPushElemAlways s g x =
      ((((s.setNext x (s.next t)).setNext t x).setTail g (some x)).setGroup x (some g)) := by
  simp [ucsArbiterGroupPushElemAlways, ht, ucsArbiterElemSetScheduled]

lemma RingsRepr.pushElem_of_queued (h : RingsRepr s a cur) {g e : ℕ} (hq : a.Queued e) :
    ucsArbiterGroupPushElem s g (.elem e) = s := by
  simp [ucsArbiterGroupPushElem, h.group_isSome_iff.mpr hq]

lemma RingsRepr.pushElem_of_not_queued (h : RingsRepr s a cur) {g e : ℕ} (hq : ¬ a.Queued e) :
    ucsArbiterGroupPushElem s g (.elem e) = ucsArbiterGroupPushElemAlways s g (.elem e) := by
  simp [ucsArbiterGroupPushElem, h.group_eq_none_iff.mpr hq]

/-- `ucs_arbiter_group_push_elem` appends a free element to the group's queue and does nothing
to an element already queued. -/
theorem RingsRepr.pushElem (h : RingsRepr s a cur) (g e : ℕ) :
    RingsRepr (ucsArbiterGroupPushElem s g (.elem e)) (a.push g e) cur := by
  by_cases hq : a.Queued e
  · rw [h.pushElem_of_queued hq, ArbiterSpec.push, if_pos hq]
    exact h
  · have he : ∀ g', .elem e ∉ a.ringOf cur g' := fun g' hm =>
      hq ⟨g', (elem_mem_ringOf a cur).mp hm⟩
    rw [h.pushElem_of_not_queued hq, ArbiterSpec.push, if_neg hq]
    match ht : s.tail g with
    | none =>
      -- an empty group: the element makes a ring of its own
      have hr : a.ringOf cur g = [] := h.ringOf_eq_nil_iff.mpr ht
      obtain ⟨hcur, hqg⟩ := (ringOf_eq_nil a cur).mp hr
      rw [ucsArbiterGroupPushElemAlways_of_none ht]
      refine ⟨fun g' => ?_, fun g' => ?_, fun g' => ?_, fun e' g' => ?_⟩
      · by_cases hg : g' = g
        · subst hg; simp [ringOf_update_self, hcur, hqg]
        · simp [ringOf_update_of_ne a cur hg, hg, h.tail g']
      · by_cases hg : g' = g
        · subst hg; simp [ringOf_update_self, hcur, hqg, isCycle_singleton]
        · rw [ringOf_update_of_ne a cur hg]
          exact (h.cycle g').update_of_not_mem (he g')
      · by_cases hg : g' = g
        · subst hg; simp [hqg]
        · simpa [hg] using h.nodup g'
      · by_cases hg : g' = g
        · subst hg
          by_cases he' : e' = e
          · simp [he']
          · simp [he', hqg, h.group]
        · by_cases he' : e' = e
          · subst he'
            simpa [hg, Ne.symm hg] using fun hm => hq ⟨g', hm⟩
          · simp [he', hg, h.group]
    | some t =>
      -- a ring `p ++ [t]`: the element goes after the tail `t`
      obtain ⟨p, hp, htp⟩ := h.ringOf_eq_append ht
      obtain ⟨hd, hhd⟩ : ∃ hd, (p ++ [t]).head? = some hd := by
        rcases p with _ | ⟨x, p⟩ <;> simp
      have hc : IsCycle s.next (p ++ [t]) := by rw [← hp]; exact h.cycle g
      have hnext : s.next t = hd := hc.next_last hhd
      have hring : ({ a with queues := update a.queues g (a.queues g ++ [e]) } : ArbiterSpec).ringOf cur g =
          p ++ [t] ++ [.elem e] := by
        rw [ringOf_update_self, ← hp, ringOf]
        simp
      have htg : ∀ g', t ∈ a.ringOf cur g' → g' = g := fun g' hm =>
        h.eq_of_mem hm (by rw [hp]; simp)
      rw [ucsArbiterGroupPushElemAlways_of_some ht]
      refine ⟨fun g' => ?_, fun g' => ?_, fun g' => ?_, fun e' g' => ?_⟩
      · by_cases hg : g' = g
        · subst hg; rw [hring]; simp
        · simp [ringOf_update_of_ne a cur hg, hg, h.tail g']
      · by_cases hg : g' = g
        · subst hg
          rw [hring]
          simp only [setTail_next, setNext_next, setGroup_next, hnext]
          exact hc.push hhd htp (by rw [← hp]; exact he g')
        · rw [ringOf_update_of_ne a cur hg]
          simp only [setTail_next, setNext_next, setGroup_next]
          refine ((h.cycle g').update_of_not_mem (he g')).update_of_not_mem fun hm => hg (htg g' hm)
      · by_cases hg : g' = g
        · subst hg
          simpa using List.Nodup.append (h.nodup g') (List.nodup_singleton e) (by simpa using fun hm => hq ⟨g', hm⟩)
        · simpa [hg] using h.nodup g'
      · by_cases hg : g' = g
        · subst hg
          by_cases he' : e' = e
          · simp [he']
          · simp [he', h.group]
        · by_cases he' : e' = e
          · subst he'
            simpa [hg, Ne.symm hg] using fun hm => hq ⟨g', hm⟩
          · simp [he', hg, h.group]

/-- Pushing keeps the scheduling: a group's head changes only when the group was empty, and an
empty group is not scheduled. -/
theorem SchedRepr.pushElem (h : RingsRepr s a cur) (hs : SchedRepr s a cur resched reschedList)
    (g e : ℕ) :
    SchedRepr (ucsArbiterGroupPushElem s g (.elem e)) (a.push g e) cur resched reschedList := by
  by_cases hq : a.Queued e
  · rw [h.pushElem_of_queued hq, ArbiterSpec.push, if_pos hq]
    exact hs
  · have he : ∀ g', .elem e ∉ a.ringOf cur g' := fun g' hm =>
      hq ⟨g', (elem_mem_ringOf a cur).mp hm⟩
    rw [h.pushElem_of_not_queued hq, ArbiterSpec.push, if_neg hq]
    match ht : s.tail g with
    | none =>
      -- the element becomes the head of an unscheduled group
      have hr : a.ringOf cur g = [] := h.ringOf_eq_nil_iff.mpr ht
      obtain ⟨hcur, hqg⟩ := (ringOf_eq_nil a cur).mp hr
      have hgs : g ∉ a.sched ++ resched := fun hm => hs.nonempty g hm hr
      rw [ucsArbiterGroupPushElemAlways_of_none ht]
      refine hs.of_heads rfl rfl (fun g' hg' => ?_) (fun g' hg' => ?_)
      · have hne : g' ≠ g := by rintro rfl; exact hgs hg'
        exact ⟨headOf_update_of_ne a cur hne, by
          rw [ringOf_update_of_ne a cur hne]; exact hs.nonempty g' hg'⟩
      · by_cases hg : g' = g
        · subst hg
          simp [headOf, ringOf_update_self, hcur, hqg, hgs]
        · rw [ringOf_update_of_ne a cur hg] at hg'
          have hx : a.headOf cur g' ≠ .elem e := fun hx => he g' (hx ▸ headOf_mem a cur hg')
          simp only [headOf_update_of_ne a cur hg, setGroup_listLinked, setTail_listLinked,
            setNext_listLinked, setLinked_listLinked, update_of_ne hx]
          exact hs.linked g' hg'
    | some t =>
      -- the head stays: the element goes after the tail
      have hr : a.ringOf cur g ≠ [] := fun hr => by simp [h.ringOf_eq_nil_iff.mp hr] at ht
      have hring : ({ a with queues := update a.queues g (a.queues g ++ [e]) } : ArbiterSpec).ringOf
          cur g = a.ringOf cur g ++ [.elem e] := by
        rw [ringOf_update_self, ringOf]
        simp
      have hhead : ∀ g', ({ a with queues := update a.queues g (a.queues g ++ [e]) } :
          ArbiterSpec).headOf cur g' = a.headOf cur g' := fun g' => by
        by_cases hg : g' = g
        · subst hg; exact headOf_of_append a cur hr hring
        · exact headOf_update_of_ne a cur hg
      rw [ucsArbiterGroupPushElemAlways_of_some ht]
      refine hs.of_heads rfl rfl (fun g' hg' => ⟨hhead g', ?_⟩) (fun g' hg' => ?_)
      · by_cases hg : g' = g
        · subst hg; simp [hring]
        · rw [ringOf_update_of_ne a cur hg]; exact hs.nonempty g' hg'
      · have hg'' : a.ringOf cur g' ≠ [] := by
          by_cases hg : g' = g
          · subst hg; exact hr
          · rwa [ringOf_update_of_ne a cur hg] at hg'
        simp only [hhead g', setGroup_listLinked, setTail_listLinked, setNext_listLinked]
        exact hs.linked g' hg''

/-! ### Scheduling and descheduling -/

lemma ArbiterSpec.schedule_eq_if (a : ArbiterSpec) (g : ℕ) :
    a.schedule g =
      if a.ringOf none g ≠ [] ∧ g ∉ a.sched ++ [] then { a with sched := a.sched ++ [g] } else a := by
  simp [ArbiterSpec.schedule]

lemma ArbiterSpec.desched_of_not_mem {a : ArbiterSpec} {g : ℕ} (hg : g ∉ a.sched) :
    a.desched g = a := by
  simp [ArbiterSpec.desched, List.erase_of_not_mem hg]

/-- `ucs_arbiter_group_schedule` appends the head of a non-empty group that is not scheduled,
and finds nothing to do otherwise. -/
lemma RingsRepr.schedule_eq (h : RingsRepr s a cur) (hs : SchedRepr s a cur resched reschedList)
    (g : ℕ) :
    ucsArbiterGroupSchedule s g =
      if a.ringOf cur g ≠ [] ∧ g ∉ a.sched ++ resched then s.listAddTail (a.headOf cur g)
      else s := by
  match ht : s.tail g with
  | none =>
    have hr : a.ringOf cur g = [] := h.ringOf_eq_nil_iff.mpr ht
    simp [ucsArbiterGroupSchedule, ht, hr]
  | some t =>
    have hr : a.ringOf cur g ≠ [] := fun hr => by simp [h.ringOf_eq_nil_iff.mp hr] at ht
    simp only [ucsArbiterGroupSchedule, ht, h.next_tail ht, ← hs.linked g hr]
    by_cases hl : s.listLinked (a.headOf cur g) = true <;> simp [hl, hr]

/-- Appending a non-empty, unscheduled group's head to the arbiter schedules the group. -/
theorem SchedRepr.listAddTail (h : RingsRepr s a cur) (hs : SchedRepr s a cur resched reschedList)
    {g : ℕ} (hr : a.ringOf cur g ≠ []) (hg : g ∉ a.sched ++ resched) :
    SchedRepr (s.listAddTail (a.headOf cur g)) { a with sched := a.sched ++ [g] } cur resched
      reschedList where
  list := by simp [hs.list]
  reschedList := hs.reschedList
  nodup := by
    rw [List.append_assoc, List.singleton_append]
    exact List.perm_middle.nodup_iff.mpr (List.nodup_cons.mpr ⟨hg, hs.nodup⟩)
  nonempty := fun g' hg' => by
    by_cases hgg : g' = g
    · subst hgg
      exact hr
    · have hm : g' ∈ a.sched ++ resched := by
        simp only [List.mem_append, List.mem_singleton] at hg' ⊢
        tauto
      exact hs.nonempty g' hm
  linked := fun g' hg' => by
    by_cases hgg : g' = g
    · subst hgg
      simp
    · simp only [ringOf_with_sched] at hg'
      simp only [listAddTail_listLinked, setLinked_listLinked, headOf_with_sched,
        update_of_ne (h.headOf_ne hr hg' hgg), hs.linked g' hg']
      simp [hgg]

/-- `ucs_arbiter_group_schedule` acts on the scheduler as `ArbiterSpec.schedule`. -/
theorem Represents.schedule (h : Represents s a) (g : ℕ) :
    Represents (ucsArbiterGroupSchedule s g) (a.schedule g) := by
  obtain ⟨hr, hs⟩ := h
  rw [hr.schedule_eq hs g, ArbiterSpec.schedule_eq_if]
  split
  · rename_i hc
    exact ⟨hr.of_eq rfl rfl rfl rfl, hs.listAddTail hr hc.1 hc.2⟩
  · exact ⟨hr, hs⟩

/-- `ucs_arbiter_group_desched` takes a scheduled group's head out of the arbiter. -/
theorem Represents.desched (h : Represents s a) (g : ℕ) :
    Represents (ucsArbiterGroupDesched s g) (a.desched g) := by
  obtain ⟨hr, hs⟩ := h
  have hnot : g ∉ a.sched → Represents s (a.desched g) := fun hg => by
    rw [ArbiterSpec.desched_of_not_mem hg]
    exact ⟨hr, hs⟩
  match ht : s.tail g with
  | none =>
    have hg : g ∉ a.sched := fun hm =>
      hs.nonempty g (by simpa using hm) (hr.ringOf_eq_nil_iff.mpr ht)
    simpa [ucsArbiterGroupDesched, ht] using hnot hg
  | some t =>
    have hne : a.ringOf none g ≠ [] := fun hn => by simp [hr.ringOf_eq_nil_iff.mp hn] at ht
    have hlink := hs.linked g hne
    simp only [List.append_nil] at hlink
    by_cases hl : s.listLinked (a.headOf none g) = true
    · -- the head leaves the arbiter's list and is marked unscheduled
      have hg : g ∈ a.sched := hlink.mp hl
      have hnd : a.sched.Nodup := by simpa using hs.nodup
      simp only [ucsArbiterGroupDesched, ht, hr.next_tail ht, hl, if_true, ucsArbiterGroupHeadReset]
      refine ⟨hr.of_eq rfl rfl rfl rfl, ⟨?_, hs.reschedList, ?_, ?_, ?_⟩⟩
      · simp only [setLinked_list, listDel_list, hs.list, ArbiterSpec.desched, headOf_with_sched]
        refine (List.map_erase_of_forall fun g' hg' he => ?_).symm
        by_contra hgg
        exact hr.headOf_ne hne (hs.nonempty g' (List.mem_append_left _ hg')) hgg he
      · simpa [ArbiterSpec.desched] using hnd.erase g
      · intro g' hg'
        simp only [ArbiterSpec.desched, List.append_nil, ringOf_with_sched] at hg' ⊢
        exact hs.nonempty g' (by simpa using List.mem_of_mem_erase hg')
      · intro g' hg'
        simp only [ArbiterSpec.desched, ringOf_with_sched, headOf_with_sched, List.append_nil,
          setLinked_listLinked, listDel_listLinked] at hg' ⊢
        by_cases hgg : g' = g
        · subst hgg
          simpa using hnd.not_mem_erase
        · rw [update_of_ne (hr.headOf_ne hne hg' hgg), List.mem_erase_of_ne hgg]
          simpa using hs.linked g' hg'
    · have hg : g ∉ a.sched := fun hm => hl (hlink.mpr hm)
      simpa [ucsArbiterGroupDesched, ht, hr.next_tail ht, hl] using hnot hg

/-! ### Pushing to the head -/

lemma ucsArbiterGroupPushHeadElemAlways_of_none {g : ℕ} {x : Ptr} (ht : s.tail g = none) :
    ucsArbiterGroupPushHeadElemAlways s g x = ucsArbiterGroupPushElemAlways s g x := by
  simp only [ucsArbiterGroupPushHeadElemAlways, ucsArbiterGroupPushElemAlways,
    ucsArbiterElemSetScheduled, ucsArbiterGroupHeadReset, setGroup_tail, setLinked_tail, ht]
  rfl

lemma ucsArbiterGroupPushHeadElemAlways_of_some {g : ℕ} {x t : Ptr} (ht : s.tail g = some t) :
    ucsArbiterGroupPushHeadElemAlways s g x =
      let s' := (((s.setLinked x false).setGroup x (some g)).setNext x (s.next t)).setNext t x
      if s'.listLinked (s.next t) then s'.listReplace (s.next t) x else s' := by
  simp only [ucsArbiterGroupPushHeadElemAlways, ucsArbiterElemSetScheduled,
    ucsArbiterGroupHeadReset, setGroup_tail, setLinked_tail, setGroup_next, setLinked_next, ht]

lemma ArbiterSpec.pushHead_of_nil {a : ArbiterSpec} {g e : ℕ} (hq : a.queues g = []) :
    a.pushHead g e = a.push g e := by
  simp [ArbiterSpec.pushHead, ArbiterSpec.push, hq]

/-- The ring of a group after an element is put in front of its queue. -/
lemma ringOf_pushHead_self (a : ArbiterSpec) {g e : ℕ} :
    ({ a with queues := update a.queues g (e :: a.queues g) } : ArbiterSpec).ringOf none g =
      .elem e :: a.ringOf none g := by
  simp

/-- **Pushing a free element at the head of a non-empty group keeps the rings**: the element is
linked after the group's tail and before its old head. -/
theorem RingsRepr.pushHeadElem_of_some (hr : RingsRepr s a none) {g e : ℕ} {t : Ptr}
    (hq : ¬ a.Queued e) (ht : s.tail g = some t) :
    RingsRepr ((((s.setLinked (.elem e) false).setGroup (.elem e) (some g)).setNext (.elem e)
      (s.next t)).setNext t (.elem e)) (a.pushHead g e) none := by
  obtain ⟨p, hp, htp⟩ := hr.ringOf_eq_append ht
  have he : ∀ g', .elem e ∉ a.ringOf none g' := fun g' hm =>
    hq ⟨g', (elem_mem_ringOf a none).mp hm⟩
  have hhead : s.next t = a.headOf none g := hr.next_tail ht
  have hring := ringOf_pushHead_self a (g := g) (e := e)
  have htg : ∀ g', t ∈ a.ringOf none g' → g' = g := fun g' hm =>
    hr.eq_of_mem hm (by rw [hp]; simp)
  rw [ArbiterSpec.pushHead, if_neg hq]
  refine ⟨fun g' => ?_, fun g' => ?_, fun g' => ?_, fun e' g' => ?_⟩
  · by_cases hg : g' = g
    · subst hg
      rw [hring, hp, ← List.cons_append, List.getLast?_concat]
      simp [ht]
    · simp [ringOf_update_of_ne a none hg, hr.tail g']
  · by_cases hg : g' = g
    · subst hg
      rw [hring, hp]
      simp only [setNext_next, setGroup_next, setLinked_next, hhead]
      have hc : IsCycle s.next (p ++ [t]) := hp ▸ hr.cycle g'
      obtain ⟨hd, hhd⟩ : ∃ hd, (p ++ [t]).head? = some hd := by
        rcases p with _ | ⟨x, p⟩ <;> simp
      have hhd' : a.headOf none g' = hd := by
        rw [headOf, hp]
        rcases p with _ | ⟨x, p⟩ <;> simp_all
      rw [hhd']
      exact hc.pushHead hhd htp (hp ▸ he g')
    · rw [ringOf_update_of_ne a none hg]
      simp only [setNext_next, setGroup_next, setLinked_next]
      exact ((hr.cycle g').update_of_not_mem (he g')).update_of_not_mem
        fun hm => hg (htg g' hm)
  · by_cases hg : g' = g
    · subst hg
      simpa using ⟨fun hm => hq ⟨g', hm⟩, hr.nodup g'⟩
    · simpa [hg] using hr.nodup g'
  · by_cases hg : g' = g
    · subst hg
      by_cases he' : e' = e
      · simp [he']
      · simp [he', hr.group]
    · by_cases he' : e' = e
      · subst he'
        simpa [hg, Ne.symm hg] using fun hm => hq ⟨g', hm⟩
      · simp [he', hg, hr.group]

/-- `ucs_arbiter_group_push_head_elem` puts a free element in front of its group's queue, and
the new head takes the old one's place in the arbiter. -/
theorem Represents.pushHeadElem (h : Represents s a) (g e : ℕ) :
    Represents (ucsArbiterGroupPushHeadElem s g (.elem e)) (a.pushHead g e) := by
  obtain ⟨hr, hs⟩ := h
  by_cases hq : a.Queued e
  · simp only [ucsArbiterGroupPushHeadElem, hr.group_isSome_iff.mpr hq, if_true,
      ArbiterSpec.pushHead, if_pos hq]
    exact ⟨hr, hs⟩
  have he : ∀ g', .elem e ∉ a.ringOf none g' := fun g' hm =>
    hq ⟨g', (elem_mem_ringOf a none).mp hm⟩
  have hfree : ucsArbiterGroupPushHeadElem s g (.elem e) =
      ucsArbiterGroupPushHeadElemAlways s g (.elem e) := by
    simp [ucsArbiterGroupPushHeadElem, hr.group_eq_none_iff.mpr hq]
  rw [hfree]
  match ht : s.tail g with
  | none =>
    -- into an empty group this is `push_elem`
    have hqg : a.queues g = [] := by
      simpa using ((ringOf_eq_nil a none).mp (hr.ringOf_eq_nil_iff.mpr ht)).2
    rw [ucsArbiterGroupPushHeadElemAlways_of_none ht, ArbiterSpec.pushHead_of_nil hqg,
      ← hr.pushElem_of_not_queued hq]
    exact ⟨hr.pushElem g e, hs.pushElem hr g e⟩
  | some t =>
    obtain ⟨p, hp, -⟩ := hr.ringOf_eq_append ht
    have hne : a.ringOf none g ≠ [] := by simp [hp]
    have hhead : s.next t = a.headOf none g := hr.next_tail ht
    have hxh : a.headOf none g ≠ .elem e := fun hx => he g (hx ▸ headOf_mem a none hne)
    have hring := ringOf_pushHead_self a (g := g) (e := e)
    have hhead' : ({ a with queues := update a.queues g (e :: a.queues g) } : ArbiterSpec).headOf
        none g = .elem e := by simp [headOf, hring]
    have htg : ∀ g', t ∈ a.ringOf none g' → g' = g := fun g' hm =>
      hr.eq_of_mem hm (by rw [hp]; simp)
    -- the rings after the two pointer writes, before the arbiter's list is looked at
    set s' := (((s.setLinked (.elem e) false).setGroup (.elem e) (some g)).setNext (.elem e)
      (s.next t)).setNext t (.elem e) with hs'
    have hr' : RingsRepr s' (a.pushHead g e) none := hr.pushHeadElem_of_some hq ht
    have hlinked : s'.listLinked (s.next t) = s.listLinked (a.headOf none g) := by
      simp [hs', hhead, hxh]
    have hheads : ∀ g' ≠ g, (a.pushHead g e).headOf none g' = a.headOf none g' := fun g' hg => by
      rw [ArbiterSpec.pushHead, if_neg hq]
      exact headOf_update_of_ne a none hg
    rw [ucsArbiterGroupPushHeadElemAlways_of_some ht]
    simp only [← hs', hlinked]
    split
    · -- the old head was scheduled: the new one takes its place
      rename_i hl
      have hg : g ∈ a.sched := by simpa using (hs.linked g hne).mp hl
      refine ⟨hr'.of_eq rfl rfl rfl rfl, ⟨?_, rfl, ?_, ?_, ?_⟩⟩
      · simp only [listReplace_list, hs', setNext_list, setGroup_list, setLinked_list, hhead,
          hs.list, List.map_map]
        rw [ArbiterSpec.pushHead, if_neg hq]
        refine List.map_congr_left fun g' hg' => ?_
        by_cases hgg : g' = g
        · subst hgg
          simp [hhead']
        · have hne' := hs.nonempty g' (by simpa using hg')
          simp [headOf_update_of_ne a none hgg, hr.headOf_ne hne hne' hgg]
      · simpa [ArbiterSpec.pushHead, hq] using hs.nodup
      · intro g' hg'
        have hne' : a.ringOf none g' ≠ [] := hs.nonempty g' (by simpa [ArbiterSpec.pushHead, hq] using hg')
        by_cases hgg : g' = g
        · subst hgg
          simp [ArbiterSpec.pushHead, hq]
        · rw [ArbiterSpec.pushHead, if_neg hq, ringOf_update_of_ne a none hgg]
          exact hne'
      · intro g' hg'
        by_cases hgg : g' = g
        · subst hgg
          simp [ArbiterSpec.pushHead, hq, hhead', hg]
        · have hne' : a.ringOf none g' ≠ [] := by
            simpa [ArbiterSpec.pushHead, hq, ringOf_update_of_ne a none hgg] using hg'
          have hx : a.headOf none g' ≠ .elem e := fun hx => he g' (hx ▸ headOf_mem a none hne')
          simp only [hheads g' hgg, listReplace_listLinked, setLinked_listLinked, update_of_ne hx,
            hs', setNext_listLinked, setGroup_listLinked]
          simpa [ArbiterSpec.pushHead, hq] using hs.linked g' hne'
    · -- the group was not scheduled, and its new head is not linked
      rename_i hl
      have hg : g ∉ a.sched := fun hm => hl ((hs.linked g hne).mpr (by simpa using hm))
      refine ⟨hr', ⟨?_, rfl, ?_, ?_, ?_⟩⟩
      · have hps : (a.pushHead g e).sched = a.sched := by simp [ArbiterSpec.pushHead, hq]
        simp only [hs', setNext_list, setGroup_list, setLinked_list, hs.list, hps]
        refine List.map_congr_left fun g' hg' => ?_
        have hgg : g' ≠ g := by rintro rfl; exact hg hg'
        exact (hheads g' hgg).symm
      · simpa [ArbiterSpec.pushHead, hq] using hs.nodup
      · intro g' hg'
        have hgg : g' ≠ g := by rintro rfl; exact hg (by simpa [ArbiterSpec.pushHead, hq] using hg')
        rw [ArbiterSpec.pushHead, if_neg hq, ringOf_update_of_ne a none hgg]
        exact hs.nonempty g' (by simpa [ArbiterSpec.pushHead, hq] using hg')
      · intro g' hg'
        by_cases hgg : g' = g
        · subst hgg
          simp [ArbiterSpec.pushHead, hq, hhead', hs', hg]
        · have hne' : a.ringOf none g' ≠ [] := by
            simpa [ArbiterSpec.pushHead, hq, ringOf_update_of_ne a none hgg] using hg'
          have hx : a.headOf none g' ≠ .elem e := fun hx => he g' (hx ▸ headOf_mem a none hne')
          have htx : a.headOf none g' ≠ t := fun hx => hgg (htg g' (hx ▸ headOf_mem a none hne'))
          simp only [hheads g' hgg, hs', setNext_listLinked, setGroup_listLinked,
            setLinked_listLinked, update_of_ne hx]
          simpa [ArbiterSpec.pushHead, hq] using hs.linked g' hne'

/-! ### Counting -/

/-- Walking from `elem` along a chain `elem :: l` that meets `tail` only at its end counts the
steps of the chain. -/
theorem numElemsLoop_eq {tail elem : Ptr} {l : List Ptr} {n fuel : ℕ}
    (hc : (elem :: l).IsChain fun x y => s.next x = y) (hl : l.getLast? = some tail)
    (ht : tail ∉ l.dropLast) (hfuel : l.length ≤ fuel) :
    numElemsLoop s tail fuel elem n = some (n + l.length) := by
  induction l generalizing elem n fuel with
  | nil => simp at hl
  | cons y l ih =>
    obtain ⟨fuel, rfl⟩ : ∃ f, fuel = f + 1 := ⟨fuel - 1, by simp at hfuel; omega⟩
    rw [List.isChain_cons_cons] at hc
    rcases l with _ | ⟨z, l⟩
    · -- the chain ends at the tail
      simp only [List.getLast?_singleton, Option.some.injEq] at hl
      simp [numElemsLoop, hc.1, hl]
    · -- `y` is not the tail yet
      have hy : y ≠ tail := fun hy => ht (by simp [hy])
      have hl' : (z :: l).getLast? = some tail := by simpa using hl
      have ht' : tail ∉ (z :: l).dropLast := fun hm => ht (by simp [hm])
      rw [numElemsLoop, if_neg (by rw [hc.1]; exact hy), hc.1,
        ih hc.2 hl' ht' (by simp at hfuel ⊢; omega)]
      simp
      omega

/-- `ucs_arbiter_group_num_elems` counts the group's ring, given fuel for as many steps. -/
theorem RingsRepr.numElems (h : RingsRepr s a cur) (g : ℕ) {fuel : ℕ}
    (hfuel : (a.ringOf cur g).length ≤ fuel) :
    ucsArbiterGroupNumElems s g fuel = some (a.ringOf cur g).length := by
  match ht : s.tail g with
  | none =>
    simp [ucsArbiterGroupNumElems, ht, h.ringOf_eq_nil_iff.mpr ht]
  | some t =>
    obtain ⟨p, hp, htp⟩ := h.ringOf_eq_append ht
    -- from the tail, the walk goes once around the ring
    have hc : (t :: (p ++ [t])).IsChain fun x y => s.next x = y := by
      have := isCycle_append_comm.mp (hp ▸ h.cycle g)
      simpa [isCycle_cons] using this
    rw [hp] at hfuel ⊢
    simp only [ucsArbiterGroupNumElems, ht]
    rw [numElemsLoop_eq hc (List.getLast?_concat) (by simpa using htp) hfuel, Nat.zero_add]

theorem Represents.numElems (h : Represents s a) (g : ℕ) {fuel : ℕ}
    (hfuel : (a.queues g).length ≤ fuel) :
    ucsArbiterGroupNumElems s g fuel = some (a.queues g).length := by
  simpa using h.1.numElems g (by simpa using hfuel)

end UcxProofs.Arbiter
