import UcxProofs.ArbiterPurge

/-!
`ucs_arbiter_dispatch` acts on the scheduler as `specDispatch`, and so does every run of the
arbiter's interface.

The proof follows the dispatch loop one callback at a time, the heap and the scheduler in lock
step. Between two callbacks the heap represents the scheduler together with the groups the
dispatch has set aside (`DispatchRepr`); before a callback, the group to serve is also out of
the arbiter and its head is the element the callback gets (`CallRepr`). While the callback
runs, the dummy stands first in the group's ring, which is what `RingsRepr` and `SchedRepr`
read with `cur = some g`: the callback's pushes and schedulings are then the operations of
`ArbiterRefine` at that `cur`. After the callback the dummy leaves the ring, and the group's
head, old or new, takes the dummy's place in the arbiter or not, as the result says.
-/

namespace UcxProofs.Arbiter

open Function CycleList UcsArbiter ArbiterSpec

variable {s s' : UcsArbiter} {a a' : ArbiterSpec} {cur cur' : Option ℕ} {g : ℕ}
  {resched : List ℕ} {reschedList : List Ptr}

/-! ### The group's ring: the head and the dummy change places -/

lemma ucsArbiterGroupHeadReplace_of_self {x y : Ptr} (hx : s.next x = x) :
    ucsArbiterGroupHeadReplace s g x y = (s.setTail g (some y)).setNext y y := by
  simp [ucsArbiterGroupHeadReplace, hx]

lemma ucsArbiterGroupHeadReplace_of_ne {x y t : Ptr} (hx : s.next x ≠ x)
    (ht : s.tail g = some t) :
    ucsArbiterGroupHeadReplace s g x y = (s.setNext y (s.next x)).setNext t y := by
  simp [ucsArbiterGroupHeadReplace, hx, ht]

/-- The head replacement writes `next` and `tail` only. -/
lemma ucsArbiterGroupHeadReplace_fields (x y : Ptr) :
    (ucsArbiterGroupHeadReplace s g x y).list = s.list ∧
      (ucsArbiterGroupHeadReplace s g x y).listLinked = s.listLinked ∧
      (ucsArbiterGroupHeadReplace s g x y).group = s.group := by
  by_cases hx : s.next x = x
  · simp [ucsArbiterGroupHeadReplace_of_self hx]
  · cases ht : s.tail g with
    | none => simp [ucsArbiterGroupHeadReplace, hx, ht]
    | some t => simp [ucsArbiterGroupHeadReplace_of_ne hx ht]

/-- Putting `y` in the place of the head `x` of group `g`'s ring, with `rest` behind it. `s₀`
is the heap with the group pointers as they will be, its rings those of `s`. -/
theorem RingsRepr.headReplace (h : RingsRepr s a cur) (s₀ : UcsArbiter) (hn : s₀.next = s.next)
    (ht : s₀.tail = s.tail) {x y : Ptr} {rest : List Ptr} (hring : a.ringOf cur g = x :: rest)
    (hring' : a'.ringOf cur' g = y :: rest)
    (hoth : ∀ g' ≠ g, a'.ringOf cur' g' = a.ringOf cur g') (hy : ∀ g', y ∉ a.ringOf cur g')
    (hnd : ∀ g', (a'.queues g').Nodup)
    (hgroup : ∀ e g', s₀.group (.elem e) = some g' ↔ e ∈ a'.queues g') :
    RingsRepr (ucsArbiterGroupHeadReplace s₀ g x y) a' cur' := by
  have hnd₀ : (x :: rest).Nodup := hring ▸ ringOf_nodup a cur (h.nodup g)
  have hc : IsCycle s₀.next (x :: rest) := hn ▸ hring ▸ h.cycle g
  -- the other rings hold none of the pointers written
  have hout : ∀ g' ≠ g, ∀ z ∈ x :: rest, z ∉ a.ringOf cur g' := fun g' hg z hz hm =>
    hg (h.eq_of_mem hm (hring ▸ hz))
  rcases rest.eq_nil_or_concat' with rfl | ⟨p, t, rfl⟩
  · -- a ring of one: `y` becomes the group's tail and points at itself
    rw [ucsArbiterGroupHeadReplace_of_self (isCycle_singleton.mp hc)]
    refine ⟨fun g' => ?_, fun g' => ?_, hnd, fun e g' => ?_⟩
    · by_cases hg : g' = g
      · subst hg
        simp [hring']
      · simp [hg, hoth g' hg, ht, h.tail g']
    · by_cases hg : g' = g
      · subst hg
        rw [hring']
        exact isCycle_singleton.mpr (by simp)
      · rw [hoth g' hg]
        simp only [setNext_next, setTail_next, hn]
        exact (h.cycle g').update_of_not_mem (hy g')
    · simpa using hgroup e g'
  · -- `y` takes over `x`'s `next`, and the tail `t` points at `y`
    obtain ⟨c, l, hcl⟩ : ∃ c l, p ++ [t] = c :: l := by
      rcases p with _ | ⟨c, p⟩ <;> simp
    have hxc : s₀.next x = c := by
      have hc' := hc
      rw [hcl, ← List.nil_append (x :: c :: l)] at hc'
      exact hc'.next_of_append
    have hxx : s₀.next x ≠ x := by
      rw [hxc]
      rintro rfl
      exact (List.nodup_cons.mp hnd₀).1 (by rw [hcl]; simp)
    have htail : s₀.tail g = some t := by
      rw [ht, h.tail g, hring, ← List.cons_append, List.getLast?_concat]
    have htp : t ∉ p := not_mem_of_nodup_append_singleton (List.nodup_cons.mp hnd₀).2
    have hyr : y ∉ p ++ [t] := fun hm => hy g (by rw [hring]; exact List.mem_cons_of_mem x hm)
    rw [ucsArbiterGroupHeadReplace_of_ne hxx htail]
    refine ⟨fun g' => ?_, fun g' => ?_, hnd, fun e g' => ?_⟩
    · by_cases hg : g' = g
      · subst hg
        rw [hring', ← List.cons_append, List.getLast?_concat]
        simpa using htail
      · simp [hoth g' hg, ht, h.tail g']
    · by_cases hg : g' = g
      · subst hg
        rw [hring']
        exact hc.replaceHead htp hyr
      · rw [hoth g' hg]
        simp only [setNext_next]
        refine ((hn ▸ h.cycle g').update_of_not_mem (hy g')).update_of_not_mem ?_
        exact hout g' hg t (by simp)
    · simpa using hgroup e g'

lemma ringOf_some_of_ne (a : ArbiterSpec) {g g' : ℕ} (hg : g' ≠ g) :
    a.ringOf (some g) g' = a.ringOf none g' := by
  simp [ringOf, Ne.symm hg]

lemma headOf_some_of_ne (a : ArbiterSpec) {g g' : ℕ} (hg : g' ≠ g) :
    a.headOf (some g) g' = a.headOf none g' := by
  rw [headOf, ringOf_some_of_ne a hg, headOf]

@[simp] lemma headOf_some_self (a : ArbiterSpec) : a.headOf (some g) g = .dispatchDummy := by
  simp [headOf, ringOf_self]

lemma ringOf_some_self_ne_nil (a : ArbiterSpec) : a.ringOf (some g) g ≠ [] := by
  simp [ringOf_self]

/-- The callback's element leaves its group's ring and the dummy takes its place. -/
theorem RingsRepr.toDummy (h : RingsRepr s a none) {e : ℕ} {q : List ℕ}
    (hq : a.queues g = e :: q) :
    RingsRepr (ucsArbiterGroupHeadReplace (ucsArbiterElemInit s (.elem e)) g (.elem e)
      .dispatchDummy) { a with queues := update a.queues g q } (some g) := by
  have hnd : (e :: q).Nodup := hq ▸ h.nodup g
  refine h.headReplace (ucsArbiterElemInit s (.elem e)) rfl rfl (by simp [hq] : a.ringOf none g = .elem e :: q.map .elem)
    (by simp [ringOf_update_self] : ({ a with queues := update a.queues g q } : ArbiterSpec).ringOf
      (some g) g = .dispatchDummy :: q.map .elem)
    (fun g' hg => ?_) (fun g' => by simp) (fun g' => ?_) (fun e' g' => ?_)
  · rw [ringOf_update_of_ne a _ hg, ringOf_some_of_ne a hg]
  · by_cases hg : g' = g
    · subst hg
      simpa using (List.nodup_cons.mp hnd).2
    · simpa [hg] using h.nodup g'
  · simp only [ucsArbiterElemInit, setGroup_group]
    by_cases he : e' = e
    · -- the element is free now: in `q` it is not, and no other queue holds it
      subst he
      have hg' : e' ∈ a.queues g' → g' = g := fun hm =>
        Option.some.inj (((h.group e' g').mpr hm).symm.trans ((h.group e' g).mpr (by simp [hq])))
      by_cases hg : g' = g
      · subst hg
        simpa using (List.nodup_cons.mp hnd).1
      · simpa [hg] using fun hm => hg (hg' hm)
    · rw [update_of_ne (by simpa using he), h.group]
      by_cases hg : g' = g
      · subst hg
        simp [hq, he]
      · simp [hg]

/-- A kept element takes its place back from the dummy, in front of its group's queue. -/
theorem RingsRepr.fromDummy (h : RingsRepr s a (some g)) {e : ℕ} (he : ¬ a.Queued e) :
    RingsRepr (ucsArbiterGroupHeadReplace (ucsArbiterElemSetScheduled s (.elem e) g) g
      .dispatchDummy (.elem e)) { a with queues := update a.queues g (e :: a.queues g) } none := by
  have hfree : ∀ g', e ∉ a.queues g' := fun g' hm => he ⟨g', hm⟩
  refine h.headReplace (ucsArbiterElemSetScheduled s (.elem e) g) rfl rfl
    (ringOf_self a : a.ringOf (some g) g = .dispatchDummy :: (a.queues g).map .elem)
    (by simp : ({ a with queues := update a.queues g (e :: a.queues g) } : ArbiterSpec).ringOf
      none g = .elem e :: (a.queues g).map .elem)
    (fun g' hg => ?_) (fun g' => by simpa using hfree g') (fun g' => ?_) (fun e' g' => ?_)
  · rw [ringOf_update_of_ne a _ hg, ringOf_some_of_ne a hg]
  · by_cases hg : g' = g
    · subst hg
      simpa using ⟨hfree g', h.nodup g'⟩
    · simpa [hg] using h.nodup g'
  · simp only [ucsArbiterElemSetScheduled, setGroup_group]
    by_cases he' : e' = e
    · subst he'
      by_cases hg : g' = g
      · subst hg
        simp
      · simpa [Ne.symm hg, hg] using hfree g'
    · rw [update_of_ne (by simpa using he'), h.group]
      by_cases hg : g' = g
      · subst hg
        simp [he']
      · simp [hg]

/-- A removed element that was not the last: the dummy leaves the ring, and the tail points at
the element after it. -/
theorem RingsRepr.unlinkDummy (h : RingsRepr s a (some g)) {e : ℕ} {q : List ℕ}
    (hq : a.queues g = e :: q) :
    s.next .dispatchDummy = .elem e ∧
      ∃ t, s.tail g = some t ∧ RingsRepr (s.setNext t (.elem e)) a none := by
  have hc := h.cycle g
  rw [ringOf_self, hq] at hc
  have hnext : s.next .dispatchDummy = .elem e := by
    have hc' := hc
    rw [List.map_cons, ← List.nil_append (UcsArbiterElemPtr.dispatchDummy :: _)] at hc'
    exact hc'.next_of_append
  obtain ⟨p, t, hp⟩ : ∃ p t, (e :: q).map UcsArbiterElemPtr.elem = p ++ [t] := by
    rcases ((e :: q).map UcsArbiterElemPtr.elem).eq_nil_or_concat' with hn | hpt
    · simp at hn
    · exact hpt
  have ht : ((e :: q).map UcsArbiterElemPtr.elem).getLast? = some t := by
    rw [hp, List.getLast?_concat]
  have hnd := ringOf_nodup a (some g) (h.nodup g)
  rw [ringOf_self, hq, hp] at hnd
  have htp : t ∉ p := not_mem_of_nodup_append_singleton (List.nodup_cons.mp hnd).2
  have htail : s.tail g = some t := by
    rw [h.tail g, ringOf_self, hq, hp, ← List.cons_append, List.getLast?_concat]
  refine ⟨hnext, t, htail, fun g' => ?_, fun g' => ?_, h.nodup, h.group⟩
  · simp only [setNext_tail]
    by_cases hg : g' = g
    · subst hg
      rw [htail, ringOf_none, hq, ht]
    · rw [h.tail g', ringOf_some_of_ne a hg]
  · by_cases hg : g' = g
    · subst hg
      have hc' : IsCycle s.next ([] ++ UcsArbiterElemPtr.dispatchDummy ::
          (e :: q).map UcsArbiterElemPtr.elem) := hc
      have hu := hc'.unlink (p := p) (by simpa using hp) htp
      rw [hnext] at hu
      simpa [hq] using hu
    · rw [← ringOf_some_of_ne a hg]
      refine (h.cycle g').update_of_not_mem fun hm => hg (h.eq_of_mem hm ?_)
      rw [ringOf_self, hq, hp]
      simp

/-- The last element was removed: the dummy is alone in the ring, and the group is empty. -/
theorem RingsRepr.lastRemoved (h : RingsRepr s a (some g)) (hq : a.queues g = []) :
    s.next .dispatchDummy = .dispatchDummy ∧ RingsRepr (s.setTail g none) a none := by
  have hc := h.cycle g
  rw [ringOf_self, hq] at hc
  refine ⟨isCycle_singleton.mp (by simpa using hc), fun g' => ?_, fun g' => ?_, h.nodup,
    h.group⟩
  · by_cases hg : g' = g
    · subst hg
      simp [hq]
    · simp [hg, h.tail g', ringOf_some_of_ne a hg]
  · by_cases hg : g' = g
    · subst hg
      simp [hq]
    · rw [← ringOf_some_of_ne a hg]
      exact h.cycle g'

/-- `ucs_arbiter_remove_and_reset_if_scheduled` takes the element out of the arbiter's list if
its flag says it is in it. -/
lemma ucsArbiterRemoveAndResetIfScheduled_eq {x : Ptr} (hx : s.listLinked x = true ↔ x ∈ s.list) :
    ucsArbiterRemoveAndResetIfScheduled s x =
      { s with list := s.list.erase x, listLinked := update s.listLinked x false } := by
  unfold ucsArbiterRemoveAndResetIfScheduled ucsArbiterGroupHeadReset
  split
  · rfl
  · rename_i hl
    have hm : x ∉ s.list := fun hm => hl (hx.mpr hm)
    simp only [Bool.not_eq_true] at hl
    rw [List.erase_of_not_mem hm, ← hl, update_eq_self]

/-- The removal writes the arbiter's list and the link flags only. -/
lemma ucsArbiterRemoveAndResetIfScheduled_rings (x : Ptr) :
    (ucsArbiterRemoveAndResetIfScheduled s x).tail = s.tail ∧
      (ucsArbiterRemoveAndResetIfScheduled s x).next = s.next ∧
      (ucsArbiterRemoveAndResetIfScheduled s x).group = s.group := by
  unfold ucsArbiterRemoveAndResetIfScheduled
  split <;> exact ⟨rfl, rfl, rfl⟩

lemma listAddTail_setLinked (x : Ptr) (b : Bool) :
    (s.setLinked x b).listAddTail x = s.listAddTail x := by
  cases s
  simp [UcsArbiter.listAddTail, UcsArbiter.setLinked]

/-! ### The arbiter's list: the dummy hands the group's place on -/

lemma headOf_ne_dummy {g' : ℕ} (hne : a.ringOf (some g) g' ≠ []) (hg : g' ≠ g) :
    a.headOf (some g) g' ≠ .dispatchDummy := fun he => by
  have hm := headOf_mem a _ hne
  rw [he, dispatchDummy_mem_ringOf] at hm
  exact hg (Option.some.inj hm).symm

lemma headOf_none_ne_dummy (hne : a.ringOf none g ≠ []) : a.headOf none g ≠ .dispatchDummy :=
  fun he => by simpa [he] using headOf_mem a none hne

/-- While group `g` is dispatched, the dummy stands for it in the arbiter's list. -/
lemma SchedRepr.dummy_mem_iff (hs : SchedRepr s a (some g) resched reschedList) :
    .dispatchDummy ∈ s.list ↔ g ∈ a.sched := by
  rw [hs.list, List.mem_map]
  constructor
  · rintro ⟨g', hg', he⟩
    by_contra hg
    have hgg : g' ≠ g := by rintro rfl; exact hg hg'
    exact headOf_ne_dummy (hs.nonempty g' (List.mem_append_left _ hg')) hgg he
  · exact fun hg => ⟨g, hg, headOf_some_self a⟩

lemma SchedRepr.dummy_linked_iff (hs : SchedRepr s a (some g) resched reschedList)
    (hgr : g ∉ resched) : s.listLinked .dispatchDummy = true ↔ g ∈ a.sched := by
  simpa [hgr] using hs.linked g (ringOf_some_self_ne_nil a)

/-- The group to serve leaves the arbiter and its head gives way to the dummy. -/
theorem SchedRepr.enter (hs : SchedRepr s a none resched reschedList) {q : List ℕ}
    (hg : g ∉ a.sched ++ resched) (hd : s.listLinked .dispatchDummy = false)
    (hlist : s'.list = s.list) (hlinked : s'.listLinked = s.listLinked) :
    SchedRepr s' { a with queues := update a.queues g q } (some g) resched reschedList := by
  refine hs.of_heads hlist rfl (fun g' hg' => ?_) (fun g' hg' => ?_)
  · have hgg : g' ≠ g := by rintro rfl; exact hg hg'
    rw [headOf_update_of_ne a _ hgg, ringOf_update_of_ne a _ hgg, headOf_some_of_ne a hgg,
      ringOf_some_of_ne a hgg]
    exact ⟨rfl, hs.nonempty g' hg'⟩
  · by_cases hgg : g' = g
    · subst hgg
      simp [hlinked, hd, hg]
    · rw [ringOf_update_of_ne a _ hgg, ringOf_some_of_ne a hgg] at hg'
      rw [headOf_update_of_ne a _ hgg, headOf_some_of_ne a hgg, hlinked]
      exact hs.linked g' hg'

section Leave

/-! Once the dummy has left group `g`'s ring, the heap `s'` represents `a'`, which differs
from `a` at most in `g`'s queue. -/

variable (hs : SchedRepr s a (some g) resched reschedList) (hgr : g ∉ resched)
  (hr' : RingsRepr s' a' none) (hq : ∀ g' ≠ g, a'.queues g' = a.queues g')
include hq

lemma ringOf_none_of_ne {g' : ℕ} (hg : g' ≠ g) : a'.ringOf none g' = a.ringOf (some g) g' := by
  rw [ringOf_some_of_ne a hg]
  simp [hq g' hg]

lemma headOf_none_of_ne {g' : ℕ} (hg : g' ≠ g) : a'.headOf none g' = a.headOf (some g) g' := by
  rw [headOf, ringOf_none_of_ne hq hg, headOf]

include hs hgr

lemma reschedList_of_leave : reschedList = resched.map (a'.headOf none) := by
  rw [hs.reschedList]
  exact List.map_congr_left fun g' hg' =>
    (headOf_none_of_ne hq fun h => hgr (h ▸ hg')).symm

/-- The dummy leaves the arbiter and group `g` is not scheduled any more; its head, if it has
one, is not linked. -/
theorem SchedRepr.leave (hsched : a'.sched = a.sched) (hlist : s'.list = s.list)
    (hlinked : s'.listLinked = s.listLinked)
    (hh : a'.queues g ≠ [] → s.listLinked (a'.headOf none g) = false) :
    SchedRepr (ucsArbiterRemoveAndResetIfScheduled s' .dispatchDummy)
      { a' with sched := a'.sched.erase g } none resched reschedList := by
  have hnd : a.sched.Nodup := (List.nodup_append.mp hs.nodup).1
  have hdl : s'.listLinked .dispatchDummy = true ↔ .dispatchDummy ∈ s'.list := by
    rw [hlinked, hlist, hs.dummy_linked_iff hgr, hs.dummy_mem_iff]
  rw [ucsArbiterRemoveAndResetIfScheduled_eq hdl]
  refine ⟨?_, reschedList_of_leave hs hgr hq, ?_, fun g' hg' => ?_, fun g' hg' => ?_⟩
  · -- the dummy stood for `g`, and only for it
    set H := a.headOf (some g)
    have hH : ∀ b ∈ a.sched, H b = H g → b = g := fun b hb he => by
      by_contra hbg
      exact headOf_ne_dummy (hs.nonempty b (List.mem_append_left _ hb)) hbg
        (he.trans (headOf_some_self a))
    have hHg : H g = .dispatchDummy := headOf_some_self a
    simp only [hlist, hs.list, hsched, headOf_with_sched]
    rw [← hHg, ← List.map_erase_of_forall hH]
    exact List.map_congr_left fun g' hg' =>
      (headOf_none_of_ne hq (hnd.mem_erase_iff.mp hg').1).symm
  · rw [hsched]
    exact hs.nodup.sublist (List.erase_sublist.append_right _)
  · have hgg : g' ≠ g := by
      rintro rfl
      rcases List.mem_append.mp hg' with hm | hm
      · exact hnd.not_mem_erase (hsched ▸ hm)
      · exact hgr hm
    rw [ringOf_with_sched, ringOf_none_of_ne hq hgg]
    refine hs.nonempty g' ?_
    rcases List.mem_append.mp hg' with hm | hm
    · exact List.mem_append_left _ (List.mem_of_mem_erase (hsched ▸ hm))
    · exact List.mem_append_right _ hm
  · rw [ringOf_with_sched] at hg'
    simp only [headOf_with_sched, hlinked, hsched]
    rw [update_of_ne (headOf_none_ne_dummy hg')]
    by_cases hgg : g' = g
    · subst hgg
      rw [hh (by simpa using hg')]
      simpa using ⟨hnd.not_mem_erase, hgr⟩
    · have hr₀ : a.ringOf (some g) g' ≠ [] := ringOf_none_of_ne hq hgg ▸ hg'
      rw [headOf_none_of_ne hq hgg, hs.linked g' hr₀]
      simp [List.mem_erase_of_ne hgg]

include hr'

/-- The group keeps its place in the arbiter, the dummy's, if it had one: its head `h` is in
the list where the dummy was, and linked iff the dummy was. -/
theorem SchedRepr.swap (hsched : a'.sched = a.sched) (hne : a'.queues g ≠ [])
    (hlist : s'.list = s.list.map fun z => if z = .dispatchDummy then a'.headOf none g else z)
    (hlinked : ∀ x, x ≠ .dispatchDummy → x ≠ a'.headOf none g →
      s'.listLinked x = s.listLinked x)
    (hh : s'.listLinked (a'.headOf none g) = s.listLinked .dispatchDummy) :
    SchedRepr s' a' none resched reschedList := by
  have hne' : a'.ringOf none g ≠ [] := by simpa using hne
  refine ⟨?_, reschedList_of_leave hs hgr hq, hsched ▸ hs.nodup, fun g' hg' => ?_,
    fun g' hg' => ?_⟩
  · rw [hlist, hs.list, List.map_map, hsched]
    refine List.map_congr_left fun g' hg' => ?_
    by_cases hgg : g' = g
    · subst hgg
      simp
    · have hd := headOf_ne_dummy (hs.nonempty g' (List.mem_append_left _ hg')) hgg
      simp [hd, headOf_none_of_ne hq hgg]
  · by_cases hgg : g' = g
    · subst hgg
      exact hne'
    · rw [ringOf_none_of_ne hq hgg]
      exact hs.nonempty g' (hsched ▸ hg')
  · rw [hsched]
    by_cases hgg : g' = g
    · subst hgg
      rw [hh]
      simpa using hs.linked g' (ringOf_some_self_ne_nil a)
    · have hr₀ : a.ringOf (some g) g' ≠ [] := ringOf_none_of_ne hq hgg ▸ hg'
      have hd : a'.headOf none g' ≠ .dispatchDummy := by
        rw [headOf_none_of_ne hq hgg]
        exact headOf_ne_dummy hr₀ hgg
      rw [hlinked _ hd (hr'.headOf_ne hne' hg' hgg), headOf_none_of_ne hq hgg]
      exact hs.linked g' hr₀

end Leave

/-- `RESCHED_GROUP`: the group's head goes to the dispatch's resched list. -/
theorem SchedRepr.addResched (hr : RingsRepr s a cur) (hs : SchedRepr s a cur resched reschedList)
    (hne : a.ringOf cur g ≠ []) (hg : g ∉ a.sched ++ resched) :
    SchedRepr (s.setLinked (a.headOf cur g) true) a cur (resched ++ [g])
      (reschedList ++ [a.headOf cur g]) where
  list := hs.list
  reschedList := by simp [hs.reschedList]
  nodup := by
    rw [← List.append_assoc]
    exact hs.nodup.append (List.nodup_singleton g) (by simpa using hg)
  nonempty := fun g' hg' => by
    rw [← List.append_assoc, List.mem_append, List.mem_singleton] at hg'
    rcases hg' with hm | rfl
    · exact hs.nonempty g' hm
    · exact hne
  linked := fun g' hg' => by
    by_cases hgg : g' = g
    · subst hgg
      simp
    · simp only [setLinked_listLinked, update_of_ne (hr.headOf_ne hne hg' hgg), hs.linked g' hg']
      simp [hgg]

/-- `STOP`: the group's head goes back to the front of the arbiter. -/
theorem SchedRepr.listAddHead (hr : RingsRepr s a cur)
    (hs : SchedRepr s a cur resched reschedList) (hne : a.ringOf cur g ≠ [])
    (hg : g ∉ a.sched ++ resched) :
    SchedRepr (s.listAddHead (a.headOf cur g)) { a with sched := g :: a.sched } cur resched
      reschedList where
  list := by simp [hs.list]
  reschedList := hs.reschedList
  nodup := List.nodup_cons.mpr ⟨hg, hs.nodup⟩
  nonempty := fun g' hg' => by
    rcases List.mem_cons.mp hg' with rfl | hm
    · exact hne
    · exact hs.nonempty g' hm
  linked := fun g' hg' => by
    by_cases hgg : g' = g
    · subst hgg
      simp
    · simp only [ringOf_with_sched] at hg'
      simp only [listAddHead_listLinked, setLinked_listLinked, headOf_with_sched,
        update_of_ne (hr.headOf_ne hne hg' hgg), hs.linked g' hg']
      simp [hgg]

lemma ucsArbiterRemoveAndResetIfScheduled_listLinked_self (x : Ptr) :
    (ucsArbiterRemoveAndResetIfScheduled s x).listLinked x = false := by
  unfold ucsArbiterRemoveAndResetIfScheduled ucsArbiterGroupHeadReset
  split
  · simp
  · rename_i h
    simpa using h

lemma map_replace_of_not_mem {l : List Ptr} {x y : Ptr} (hx : x ∉ l) :
    (l.map fun z => if z = x then y else z) = l := by
  conv_rhs => rw [← List.map_id l]
  exact List.map_congr_left fun z hz => if_neg (by rintro rfl; exact hx hz)

/-! ### The callback's own operations -/

lemma ArbiterSpec.queued_push_of_ne {e e' g' : ℕ} (he : e ≠ e') :
    (a.push g' e').Queued e ↔ a.Queued e := by
  unfold ArbiterSpec.push
  split
  · rfl
  · constructor
    · rintro ⟨g'', hm⟩
      by_cases hg : g'' = g'
      · subst hg
        exact ⟨g'', by simpa [he] using hm⟩
      · exact ⟨g'', by simpa [hg] using hm⟩
    · rintro ⟨g'', hm⟩
      by_cases hg : g'' = g'
      · subst hg
        exact ⟨g'', by simp [hm]⟩
      · exact ⟨g'', by simpa [hg] using hm⟩

lemma ucsArbiterGroupPushElem_listLinked_of_ne {g' e' : ℕ} {x : Ptr} (hx : x ≠ .elem e') :
    (ucsArbiterGroupPushElem s g' (.elem e')).listLinked x = s.listLinked x := by
  unfold ucsArbiterGroupPushElem
  split
  · rfl
  · cases ht : s.tail g'
    · simp [ucsArbiterGroupPushElemAlways_of_none ht, update_of_ne hx]
    · simp [ucsArbiterGroupPushElemAlways_of_some ht]

/-- A callback's push or scheduling while group `g` is dispatched. -/
theorem cbOp_repr (hr : RingsRepr s a (some g))
    (hs : SchedRepr s a (some g) resched reschedList) (op : UcsArbiterCbOp) :
    RingsRepr (ucsArbiterCbOp s op) (specCbOp g resched a op) (some g) ∧
      SchedRepr (ucsArbiterCbOp s op) (specCbOp g resched a op) (some g) resched
        reschedList := by
  cases op with
  | pushElem g' e => exact ⟨hr.pushElem g' e, hs.pushElem hr g' e⟩
  | groupSchedule g' =>
    -- the dispatched group counts as non-empty: its ring holds the dummy
    have hc : (a.queues g' ≠ [] ∨ g' = g) ∧ g' ∉ a.sched ∧ g' ∉ resched ↔
        a.ringOf (some g) g' ≠ [] ∧ g' ∉ a.sched ++ resched := by
      by_cases hg : g' = g
      · subst hg
        simp [ringOf_self]
      · simp [ringOf_some_of_ne a hg, hg]
    simp only [ucsArbiterCbOp, specCbOp, hr.schedule_eq hs g']
    by_cases h : a.ringOf (some g) g' ≠ [] ∧ g' ∉ a.sched ++ resched
    · rw [if_pos h, if_pos (hc.mpr h)]
      exact ⟨hr.of_eq rfl rfl rfl rfl, hs.listAddTail hr h.1 h.2⟩
    · rw [if_neg h, if_neg (mt hc.mp h)]
      exact ⟨hr, hs⟩

theorem cbOps_repr (hr : RingsRepr s a (some g))
    (hs : SchedRepr s a (some g) resched reschedList) (ops : List UcsArbiterCbOp) :
    RingsRepr (ops.foldl ucsArbiterCbOp s) (ops.foldl (specCbOp g resched) a) (some g) ∧
      SchedRepr (ops.foldl ucsArbiterCbOp s) (ops.foldl (specCbOp g resched) a) (some g)
        resched reschedList := by
  induction ops generalizing s a with
  | nil => exact ⟨hr, hs⟩
  | cons op ops ih =>
    obtain ⟨hr₁, hs₁⟩ := cbOp_repr hr hs op
    exact ih hr₁ hs₁

/-- An operation that does not push `e` leaves it out of every queue and unlinked. -/
theorem cbOp_free (hr : RingsRepr s a (some g))
    (hs : SchedRepr s a (some g) resched reschedList) {e : ℕ} (he : ¬ a.Queued e)
    (hl : s.listLinked (.elem e) = false) {op : UcsArbiterCbOp} (hop : op.pushed ≠ some e) :
    ¬ (specCbOp g resched a op).Queued e ∧ (ucsArbiterCbOp s op).listLinked (.elem e) = false := by
  cases op with
  | pushElem g' e' =>
    have hee : e ≠ e' := fun h => hop (by simp [UcsArbiterCbOp.pushed, h])
    refine ⟨by simpa [specCbOp, ArbiterSpec.queued_push_of_ne hee] using he, ?_⟩
    rw [ucsArbiterCbOp, ucsArbiterGroupPushElem_listLinked_of_ne (by simpa using hee), hl]
  | groupSchedule g' =>
    refine ⟨?_, ?_⟩
    · rintro ⟨g'', hm⟩
      refine he ⟨g'', ?_⟩
      simp only [specCbOp] at hm
      split at hm <;> exact hm
    · simp only [ucsArbiterCbOp, hr.schedule_eq hs g']
      split
      · rename_i h
        have hx : a.headOf (some g) g' ≠ .elem e := fun hx =>
          he ⟨g', (elem_mem_ringOf a _).mp (hx ▸ headOf_mem a _ h.1)⟩
        simp [update_of_ne hx.symm, hl]
      · exact hl

/-- A callback that does not push the element it keeps leaves it free and unlinked. -/
theorem cbOps_free (hr : RingsRepr s a (some g))
    (hs : SchedRepr s a (some g) resched reschedList) {e : ℕ} (he : ¬ a.Queued e)
    (hl : s.listLinked (.elem e) = false) (ops : List UcsArbiterCbOp)
    (hops : ∀ op ∈ ops, op.pushed ≠ some e) :
    ¬ (ops.foldl (specCbOp g resched) a).Queued e ∧
      (ops.foldl ucsArbiterCbOp s).listLinked (.elem e) = false := by
  induction ops generalizing s a with
  | nil => exact ⟨he, hl⟩
  | cons op ops ih =>
    obtain ⟨hr₁, hs₁⟩ := cbOp_repr hr hs op
    obtain ⟨he₁, hl₁⟩ := cbOp_free hr hs he hl (hops op (List.mem_cons_self ..))
    exact ih hr₁ hs₁ he₁ hl₁ fun op' hop' => hops op' (List.mem_cons_of_mem op hop')

/-! ### One callback -/

/-- Between two callbacks of a dispatch: the heap represents the scheduler with the groups set
aside so far, the dummy is out of the arbiter, and both have made the same callbacks. -/
structure DispatchRepr (d : UcsArbiterDispatch) (sd : SpecDispatch) : Prop where
  rings : RingsRepr d.arbiter sd.spec none
  sched : SchedRepr d.arbiter sd.spec none sd.resched d.reschedList
  dummy : d.arbiter.listLinked .dispatchDummy = false
  calls : d.calls = sd.calls

/-- Before a callback on group `g`: the group is out of the arbiter, and not empty. -/
structure CallRepr (d : UcsArbiterDispatch) (sd : SpecDispatch) (g : ℕ) : Prop
    extends DispatchRepr d sd where
  nonempty : sd.spec.queues g ≠ []
  unsched : g ∉ sd.spec.sched ++ sd.resched

/-- After a callback on group `g` the heap and the scheduler go on the same way, represented:
on with the group's new head, on with the next group, or out of the loop. -/
def NextRepr (g : ℕ) : UcsArbiterDispatch × DispatchNext → SpecDispatch × DispatchNext → Prop
  | (d, .sameGroup p), (sd, .sameGroup _) => CallRepr d sd g ∧ p = sd.spec.headOf none g
  | (d, .nextGroup), (sd, .nextGroup) => DispatchRepr d sd
  | (d, .stop), (sd, .stop) => DispatchRepr d sd
  | _, _ => False

variable {d : UcsArbiterDispatch} {sd : SpecDispatch}

@[simp] lemma nextRepr_sameGroup {p p' : Ptr} :
    NextRepr g (d, .sameGroup p) (sd, .sameGroup p') ↔
      CallRepr d sd g ∧ p = sd.spec.headOf none g := Iff.rfl

@[simp] lemma nextRepr_nextGroup :
    NextRepr g (d, .nextGroup) (sd, .nextGroup) ↔ DispatchRepr d sd := Iff.rfl

@[simp] lemma nextRepr_stop : NextRepr g (d, .stop) (sd, .stop) ↔ DispatchRepr d sd := Iff.rfl

/-- After a callback that removed its element. -/
theorem dispatchRemove_refines (hr : RingsRepr d.arbiter sd.spec (some g))
    (hs : SchedRepr d.arbiter sd.spec (some g) sd.resched d.reschedList) (hgr : g ∉ sd.resched)
    (hcalls : d.calls = sd.calls) (perGroup count : ℕ) :
    NextRepr g (dispatchRemove perGroup d g count) (specDispatchRemove perGroup sd g count) := by
  have hdl := hs.dummy_linked_iff hgr
  unfold dispatchRemove specDispatchRemove
  rcases hq : sd.spec.queues g with _ | ⟨e', q'⟩
  · -- the last element went: the group is empty and leaves the arbiter
    obtain ⟨hnext, hr'⟩ := hr.lastRemoved hq
    have hrr := ucsArbiterRemoveAndResetIfScheduled_rings (s := d.arbiter.setTail g none)
      .dispatchDummy
    simp only [hnext, hq, if_true, nextRepr_nextGroup]
    exact ⟨hr'.of_eq hrr.1 hrr.2.1 hrr.2.2 rfl,
      hs.leave hgr (fun _ _ => rfl) rfl rfl rfl (fun h => absurd hq h),
      ucsArbiterRemoveAndResetIfScheduled_listLinked_self _, hcalls⟩
  · -- the element after the dummy is the group's new head
    obtain ⟨hnext, t, ht, hr'⟩ := hr.unlinkDummy hq
    have hhead : sd.spec.headOf none g = .elem e' := by simp [headOf, hq]
    have hne : sd.spec.queues g ≠ [] := by simp [hq]
    simp only [hnext, hq, reduceCtorEq, if_false, ht, setNext_listLinked]
    by_cases hg : g ∈ sd.spec.sched
    · -- the callback scheduled the group again: its new head takes the dummy's place
      simp only [hdl.mpr hg, if_true, hg, nextRepr_nextGroup]
      refine ⟨hr'.of_eq rfl rfl rfl rfl, hs.swap hgr (hr'.of_eq rfl rfl rfl rfl)
        (fun _ _ => rfl) rfl hne ?_ ?_ ?_, by simp [ucsArbiterGroupHeadReset], hcalls⟩
      · simp [ucsArbiterGroupHeadReset, hhead]
      · intro x hx hx'
        simp [ucsArbiterGroupHeadReset, update_of_ne hx, update_of_ne (hhead ▸ hx')]
      · simp [ucsArbiterGroupHeadReset, hhead, hdl.mpr hg]
    · have hl : d.arbiter.listLinked .dispatchDummy = false := by simpa using mt hdl.mp hg
      have hgs : g ∉ sd.spec.sched ++ sd.resched := by simpa [hg] using hgr
      -- the new head, unlinked, stands for the group outside the arbiter
      have hsw : SchedRepr ((d.arbiter.setNext t (.elem e')).setLinked (.elem e') false) sd.spec
          none sd.resched d.reschedList := by
        refine hs.swap hgr (hr'.of_eq rfl rfl rfl rfl) (fun _ _ => rfl) rfl hne ?_ ?_ ?_
        · simpa using (map_replace_of_not_mem (mt hs.dummy_mem_iff.mp hg)).symm
        · intro x _ hx'
          simp [update_of_ne (hhead ▸ hx')]
        · simp [hhead, hl]
      have hr'' : RingsRepr ((d.arbiter.setNext t (.elem e')).setLinked (.elem e') false)
          sd.spec none := hr'.of_eq rfl rfl rfl rfl
      simp only [hl, Bool.false_eq_true, if_false, hg]
      by_cases hp : perGroup ≤ count
      · -- it has had its callbacks: to the arbiter's tail
        simp only [hp, if_true, nextRepr_nextGroup]
        have := hsw.listAddTail hr'' (by simpa using hne) hgs
        rw [hhead, listAddTail_setLinked] at this
        exact ⟨hr'.of_eq rfl rfl rfl rfl, this, by simp [hl], hcalls⟩
      · simp only [hp, if_false, nextRepr_sameGroup]
        exact ⟨⟨⟨hr'', hsw, by simp [ucsArbiterGroupHeadReset, hl], hcalls⟩, by simpa using hne, hgs⟩,
          hhead.symm⟩

/-- After a callback that kept its element `e`, which the callback left free and unlinked. -/
theorem dispatchKeep_refines (hr : RingsRepr d.arbiter sd.spec (some g))
    (hs : SchedRepr d.arbiter sd.spec (some g) sd.resched d.reschedList) (hgr : g ∉ sd.resched)
    (hcalls : d.calls = sd.calls) {e : ℕ} (he : ¬ sd.spec.Queued e)
    (hl : d.arbiter.listLinked (.elem e) = false) (result : UcsArbiterCbResult) :
    NextRepr g (dispatchKeep d g (.elem e) result) (specDispatchKeep sd g e result) := by
  set s₄ := ucsArbiterGroupHeadReplace (ucsArbiterElemSetScheduled d.arbiter (.elem e) g) g
    .dispatchDummy (.elem e) with hs₄
  set a₄ : ArbiterSpec := { sd.spec with queues := update sd.spec.queues g (e :: sd.spec.queues g) }
  have hr₄ : RingsRepr s₄ a₄ none := hr.fromDummy he
  have hf : s₄.list = d.arbiter.list ∧ s₄.listLinked = d.arbiter.listLinked :=
    ⟨(ucsArbiterGroupHeadReplace_fields _ _).1, (ucsArbiterGroupHeadReplace_fields _ _).2.1⟩
  have hq : ∀ g' ≠ g, a₄.queues g' = sd.spec.queues g' := fun g' hg => update_of_ne hg _ _
  have hne : a₄.ringOf none g ≠ [] := by simp [a₄]
  have hhead : a₄.headOf none g = .elem e := by simp [a₄, headOf]
  have hnd : sd.spec.sched.Nodup := (List.nodup_append.mp hs.nodup).1
  have hg₅ : g ∉ a₄.sched.erase g ++ sd.resched := by simpa using ⟨hnd.not_mem_erase, hgr⟩
  -- the dummy leaves the arbiter, if it is in it, before the head is put back
  have hleave := hs.leave hgr hq rfl hf.1 hf.2 (fun _ => hhead ▸ hl)
  have hrr := ucsArbiterRemoveAndResetIfScheduled_rings (s := s₄) .dispatchDummy
  have hr₅ : RingsRepr (ucsArbiterRemoveAndResetIfScheduled s₄ .dispatchDummy)
      { a₄ with sched := a₄.sched.erase g } none := hr₄.of_eq hrr.1 hrr.2.1 hrr.2.2 rfl
  have hd₅ := ucsArbiterRemoveAndResetIfScheduled_listLinked_self (s := s₄) .dispatchDummy
  unfold dispatchKeep specDispatchKeep
  simp only [← hs₄]
  cases result with
  | deschedGroup =>
    -- a recursive scheduling of the group is taken over by the head
    by_cases hd : d.arbiter.listLinked .dispatchDummy = true
    · simp only [hf.2, hd, if_true, nextRepr_nextGroup]
      refine ⟨hr₄.of_eq rfl rfl rfl rfl, hs.swap hgr (hr₄.of_eq rfl rfl rfl rfl) hq rfl
        (by simp) ?_ ?_ ?_, by simp [ucsArbiterGroupHeadReset], hcalls⟩
      · simp [ucsArbiterGroupHeadReset, headOf, hf.1]
      · intro x hx hx'
        simp [ucsArbiterGroupHeadReset, update_of_ne hx, update_of_ne (hhead ▸ hx'), hf.2]
      · simp [ucsArbiterGroupHeadReset, headOf, hf.2, hd]
    · have hd' : d.arbiter.listLinked .dispatchDummy = false := by simpa using hd
      have hg : g ∉ sd.spec.sched := fun hm => hd ((hs.dummy_linked_iff hgr).mpr hm)
      simp only [hf.2, hd', Bool.false_eq_true, if_false, nextRepr_nextGroup]
      refine ⟨hr₄, hs.swap hgr hr₄ hq rfl (by simp) ?_ (fun x _ _ => by rw [hf.2]) ?_,
        by rw [hf.2, hd'], hcalls⟩
      · rw [hf.1]
        exact (map_replace_of_not_mem (mt hs.dummy_mem_iff.mp hg)).symm
      · rw [hhead, hf.2, hl, hd']
  | reschedGroup =>
    have := hleave.addResched hr₅ hne hg₅
    rw [headOf_with_sched, hhead] at this
    exact ⟨hr₅.of_eq rfl rfl rfl rfl, this, by simpa using hd₅, hcalls⟩
  | stop =>
    have := hleave.listAddHead hr₅ hne hg₅
    rw [headOf_with_sched, hhead] at this
    exact ⟨hr₅.of_eq rfl rfl rfl rfl, this, by simpa using hd₅, hcalls⟩
  | nextGroup =>
    have := hleave.listAddTail hr₅ hne hg₅
    rw [headOf_with_sched, hhead] at this
    exact ⟨hr₅.of_eq rfl rfl rfl rfl, this, by simpa using hd₅, hcalls⟩
  | removeElem =>
    have := hleave.listAddTail hr₅ hne hg₅
    rw [headOf_with_sched, hhead] at this
    exact ⟨hr₅.of_eq rfl rfl rfl rfl, this, by simpa using hd₅, hcalls⟩

/-- **One callback.** The head `e` of group `g` gives way to the dummy, the callback pushes and
schedules, and the element is removed or kept as in the scheduler; a kept element must not
have been pushed by the callback. -/
theorem dispatchElem_refines (h : CallRepr d sd g) {e : ℕ} {q : List ℕ}
    (hq : sd.spec.queues g = e :: q) (perGroup count : ℕ) (action : UcsArbiterCbAction)
    (hcb : action.result ≠ .removeElem → ∀ op ∈ action.ops, op.pushed ≠ some e) :
    NextRepr g (dispatchElem perGroup d g (.elem e) count action)
      (specDispatchElem perGroup sd g e count action) := by
  have hgr : g ∉ sd.resched := fun hm => h.unsched (List.mem_append_right _ hm)
  have hhead : sd.spec.headOf none g = .elem e := by simp [headOf, hq]
  have hring : sd.spec.ringOf none g ≠ [] := by simp [hq]
  -- the dummy stands in the ring for the element during the callback
  have hr₁ := h.rings.toDummy hq
  have hf := ucsArbiterGroupHeadReplace_fields (s := ucsArbiterElemInit d.arbiter (.elem e))
    (g := g) (.elem e) .dispatchDummy
  have hs₁ := h.sched.enter (q := q) h.unsched h.dummy hf.1 hf.2.1
  obtain ⟨hr₃, hs₃⟩ := cbOps_repr hr₁ hs₁ action.ops
  have htail : (sd.spec.queues g).tail = q := by simp [hq]
  unfold dispatchElem specDispatchElem
  simp only [htail]
  split
  · refine dispatchRemove_refines ?_ ?_ ?_ ?_ perGroup (count + 1)
    · exact hr₃
    · exact hs₃
    · exact hgr
    · simp [h.calls]
  · rename_i hres
    -- the kept element is in no queue and not linked, before the callback and after
    have hfree : ¬ ({ sd.spec with queues := update sd.spec.queues g q } : ArbiterSpec).Queued e := by
      rintro ⟨g', hm⟩
      have hg := (hr₁.group e g').mpr hm
      rw [hf.2.2] at hg
      simp [ucsArbiterElemInit] at hg
    have hl₁ : (ucsArbiterGroupHeadReplace (ucsArbiterElemInit d.arbiter (.elem e)) g (.elem e)
        .dispatchDummy).listLinked (.elem e) = false := by
      have hl := h.sched.linked g hring
      rw [hhead] at hl
      rw [hf.2.1]
      simpa [ucsArbiterElemInit, h.unsched] using hl
    obtain ⟨he₃, hl₃⟩ := cbOps_free hr₁ hs₁ hfree hl₁ action.ops (hcb hres)
    refine dispatchKeep_refines ?_ ?_ ?_ ?_ ?_ ?_ action.result
    · exact hr₃
    · exact hs₃
    · exact hgr
    · simp [h.calls]
    · exact he₃
    · exact hl₃

/-! ### The loop -/

/-- Where the two loops stand between callbacks: both about to take the next group, or both
about to serve group `g` again, at the same count. -/
def LoopRepr (d : UcsArbiterDispatch) (sd : SpecDispatch) :
    Option (ℕ × Ptr × ℕ) → Option (ℕ × ℕ) → Prop
  | none, none => DispatchRepr d sd
  | some (g, p, c), some (g', c') =>
    CallRepr d sd g ∧ p = sd.spec.headOf none g ∧ g' = g ∧ c' = c
  | _, _ => False

/-- The group at the front of the arbiter is taken out of it, and its head gets the call. -/
theorem DispatchRepr.extract (h : DispatchRepr d sd) {g : ℕ} {rest : List ℕ}
    (hsched : sd.spec.sched = g :: rest) :
    ∃ d₁ sd₁ e q, sd₁.spec.queues g = e :: q ∧ dispatchNextCall d none = .call d₁ g (.elem e) 0 ∧
      specNextCall sd none = .call sd₁ g e 0 ∧ CallRepr d₁ sd₁ g := by
  have hne : sd.spec.ringOf none g ≠ [] := h.sched.nonempty g (by simp [hsched])
  obtain ⟨e, q, hq⟩ : ∃ e q, sd.spec.queues g = e :: q := by
    rcases hq : sd.spec.queues g with _ | ⟨e, q⟩
    · simp [hq] at hne
    · exact ⟨e, q, rfl⟩
  have hhead : sd.spec.headOf none g = .elem e := by simp [headOf, hq]
  have hl : d.arbiter.list = .elem e :: rest.map (sd.spec.headOf none) := by
    simp [h.sched.list, hsched, hhead]
  have hgroup : d.arbiter.group (.elem e) = some g := (h.rings.group e g).mpr (by simp [hq])
  have hnd : (g :: (rest ++ sd.resched)).Nodup := by simpa [hsched] using h.sched.nodup
  let s₁ := (ucsArbiterGroupHeadReset { d.arbiter with list := rest.map (sd.spec.headOf none) }
    (UcsArbiterElemPtr.elem e)).setGroup UcsArbiterElemPtr.dispatchDummy (some g)
  refine ⟨{ d with arbiter := s₁ }, { sd with spec := { sd.spec with sched := rest } }, e, q, hq,
    by simp [dispatchNextCall, hl, hgroup, s₁], by simp [specNextCall, hsched, hq],
    ⟨⟨⟨h.rings.tail, h.rings.cycle, h.rings.nodup, fun e' g' => ?_⟩,
      ⟨by simp [s₁, ucsArbiterGroupHeadReset], ?_, ?_, fun g' hg' => ?_, fun g' hg' => ?_⟩, ?_,
      h.calls⟩, by simp [hq], ?_⟩⟩
  · simpa [s₁, ucsArbiterGroupHeadReset] using h.rings.group e' g'
  · exact h.sched.reschedList
  · exact (List.nodup_cons.mp hnd).2
  · exact h.sched.nonempty g' (by simp [hsched] at hg' ⊢; tauto)
  · -- the extracted head is unlinked, the other heads keep their flags
    simp only [ringOf_with_sched] at hg'
    simp only [s₁, setGroup_listLinked, ucsArbiterGroupHeadReset, setLinked_listLinked,
      headOf_with_sched]
    by_cases hgg : g' = g
    · subst hgg
      simpa [hhead] using (List.nodup_cons.mp hnd).1
    · rw [← hhead, update_of_ne (h.rings.headOf_ne hne hg' hgg), h.sched.linked g' hg', hsched]
      simp [hgg]
  · simp [s₁, ucsArbiterGroupHeadReset, h.dummy]
  · simpa using (List.nodup_cons.mp hnd).1

/-- Who gets the next callback, on both sides: nobody, or the same element of the same group. -/
theorem LoopRepr.nextCall {cur : Option (ℕ × Ptr × ℕ)} {cur' : Option (ℕ × ℕ)}
    (h : LoopRepr d sd cur cur') :
    (dispatchNextCall d cur = .done ∧ specNextCall sd cur' = .done ∧ DispatchRepr d sd) ∨
      ∃ d₁ sd₁ g e q c, dispatchNextCall d cur = .call d₁ g (.elem e) c ∧
        specNextCall sd cur' = .call sd₁ g e c ∧ CallRepr d₁ sd₁ g ∧
        sd₁.spec.queues g = e :: q := by
  match cur, cur', h with
  | none, none, h =>
    rcases hsched : sd.spec.sched with _ | ⟨g₀, rest⟩
    · left
      have hl : d.arbiter.list = [] := by simp [h.sched.list, hsched]
      exact ⟨by simp [dispatchNextCall, hl], by simp [specNextCall, hsched], h⟩
    · obtain ⟨d₁, sd₁, e, q, hq, h₁, h₂, hc⟩ := h.extract hsched
      exact .inr ⟨d₁, sd₁, g₀, e, q, 0, h₁, h₂, hc, hq⟩
  | some (g₀, p, n), some (g₁, n₁), ⟨hc, hp, hg, hn⟩ =>
    subst g₁ n₁
    obtain ⟨e, q, hq⟩ : ∃ e q, sd.spec.queues g₀ = e :: q := by
      rcases hq : sd.spec.queues g₀ with _ | ⟨e, q⟩
      · exact absurd hq hc.nonempty
      · exact ⟨e, q, rfl⟩
    have hp' : p = .elem e := by simp [hp, headOf, hq]
    exact .inr ⟨d, sd, g₀, e, q, n, by simp [dispatchNextCall, hp'],
      by simp [specNextCall, hq], hc, hq⟩

/-- **The dispatch loop refines the scheduler's**, callback by callback: with the same fuel
both fail or both end, represented, after the same callbacks. -/
theorem dispatchLoop_refines (perGroup : ℕ) {cb : ℕ → Ptr → UcsArbiterCbAction}
    (hcb : UcsArbiterCbAllowed cb) (fuel : ℕ) :
    ∀ d sd cur cur', LoopRepr d sd cur cur' →
      Option.Rel DispatchRepr (dispatchLoop perGroup cb fuel d cur)
        (specDispatchLoop perGroup cb fuel sd cur') := by
  induction fuel with
  | zero =>
    intro d sd cur cur' h
    rw [dispatchLoop, specDispatchLoop]
    rcases h.nextCall with ⟨h₁, h₂, hd⟩ | ⟨d₁, sd₁, g, e, q, c, h₁, h₂, -, -⟩
    · rw [h₁, h₂]
      exact .some hd
    · rw [h₁, h₂]
      exact .none
  | succ fuel ih =>
    intro d sd cur cur' h
    rw [dispatchLoop, specDispatchLoop]
    rcases h.nextCall with ⟨h₁, h₂, hd⟩ | ⟨d₁, sd₁, g, e, q, c, h₁, h₂, hc, hq⟩
    · rw [h₁, h₂]
      exact .some hd
    rw [h₁, h₂]
    dsimp only
    rw [hc.calls]
    -- one callback on each side, and the loops go on alike
    have hn := dispatchElem_refines hc hq perGroup c (cb sd₁.calls.length (.elem e)) (hcb _ e)
    generalize dispatchElem perGroup d₁ g (.elem e) c (cb sd₁.calls.length (.elem e)) = r at hn ⊢
    generalize specDispatchElem perGroup sd₁ g e c (cb sd₁.calls.length (.elem e)) = r' at hn ⊢
    rcases r with ⟨d₂, _ | _ | _⟩ <;> rcases r' with ⟨sd₂, _ | _ | _⟩ <;>
      simp only [NextRepr] at hn
    · exact ih d₂ sd₂ _ _ ⟨hn.1, hn.2, rfl, rfl⟩
    · exact ih d₂ sd₂ none none hn
    · exact .some hn

lemma optionRel_mono {α β : Type*} {r r' : α → β → Prop} (hr : ∀ x y, r x y → r' x y) :
    ∀ {o : Option α} {o' : Option β}, Option.Rel r o o' → Option.Rel r' o o'
  | _, _, .some h => .some (hr _ _ h)
  | _, _, .none => .none

/-- Two partial results related by `r` stay related by `r'` through maps that carry `r` to `r'`. -/
lemma optionRel_map {α β γ δ : Type*} {r : α → β → Prop} {r' : γ → δ → Prop}
    {f : α → γ} {f' : β → δ} (hf : ∀ x y, r x y → r' (f x) (f' y)) :
    ∀ {o : Option α} {o' : Option β}, Option.Rel r o o' → Option.Rel r' (o.map f) (o'.map f')
  | _, _, .some h => .some (hf _ _ h)
  | _, _, .none => .none

/-- The end of a dispatch: the groups set aside go to the arbiter's tail. -/
theorem DispatchRepr.finish (h : DispatchRepr d sd) :
    Represents { d.arbiter with list := d.arbiter.list ++ d.reschedList }
      { sd.spec with sched := sd.spec.sched ++ sd.resched } := by
  refine ⟨h.rings.of_eq rfl rfl rfl rfl, ⟨?_, rfl, by simpa using h.sched.nodup,
    fun g hg => ?_, fun g hg => ?_⟩⟩
  · simp [h.sched.list, h.sched.reschedList]
  · exact h.sched.nonempty g (by simpa using hg)
  · simpa using h.sched.linked g hg

/-- **`ucs_arbiter_dispatch` acts as `specDispatch`.** From a heap that represents the
scheduler and with a callback that keeps the contract, the two run out of fuel together or end
after the same callbacks, the heap representing the scheduler. -/
theorem Represents.dispatch (h : Represents s a) (perGroup : ℕ)
    {cb : ℕ → Ptr → UcsArbiterCbAction} (hcb : UcsArbiterCbAllowed cb) (fuel : ℕ) :
    Option.Rel (fun r r' => Represents r.1 r'.1 ∧ r.2 = r'.2)
      (ucsArbiterDispatch s perGroup cb fuel) (specDispatch a perGroup cb fuel) := by
  obtain ⟨hr, hs⟩ := h
  have hempty : s.list = [] ↔ a.sched = [] := by rw [hs.list, List.map_eq_nil_iff]
  unfold ucsArbiterDispatch specDispatch
  by_cases hl : a.sched = []
  · rw [if_pos (hempty.mpr hl), if_pos hl]
    exact .some ⟨⟨hr, hs⟩, rfl⟩
  rw [if_neg (mt hempty.mp hl), if_neg hl]
  -- the dummy starts out of the arbiter
  have h₀ : DispatchRepr ⟨ucsArbiterGroupHeadReset s .dispatchDummy, [], []⟩ ⟨a, [], []⟩ := by
    refine ⟨hr.of_eq rfl rfl rfl rfl, hs.of_heads rfl rfl (fun g hg => ⟨rfl, hs.nonempty g hg⟩)
      (fun g hg => ?_), by simp [ucsArbiterGroupHeadReset], rfl⟩
    simp only [ucsArbiterGroupHeadReset, setLinked_listLinked,
      update_of_ne (headOf_none_ne_dummy hg)]
    exact hs.linked g hg
  exact optionRel_map (fun _ _ hd => ⟨hd.finish, hd.calls⟩)
    (dispatchLoop_refines perGroup hcb fuel _ _ none none h₀)

/-! ### At most `per_group` callbacks a visit -/

lemma dispatchRemove_calls (perGroup : ℕ) (d : UcsArbiterDispatch) (g count : ℕ) :
    (dispatchRemove perGroup d g count).1.calls = d.calls := by
  unfold dispatchRemove
  dsimp only
  split_ifs <;> rfl

lemma dispatchRemove_sameGroup {perGroup : ℕ} {d : UcsArbiterDispatch} {g count : ℕ} {p' : Ptr}
    (h : (dispatchRemove perGroup d g count).2 = .sameGroup p') : ¬ perGroup ≤ count := by
  unfold dispatchRemove at h
  dsimp only at h
  -- the other branches end the visit
  split_ifs at h with h₁ h₂ h₃
  exact h₃

lemma dispatchKeep_calls (d : UcsArbiterDispatch) (g : ℕ) (p : Ptr) (result : UcsArbiterCbResult) :
    (dispatchKeep d g p result).1.calls = d.calls := by
  unfold dispatchKeep
  split <;> rfl

lemma dispatchElem_calls (perGroup : ℕ) (d : UcsArbiterDispatch) (g : ℕ) (p : Ptr) (count : ℕ)
    (action : UcsArbiterCbAction) :
    (dispatchElem perGroup d g p count action).1.calls = d.calls ++ [(g, p, count)] := by
  unfold dispatchElem
  split
  · rw [dispatchRemove_calls]
  · rw [dispatchKeep_calls]

/-- The loop serves a group again only while its visit has callbacks left. -/
lemma dispatchElem_sameGroup {perGroup : ℕ} {d : UcsArbiterDispatch} {g : ℕ} {p p' : Ptr}
    {count : ℕ} {action : UcsArbiterCbAction}
    (h : (dispatchElem perGroup d g p count action).2 = .sameGroup p') : count + 1 < perGroup := by
  unfold dispatchElem at h
  dsimp only at h
  split at h
  · have := dispatchRemove_sameGroup h
    omega
  · unfold dispatchKeep at h
    dsimp only at h
    split at h <;> cases h

lemma dispatchNextCall_call {cur : Option (ℕ × Ptr × ℕ)} {d₁ : UcsArbiterDispatch} {g : ℕ}
    {p : Ptr} {n : ℕ} (h : dispatchNextCall d cur = .call d₁ g p n) :
    d₁.calls = d.calls ∧ (n = 0 ∨ ∃ g' p', cur = some (g', p', n)) := by
  unfold dispatchNextCall at h
  split at h
  · cases h
    exact ⟨rfl, .inr ⟨_, _, rfl⟩⟩
  · split at h
    · cases h
    · split at h
      · cases h
      · cases h
        exact ⟨rfl, .inl rfl⟩

/-- A callback numbered as `dispatchNextCall` numbers it keeps every call below `per_group`. -/
lemma dispatchElem_calls_lt {perGroup : ℕ} (hp : 0 < perGroup) {d d₁ : UcsArbiterDispatch}
    {cur : Option (ℕ × Ptr × ℕ)} {g : ℕ} {p : Ptr} {n : ℕ}
    (hcall : dispatchNextCall d cur = .call d₁ g p n) (hd : ∀ c ∈ d.calls, c.2.2 < perGroup)
    (hcur : ∀ g p n, cur = some (g, p, n) → n < perGroup) (action : UcsArbiterCbAction) :
    ∀ c ∈ (dispatchElem perGroup d₁ g p n action).1.calls, c.2.2 < perGroup := by
  obtain ⟨hc₁, hn⟩ := dispatchNextCall_call hcall
  intro c hc
  rw [dispatchElem_calls, hc₁] at hc
  rcases List.mem_append.mp hc with hc | hc
  · exact hd c hc
  · -- the new call: the first of a visit, or one more than the call before it
    rw [List.mem_singleton.mp hc]
    rcases hn with rfl | ⟨g', p', hc'⟩
    · exact hp
    · exact hcur g' p' n hc'

/-- Each callback of the loop is numbered below `per_group` within its visit, as
`ucs_arbiter_dispatch_nonempty` asserts. -/
theorem dispatchLoop_count_lt {perGroup : ℕ} (cb : ℕ → Ptr → UcsArbiterCbAction)
    (hp : 0 < perGroup) (fuel : ℕ) :
    ∀ d cur d', dispatchLoop perGroup cb fuel d cur = some d' →
      (∀ c ∈ d.calls, c.2.2 < perGroup) → (∀ g p n, cur = some (g, p, n) → n < perGroup) →
      ∀ c ∈ d'.calls, c.2.2 < perGroup := by
  intro d cur
  fun_induction dispatchLoop perGroup cb fuel d cur with
  | case1 =>
    rintro d' ⟨⟩ hd -
    exact hd
  | case2 => rintro d' ⟨⟩
  | case3 => rintro d' ⟨⟩
  | case4 d cur d₁ g p n hcall fuel d₂ p' helem ih =>
    intro d' h hd hcur
    have hd₂ := dispatchElem_calls_lt hp hcall hd hcur (cb d₁.calls.length p)
    rw [helem] at hd₂
    -- the next call of the visit is numbered `n + 1`
    have hsame : (dispatchElem perGroup d₁ g p n (cb d₁.calls.length p)).2 = .sameGroup p' := by
      rw [helem]
    refine ih d' h hd₂ ?_
    rintro _ _ _ ⟨⟩
    exact dispatchElem_sameGroup hsame
  | case5 d cur d₁ g p n hcall fuel d₂ helem ih =>
    intro d' h hd hcur
    have hd₂ := dispatchElem_calls_lt hp hcall hd hcur (cb d₁.calls.length p)
    rw [helem] at hd₂
    exact ih d' h hd₂ (by simp)
  | case6 d cur d₁ g p n hcall fuel d₂ helem =>
    rintro d' ⟨⟩ hd hcur
    have hd₂ := dispatchElem_calls_lt hp hcall hd hcur (cb d₁.calls.length p)
    rwa [helem] at hd₂

/-- **At most `per_group` callbacks a visit.** -/
theorem ucsArbiterDispatch_count_lt {perGroup : ℕ} {cb : ℕ → Ptr → UcsArbiterCbAction}
    {fuel : ℕ} {r : UcsArbiter × List (ℕ × Ptr × ℕ)} (hp : 0 < perGroup)
    (h : ucsArbiterDispatch s perGroup cb fuel = some r) : ∀ c ∈ r.2, c.2.2 < perGroup := by
  unfold ucsArbiterDispatch at h
  split at h
  · cases h
    simp
  · obtain ⟨d', hd', rfl⟩ := Option.map_eq_some_iff.mp h
    exact dispatchLoop_count_lt cb hp fuel _ none d' hd' (by simp) (by simp)

/-! ### Runs of the interface -/

/-- One call of the interface acts on the scheduler as `arbiterSpecStep`, with the same fuel. -/
theorem Represents.step (h : Represents s a) (fuel : ℕ) {op : UcsArbiterOp} (hop : op.Allowed) :
    Option.Rel (fun r r' => Represents r.1 r'.1 ∧ r.2 = r'.2 ∧
        ∀ p calls, (p, calls) ∈ r.2 → 0 < p → ∀ c ∈ calls, c.2.2 < p)
      (ucsArbiterStep fuel s op) (arbiterSpecStep fuel a op) := by
  cases op with
  | groupPushElem g e => exact .some ⟨⟨h.1.pushElem g e, h.2.pushElem h.1 g e⟩, rfl, by simp⟩
  | groupPushHeadElem g e => exact .some ⟨h.pushHeadElem g e, rfl, by simp⟩
  | groupSchedule g => exact .some ⟨h.schedule g, rfl, by simp⟩
  | groupDesched g => exact .some ⟨h.desched g, rfl, by simp⟩
  | groupPurge g remove =>
    obtain ⟨s', hs', hpurge⟩ := h.purge g remove
    simp only [ucsArbiterStep, arbiterSpecStep, hpurge fuel]
    split
    · exact .some ⟨hs', rfl, by simp⟩
    · exact .none
  | dispatch perGroup cb =>
    have hrel := h.dispatch perGroup hop fuel
    simp only [ucsArbiterStep, arbiterSpecStep]
    generalize hm : ucsArbiterDispatch s perGroup cb fuel = o at hrel ⊢
    generalize specDispatch a perGroup cb fuel = o' at hrel ⊢
    cases hrel with
    | none => exact .none
    | some hr =>
      refine .some ⟨hr.1, by simp [hr.2], ?_⟩
      simp only [List.mem_singleton, Prod.mk.injEq, and_imp]
      rintro p calls rfl rfl hp
      exact ucsArbiterDispatch_count_lt hp hm

/-- Every run of the interface, from a heap that represents the scheduler. -/
theorem Represents.run (h : Represents s a) (fuel : ℕ) (ops : List UcsArbiterOp)
    (hops : ∀ op ∈ ops, op.Allowed) :
    Option.Rel (fun r r' => Represents r.1 r'.1 ∧ r.2 = r'.2 ∧
        ∀ p calls, (p, calls) ∈ r.2 → 0 < p → ∀ c ∈ calls, c.2.2 < p)
      (ucsArbiterRun fuel s ops) (arbiterSpecRun fuel a ops) := by
  induction ops generalizing s a with
  | nil => exact .some ⟨h, rfl, by simp⟩
  | cons op ops ih =>
    have hstep := h.step fuel (hops op (List.mem_cons_self ..))
    simp only [ucsArbiterRun, arbiterSpecRun]
    generalize ucsArbiterStep fuel s op = o at hstep ⊢
    generalize arbiterSpecStep fuel a op = o' at hstep ⊢
    cases hstep with
    | none => exact .none
    | some hr =>
      simp only [Option.bind_some]
      refine optionRel_map (fun x y hxy => ⟨hxy.1, by rw [hr.2.1, hxy.2.1], ?_⟩)
        (ih hr.1 fun op' hop' => hops op' (List.mem_cons_of_mem op hop'))
      intro p calls hm hp
      rcases List.mem_append.mp hm with hm | hm
      · exact hr.2.2 p calls hm hp
      · exact hxy.2.2 p calls hm hp

theorem represents_init (next₀ : Ptr → Ptr) (linked₀ : Ptr → Bool) :
    Represents (ucsArbiterInit next₀ linked₀) ArbiterSpec.init :=
  ⟨⟨fun _ => by simp [ucsArbiterInit, ArbiterSpec.init], fun _ => by simp [ArbiterSpec.init],
    fun _ => by simp [ArbiterSpec.init], fun _ _ => by simp [ucsArbiterInit, ArbiterSpec.init]⟩,
    ⟨rfl, rfl, by simp [ArbiterSpec.init], by simp [ArbiterSpec.init],
      fun _ hg => by simp [ArbiterSpec.init] at hg⟩⟩

/-- **The arbiter refines its scheduler over every run.** From a freshly initialised arbiter,
over any sequence of pushes, pushes to the head, schedulings, deschedulings, purges and
dispatches whose callbacks keep the contract, the heap and the scheduler run out of fuel
together or end with the same dispatches, and then: the heap represents the scheduler (every
group's ring holds exactly its queue in order, every queued element's `group` names its group,
a group's head is linked iff the group is scheduled, the arbiter's list holds the scheduled
groups' heads once each, and no empty group is scheduled); `ucs_arbiter_group_num_elems`
counts each queue; and every dispatch with a positive `per_group` numbers the callbacks of a
visit below it. -/
theorem ucsArbiterRun_refines_scheduler (next₀ : Ptr → Ptr) (linked₀ : Ptr → Bool) (fuel : ℕ)
    (ops : List UcsArbiterOp) (hops : ∀ op ∈ ops, op.Allowed) :
    Option.Rel (fun r r' => Represents r.1 r'.1 ∧ r.2 = r'.2 ∧
        (∀ g, (r'.1.queues g).length ≤ fuel →
          ucsArbiterGroupNumElems r.1 g fuel = some (r'.1.queues g).length) ∧
        ∀ p calls, (p, calls) ∈ r.2 → 0 < p → ∀ c ∈ calls, c.2.2 < p)
      (ucsArbiterRun fuel (ucsArbiterInit next₀ linked₀) ops)
      (arbiterSpecRun fuel ArbiterSpec.init ops) := by
  refine optionRel_mono (fun x y hxy => ⟨hxy.1, hxy.2.1, fun g hg => hxy.1.numElems g hg,
    hxy.2.2⟩) ((represents_init next₀ linked₀).run fuel ops hops)

/-- Elements 1 and 2 queued on group 0, the group scheduled, and a dispatch whose callback sets
element 1 aside, pushing element 3 behind it, and removes every other element. -/
theorem ucsArbiterRun_refines_scheduler_resched :
    (∀ op ∈ [UcsArbiterOp.groupPushElem 0 1, .groupPushElem 0 2, .groupSchedule 0,
      .dispatch 2 fun _ p =>
        if p = .elem 1 then ⟨[.pushElem 0 3], .reschedGroup⟩ else ⟨[], .removeElem⟩],
      op.Allowed) ∧
    Option.Rel (fun r r' => Represents r.1 r'.1 ∧ r.2 = r'.2 ∧
        (∀ g, (r'.1.queues g).length ≤ 8 →
          ucsArbiterGroupNumElems r.1 g 8 = some (r'.1.queues g).length) ∧
        ∀ p calls, (p, calls) ∈ r.2 → 0 < p → ∀ c ∈ calls, c.2.2 < p)
      (ucsArbiterRun 8 (ucsArbiterInit id fun _ => false)
        [.groupPushElem 0 1, .groupPushElem 0 2, .groupSchedule 0, .dispatch 2 fun _ p =>
          if p = .elem 1 then ⟨[.pushElem 0 3], .reschedGroup⟩ else ⟨[], .removeElem⟩])
      (arbiterSpecRun 8 ArbiterSpec.init
        [.groupPushElem 0 1, .groupPushElem 0 2, .groupSchedule 0, .dispatch 2 fun _ p =>
          if p = .elem 1 then ⟨[.pushElem 0 3], .reschedGroup⟩ else ⟨[], .removeElem⟩]) := by
  have hops : ∀ op ∈ [UcsArbiterOp.groupPushElem 0 1, .groupPushElem 0 2, .groupSchedule 0,
      .dispatch 2 fun _ p =>
        if p = .elem 1 then ⟨[.pushElem 0 3], .reschedGroup⟩ else ⟨[], .removeElem⟩],
      op.Allowed := by
    simp only [List.mem_cons, List.not_mem_nil, or_false, forall_eq_or_imp, forall_eq]
    refine ⟨trivial, trivial, trivial, fun n e hres op hop => ?_⟩
    by_cases he : e = 1
    · subst he
      simp_all [UcsArbiterCbOp.pushed]
    · simp [he] at hres
  exact ⟨hops, ucsArbiterRun_refines_scheduler id (fun _ => false) 8 _ hops⟩

end UcxProofs.Arbiter
