import UcxProofs.ArbiterRefine

/-!
`ucs_arbiter_group_purge` acts on the scheduler as filtering one queue.

The walk is proved in accumulator form, by induction on the elements it has still to visit: the
group's ring holds the elements kept so far followed by those still to visit, `prev` is the last
kept element or, while none is kept, the tail, and removing an element unlinks it from `prev`.
Until its last step the walk leaves the arbiter's list and the link flags as it found them.
-/

namespace UcxProofs.Arbiter

open Function CycleList UcsArbiter ArbiterSpec

/-- How the walk leaves the arbiter's list once it has kept `kept`. -/
def purgeEnd (s : UcsArbiter) (schedGroup : Bool) : List ℕ → UcsArbiter
  | [] => if schedGroup then s.listDel .purgeDummy else s
  | y :: _ => purgeRestore s schedGroup (.elem y)

lemma purgeEnd_append_cons (s : UcsArbiter) (schedGroup : Bool) (K L : List ℕ) (x : ℕ) :
    purgeEnd s schedGroup (K ++ x :: L) = purgeRestore s schedGroup (.elem (K.headD x)) := by
  cases K <;> rfl

variable {s : UcsArbiter} {a : ArbiterSpec} {g : ℕ}

/-- The last element of `rest ++ K`, when `x :: rest` ends at `t`. -/
lemma getLast?_append_of_getLast? {K rest : List ℕ} {x t : ℕ}
    (ht : (x :: rest).getLast? = some t) (hne : K ++ rest ≠ []) :
    (rest ++ K).getLast? = some (K.getLastD t) := by
  rcases K.eq_nil_or_concat with rfl | ⟨L, b, rfl⟩
  · rcases rest with _ | ⟨y, rest⟩
    · simp at hne
    · simpa using ht
  · simp

/-- Removing `x` from the walk: its cyclic predecessor, the last kept element or the tail,
takes over its `next`. -/
lemma isCycle_purge_unlink {f : Ptr → Ptr} {K rest : List ℕ} {x t : ℕ}
    (h : IsCycle f ((K ++ x :: rest).map .elem)) (hnd : (K ++ x :: rest).Nodup)
    (ht : (x :: rest).getLast? = some t) (hne : K ++ rest ≠ []) :
    IsCycle (update f (.elem (K.getLastD t)) (f (.elem x))) ((K ++ rest).map .elem) := by
  have hsplit := List.dropLast_append_getLast? _ (getLast?_append_of_getLast? ht hne)
  have hnd' : (rest ++ K).Nodup :=
    List.perm_append_comm.nodup_iff.mp (hnd.sublist (by simp))
  rw [← hsplit] at hnd'
  have hlast : K.getLastD t ∉ (rest ++ K).dropLast := fun hm =>
    (List.nodup_append.mp hnd').2.2 _ hm _ (List.mem_singleton_self _) rfl
  rw [List.map_append, List.map_cons] at h
  rw [List.map_append]
  refine h.unlink (p := ((rest ++ K).dropLast).map .elem) ?_ fun hm => ?_
  · have := congrArg (List.map UcsArbiterElemPtr.elem) hsplit
    simpa using this.symm
  · obtain ⟨z, hz, hze⟩ := List.mem_map.mp hm
    exact hlast (UcsArbiterElemPtr.elem.inj hze ▸ hz)

/-- The rings once the walk has removed `x`: the group's queue loses it and `x` is free. -/
lemma RingsRepr.purgeUnlink (h : RingsRepr s a none) {K rest : List ℕ} {x t : ℕ}
    (hq : a.queues g = K ++ x :: rest) (ht : (x :: rest).getLast? = some t) (s' : UcsArbiter)
    (htail : s'.tail = update s.tail g ((K ++ rest).map .elem).getLast?)
    (hnext : s'.next = update s.next (.elem (K.getLastD t)) (s.next (.elem x)))
    (hgroup : s'.group = update s.group (.elem x) none) :
    RingsRepr s' { a with queues := update a.queues g (K ++ rest) } none := by
  have hnd : (K ++ x :: rest).Nodup := hq ▸ h.nodup g
  have hmem : ∀ {z}, z ∈ K ++ x :: rest → ∀ g', .elem z ∈ a.ringOf none g' → g' = g :=
    fun hz g' hm => h.eq_of_mem hm (by simpa [hq] using hz)
  have hprev : K.getLastD t ∈ K ++ x :: rest := by
    rcases K.eq_nil_or_concat with rfl | ⟨L, b, rfl⟩
    · simpa using List.mem_of_getLast? ht
    · simp
  have hx : x ∉ K ++ rest := fun hm => by
    rw [List.nodup_append] at hnd
    rcases List.mem_append.mp hm with hm | hm
    · exact hnd.2.2 x hm x (by simp) rfl
    · exact (List.nodup_cons.mp hnd.2.1).1 hm
  refine ⟨fun g' => ?_, fun g' => ?_, fun g' => ?_, fun e g' => ?_⟩
  · by_cases hg : g' = g
    · subst hg
      simp [htail]
    · simp [htail, hg, ringOf_update_of_ne a none hg, h.tail g']
  · by_cases hg : g' = g
    · subst hg
      simp only [hnext, ringOf_none, update_self]
      rcases eq_or_ne (K ++ rest) [] with he | hne
      · simp [he]
      · exact isCycle_purge_unlink (by simpa [hq] using h.cycle g') hnd ht hne
    · rw [hnext, ringOf_update_of_ne a none hg]
      exact (h.cycle g').update_of_not_mem fun hm => hg (hmem hprev g' hm)
  · by_cases hg : g' = g
    · subst hg
      simpa using hnd.sublist (by simp)
    · simpa [hg] using h.nodup g'
  · rw [hgroup]
    by_cases he : e = x
    · subst he
      by_cases hg : g' = g
      · subst hg
        simpa using hx
      · simp only [update_self, reduceCtorEq, false_iff, ne_eq, hg, not_false_eq_true,
          update_of_ne]
        exact fun hm => hg (hmem (by simp) g' ((elem_mem_ringOf a none).mpr hm))
    · rw [update_of_ne (by simpa using he), h.group]
      by_cases hg : g' = g
      · subst hg
        simp [hq, he]
      · simp [hg]

/-- Keeping `x`: the walk resets its group and sets it again. -/
lemma RingsRepr.purgeKeep (h : RingsRepr s a none) {x : ℕ} (hx : x ∈ a.queues g) :
    RingsRepr (ucsArbiterElemSetScheduled (ucsArbiterElemInit s (.elem x)) (.elem x) g) a none :=
  h.of_eq rfl rfl (by
    simp only [ucsArbiterElemSetScheduled, ucsArbiterElemInit, setGroup_group, update_idem]
    exact update_eq_self_iff.mpr ((h.group x g).mpr hx).symm) rfl

/-- Unlinking an element that is not the last leaves the group's tail. -/
lemma RingsRepr.tail_eq_of_unlink (h : RingsRepr s a none) {K rest : List ℕ} {x y : ℕ}
    (hq : a.queues g = K ++ x :: y :: rest) :
    s.tail = update s.tail g ((K ++ y :: rest).map .elem).getLast? := by
  refine (update_eq_self_iff.mpr ?_).symm
  rw [h.tail g, ringOf_none, hq]
  simp [List.getLast?_append]

/-- In a queue without duplicates, an element after the first is not the first. -/
lemma elem_ne_of_nodup {k x : ℕ} {K rest : List ℕ} (hnd : (k :: K ++ x :: rest).Nodup) :
    UcsArbiterElemPtr.elem x ≠ .elem k := by
  rw [ne_eq, UcsArbiterElemPtr.elem.injEq]
  rintro rfl
  simp at hnd

/-- The walk from `x`, with `K` kept so far: it keeps, in order, the elements that `remove`
spares, and ends as `purgeEnd` says once it has fuel for every element it visits. -/
theorem purgeLoop_spec (schedGroup : Bool) (remove : Ptr → Bool) {rest K : List ℕ} {x t : ℕ}
    (h : RingsRepr s a none) (hq : a.queues g = K ++ x :: rest)
    (ht : (x :: rest).getLast? = some t) :
    ∃ s', s'.list = s.list ∧ s'.listLinked = s.listLinked ∧
      RingsRepr s'
        { a with queues := update a.queues g (K ++ (x :: rest).filter fun e => !remove (.elem e)) }
        none ∧
      ∀ fuel, purgeLoop g (.elem t) schedGroup remove fuel s (.elem (K.headD x)) (.elem x)
          (.elem (K.getLastD t)) =
        if rest.length < fuel then
          some (purgeEnd s' schedGroup (K ++ (x :: rest).filter fun e => !remove (.elem e)))
        else none := by
  induction rest generalizing K x s a with
  | nil =>
    -- `x` is the tail: the walk ends here
    obtain rfl : x = t := by simpa using ht
    cases hr : remove (.elem x)
    · refine ⟨ucsArbiterElemSetScheduled (ucsArbiterElemInit s (.elem x)) (.elem x) g, rfl, rfl,
        ?_, fun fuel => ?_⟩
      · have hq' : update a.queues g (K ++ [x]) = a.queues := by
          rw [← hq]
          exact update_eq_self _ _
        simpa [hr, hq'] using h.purgeKeep (x := x) (g := g) (by simp [hq])
      · cases fuel <;> simp [purgeLoop, hr, purgeEnd_append_cons]
    · rcases K with _ | ⟨k, K⟩
      · -- the last element goes: the group is empty
        refine ⟨(ucsArbiterElemInit s (.elem x)).setTail g none, rfl, rfl, ?_, fun fuel => ?_⟩
        · simpa [hr] using h.purgeUnlink hq ht ((ucsArbiterElemInit s (.elem x)).setTail g none)
            (by simp [ucsArbiterElemInit]) (by simp [ucsArbiterElemInit])
            (by simp [ucsArbiterElemInit])
        · cases fuel <;> simp [purgeLoop, hr, purgeEnd, ucsArbiterElemInit]
      · -- the tail goes: `prev` is the new tail
        have hxk := elem_ne_of_nodup (hq ▸ h.nodup g)
        refine ⟨((ucsArbiterElemInit s (.elem x)).setTail g
            (some (.elem ((k :: K).getLastD x)))).setNext (.elem ((k :: K).getLastD x))
            (s.next (.elem x)), rfl, rfl, ?_, fun fuel => ?_⟩
        · simpa [hr] using h.purgeUnlink hq ht (((ucsArbiterElemInit s (.elem x)).setTail g
              (some (.elem ((k :: K).getLastD x)))).setNext (.elem ((k :: K).getLastD x))
              (s.next (.elem x)))
            (by simp [ucsArbiterElemInit, List.getLast?_cons, List.getLast?_map])
            (by simp [ucsArbiterElemInit]) (by simp [ucsArbiterElemInit])
        · cases fuel <;> simp [purgeLoop, hr, hxk, purgeEnd]
  | cons y rest ih =>
    -- `x` is not the tail: the walk goes on to `y`, one unit of fuel later
    have hnd : (K ++ x :: y :: rest).Nodup := hq ▸ h.nodup g
    have ht' : (y :: rest).getLast? = some t := by simpa using ht
    have hxt : UcsArbiterElemPtr.elem x ≠ .elem t := fun he => by
      have := List.mem_of_getLast? ht'
      simp only [UcsArbiterElemPtr.elem.injEq] at he
      subst he
      exact (List.nodup_cons.mp (List.nodup_append.mp hnd).2.1).1 this
    have hnext : s.next (.elem x) = .elem y := by
      have hc := h.cycle g
      rw [ringOf_none, hq, List.map_append, List.map_cons, List.map_cons] at hc
      exact hc.next_of_append
    cases hr : remove (.elem x)
    · -- kept: `x` becomes `prev`
      obtain ⟨s', h1, h2, h3, h4⟩ := ih (h.purgeKeep (x := x) (g := g) (by simp [hq]))
        (by simp [hq] : a.queues g = (K ++ [x]) ++ y :: rest) ht'
      have hhd : (K ++ [x]).headD y = K.headD x := by cases K <;> rfl
      refine ⟨s', h1, h2, by simpa [hr] using h3, fun fuel => ?_⟩
      rcases fuel with _ | fuel
      · simp [purgeLoop]
      have h4 := h4 fuel
      rw [hhd, List.getLastD_concat] at h4
      simpa [purgeLoop, hr, hxt, hnext] using h4
    · rcases K with _ | ⟨k, K⟩
      · -- the head goes: `y` is the new head and the tail takes over `x`'s `next`
        obtain ⟨s', h1, h2, h3, h4⟩ := ih (h.purgeUnlink hq ht
          ((ucsArbiterElemInit s (.elem x)).setNext (.elem t) (.elem y))
          (h.tail_eq_of_unlink hq) (by simp [hnext, ucsArbiterElemInit])
          (by simp [ucsArbiterElemInit]))
          (by simp : _ = [] ++ y :: rest) ht'
        refine ⟨s', h1, h2, by simpa [hr] using h3, fun fuel => ?_⟩
        rcases fuel with _ | fuel
        · simp [purgeLoop]
        simpa [purgeLoop, hr, hxt, hnext] using h4 fuel
      · -- an element in the middle goes: `prev` takes over its `next`
        have hxk := elem_ne_of_nodup hnd
        obtain ⟨s', h1, h2, h3, h4⟩ := ih (h.purgeUnlink hq ht
          ((ucsArbiterElemInit s (.elem x)).setNext (.elem ((k :: K).getLastD t)) (.elem y))
          (h.tail_eq_of_unlink hq) (by simp [hnext, ucsArbiterElemInit])
          (by simp [ucsArbiterElemInit]))
          (by simp : _ = (k :: K) ++ y :: rest) ht'
        refine ⟨s', h1, h2, by simpa [hr] using h3, fun fuel => ?_⟩
        rcases fuel with _ | fuel
        · simp [purgeLoop]
        simpa [purgeLoop, hr, hxt, hxk, hnext] using h4 fuel

lemma ArbiterSpec.purge_of_nil {a : ArbiterSpec} {g : ℕ} {remove : ℕ → Bool}
    (hq : a.queues g = []) (hg : g ∉ a.sched) : a.purge g remove = a := by
  obtain ⟨q, l⟩ := a
  simp only at hq hg
  have hq' : update q g [] = q := by
    rw [← hq]
    exact update_eq_self g q
  simp [ArbiterSpec.purge, hq, hq', List.erase_of_not_mem hg]

lemma purgeEnd_tail (s : UcsArbiter) (b : Bool) (L : List ℕ) : (purgeEnd s b L).tail = s.tail := by
  rcases L with _ | ⟨y, L⟩ <;> cases b <;> rfl

lemma purgeEnd_next (s : UcsArbiter) (b : Bool) (L : List ℕ) : (purgeEnd s b L).next = s.next := by
  rcases L with _ | ⟨y, L⟩ <;> cases b <;> rfl

lemma purgeEnd_group (s : UcsArbiter) (b : Bool) (L : List ℕ) :
    (purgeEnd s b L).group = s.group := by
  rcases L with _ | ⟨y, L⟩ <;> cases b <;> rfl

/-- The end of the walk: the group's new head, if any, takes the dummy's place in the arbiter,
or is marked unscheduled. `s` is the arbiter before the purge, `s'` after the walk. -/
theorem SchedRepr.purgeFinish (hr : RingsRepr s a none) (hs : SchedRepr s a none [] []) {x : ℕ}
    (hx : a.headOf none g = .elem x) (hne : a.ringOf none g ≠ []) {L : List ℕ}
    (hL : ∀ y ∈ L, y ∈ a.queues g) {s' : UcsArbiter}
    (h1 : s'.list = (if s.listLinked (.elem x) then s.listReplace (.elem x) .purgeDummy
      else s).list)
    (h2 : s'.listLinked = (if s.listLinked (.elem x) then s.listReplace (.elem x) .purgeDummy
      else s).listLinked) :
    SchedRepr (purgeEnd s' (s.listLinked (.elem x)) L)
      { queues := update a.queues g L, sched := if L = [] then a.sched.erase g else a.sched }
      none [] [] := by
  set a' : ArbiterSpec :=
    { queues := update a.queues g L, sched := if L = [] then a.sched.erase g else a.sched }
  have hsg : s.listLinked (.elem x) = true ↔ g ∈ a.sched := by
    simpa [hx] using hs.linked g hne
  have hnd : a.sched.Nodup := by simpa using hs.nodup
  have hne' : ∀ g' ∈ a.sched, a.ringOf none g' ≠ [] := fun g' hg' =>
    hs.nonempty g' (by simpa using hg')
  -- another group's head is neither `x`, nor the dummy, nor one of the kept elements
  have hoth : ∀ g', a.ringOf none g' ≠ [] → g' ≠ g →
      a.headOf none g' ≠ .elem x ∧ a.headOf none g' ≠ .purgeDummy ∧
        ∀ y ∈ L, a.headOf none g' ≠ .elem y := fun g' hg' hgg => by
    refine ⟨hx ▸ hr.headOf_ne hne hg' hgg, fun hp => ?_, fun y hy hp => ?_⟩
    · exact purgeDummy_not_mem_ringOf a none (hp ▸ headOf_mem a none hg')
    · exact hgg (hr.eq_of_mem (hp ▸ headOf_mem a none hg') (by simpa using hL y hy))
  have hring : ∀ g' ≠ g, a'.ringOf none g' = a.ringOf none g' :=
    fun g' hgg => ringOf_update_of_ne a none hgg
  have hhead : ∀ g' ≠ g, a'.headOf none g' = a.headOf none g' :=
    fun g' hgg => headOf_update_of_ne a none hgg
  have hrepl := hs.map_replace_head hr hne .purgeDummy
  rw [hx] at hrepl
  cases hl : s.listLinked (.elem x) <;> rcases L with _ | ⟨y, L⟩
  · -- not scheduled, nothing kept: the group stays unscheduled
    have hg : g ∉ a.sched := fun hm => by simp [hsg.mpr hm] at hl
    simp only [hl, Bool.false_eq_true, if_false] at h1 h2
    have hgg : ∀ g', a'.ringOf none g' ≠ [] → g' ≠ g := by
      rintro g' hg' rfl
      simp [a'] at hg'
    refine hs.of_heads h1 (by simp [a', List.erase_of_not_mem hg]) (fun g' hg' => ?_)
      (fun g' hg' => ?_)
    · have hgg' : g' ≠ g := by rintro rfl; exact hg (by simpa using hg')
      exact ⟨hhead g' hgg', by rw [hring g' hgg']; exact hne' g' (by simpa using hg')⟩
    · rw [hhead g' (hgg g' hg'), hring g' (hgg g' hg')] at *
      simpa [purgeEnd, h2] using hs.linked g' hg'
  · -- not scheduled: the new head `y` is marked unscheduled
    have hg : g ∉ a.sched := fun hm => by simp [hsg.mpr hm] at hl
    simp only [hl, Bool.false_eq_true, if_false] at h1 h2
    refine hs.of_heads h1 (by simp [a']) (fun g' hg' => ?_) (fun g' hg' => ?_)
    · have hgg' : g' ≠ g := by rintro rfl; exact hg (by simpa using hg')
      exact ⟨hhead g' hgg', by rw [hring g' hgg']; exact hne' g' (by simpa using hg')⟩
    · by_cases hgg : g' = g
      · subst hgg
        simp [a', purgeEnd, purgeRestore, ucsArbiterGroupHeadReset, headOf, hg]
      · have hr' : a.ringOf none g' ≠ [] := hring g' hgg ▸ hg'
        rw [hhead g' hgg]
        simp only [purgeEnd, purgeRestore, Bool.false_eq_true, if_false,
          ucsArbiterGroupHeadReset, setLinked_listLinked, h2,
          update_of_ne ((hoth g' hr' hgg).2.2 y (by simp))]
        exact hs.linked g' hr'
  · -- scheduled, nothing kept: the dummy leaves the arbiter
    have hg : g ∈ a.sched := hsg.mp hl
    simp only [hl, if_true] at h1 h2
    have hgg : ∀ g', a'.ringOf none g' ≠ [] → g' ≠ g := by
      rintro g' hg' rfl
      simp [a'] at hg'
    set H : ℕ → Ptr := fun g' => if g' = g then .purgeDummy else a.headOf none g'
    have hH : ∀ g' ∈ a.sched, H g' = H g → g' = g := fun g' hg' he => by
      by_contra hgg'
      simp only [H, hgg', if_false, if_true] at he
      exact (hoth g' (hne' g' hg') hgg').2.1 he
    refine ⟨?_, rfl, ?_, fun g' hg' => ?_, fun g' hg' => ?_⟩
    · calc (purgeEnd s' true []).list
          = (a.sched.map H).erase (H g) := by simp [purgeEnd, h1, hrepl, H]
        _ = (a.sched.erase g).map H := (List.map_erase_of_forall hH).symm
        _ = (a.sched.erase g).map (a'.headOf none) := by
          refine List.map_congr_left fun g' hg' => ?_
          have hgg' : g' ≠ g := ((hnd.mem_erase_iff).mp hg').1
          simp [H, hgg', hhead g' hgg']
        _ = a'.sched.map (a'.headOf none) := by simp [a']
    · simpa [a'] using hnd.erase g
    · have hm : g' ∈ a.sched.erase g := by simpa [a'] using hg'
      have hgg' : g' ≠ g := ((hnd.mem_erase_iff).mp hm).1
      rw [hring g' hgg']
      exact hne' g' ((hnd.mem_erase_iff).mp hm).2
    · have hgg' := hgg g' hg'
      have hr' : a.ringOf none g' ≠ [] := hring g' hgg' ▸ hg'
      rw [hhead g' hgg']
      simp only [purgeEnd, if_true, listDel_listLinked, h2, listReplace_listLinked,
        setLinked_listLinked, update_of_ne (hoth g' hr' hgg').2.1, hs.linked g' hr']
      simp [a', List.mem_erase_of_ne hgg']
  · -- scheduled: the new head `y` takes the dummy's place
    have hg : g ∈ a.sched := hsg.mp hl
    simp only [hl, if_true] at h1 h2
    have hheadg : a'.headOf none g = .elem y := by simp [a', headOf]
    refine ⟨?_, rfl, by simpa [a'] using hnd, fun g' hg' => ?_, fun g' hg' => ?_⟩
    · simp only [purgeEnd, purgeRestore, if_true, listReplace_list, h1, hrepl, List.map_map]
      refine List.map_congr_left fun g' hg' => ?_
      by_cases hgg : g' = g
      · subst hgg
        simp [hheadg]
      · simp [hgg, hhead g' hgg, (hoth g' (hne' g' hg') hgg).2.1]
    · have hm : g' ∈ a.sched := by simpa [a'] using hg'
      by_cases hgg : g' = g
      · subst hgg
        simp [a']
      · rw [hring g' hgg]
        exact hne' g' hm
    · by_cases hgg : g' = g
      · subst hgg
        rw [hheadg]
        simp [a', purgeEnd, purgeRestore, hg]
      · have hr' : a.ringOf none g' ≠ [] := hring g' hgg ▸ hg'
        rw [hhead g' hgg]
        simp only [purgeEnd, purgeRestore, if_true, listReplace_listLinked, setLinked_listLinked,
          h2, update_of_ne ((hoth g' hr' hgg).2.2 y (by simp)),
          update_of_ne (hoth g' hr' hgg).2.1, hs.linked g' hr']
        simp [a']

/-- `ucs_arbiter_group_purge` filters the group's queue, and a group it leaves empty is
descheduled; the walk needs fuel for the queue's length and fails without it. -/
theorem Represents.purge (h : Represents s a) (g : ℕ) (remove : Ptr → Bool) :
    ∃ s', Represents s' (a.purge g fun e => remove (.elem e)) ∧
      ∀ fuel, ucsArbiterGroupPurge s g remove fuel =
        if (a.queues g).length ≤ fuel then some s' else none := by
  obtain ⟨hr, hs⟩ := h
  match ht : s.tail g with
  | none =>
    have hq : a.queues g = [] := by simpa using hr.ringOf_eq_nil_iff.mpr ht
    have hg : g ∉ a.sched := fun hm => hs.nonempty g (by simpa using hm) (by simp [hq])
    refine ⟨s, ?_, fun fuel => by simp [ucsArbiterGroupPurge, ht, hq]⟩
    rw [ArbiterSpec.purge_of_nil hq hg]
    exact ⟨hr, hs⟩
  | some t' =>
    have hne : a.ringOf none g ≠ [] := fun hn => by simp [hr.ringOf_eq_nil_iff.mp hn] at ht
    obtain ⟨x, rest, hq⟩ : ∃ x rest, a.queues g = x :: rest := by
      rcases hq : a.queues g with _ | ⟨x, rest⟩
      · simp [hq] at hne
      · exact ⟨x, rest, rfl⟩
    obtain ⟨t, ht'⟩ : ∃ t, (x :: rest).getLast? = some t := ⟨_, List.getLast?_cons⟩
    obtain rfl : t' = .elem t := by
      have htail := hr.tail g
      rw [ht, ringOf_none, hq, List.getLast?_map, ht'] at htail
      simpa using htail
    have hx : a.headOf none g = .elem x := by simp [headOf, hq]
    have hhead : s.next (.elem t) = .elem x := hx ▸ hr.next_tail ht
    -- the dummy keeps the group's place in the arbiter during the walk
    have hr₁ : RingsRepr (if s.listLinked (.elem x) then s.listReplace (.elem x) .purgeDummy
        else s) a none := by
      split
      · exact hr.of_eq rfl rfl rfl rfl
      · exact hr
    obtain ⟨s', h1, h2, h3, h4⟩ := purgeLoop_spec (s.listLinked (.elem x)) remove (K := [])
      hr₁ (by simpa using hq : a.queues g = [] ++ x :: rest) ht'
    set L := (x :: rest).filter fun e => !remove (.elem e)
    have hpurge : (a.purge g fun e => remove (.elem e)) =
        { queues := update a.queues g L, sched := if L = [] then a.sched.erase g else a.sched } := by
      simp only [ArbiterSpec.purge, hq, L]
    refine ⟨purgeEnd s' (s.listLinked (.elem x)) L, ?_, fun fuel => ?_⟩
    · have h3' : RingsRepr s' { queues := update a.queues g L, sched := a.sched } none := by
        simpa using h3
      rw [hpurge]
      refine ⟨h3'.of_eq (purgeEnd_tail _ _ _) (purgeEnd_next _ _ _) (purgeEnd_group _ _ _) rfl,
        ?_⟩
      exact hs.purgeFinish hr hx hne (fun y hy => by simp [hq, L] at hy ⊢; tauto) h1 h2
    · simpa [ucsArbiterGroupPurge, ht, hhead, hq, Nat.add_one_le_iff] using h4 fuel

end UcxProofs.Arbiter
