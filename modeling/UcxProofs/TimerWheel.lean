import UcxProofs.Status
import UcxProofs.Lib.Lists

/-!
The timer wheel of `ucs/time/timer_wheel.{c,h}`.

The wheel has `num_slots` slots of `res` each. A timer armed with `delta` goes into the slot
`⌊delta / res⌋` (at most `num_slots - 1`) after the cursor `current`; a sweep at `current_time`
moves the cursor by the whole resolutions since `now`, at most `num_slots - 1`, sets `now` to
`current_time` and dispatches every timer in the slots it leaves. A slot's list ring is the list
of its timers in order, and a timer's `is_active` flag is kept beside the wheel.

A dispatched timer's callback may arm and remove timers, its own included; it is modelled as
the calls it makes, chosen from the timer and the wheel it is handed. The dispatch loop of a
slot runs on a fuel of the slot's length, which no callback can lengthen.
-/

namespace UcxProofs.TimerWheel

open Function

/-- What a callback calls on the wheel: `ucs_wtimer_add` and `ucs_wtimer_remove`. -/
inductive WheelCall (T : Type)
  | add (timer : T) (delta : UInt64)
  | remove (timer : T)

/-- `ucs_twheel_t`, with the `is_active` flags of the timers. -/
structure UcsTwheel (T : Type) where
  res : UInt64
  now : UInt64
  current : ℕ
  wheel : ℕ → List T
  resOrder : ℕ
  numSlots : ℕ
  count : ℕ
  isActive : T → Bool

variable {T : Type} [DecidableEq T]

/-- The loop of `ucs_roundup_pow2`, doubling `pow2` until it is at least `n`. It ends within 64
doublings for `n ≤ 2 ^ 63`; beyond that the source loops forever. -/
def roundupPow2Loop (n : UInt64) : ℕ → UInt64 → UInt64
  | 0, pow2 => pow2
  | fuel + 1, pow2 => if pow2 < n then roundupPow2Loop n fuel (pow2 <<< 1) else pow2

/-- `ucs_roundup_pow2`. -/
def ucsRoundupPow2 (n : UInt64) : UInt64 := roundupPow2Loop n 64 1

/-- `ucs_twheel_init`, with `ucs_wtimer_init` of every timer: the resolution rounded up to a
power of two, whose logarithm `ucs_log2` gives exactly, and 1024 empty slots. -/
def ucsTwheelInit (resolution currentTime : UInt64) : UcsTwheel T :=
  ⟨ucsRoundupPow2 resolution, currentTime, 0, fun _ => [],
    (ucsRoundupPow2 resolution).toNat.log2, 1024, 0, fun _ => false⟩

/-- The slot `__ucs_wtimer_add` puts a timer of `delta` into: the whole resolutions of `delta`,
at most `num_slots - 1`, after the cursor. -/
def addSlot (t : UcsTwheel T) (delta : UInt64) : ℕ :=
  let slot := delta.toNat >>> t.resOrder
  let slot := if t.numSlots ≤ slot then t.numSlots - 1 else slot
  (t.current + slot) % t.numSlots

/-- The stores of `__ucs_wtimer_add` into `slot`. -/
def armAt (t : UcsTwheel T) (timer : T) (slot : ℕ) : UcsTwheel T :=
  { t with isActive := update t.isActive timer true,
           wheel := update t.wheel slot (t.wheel slot ++ [timer]),
           count := t.count + 1 }

/-- `__ucs_wtimer_add`; `none` is the `ucs_fatal` of a delta below the resolution. -/
def ucsWtimerAddInner (t : UcsTwheel T) (timer : T) (delta : UInt64) : Option (UcsTwheel T) :=
  if delta.toNat >>> t.resOrder = 0 then none else some (armAt t timer (addSlot t delta))

/-- `ucs_wtimer_add`: an active timer stays where it is. -/
def ucsWtimerAdd (t : UcsTwheel T) (timer : T) (delta : UInt64) :
    Option (UcsTwheel T × UcsStatus) :=
  if t.isActive timer then some (t, .errBusy)
  else (ucsWtimerAddInner t timer delta).map (·, .ok)

/-- The stores of `ucs_wtimer_remove` on an active timer: `ucs_list_del` unlinks it from the
slot it is in. -/
def unlinkTimer (t : UcsTwheel T) (timer : T) : UcsTwheel T :=
  { t with wheel := fun i => (t.wheel i).erase timer,
           isActive := update t.isActive timer false,
           count := t.count - 1 }

/-- `ucs_wtimer_remove`. -/
def ucsWtimerRemove (t : UcsTwheel T) (timer : T) : UcsTwheel T :=
  if t.isActive timer then unlinkTimer t timer else t

def WheelCall.run (t : UcsTwheel T) : WheelCall T → Option (UcsTwheel T)
  | .add timer delta => (ucsWtimerAdd t timer delta).map Prod.fst
  | .remove timer => some (ucsWtimerRemove t timer)

def runCalls (t : UcsTwheel T) : List (WheelCall T) → Option (UcsTwheel T)
  | [] => some t
  | c :: cs => (c.run t).bind (runCalls · cs)

/-- `ucs_list_extract_head` of the slot at the cursor, whose head `timer` is made inactive. -/
def extractHead (t : UcsTwheel T) (timer : T) (rest : List T) : UcsTwheel T :=
  { t with wheel := update t.wheel t.current rest, isActive := update t.isActive timer false }

/-- `t->count--` after a callback. -/
def countDown (t : UcsTwheel T) : UcsTwheel T := { t with count := t.count - 1 }

/-- The `while` loop of `__ucs_twheel_sweep` on the slot at the cursor, with the timers it
dispatches in order: the head is extracted and made inactive, its callback runs, and then
`count` goes down. -/
def drainSlot (cb : T → UcsTwheel T → List (WheelCall T)) :
    ℕ → UcsTwheel T → Option (UcsTwheel T × List T)
  | 0, t => if t.wheel t.current = [] then some (t, []) else none
  | fuel + 1, t =>
    match t.wheel t.current with
    | [] => some (t, [])
    | timer :: rest =>
      let t₁ := extractHead t timer rest
      match runCalls t₁ (cb timer t₁) with
      | none => none
      | some t₂ => (drainSlot cb fuel (countDown t₂)).map fun r => (r.1, timer :: r.2)

/-- The `for` loop of `__ucs_twheel_sweep` over `k` slots from the cursor. The source loops
until the cursor reaches `(current + k) % num_slots`, which for `k < num_slots` is `k`
rounds. -/
def sweepSlots (cb : T → UcsTwheel T → List (WheelCall T)) :
    ℕ → UcsTwheel T → Option (UcsTwheel T × List T)
  | 0, t => some (t, [])
  | k + 1, t =>
    match drainSlot cb (t.wheel t.current).length t with
    | none => none
    | some (t₁, fired) =>
      (sweepSlots cb k { t₁ with current := (t₁.current + 1) % t₁.numSlots }).map
        fun r => (r.1, fired ++ r.2)

/-- `__ucs_twheel_sweep`: `now` is set before any timer is dispatched. -/
def ucsTwheelSweepInner (cb : T → UcsTwheel T → List (WheelCall T)) (t : UcsTwheel T)
    (currentTime : UInt64) : Option (UcsTwheel T × List T) :=
  let slot := (currentTime - t.now).toNat >>> t.resOrder
  let slot := if t.numSlots ≤ slot then t.numSlots - 1 else slot
  sweepSlots cb slot { t with now := currentTime }

/-- `ucs_twheel_sweep`: nothing happens before a whole resolution has passed. -/
def ucsTwheelSweep (cb : T → UcsTwheel T → List (WheelCall T)) (t : UcsTwheel T)
    (currentTime : UInt64) : Option (UcsTwheel T × List T) :=
  if t.res ≤ currentTime - t.now then ucsTwheelSweepInner cb t currentTime else some (t, [])

/-! ### Runs -/

/-- The calls made on the wheel from outside any callback. -/
inductive TwheelOp (T : Type)
  | add (timer : T) (delta : UInt64)
  | remove (timer : T)
  | sweep (currentTime : UInt64)

/-- One call, with the timers it dispatches. -/
def twheelStep (cb : T → UcsTwheel T → List (WheelCall T)) (t : UcsTwheel T) :
    TwheelOp T → Option (UcsTwheel T × List T)
  | .add timer delta => (ucsWtimerAdd t timer delta).map fun r => (r.1, [])
  | .remove timer => some (ucsWtimerRemove t timer, [])
  | .sweep currentTime => ucsTwheelSweep cb t currentTime

def twheelRun (cb : T → UcsTwheel T → List (WheelCall T)) :
    UcsTwheel T → List (TwheelOp T) → Option (UcsTwheel T × List T)
  | t, [] => some (t, [])
  | t, op :: ops =>
    match twheelStep cb t op with
    | none => none
    | some (t₁, fired) => (twheelRun cb t₁ ops).map fun r => (r.1, fired ++ r.2)

/-- A call that arms a timer arms it for at least one resolution, as `__ucs_wtimer_add`
requires. -/
def WheelCall.Valid (res : UInt64) : WheelCall T → Prop
  | .add _ delta => res ≤ delta
  | .remove _ => True

def TwheelOp.Valid (res : UInt64) : TwheelOp T → Prop
  | .add _ delta => res ≤ delta
  | _ => True

/-! ### What the wheel keeps -/

/-- The timers in the slots, slot by slot. -/
def timers (t : UcsTwheel T) : List T := (List.range t.numSlots).flatMap t.wheel

/-- The timers of all slots but `s`. -/
def others (t : UcsTwheel T) (s : ℕ) : List T :=
  ((List.range t.numSlots).erase s).flatMap t.wheel

/-- Each active timer is in exactly one slot and no other timer is in any; `count` counts
them, and `pending` dispatched timers not yet counted down. -/
structure Inv (pending : ℕ) (t : UcsTwheel T) : Prop where
  numSlots : 2 ≤ t.numSlots
  current : t.current < t.numSlots
  res : t.res.toNat = 2 ^ t.resOrder
  outside : ∀ i, t.numSlots ≤ i → t.wheel i = []
  nodup : (timers t).Nodup
  active : ∀ timer, t.isActive timer = true ↔ timer ∈ timers t
  count : t.count = (timers t).length + pending

/-- What the calls on the wheel leave alone: the cursor, the geometry and the time. -/
structure Frame (t t' : UcsTwheel T) : Prop where
  current : t'.current = t.current
  numSlots : t'.numSlots = t.numSlots
  now : t'.now = t.now
  res : t'.res = t.res
  resOrder : t'.resOrder = t.resOrder

omit [DecidableEq T] in
theorem Frame.refl (t : UcsTwheel T) : Frame t t := ⟨rfl, rfl, rfl, rfl, rfl⟩

omit [DecidableEq T] in
theorem Frame.trans {t₁ t₂ t₃ : UcsTwheel T} (h₁ : Frame t₁ t₂) (h₂ : Frame t₂ t₃) :
    Frame t₁ t₃ :=
  ⟨h₂.current.trans h₁.current, h₂.numSlots.trans h₁.numSlots, h₂.now.trans h₁.now,
    h₂.res.trans h₁.res, h₂.resOrder.trans h₁.resOrder⟩

omit [DecidableEq T] in
/-- A wheel whose slot `s` is replaced by `l` holds `l` and the other slots. -/
lemma timers_perm_of_wheel {t t' : UcsTwheel T} {s : ℕ} {l : List T} (hs : s < t.numSlots)
    (hn : t'.numSlots = t.numSlots) (hw : t'.wheel = update t.wheel s l) :
    (timers t').Perm (l ++ others t s) := by
  unfold timers others
  rw [hn, hw]
  exact List.flatMap_update_perm List.nodup_range (List.mem_range.2 hs)

omit [DecidableEq T] in
lemma timers_perm (t : UcsTwheel T) {s : ℕ} (hs : s < t.numSlots) :
    (timers t).Perm (t.wheel s ++ others t s) :=
  timers_perm_of_wheel hs rfl (update_eq_self s t.wheel).symm

omit [DecidableEq T] in
lemma addSlot_lt {t : UcsTwheel T} (h : 0 < t.numSlots) (delta : UInt64) :
    addSlot t delta < t.numSlots :=
  Nat.mod_lt _ h

omit [DecidableEq T] in
/-- A timer never goes into the slot at the cursor. -/
lemma addSlot_ne_current {t : UcsTwheel T} (hn : 2 ≤ t.numSlots) (hc : t.current < t.numSlots)
    {delta : UInt64} (h0 : delta.toNat >>> t.resOrder ≠ 0) : addSlot t delta ≠ t.current := by
  unfold addSlot
  -- the offset is between `1` and `num_slots - 1`
  obtain ⟨s, hs, hsN, hs_eq⟩ : ∃ s, 0 < s ∧ s < t.numSlots ∧
      (if t.numSlots ≤ delta.toNat >>> t.resOrder then t.numSlots - 1
        else delta.toNat >>> t.resOrder) = s := by
    split_ifs with hle
    · exact ⟨_, by omega, by omega, rfl⟩
    · exact ⟨_, Nat.pos_of_ne_zero h0, by omega, rfl⟩
  dsimp only
  rw [hs_eq]
  intro h
  rcases Nat.lt_or_ge (t.current + s) t.numSlots with h1 | h1
  · rw [Nat.mod_eq_of_lt h1] at h
    omega
  · rw [Nat.mod_eq_sub_mod h1, Nat.mod_eq_of_lt (by omega)] at h
    omega

omit [DecidableEq T] in
lemma shiftRight_ne_zero_of_valid {t : UcsTwheel T} {delta : UInt64}
    (hres : t.res.toNat = 2 ^ t.resOrder) (hd : t.res ≤ delta) :
    delta.toNat >>> t.resOrder ≠ 0 := by
  rw [Nat.shiftRight_eq_div_pow]
  exact (Nat.div_pos (hres ▸ UInt64.le_iff_toNat_le.1 hd) (Nat.two_pow_pos _)).ne'

/-- Arming a timer in no slot adds it to the timers in the slots. -/
theorem Inv.arm {d : ℕ} {t : UcsTwheel T} (h : Inv d t) {timer : T} (hmem : timer ∉ timers t)
    {s : ℕ} (hs : s < t.numSlots) : Inv d (armAt t timer s) := by
  have hperm : (timers (armAt t timer s)).Perm (t.wheel s ++ [timer] ++ others t s) :=
    timers_perm_of_wheel hs rfl rfl
  -- the new timers are the old ones and `timer`
  have hnew : (timers t ++ [timer]).Perm (t.wheel s ++ [timer] ++ others t s) := by
    refine ((timers_perm t hs).append_right [timer]).trans ?_
    rw [List.append_assoc, List.append_assoc]
    exact List.perm_append_comm.append_left _
  have hperm' := hperm.trans hnew.symm
  refine ⟨h.numSlots, h.current, h.res, fun i hi => ?_, ?_, fun x => ?_, ?_⟩
  · have hi' : t.numSlots ≤ i := hi
    show update t.wheel s _ i = []
    rw [update_of_ne (by omega)]
    exact h.outside i hi'
  · exact hperm'.nodup_iff.2 (List.nodup_append.2 ⟨h.nodup, List.nodup_singleton _,
      fun a ha b hb hab => hmem (by rw [List.mem_singleton.1 hb] at hab; exact hab ▸ ha)⟩)
  · rw [hperm'.mem_iff]
    by_cases hx : x = timer
    · subst hx
      simp [armAt]
    · simp [armAt, h.active x, hx]
  · rw [hperm'.length_eq]
    simp [armAt, h.count]
    omega

/-- Unlinking a timer in a slot takes it out of the timers in the slots. -/
theorem Inv.unlink {d : ℕ} {t : UcsTwheel T} (h : Inv d t) {timer : T} (hmem : timer ∈ timers t) :
    Inv d (unlinkTimer t timer) := by
  have htimers : timers (unlinkTimer t timer) = (timers t).erase timer :=
    List.flatMap_erase h.nodup
  refine ⟨h.numSlots, h.current, h.res, fun i hi => by simp [unlinkTimer, h.outside i hi], ?_,
    fun x => ?_, ?_⟩
  · rw [htimers]
    exact h.nodup.erase timer
  · rw [htimers]
    by_cases hx : x = timer
    · subst hx
      simpa [unlinkTimer] using h.nodup.not_mem_erase
    · show update t.isActive timer false x = true ↔ _
      rw [update_of_ne hx, List.mem_erase_of_ne hx]
      exact h.active x
  · rw [htimers, List.length_erase_of_mem hmem]
    have := List.length_pos_of_mem hmem
    simp only [unlinkTimer, h.count]
    omega

theorem Inv.remove {d : ℕ} {t : UcsTwheel T} (h : Inv d t) (timer : T) :
    Inv d (ucsWtimerRemove t timer) := by
  unfold ucsWtimerRemove
  split_ifs with hact
  · exact h.unlink ((h.active timer).1 hact)
  · exact h

/-- One call of a callback keeps the wheel's invariant and frame, and puts nothing into the
slot at the cursor. -/
theorem Inv.call {d : ℕ} {t : UcsTwheel T} (h : Inv d t) {c : WheelCall T} (hc : c.Valid t.res) :
    ∃ t', c.run t = some t' ∧ Inv d t' ∧ Frame t t' ∧
      (t'.wheel t.current).length ≤ (t.wheel t.current).length := by
  cases c with
  | add timer delta =>
    by_cases hact : t.isActive timer = true
    · exact ⟨t, by simp [WheelCall.run, ucsWtimerAdd, hact], h, Frame.refl t, le_rfl⟩
    · have h0 := shiftRight_ne_zero_of_valid h.res hc
      have hne := addSlot_ne_current h.numSlots h.current h0
      have hmem : timer ∉ timers t := fun hm => hact ((h.active timer).2 hm)
      refine ⟨armAt t timer (addSlot t delta),
        by simp [WheelCall.run, ucsWtimerAdd, hact, ucsWtimerAddInner, h0],
        h.arm hmem (addSlot_lt (by have := h.numSlots; omega) delta), ⟨rfl, rfl, rfl, rfl, rfl⟩, ?_⟩
      simp [armAt, update_of_ne (Ne.symm hne)]
  | remove timer =>
    refine ⟨_, rfl, h.remove timer, ?_, ?_⟩
    · unfold ucsWtimerRemove
      split_ifs
      · exact ⟨rfl, rfl, rfl, rfl, rfl⟩
      · exact Frame.refl t
    · unfold ucsWtimerRemove
      split_ifs
      · exact List.length_erase_le
      · exact le_rfl

/-- A callback's calls keep the invariant and the frame, and do not lengthen the slot at the
cursor. -/
theorem Inv.calls {d : ℕ} {t : UcsTwheel T} (h : Inv d t) {cs : List (WheelCall T)}
    (hcs : ∀ c ∈ cs, c.Valid t.res) :
    ∃ t', runCalls t cs = some t' ∧ Inv d t' ∧ Frame t t' ∧
      (t'.wheel t.current).length ≤ (t.wheel t.current).length := by
  induction cs generalizing t with
  | nil => exact ⟨t, rfl, h, Frame.refl t, le_rfl⟩
  | cons c cs ih =>
    obtain ⟨t₁, h₁, hinv₁, hf₁, hl₁⟩ := h.call (hcs c List.mem_cons_self)
    obtain ⟨t₂, h₂, hinv₂, hf₂, hl₂⟩ := ih hinv₁ fun c' hc' => hf₁.res ▸ hcs c' (List.mem_cons_of_mem c hc')
    refine ⟨t₂, by simp [runCalls, h₁, h₂], hinv₂, hf₁.trans hf₂, ?_⟩
    rw [hf₁.current] at hl₂
    exact hl₂.trans hl₁

/-- Taking the head of the slot at the cursor and making it inactive leaves it dispatched and
not yet counted down. -/
theorem Inv.extract {t : UcsTwheel T} (h : Inv 0 t) {timer : T} {rest : List T}
    (hslot : t.wheel t.current = timer :: rest) : Inv 1 (extractHead t timer rest) := by
  have hold := timers_perm t h.current
  rw [hslot] at hold
  have hperm : (timers (extractHead t timer rest)).Perm (rest ++ others t t.current) :=
    timers_perm_of_wheel h.current rfl rfl
  have hnd := hold.nodup_iff.1 h.nodup
  have hnot : timer ∉ rest ++ others t t.current := (List.nodup_cons.1 (by simpa using hnd)).1
  refine ⟨h.numSlots, h.current, h.res, fun i hi => ?_, ?_, fun x => ?_, ?_⟩
  · have hi' : t.numSlots ≤ i := hi
    show update t.wheel t.current rest i = []
    rw [update_of_ne (by have := h.current; omega)]
    exact h.outside i hi'
  · exact hperm.nodup_iff.2 (List.nodup_cons.1 (by simpa using hnd)).2
  · rw [hperm.mem_iff]
    by_cases hx : x = timer
    · subst hx
      simpa [extractHead] using hnot
    · show update t.isActive timer false x = true ↔ _
      rw [update_of_ne hx, h.active x, hold.mem_iff]
      simp [hx]
  · rw [hperm.length_eq, extractHead, h.count, hold.length_eq]
    simp

omit [DecidableEq T] in
theorem Inv.countedDown {t : UcsTwheel T} (h : Inv 1 t) : Inv 0 (countDown t) :=
  ⟨h.numSlots, h.current, h.res, h.outside, h.nodup, h.active, by
    simp only [countDown, h.count]
    rfl⟩

omit [DecidableEq T] in
theorem frame_countDown (t : UcsTwheel T) : Frame t (countDown t) := ⟨rfl, rfl, rfl, rfl, rfl⟩

omit [DecidableEq T] in
/-- Moving the cursor on keeps the invariant. -/
theorem Inv.advance {t : UcsTwheel T} (h : Inv 0 t) :
    Inv 0 { t with current := (t.current + 1) % t.numSlots } :=
  ⟨h.numSlots, Nat.mod_lt _ (by have := h.numSlots; omega), h.res, h.outside, h.nodup, h.active,
    h.count⟩

section Sweep

variable (cb : T → UcsTwheel T → List (WheelCall T)) (res : UInt64)
  (hcb : ∀ timer t, ∀ c ∈ cb timer t, c.Valid res)
include hcb

/-- With fuel for every timer in the slot at the cursor, the dispatch loop empties that slot
and keeps the invariant. -/
theorem drainSlot_spec :
    ∀ (fuel : ℕ) (t : UcsTwheel T), Inv 0 t → t.res = res → (t.wheel t.current).length ≤ fuel →
      ∃ t' fired, drainSlot cb fuel t = some (t', fired) ∧ Inv 0 t' ∧ Frame t t' ∧
        t'.wheel t'.current = []
  | 0, t, h, _, hfuel => by
    have hempty := List.length_eq_zero_iff.1 (Nat.le_zero.1 hfuel)
    exact ⟨t, [], by simp [drainSlot, hempty], h, Frame.refl t, hempty⟩
  | fuel + 1, t, h, hres, hfuel => by
    rcases hslot : t.wheel t.current with _ | ⟨timer, rest⟩
    · exact ⟨t, [], by simp [drainSlot, hslot], h, Frame.refl t, hslot⟩
    · -- the callback runs on the wheel without the extracted timer, which it cannot lengthen
      have hvalid : ∀ c ∈ cb timer (extractHead t timer rest), c.Valid (extractHead t timer rest).res :=
        fun c hc => hres ▸ hcb timer _ c hc
      obtain ⟨t₂, hrun, hinv₂, hf₂, hl₂⟩ := (h.extract hslot).calls hvalid
      have hlen : ((countDown t₂).wheel (countDown t₂).current).length ≤ fuel := by
        have hcur : t₂.current = t.current := hf₂.current
        have hrest : ((extractHead t timer rest).wheel t.current).length = rest.length := by
          simp [extractHead]
        rw [hslot, List.length_cons] at hfuel
        show (t₂.wheel t₂.current).length ≤ fuel
        rw [hcur]
        exact (hl₂.trans hrest.le).trans (by omega)
      obtain ⟨t', fired, hdrain, hinv', hf', hempty⟩ :=
        drainSlot_spec fuel _ hinv₂.countedDown (hf₂.res.trans hres) hlen
      refine ⟨t', timer :: fired, by simp [drainSlot, hslot, hrun, hdrain], hinv', ?_, hempty⟩
      exact (⟨rfl, rfl, rfl, rfl, rfl⟩ : Frame t (extractHead t timer rest)).trans
        (hf₂.trans ((frame_countDown t₂).trans hf'))

/-- A sweep over `k` slots keeps the invariant and the resolution. -/
theorem sweepSlots_spec :
    ∀ (k : ℕ) (t : UcsTwheel T), Inv 0 t → t.res = res →
      ∃ t' fired, sweepSlots cb k t = some (t', fired) ∧ Inv 0 t' ∧ t'.res = res
  | 0, t, h, hres => ⟨t, [], rfl, h, hres⟩
  | k + 1, t, h, hres => by
    obtain ⟨t₁, fired, hdrain, hinv₁, hf₁, -⟩ := drainSlot_spec cb res hcb _ t h hres le_rfl
    obtain ⟨t', fired', hsweep, hinv', hres'⟩ :=
      sweepSlots_spec k _ hinv₁.advance (hf₁.res.trans hres)
    exact ⟨t', fired ++ fired', by simp [sweepSlots, hdrain, hsweep], hinv', hres'⟩

theorem ucsTwheelSweep_spec {t : UcsTwheel T} (h : Inv 0 t) (hres : t.res = res)
    (currentTime : UInt64) :
    ∃ t' fired, ucsTwheelSweep cb t currentTime = some (t', fired) ∧ Inv 0 t' ∧ t'.res = res := by
  unfold ucsTwheelSweep
  split_ifs
  · exact sweepSlots_spec cb res hcb _ { t with now := currentTime }
      ⟨h.numSlots, h.current, h.res, h.outside, h.nodup, h.active, h.count⟩ hres
  · exact ⟨t, [], rfl, h, hres⟩

/-- Each call from outside keeps the invariant and the resolution. -/
theorem twheelStep_spec {t : UcsTwheel T} (h : Inv 0 t) (hres : t.res = res) {op : TwheelOp T}
    (hop : op.Valid res) :
    ∃ t' fired, twheelStep cb t op = some (t', fired) ∧ Inv 0 t' ∧ t'.res = res := by
  cases op with
  | add timer delta =>
    obtain ⟨t', hrun, hinv', hf', -⟩ := h.call (c := .add timer delta) (hres ▸ hop)
    exact ⟨t', [], by simpa [twheelStep, WheelCall.run] using hrun, hinv', hf'.res.trans hres⟩
  | remove timer =>
    obtain ⟨t', hrun, hinv', hf', -⟩ := h.call (c := .remove timer) trivial
    exact ⟨t', [], by simpa [twheelStep, WheelCall.run] using hrun, hinv', hf'.res.trans hres⟩
  | sweep currentTime => exact ucsTwheelSweep_spec cb res hcb h hres currentTime

theorem twheelRun_spec :
    ∀ (ops : List (TwheelOp T)) (t : UcsTwheel T), Inv 0 t → t.res = res →
      (∀ op ∈ ops, op.Valid res) →
      ∃ t' fired, twheelRun cb t ops = some (t', fired) ∧ Inv 0 t' ∧ t'.res = res
  | [], t, h, hres, _ => ⟨t, [], rfl, h, hres⟩
  | op :: ops, t, h, hres, hops => by
    obtain ⟨t₁, fired, hstep, hinv₁, hres₁⟩ :=
      twheelStep_spec cb res hcb h hres (hops op List.mem_cons_self)
    obtain ⟨t', fired', hrun, hinv', hres'⟩ :=
      twheelRun_spec ops t₁ hinv₁ hres₁ fun op' hop' => hops op' (List.mem_cons_of_mem op hop')
    exact ⟨t', fired ++ fired', by simp [twheelRun, hstep, hrun], hinv', hres'⟩

end Sweep

/-! ### The wheel from `ucs_twheel_init` -/

/-- Doubling from a power of two below `2 ^ 63` toward `n ≤ 2 ^ 63` stays a power of two. -/
theorem roundupPow2Loop_pow {n : UInt64} (hn : n.toNat ≤ 2 ^ 63) :
    ∀ (fuel : ℕ) (pow2 : UInt64) (k : ℕ), pow2.toNat = 2 ^ k → k ≤ 63 →
      ∃ j, (roundupPow2Loop n fuel pow2).toNat = 2 ^ j
  | 0, _, k, hk, _ => ⟨k, hk⟩
  | fuel + 1, pow2, k, hk, hk63 => by
    unfold roundupPow2Loop
    split_ifs with hlt
    · -- below `n`, hence below `2 ^ 63`: the doubling does not overflow
      have hlt' : 2 ^ k < 2 ^ 63 := hk ▸ lt_of_lt_of_le (UInt64.lt_iff_toNat_lt.1 hlt) hn
      have hk' : k < 63 := (Nat.pow_lt_pow_iff_right (by norm_num)).1 hlt'
      have hshift : (pow2 <<< 1).toNat = 2 ^ (k + 1) := by
        have hmul : (pow2 <<< 1).toNat = pow2.toNat * 2 % 2 ^ 64 := by
          simp [UInt64.toNat_shiftLeft]
          omega
        rw [hmul, hk, ← pow_succ]
        exact Nat.mod_eq_of_lt (Nat.pow_lt_pow_right (by norm_num) (by omega))
      exact roundupPow2Loop_pow hn fuel _ (k + 1) hshift (by omega)
    · exact ⟨k, hk⟩

omit [DecidableEq T] in
theorem inv_init {resolution : UInt64} (hres : resolution.toNat ≤ 2 ^ 63) (currentTime : UInt64) :
    Inv 0 (ucsTwheelInit resolution currentTime : UcsTwheel T) := by
  obtain ⟨j, hj⟩ := roundupPow2Loop_pow hres 64 1 0 rfl (by norm_num)
  have htimers : timers (ucsTwheelInit resolution currentTime : UcsTwheel T) = [] :=
    List.flatMap_eq_nil_iff.2 fun _ _ => rfl
  refine ⟨show 2 ≤ 1024 by norm_num, show 0 < 1024 by norm_num, ?_, fun _ _ => rfl, ?_,
    fun _ => ?_, ?_⟩
  · show (ucsRoundupPow2 resolution).toNat = 2 ^ (ucsRoundupPow2 resolution).toNat.log2
    rw [ucsRoundupPow2, hj, Nat.log2_two_pow]
  · rw [htimers]
    exact List.nodup_nil
  · rw [htimers]
    simp [ucsTwheelInit]
  · rw [htimers]
    rfl

/-- From `ucs_twheel_init`, over any calls of `ucs_wtimer_add`, `ucs_wtimer_remove` and
`ucs_twheel_sweep` whose callbacks arm and remove timers in any way, every timer armed for at
least one resolution, the wheel holds exactly the active timers, each in one slot and once,
and `count` counts them. -/
theorem twheelRun_count_active (resolution currentTime : UInt64)
    (hres : resolution.toNat ≤ 2 ^ 63) (cb : T → UcsTwheel T → List (WheelCall T))
    (hcb : ∀ timer t, ∀ c ∈ cb timer t, c.Valid (ucsRoundupPow2 resolution))
    (ops : List (TwheelOp T)) (hops : ∀ op ∈ ops, op.Valid (ucsRoundupPow2 resolution)) :
    ∃ t fired, twheelRun cb (ucsTwheelInit resolution currentTime) ops = some (t, fired) ∧
      (timers t).Nodup ∧ (∀ timer, t.isActive timer = true ↔ timer ∈ timers t) ∧
      t.count = (timers t).length := by
  obtain ⟨t, fired, hrun, hinv, -⟩ :=
    twheelRun_spec cb _ hcb ops _ (inv_init hres currentTime) rfl hops
  exact ⟨t, fired, hrun, hinv.nodup, hinv.active, hinv.count⟩


/-- The run of the timer that re-arms itself for one resolution: armed once and swept at
time `3`, it ends in one slot, counted once. -/
theorem twheelRun_count_active_rearm :
    ∃ t fired, twheelRun (fun _ _ => [.add () 1]) (ucsTwheelInit 1 0 : UcsTwheel Unit)
        [.add () 1, .sweep 3] = some (t, fired) ∧
      (timers t).Nodup ∧ (∀ timer, t.isActive timer = true ↔ timer ∈ timers t) ∧
      t.count = (timers t).length :=
  twheelRun_count_active 1 0 (by decide) _ (fun _ _ c hc => by
      rw [List.mem_singleton.1 hc]
      exact (by decide : ucsRoundupPow2 1 ≤ 1))
    _ (fun op hop => by
      simp only [List.mem_cons, List.not_mem_nil, or_false] at hop
      rcases hop with rfl | rfl
      · exact (by decide : ucsRoundupPow2 1 ≤ 1)
      · trivial)

/-! ### A timer that re-arms itself -/

/-- A timer whose callback re-arms it for one resolution, as `uct_ud_ep_timer` does through
`uct_ud_ep_timer_backoff`. Armed at time `0` on a wheel of resolution `1` for one tick and swept
at time `3`, it is dispatched twice by that one sweep. The second dispatch is of the arming its
first callback made, while the wheel time was already `3`: the cursor stood at slot `1`, so
the timer went to slot `2`, which the same sweep then drains. The second callback arms it once
more, into slot `3`, where the sweep stops. -/
theorem ucsTwheelSweep_rearm_dispatched_twice :
    ∃ t₁ t₂, ucsWtimerAdd (ucsTwheelInit 1 0) () 1 = some (t₁, .ok) ∧
      ucsTwheelSweep (fun _ _ => [.add () 1]) t₁ 3 = some (t₂, [(), ()]) ∧
      t₂.now = 3 ∧ t₂.isActive () = true ∧ t₂.current = 3 ∧ t₂.wheel 3 = [()] :=
  ⟨_, _, rfl, rfl, rfl, rfl, rfl, rfl⟩

end UcxProofs.TimerWheel
