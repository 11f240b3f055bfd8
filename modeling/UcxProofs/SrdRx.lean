import UcxProofs.FragList

/-!
The receive path of `uct_srd_iface_process_rx` (`uct/ib/efa/srd/srd_iface.c`) over one sender's
fragment list: insert the packet, hand it on if it is next in order, and then pull from the
list until the pull returns `NULL`.

The pull loop is run with a fuel argument, one pull more than the list holds. Each pull that
returns an element takes exactly that one out (`heldCount_pull`), so the loop stops because a
pull returned `NULL`, never because the fuel ran out, and what it hands on plus what stays in
the list is what the list held.
-/

namespace UcxProofs.SrdRx

open UcxProofs.FragList

variable {α : Type}

/-- The elements a fragment list holds: its ready list, and every run with its head. -/
def heldCount (head : UcsFragList α) : ℕ :=
  head.readyList.length + (head.list.map fun h => h.list.length + 1).sum

/-- What a pull does: it takes the head of the ready list, or else the run right after
`head_sn`, or else nothing. -/
lemma ucsFragListPull_cases (head : UcsFragList α) :
    (∃ e rest, head.readyList = e :: rest ∧
      ucsFragListPull head =
        (some e, { head with readyList := rest, elemCount := head.elemCount - 1 })) ∨
    (∃ h rest, head.readyList = [] ∧ head.list = h :: rest ∧
      ucsCircularCompare16 h.firstSn (head.headSn + 1) = 0 ∧
      ucsFragListPull head =
        (some h.elem, { head with list := rest, readyList := h.list, headSn := h.lastSn,
                                  elemCount := head.elemCount - 1,
                                  listCount := head.listCount - 1 })) ∨
    ucsFragListPull head = (none, head) := by
  unfold ucsFragListPull ucsFragListRemove ucsFragListPullSlow
  rcases hr : head.readyList with _ | ⟨e, rest⟩
  · rcases hl : head.list with _ | ⟨h, rest⟩
    · simp
    · by_cases hc : ucsCircularCompare16 h.firstSn (head.headSn + 1) = 0
      · exact .inr (.inl ⟨h, rest, rfl, rfl, hc, by simp [hc]⟩)
      · exact .inr (.inr (by simp [hc]))
  · exact .inl ⟨e, rest, rfl, rfl⟩

/-- A pull that returns nothing leaves the list as it was. -/
lemma ucsFragListPull_none {head : UcsFragList α} (h : (ucsFragListPull head).1 = none) :
    (ucsFragListPull head).2 = head := by
  rcases ucsFragListPull_cases head with ⟨e, rest, -, hp⟩ | ⟨h0, rest, -, -, -, hp⟩ | hp
  · rw [hp] at h; cases h
  · rw [hp] at h; cases h
  · rw [hp]

/-- A pull that returns an element takes exactly that one element out. -/
lemma heldCount_pull {head : UcsFragList α} {e : α} (h : (ucsFragListPull head).1 = some e) :
    heldCount (ucsFragListPull head).2 + 1 = heldCount head := by
  rcases ucsFragListPull_cases head with ⟨e', rest, hr, hp⟩ | ⟨h0, rest, hr, hl, -, hp⟩ | hp
  · rw [hp]
    simp only [heldCount, hr, List.length_cons]
    omega
  · rw [hp]
    simp only [heldCount, hr, hl, List.length_nil, List.map_cons, List.sum_cons]
    omega
  · rw [hp] at h; cases h

/-- The `while ((elem = ucs_frag_list_pull(...)) != NULL)` loop, for at most `fuel` pulls: the
elements pulled, in order, and the list after. -/
def pullLoop : ℕ → UcsFragList α → List α × UcsFragList α
  | 0, head => ([], head)
  | fuel + 1, head =>
    match ucsFragListPull head with
    | (some e, head') => ((pullLoop fuel head').1.cons e, (pullLoop fuel head').2)
    | (none, head') => ([], head')

/-- Once the fuel exceeds what the list holds, more fuel changes nothing. -/
lemma pullLoop_fuel_stable (fuel extra : ℕ) (head : UcsFragList α) (h : heldCount head < fuel) :
    pullLoop (fuel + extra) head = pullLoop fuel head := by
  induction fuel generalizing head with
  | zero => omega
  | succ fuel ih =>
    rw [Nat.succ_add]
    simp only [pullLoop]
    rcases hp : ucsFragListPull head with ⟨_ | e, head'⟩
    · rfl
    · have hdec := heldCount_pull (e := e) (by rw [hp])
      rw [hp] at hdec
      simp only [ih head' (by simp only at hdec; omega)]

/-- The loop of `uct_srd_iface_process_rx` after an in-order insert. -/
def ucsFragListDrain (head : UcsFragList α) : List α × UcsFragList α :=
  pullLoop (heldCount head + 1) head

/-- The loop stops because a pull returned `NULL`. -/
lemma pullLoop_ends (fuel : ℕ) (head : UcsFragList α) (h : heldCount head < fuel) :
    (ucsFragListPull (pullLoop fuel head).2).1 = none := by
  induction fuel generalizing head with
  | zero => omega
  | succ fuel ih =>
    simp only [pullLoop]
    rcases hp : ucsFragListPull head with ⟨_ | e, head'⟩
    · have hsame := ucsFragListPull_none (by rw [hp])
      rw [hp] at hsame
      simp only at hsame ⊢
      rw [hsame, hp]
    · have hdec := heldCount_pull (e := e) (by rw [hp])
      rw [hp] at hdec
      exact ih head' (by simp only at hdec; omega)

/-- The loop hands on what it takes out of the list. -/
lemma pullLoop_count (fuel : ℕ) (head : UcsFragList α) :
    (pullLoop fuel head).1.length + heldCount (pullLoop fuel head).2 = heldCount head := by
  induction fuel generalizing head with
  | zero => simp [pullLoop]
  | succ fuel ih =>
    simp only [pullLoop]
    rcases hp : ucsFragListPull head with ⟨_ | e, head'⟩
    · -- a `NULL` pull leaves the list as it was
      have hsame := ucsFragListPull_none (by rw [hp])
      rw [hp] at hsame
      simp only at hsame ⊢
      rw [hsame]
      simp
    · have hdec := heldCount_pull (e := e) (by rw [hp])
      rw [hp] at hdec
      simp only [List.length_cons] at hdec ⊢
      have := ih head'
      omega

/-- **The drain is the whole loop**: after it the next pull returns `NULL`, more fuel changes
nothing, and the elements handed on and those left are the ones the list held. -/
theorem ucsFragListDrain_ends (head : UcsFragList α) :
    (ucsFragListPull (ucsFragListDrain head).2).1 = none ∧
      (∀ extra, pullLoop (heldCount head + 1 + extra) head = ucsFragListDrain head) ∧
      (ucsFragListDrain head).1.length + heldCount (ucsFragListDrain head).2 = heldCount head :=
  ⟨pullLoop_ends _ head (Nat.lt_succ_self _),
    fun extra => pullLoop_fuel_stable _ extra head (Nat.lt_succ_self _),
    pullLoop_count _ head⟩

/-- The fragment-list part of `uct_srd_iface_process_rx`: the insert result, the descriptors
handed to `uct_srd_iface_process_rx_desc`, in order, and the list after. A descriptor that is
refused goes back to its pool. The lookup of the sender's context is left out. -/
def uctSrdIfaceProcessRx (fl : UcsFragList α) (desc : α) (psn : UInt16) :
    UcsFragListOooType × List α × UcsFragList α :=
  match ucsFragListInsert fl desc psn with
  | (.insertFast, fl) => (.insertFast, [desc], fl)
  | (.insertFirst, fl) => (.insertFirst, desc :: (ucsFragListDrain fl).1, (ucsFragListDrain fl).2)
  | (.insertSlow, fl) => (.insertSlow, [], fl)
  | (.insertReady, fl) => (.insertReady, (ucsFragListDrain fl).1, (ucsFragListDrain fl).2)
  | (t, fl) => (t, [], fl)

/-- Packets `(descriptor, psn)` received one after the other: the insert results, every
descriptor delivered, in order, and the final list. -/
def rxRun (fl : UcsFragList α) : List (α × UInt16) →
    List UcsFragListOooType × List α × UcsFragList α
  | [] => ([], [], fl)
  | (desc, psn) :: rest =>
    let r := uctSrdIfaceProcessRx fl desc psn
    let s := rxRun r.2.2 rest
    (r.1 :: s.1, r.2.1 ++ s.2.1, s.2.2)

/-- **Runs that meet across the wrap-around are not merged.** Starting at `head_sn = 65531`,
packets `65534`, `0` and `65535` leave two adjacent runs, because the merge test compares
`first_sn = 0` with `sn + 1 = 65536` as `int`s. A second copy of `0` is then appended to the
first run as if it were new, it is delivered in place of the first copy, and the first copy
stays in the list for good: packet `1`, never seen before, is refused as a duplicate. -/
theorem uctSrdIfaceProcessRx_wraparound :
    (rxRun (ucsFragListInit 65531 (-1)) [((0 : ℕ), 65534), (1, 0), (2, 65535)]).2.2.list =
        [⟨0, 65534, 65535, [2]⟩, ⟨1, 0, 0, []⟩] ∧
    rxRun (ucsFragListInit 65531 (-1))
        [((0 : ℕ), 65534), (1, 0), (2, 65535), (3, 0), (4, 65532), (5, 65533), (6, 1)] =
      ([.insertSlow, .insertSlow, .insertSlow, .insertSlow, .insertFast, .insertFirst,
          .insertDup],
        [4, 5, 0, 2, 3], ⟨[⟨1, 0, 0, []⟩], [], 0, 1, 1, -1⟩) := by
  decide

end UcxProofs.SrdRx
