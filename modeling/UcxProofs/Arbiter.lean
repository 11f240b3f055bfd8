import UcxProofs.Lib.Cycle

/-!
The arbiter of `ucs/datastruct/arbiter.{h,c}`.

Elements wait in groups; each group is a singly linked ring through `elem->next`, reached from
`group->tail`, whose `next` is the group's head. A group is scheduled when its head is linked
into the arbiter's list, a `ucs_list_link_t` list; `head->list.next == NULL` means "not
scheduled". `ucs_arbiter_dispatch` takes groups from the front of the list and hands their
heads to a callback; while the callback runs, an on-stack dummy element stands in the ring for
the head being dispatched, so that the callback can push elements and schedule groups,
including this one. `ucs_arbiter_group_purge` parks a second dummy in the list while it walks
a ring.

The whole heap is one record: the arbiter's list, the groups' tails, and the `next`, `group`
and list-link fields of every element, the two dummies included. A `ucs_list_link_t` list is
kept as the sequence of the links it chains; the link's `next` pointer being NULL is the flag
`listLinked`, which `ucs_list_del` leaves as it was, as the source does. Initial `next` and
link fields are arbitrary, as after allocation. A callback is a function of the call number and
of the element it gets, returning what it pushes and schedules and its result; loops run on
fuel, a bound on the callbacks a dispatch may make or the elements a walk may visit.
-/

namespace UcxProofs.Arbiter

open Function

/-- `ucs_arbiter_elem_t *`: a user element, the dummy of `ucs_arbiter_dispatch_nonempty` or the
dummy of `ucs_arbiter_group_purge`. -/
inductive UcsArbiterElemPtr
  | elem (id : ℕ)
  | dispatchDummy
  | purgeDummy
  deriving DecidableEq, Repr

inductive UcsArbiterCbResult
  | removeElem
  | nextGroup
  | deschedGroup
  | reschedGroup
  | stop
  deriving DecidableEq, Repr

/-- An arbiter with its groups (numbered) and elements. -/
structure UcsArbiter where
  list : List UcsArbiterElemPtr
  tail : ℕ → Option UcsArbiterElemPtr
  next : UcsArbiterElemPtr → UcsArbiterElemPtr
  group : UcsArbiterElemPtr → Option ℕ
  listLinked : UcsArbiterElemPtr → Bool

abbrev Ptr := UcsArbiterElemPtr

/-- `ucs_arbiter_init`, `ucs_arbiter_group_init` on every group and `ucs_arbiter_elem_init` on
every element; the other fields hold whatever the memory held. -/
def ucsArbiterInit (next₀ : Ptr → Ptr) (linked₀ : Ptr → Bool) : UcsArbiter :=
  ⟨[], fun _ => none, next₀, fun _ => none, linked₀⟩

namespace UcsArbiter

variable (s : UcsArbiter)

@[simps -fullyApplied] def setNext (x y : Ptr) : UcsArbiter := { s with next := update s.next x y }
@[simps -fullyApplied] def setTail (g : ℕ) (t : Option Ptr) : UcsArbiter :=
  { s with tail := update s.tail g t }
@[simps -fullyApplied] def setGroup (x : Ptr) (g : Option ℕ) : UcsArbiter :=
  { s with group := update s.group x g }
@[simps -fullyApplied] def setLinked (x : Ptr) (b : Bool) : UcsArbiter :=
  { s with listLinked := update s.listLinked x b }

/-- `ucs_list_add_tail (&arbiter->list, &x->list)`. -/
@[simps -fullyApplied] def listAddTail (x : Ptr) : UcsArbiter :=
  { s.setLinked x true with list := s.list ++ [x] }
/-- `ucs_list_add_head (&arbiter->list, &x->list)`. -/
@[simps -fullyApplied] def listAddHead (x : Ptr) : UcsArbiter :=
  { s.setLinked x true with list := x :: s.list }
/-- `ucs_list_del (&x->list)`. -/
@[simps -fullyApplied] def listDel (x : Ptr) : UcsArbiter := { s with list := s.list.erase x }
/-- `ucs_list_replace (&old->list, &new->list)`. -/
@[simps -fullyApplied] def listReplace (old new : Ptr) : UcsArbiter :=
  { s.setLinked new true with list := s.list.map fun y => if y = old then new else y }

end UcsArbiter

open UcsArbiter

def ucsArbiterGroupHeadReset (s : UcsArbiter) (head : Ptr) : UcsArbiter :=
  s.setLinked head false

def ucsArbiterElemInit (s : UcsArbiter) (elem : Ptr) : UcsArbiter := s.setGroup elem none

def ucsArbiterElemSetScheduled (s : UcsArbiter) (elem : Ptr) (g : ℕ) : UcsArbiter :=
  s.setGroup elem (some g)

def ucsArbiterGroupPushElemAlways (s : UcsArbiter) (g : ℕ) (elem : Ptr) : UcsArbiter :=
  let s := match s.tail g with
    | none => (ucsArbiterGroupHeadReset s elem).setNext elem elem
    | some tail => (s.setNext elem (s.next tail)).setNext tail elem
  ucsArbiterElemSetScheduled (s.setTail g (some elem)) elem g

def ucsArbiterGroupPushElem (s : UcsArbiter) (g : ℕ) (elem : Ptr) : UcsArbiter :=
  if (s.group elem).isSome then s else ucsArbiterGroupPushElemAlways s g elem

def ucsArbiterGroupPushHeadElemAlways (s : UcsArbiter) (g : ℕ) (elem : Ptr) : UcsArbiter :=
  let s := ucsArbiterElemSetScheduled (ucsArbiterGroupHeadReset s elem) elem g
  match s.tail g with
  | none => (s.setNext elem elem).setTail g (some elem)
  | some tail =>
    let head := s.next tail
    let s := (s.setNext elem head).setNext tail elem
    -- the new head takes the old head's place in the arbiter
    if s.listLinked head then s.listReplace head elem else s

def ucsArbiterGroupPushHeadElem (s : UcsArbiter) (g : ℕ) (elem : Ptr) : UcsArbiter :=
  if (s.group elem).isSome then s else ucsArbiterGroupPushHeadElemAlways s g elem

/-- `ucs_arbiter_group_schedule`, with `ucs_arbiter_group_schedule_nonempty` behind its
emptiness test. -/
def ucsArbiterGroupSchedule (s : UcsArbiter) (g : ℕ) : UcsArbiter :=
  match s.tail g with
  | none => s
  | some tail =>
    let head := s.next tail
    if s.listLinked head then s else s.listAddTail head

/-- `ucs_arbiter_group_desched`, with `ucs_arbiter_group_desched_nonempty` behind its
emptiness test. -/
def ucsArbiterGroupDesched (s : UcsArbiter) (g : ℕ) : UcsArbiter :=
  match s.tail g with
  | none => s
  | some tail =>
    let head := s.next tail
    if s.listLinked head then ucsArbiterGroupHeadReset (s.listDel head) head else s

/-- The loop of `ucs_arbiter_group_num_elems`: step along the ring until the tail comes back. -/
def numElemsLoop (s : UcsArbiter) (tail : Ptr) : ℕ → Ptr → ℕ → Option ℕ
  | 0, _, _ => none
  | fuel + 1, elem, n =>
    if s.next elem = tail then some (n + 1) else numElemsLoop s tail fuel (s.next elem) (n + 1)

def ucsArbiterGroupNumElems (s : UcsArbiter) (g : ℕ) (fuel : ℕ) : Option ℕ :=
  match s.tail g with
  | none => some 0
  | some tail => numElemsLoop s tail fuel tail 0

/-- The end of `ucs_arbiter_group_purge`: the group's head, old or new, takes the dummy's place
in the arbiter, or is marked unscheduled. -/
def purgeRestore (s : UcsArbiter) (schedGroup : Bool) (head : Ptr) : UcsArbiter :=
  if schedGroup then s.listReplace .purgeDummy head else ucsArbiterGroupHeadReset s head

/-- The `do ... while (ptr != tail)` loop of `ucs_arbiter_group_purge`; `remove ptr` is whether
the callback returns `UCS_ARBITER_CB_RESULT_REMOVE_ELEM` for `ptr`. -/
def purgeLoop (g : ℕ) (tail : Ptr) (schedGroup : Bool) (remove : Ptr → Bool) :
    ℕ → UcsArbiter → Ptr → Ptr → Ptr → Option UcsArbiter
  | 0, _, _, _, _ => none
  | fuel + 1, s, head, next, prev =>
    let ptr := next
    let next := s.next ptr
    let s := ucsArbiterElemInit s ptr
    if remove ptr then
      if ptr = head then
        if ptr = tail then
          -- the last element is removed: the group is empty
          let s := s.setTail g none
          some (if schedGroup then s.listDel .purgeDummy else s)
        else purgeLoop g tail schedGroup remove fuel (s.setNext prev next) next next prev
      else
        let s := if ptr = tail then s.setTail g (some prev) else s
        let s := s.setNext prev next
        if ptr = tail then some (purgeRestore s schedGroup head)
        else purgeLoop g tail schedGroup remove fuel s head next prev
    else
      let s := ucsArbiterElemSetScheduled s ptr g
      if ptr = tail then some (purgeRestore s schedGroup head)
      else purgeLoop g tail schedGroup remove fuel s head next ptr

def ucsArbiterGroupPurge (s : UcsArbiter) (g : ℕ) (remove : Ptr → Bool) (fuel : ℕ) :
    Option UcsArbiter :=
  match s.tail g with
  | none => some s
  | some tail =>
    let head := s.next tail
    let schedGroup := s.listLinked head
    -- a placeholder keeps the group's place in the arbiter
    let s := if schedGroup then s.listReplace head .purgeDummy else s
    purgeLoop g tail schedGroup remove fuel s head head tail

/-! ### Dispatch -/

/-- What a dispatch callback does to the arbiter before it returns. -/
inductive UcsArbiterCbOp
  | pushElem (group : ℕ) (elem : ℕ)
  | groupSchedule (group : ℕ)
  deriving DecidableEq, Repr

structure UcsArbiterCbAction where
  ops : List UcsArbiterCbOp
  result : UcsArbiterCbResult
  deriving DecidableEq, Repr

def ucsArbiterCbOp (s : UcsArbiter) : UcsArbiterCbOp → UcsArbiter
  | .pushElem g e => ucsArbiterGroupPushElem s g (.elem e)
  | .groupSchedule g => ucsArbiterGroupSchedule s g

/-- The element an operation pushes, if any. -/
def UcsArbiterCbOp.pushed : UcsArbiterCbOp → Option ℕ
  | .pushElem _ e => some e
  | .groupSchedule _ => none

/-- What `ucs_arbiter_dispatch` asks of its callback: an element it keeps (any result but
`UCS_ARBITER_CB_RESULT_REMOVE_ELEM`) goes back to the head of its group, so the callback does
not push it anywhere. Pushing to the head during a dispatch is not allowed at all, and
`UcsArbiterCbOp` has no such operation. -/
def UcsArbiterCbAllowed (cb : ℕ → Ptr → UcsArbiterCbAction) : Prop :=
  ∀ n e, (cb n (.elem e)).result ≠ .removeElem → ∀ op ∈ (cb n (.elem e)).ops, op.pushed ≠ some e

def ucsArbiterGroupHeadReplace (s : UcsArbiter) (g : ℕ) (groupHead newGroupHead : Ptr) :
    UcsArbiter :=
  let s := if s.next groupHead = groupHead then s.setTail g (some newGroupHead)
    else s.setNext newGroupHead (s.next groupHead)
  match s.tail g with
  | none => s
  | some tail => s.setNext tail newGroupHead

def ucsArbiterRemoveAndResetIfScheduled (s : UcsArbiter) (elem : Ptr) : UcsArbiter :=
  if s.listLinked elem then ucsArbiterGroupHeadReset (s.listDel elem) elem else s

structure UcsArbiterDispatch where
  arbiter : UcsArbiter
  reschedList : List Ptr
  /-- Every callback so far: its group, its element, and how many callbacks this visit of the
  group made before it. -/
  calls : List (ℕ × Ptr × ℕ)

/-- Where the loop of `ucs_arbiter_dispatch_nonempty` goes after a callback. -/
inductive DispatchNext
  | sameGroup (groupHead : Ptr)
  | nextGroup
  | stop

/-- The element was kept: it takes its place back from the dummy, and the group moves as the
result says. A recursive scheduling of the group, which put the dummy in the arbiter, is taken
over by `DESCHED_GROUP` and dropped by the others. -/
def dispatchKeep (d : UcsArbiterDispatch) (g : ℕ) (groupHead : Ptr)
    (result : UcsArbiterCbResult) : UcsArbiterDispatch × DispatchNext :=
  let s := ucsArbiterElemSetScheduled d.arbiter groupHead g
  let s := ucsArbiterGroupHeadReplace s g .dispatchDummy groupHead
  match result with
  | .deschedGroup =>
    let s := if s.listLinked .dispatchDummy then
      ucsArbiterGroupHeadReset (s.listReplace .dispatchDummy groupHead) .dispatchDummy else s
    ({ d with arbiter := s }, .nextGroup)
  | .reschedGroup =>
    let s := ucsArbiterRemoveAndResetIfScheduled s .dispatchDummy
    ({ d with arbiter := s.setLinked groupHead true, reschedList := d.reschedList ++ [groupHead] },
      .nextGroup)
  | .stop =>
    let s := ucsArbiterRemoveAndResetIfScheduled s .dispatchDummy
    ({ d with arbiter := s.listAddHead groupHead }, .stop)
  | _ =>
    let s := ucsArbiterRemoveAndResetIfScheduled s .dispatchDummy
    ({ d with arbiter := s.listAddTail groupHead }, .nextGroup)

/-- The element was removed: the element after the dummy becomes the head, unless the dummy was
the last one. -/
def dispatchRemove (perGroup : ℕ) (d : UcsArbiterDispatch) (g : ℕ) (count : ℕ) :
    UcsArbiterDispatch × DispatchNext :=
  let s := d.arbiter
  if s.next .dispatchDummy = .dispatchDummy then
    let s := ucsArbiterRemoveAndResetIfScheduled (s.setTail g none) .dispatchDummy
    ({ d with arbiter := s }, .nextGroup)
  else
    let groupHead := s.next .dispatchDummy
    let s := match s.tail g with
      | none => s
      | some tail => s.setNext tail groupHead
    if s.listLinked .dispatchDummy then
      -- take over a recursively scheduled group
      let s := ucsArbiterGroupHeadReset (s.listReplace .dispatchDummy groupHead) .dispatchDummy
      ({ d with arbiter := s }, .nextGroup)
    else if perGroup ≤ count then
      ({ d with arbiter := s.listAddTail groupHead }, .nextGroup)
    else
      ({ d with arbiter := ucsArbiterGroupHeadReset s groupHead }, .sameGroup groupHead)

/-- One pass of the inner loop of `ucs_arbiter_dispatch_nonempty`, from
`ucs_arbiter_elem_init (group_head)`; `count` is the number of callbacks on this group before
this one. -/
def dispatchElem (perGroup : ℕ) (d : UcsArbiterDispatch) (g : ℕ) (groupHead : Ptr) (count : ℕ)
    (action : UcsArbiterCbAction) : UcsArbiterDispatch × DispatchNext :=
  let s := ucsArbiterElemInit d.arbiter groupHead
  let s := ucsArbiterGroupHeadReplace s g groupHead .dispatchDummy
  let s := action.ops.foldl ucsArbiterCbOp s
  let d := { d with arbiter := s, calls := d.calls ++ [(g, groupHead, count)] }
  if action.result = .removeElem then dispatchRemove perGroup d g (count + 1)
  else dispatchKeep d g groupHead action.result

/-- Who gets the next callback: the current group's new head, or the head at the front of the
arbiter, taken out of it. -/
inductive DispatchCall
  | done
  | fault
  | call (d : UcsArbiterDispatch) (g : ℕ) (groupHead : Ptr) (count : ℕ)

def dispatchNextCall (d : UcsArbiterDispatch) : Option (ℕ × Ptr × ℕ) → DispatchCall
  | some (g, groupHead, count) => .call d g groupHead count
  | none =>
    match d.arbiter.list with
    | [] => .done
    | groupHead :: rest =>
      match d.arbiter.group groupHead with
      | none => .fault
      | some g =>
        let s := ucsArbiterGroupHeadReset { d.arbiter with list := rest } groupHead
        .call { d with arbiter := s.setGroup .dispatchDummy (some g) } g groupHead 0

def dispatchLoop (perGroup : ℕ) (cb : ℕ → Ptr → UcsArbiterCbAction) :
    ℕ → UcsArbiterDispatch → Option (ℕ × Ptr × ℕ) → Option UcsArbiterDispatch
  | fuel, d, cur =>
    match dispatchNextCall d cur with
    | .done => some d
    | .fault => none
    | .call d g groupHead count =>
      match fuel with
      | 0 => none
      | fuel + 1 =>
        match dispatchElem perGroup d g groupHead count (cb d.calls.length groupHead) with
        | (d, .sameGroup groupHead) => dispatchLoop perGroup cb fuel d (some (g, groupHead, count + 1))
        | (d, .nextGroup) => dispatchLoop perGroup cb fuel d none
        | (d, .stop) => some d

/-- `ucs_arbiter_dispatch`: the groups rescheduled during the dispatch go to the end of the
arbiter. Returns the arbiter and the calls made. -/
def ucsArbiterDispatch (s : UcsArbiter) (perGroup : ℕ) (cb : ℕ → Ptr → UcsArbiterCbAction)
    (fuel : ℕ) : Option (UcsArbiter × List (ℕ × Ptr × ℕ)) :=
  if s.list = [] then some (s, [])
  else
    let d : UcsArbiterDispatch := ⟨ucsArbiterGroupHeadReset s .dispatchDummy, [], []⟩
    (dispatchLoop perGroup cb fuel d none).map fun d =>
      ({ d.arbiter with list := d.arbiter.list ++ d.reschedList }, d.calls)

/-! ### Runs -/

/-- A call of the arbiter's interface. -/
inductive UcsArbiterOp
  | groupPushElem (g e : ℕ)
  | groupPushHeadElem (g e : ℕ)
  | groupSchedule (g : ℕ)
  | groupDesched (g : ℕ)
  | groupPurge (g : ℕ) (remove : Ptr → Bool)
  | dispatch (perGroup : ℕ) (cb : ℕ → Ptr → UcsArbiterCbAction)

/-- The calls whose callbacks keep the contract of `ucs_arbiter_dispatch`. -/
def UcsArbiterOp.Allowed : UcsArbiterOp → Prop
  | .dispatch _ cb => UcsArbiterCbAllowed cb
  | _ => True

/-- One call. `fuel` bounds the walk of a purge and the callbacks of a dispatch; a dispatch
reports its `per_group` and the callbacks it made. -/
def ucsArbiterStep (fuel : ℕ) (s : UcsArbiter) :
    UcsArbiterOp → Option (UcsArbiter × List (ℕ × List (ℕ × Ptr × ℕ)))
  | .groupPushElem g e => some (ucsArbiterGroupPushElem s g (.elem e), [])
  | .groupPushHeadElem g e => some (ucsArbiterGroupPushHeadElem s g (.elem e), [])
  | .groupSchedule g => some (ucsArbiterGroupSchedule s g, [])
  | .groupDesched g => some (ucsArbiterGroupDesched s g, [])
  | .groupPurge g remove => (ucsArbiterGroupPurge s g remove fuel).map fun s => (s, [])
  | .dispatch perGroup cb =>
    (ucsArbiterDispatch s perGroup cb fuel).map fun r => (r.1, [(perGroup, r.2)])

/-- A sequence of calls, with the dispatches it made. -/
def ucsArbiterRun (fuel : ℕ) (s : UcsArbiter) :
    List UcsArbiterOp → Option (UcsArbiter × List (ℕ × List (ℕ × Ptr × ℕ)))
  | [] => some (s, [])
  | op :: ops =>
    (ucsArbiterStep fuel s op).bind fun r =>
      (ucsArbiterRun fuel r.1 ops).map fun r' => (r'.1, r.2 ++ r'.2)

end UcxProofs.Arbiter
