import UcxProofs.Arbiter

/-!
What the arbiter is for: a FIFO queue of elements per group, and the scheduled groups in the
order they will be served.

`ucs_arbiter_group_push_elem` appends to a queue, `push_head_elem` puts in front, both only
for an element that is in no queue; scheduling appends a non-empty group that is not
scheduled yet; descheduling drops it; purging filters a queue. A dispatch serves the groups in
order: each callback gets the first element of its group's queue. While it runs the element is
out of the queue and the group counts as non-empty, so that the callback may schedule it
again; the result then says whether the element goes back to the front of its queue and where
the group goes.
-/

namespace UcxProofs.Arbiter

open Function

structure ArbiterSpec where
  queues : ℕ → List ℕ
  sched : List ℕ

namespace ArbiterSpec

variable (a : ArbiterSpec)

/-- The element waits in some group's queue. -/
def Queued (e : ℕ) : Prop := ∃ g, e ∈ a.queues g

open Classical in
noncomputable def push (g e : ℕ) : ArbiterSpec :=
  if a.Queued e then a else { a with queues := update a.queues g (a.queues g ++ [e]) }

open Classical in
noncomputable def pushHead (g e : ℕ) : ArbiterSpec :=
  if a.Queued e then a else { a with queues := update a.queues g (e :: a.queues g) }

def schedule (g : ℕ) : ArbiterSpec :=
  if a.queues g ≠ [] ∧ g ∉ a.sched then { a with sched := a.sched ++ [g] } else a

def desched (g : ℕ) : ArbiterSpec := { a with sched := a.sched.erase g }

def purge (g : ℕ) (remove : ℕ → Bool) : ArbiterSpec :=
  let q := (a.queues g).filter fun e => !remove e
  { queues := update a.queues g q, sched := if q = [] then a.sched.erase g else a.sched }

/-- No element queued, no group scheduled. -/
def init : ArbiterSpec := ⟨fun _ => [], []⟩

end ArbiterSpec

/-- A dispatch in progress: the groups set aside by `RESCHED_GROUP`, and the calls so far. -/
structure SpecDispatch where
  spec : ArbiterSpec
  resched : List ℕ
  calls : List (ℕ × Ptr × ℕ)

/-- A callback's own operation while group `cur` is dispatched: `cur` may be scheduled again
although its queue is momentarily empty. -/
noncomputable def specCbOp (cur : ℕ) (resched : List ℕ) (a : ArbiterSpec) :
    UcsArbiterCbOp → ArbiterSpec
  | .pushElem g e => a.push g e
  | .groupSchedule g =>
    if (a.queues g ≠ [] ∨ g = cur) ∧ g ∉ a.sched ∧ g ∉ resched then
      { a with sched := a.sched ++ [g] }
    else a

/-- The element was removed: the group's next element is served next, unless the group is
scheduled again already, has had its `perGroup` callbacks, or is empty. -/
def specDispatchRemove (perGroup : ℕ) (d : SpecDispatch) (g count : ℕ) :
    SpecDispatch × DispatchNext :=
  let a := d.spec
  match a.queues g with
  | [] => ({ d with spec := { a with sched := a.sched.erase g } }, .nextGroup)
  | e' :: _ =>
    if g ∈ a.sched then (d, .nextGroup)
    else if perGroup ≤ count then ({ d with spec := { a with sched := a.sched ++ [g] } }, .nextGroup)
    else (d, .sameGroup (UcsArbiterElemPtr.elem e'))

/-- The element was kept: it goes back to the front of its queue, and the group goes where the
result says. -/
def specDispatchKeep (d : SpecDispatch) (g e : ℕ) (result : UcsArbiterCbResult) :
    SpecDispatch × DispatchNext :=
  let a := d.spec
  let a := { a with queues := update a.queues g (e :: a.queues g) }
  match result with
  | .deschedGroup => ({ d with spec := a }, .nextGroup)
  | .reschedGroup =>
    ({ d with spec := { a with sched := a.sched.erase g }, resched := d.resched ++ [g] },
      .nextGroup)
  | .stop => ({ d with spec := { a with sched := g :: a.sched.erase g } }, .stop)
  | _ => ({ d with spec := { a with sched := a.sched.erase g ++ [g] } }, .nextGroup)

/-- One callback of a dispatch, on the element `e` at the front of group `g`; `count` is the
number of callbacks on this visit of `g` before this one. -/
noncomputable def specDispatchElem (perGroup : ℕ) (d : SpecDispatch) (g e count : ℕ)
    (action : UcsArbiterCbAction) : SpecDispatch × DispatchNext :=
  let a := d.spec
  let a := { a with queues := update a.queues g (a.queues g).tail }
  let a := action.ops.foldl (specCbOp g d.resched) a
  let d := { d with spec := a, calls := d.calls ++ [(g, UcsArbiterElemPtr.elem e, count)] }
  if action.result = .removeElem then specDispatchRemove perGroup d g (count + 1)
  else specDispatchKeep d g e action.result

/-- Who gets the next callback. -/
inductive SpecCall
  | done
  | fault
  | call (d : SpecDispatch) (g e count : ℕ)

def specNextCall (d : SpecDispatch) : Option (ℕ × ℕ) → SpecCall
  | some (g, count) =>
    match d.spec.queues g with
    | e :: _ => .call d g e count
    | [] => .fault
  | none =>
    match d.spec.sched with
    | [] => .done
    | g :: rest =>
      match d.spec.queues g with
      | e :: _ => .call { d with spec := { d.spec with sched := rest } } g e 0
      | [] => .fault

noncomputable def specDispatchLoop (perGroup : ℕ) (cb : ℕ → Ptr → UcsArbiterCbAction) :
    ℕ → SpecDispatch → Option (ℕ × ℕ) → Option SpecDispatch
  | fuel, d, cur =>
    match specNextCall d cur with
    | .done => some d
    | .fault => none
    | .call d g e count =>
      match fuel with
      | 0 => none
      | fuel + 1 =>
        match specDispatchElem perGroup d g e count (cb d.calls.length (.elem e)) with
        | (d, .sameGroup _) => specDispatchLoop perGroup cb fuel d (some (g, count + 1))
        | (d, .nextGroup) => specDispatchLoop perGroup cb fuel d none
        | (d, .stop) => some d

noncomputable def specDispatch (a : ArbiterSpec) (perGroup : ℕ)
    (cb : ℕ → Ptr → UcsArbiterCbAction) (fuel : ℕ) : Option (ArbiterSpec × List (ℕ × Ptr × ℕ)) :=
  if a.sched = [] then some (a, [])
  else
    (specDispatchLoop perGroup cb fuel ⟨a, [], []⟩ none).map fun d =>
      ({ d.spec with sched := d.spec.sched ++ d.resched }, d.calls)

/-- One call on the scheduler. The fuel of the heap's run bounds it the same way: a purge
needs it for its group's queue, a dispatch for its callbacks. -/
noncomputable def arbiterSpecStep (fuel : ℕ) (a : ArbiterSpec) :
    UcsArbiterOp → Option (ArbiterSpec × List (ℕ × List (ℕ × Ptr × ℕ)))
  | .groupPushElem g e => some (a.push g e, [])
  | .groupPushHeadElem g e => some (a.pushHead g e, [])
  | .groupSchedule g => some (a.schedule g, [])
  | .groupDesched g => some (a.desched g, [])
  | .groupPurge g remove =>
    if (a.queues g).length ≤ fuel then some (a.purge g fun e => remove (.elem e), []) else none
  | .dispatch perGroup cb =>
    (specDispatch a perGroup cb fuel).map fun r => (r.1, [(perGroup, r.2)])

noncomputable def arbiterSpecRun (fuel : ℕ) (a : ArbiterSpec) :
    List UcsArbiterOp → Option (ArbiterSpec × List (ℕ × List (ℕ × Ptr × ℕ)))
  | [] => some (a, [])
  | op :: ops =>
    (arbiterSpecStep fuel a op).bind fun r =>
      (arbiterSpecRun fuel r.1 ops).map fun r' => (r'.1, r.2 ++ r'.2)

end UcxProofs.Arbiter
