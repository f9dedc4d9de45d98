import Gradyx.Core.IntrusivePtr.Machine

/-!
# IntrusivePtr — heaps of targets with members

Targets whose members are `IntrusivePtr` handles to other targets, root
handles outside them, and sequential runs of the handles' member functions
(`include/gradyx/core/intrusive_ptr.h`).

* Objects are numbered in the order of their construction.
* `release_strong_ref` may delete an object, whose destructor resets the
  members, which releases further objects. The nested calls are a stack of
  `Task`s, run one primitive step at a time by `cascadeStep`.
* An operation is what it does itself (`perform`) followed by the whole
  cascade it set off (`settle`). A run is a sequence of such operations.

No weak handles exist here: `weakRefs` holds the implicit weak reference only,
and the control block goes with it.
-/

namespace Gradyx.IntrusiveHeap

open Gradyx.Lib
open Gradyx.IntrusivePtr (sizeMax sizeSub)

/-- `T* target_` of a handle. -/
abbrev Ptr := Option ℕ

/-- One object with its control block. `target` says whether the control
block's pointer to the object is non-null; `members` are the handles the object
has as members, in declaration order. -/
structure Target where
  strongRefs : ℕ
  weakRefs : ℕ
  target : Bool
  members : List Ptr
deriving DecidableEq, Repr

/-- What is still to run: `release_strong_ref` of an object, or the rest of an
object's destructor with `k` members still to be destroyed. -/
inductive Task where
  | release (o : ℕ)
  | destroy (o : ℕ) (k : ℕ)
deriving DecidableEq, Repr

/-- The heap. A root is a handle outside the heap, `none` once destroyed.
`destroyed` and `fault` are history: the objects whose destructor completed,
and whether a step touched one of them afterwards. -/
structure Heap where
  objs : List Target
  roots : List (Option Ptr)
  pending : List Task
  destroyed : List ℕ
  fault : Bool
deriving DecidableEq, Repr

/-- Where a handle lives. -/
inductive Place where
  | root (i : ℕ)
  | member (o : ℕ) (k : ℕ)
deriving DecidableEq, Repr

/-- The calls of a run. A constructor makes the next root. -/
inductive Op where
  | construct
  | makeIntrusive (inits : List Place)
  | copyConstruct (other : Place)
  | moveConstruct (other : Place)
  | copyAssign (self other : Place)
  | swap (self other : Place)
  | reset (self : Place)
  | destroy (i : ℕ)
deriving DecidableEq, Repr

namespace Target

def setMember (t : Target) (k : ℕ) (p : Ptr) : Target :=
  { t with members := t.members.set k p }

end Target

namespace Heap

/-- The heap with nothing in it. -/
def empty : Heap := ⟨[], [], [], [], false⟩

/-! ## Handles -/

/-- The pointer of the handle, if a handle is there. -/
def load (h : Heap) : Place → Option Ptr
  | .root i => h.roots[i]?.join
  | .member o k => h.objs[o]?.bind fun t => t.members[k]?

def withObj (h : Heap) (o : ℕ) (t : Target) : Heap := { h with objs := h.objs.set o t }

def withRoot (h : Heap) (i : ℕ) (r : Option Ptr) : Heap := { h with roots := h.roots.set i r }

/-- Overwrite the pointer of the handle. -/
def store (h : Heap) (pl : Place) (p : Ptr) : Heap :=
  match pl with
  | .root i => h.withRoot i (some p)
  | .member o k =>
      match h.objs[o]? with
      | none => h
      | some t => h.withObj o (t.setMember k p)

def addRoot (h : Heap) (p : Ptr) : Heap := { h with roots := h.roots ++ [some p] }

def addObj (h : Heap) (t : Target) : Heap := { h with objs := h.objs ++ [t] }

/-- Continue with another call. -/
def push (h : Heap) (τ : Task) : Heap := { h with pending := τ :: h.pending }

/-- A call returned, or goes on with `rest`. -/
def withPending (h : Heap) (rest : List Task) : Heap := { h with pending := rest }

def withFault (h : Heap) (b : Bool) : Heap := { h with fault := b }

/-- An access to the object or its control block: a fault once they are gone. -/
def touch (h : Heap) (t : Target) : Heap := h.withFault (h.fault || t.weakRefs == 0)

def failed (h : Heap) : Heap := h.withFault true

def logDestroyed (h : Heap) (o : ℕ) : Heap := { h with destroyed := o :: h.destroyed }

/-- The handle may be used: it is a root, or a member of an object whose
destructor has not started. -/
def usable (h : Heap) : Place → Bool
  | .root i => (h.load (.root i)).isSome
  | .member o k => h.objs[o]?.any (·.target) && (h.load (.member o k)).isSome

/-! ## Reference counts -/

/-- `retain_strong_ref` of the target of a non-null pointer; `none` when
`increment_ref_count` terminates the process. -/
def retain (h : Heap) : Ptr → Option Heap
  | none => some h
  | some o =>
      match h.objs[o]? with
      | none => some h.failed
      | some t =>
          if t.strongRefs = sizeMax then none
          else some ((h.touch t).withObj o { t with strongRefs := t.strongRefs + 1 })

/-- `release_strong_ref`: `fetch_sub`, and when it returned `1` the exchange of
the control block's pointer and the deletion of what it pointed to. -/
def releaseStrongRef (h : Heap) (o : ℕ) : Heap :=
  match h.objs[o]? with
  | none => h.failed
  | some t =>
      let count := sizeSub t.strongRefs
      -- `fetch_sub` returned `1`: this was the last reference
      if t.strongRefs = 1 then
        let h := (h.touch t).withObj o { t with strongRefs := count, target := false }
        if t.target then h.push (.destroy o t.members.length) else h
      else (h.touch t).withObj o { t with strongRefs := count }

/-- `IntrusivePtr::reset`, up to its call of `release_strong_ref`. -/
def reset (h : Heap) (self : Place) : Heap :=
  match h.load self with
  | none => h.failed
  | some none => h.store self none
  | some (some o) => (h.store self none).push (.release o)

/-- `~IntrusivePtrTarget`: `release_weak_ref`; then the object's storage goes. -/
def baseDestructor (h : Heap) (o : ℕ) : Heap :=
  match h.objs[o]? with
  | none => h.failed
  | some t =>
      ((h.touch t).logDestroyed o).withObj o { t with weakRefs := sizeSub t.weakRefs }

/-! ## The cascade of destructors -/

/-- One primitive step of the pending calls. Members are destroyed in reverse
order of declaration, the base class last. -/
def cascadeStep (h : Heap) : Heap :=
  match h.pending with
  | [] => h
  | .release o :: rest => (h.withPending rest).releaseStrongRef o
  | .destroy o 0 :: rest => (h.withPending rest).baseDestructor o
  -- the destructor of member `k`, which may release another object
  | .destroy o (k + 1) :: rest => (h.withPending (.destroy o k :: rest)).reset (.member o k)

/-- What a pending call costs by itself. -/
def taskCost : Task → ℕ
  | .release _ => 1
  | .destroy _ k => 2 * k + 1

/-- What the destructor of an object costs that has not started. -/
def objCost (t : Target) : ℕ := if t.target then 2 * t.members.length + 1 else 0

/-- No cascade takes more steps. -/
def cost (h : Heap) : ℕ := tally taskCost h.pending + tally objCost h.objs

/-- Run the cascade to its end. -/
def settle (h : Heap) : Heap := cascadeStep^[h.cost] h

/-! ## Operations

What each call does before the release it may set off runs. `none`: the call
is not possible here, or the process terminates in it. -/

/-- `make_intrusive`, for a constructor that copies the members from handles. -/
def makeIntrusive (h : Heap) (inits : List Place) : Option Heap := do
  guard (inits.all h.usable)
  let members := inits.map fun pl => (h.load pl).join
  -- the constructor copies its members before the object has a handle
  let h ← members.foldlM retain h
  return (h.addObj ⟨1, 1, true, members⟩).addRoot (some h.objs.length)

/-- `IntrusivePtr(const IntrusivePtr&)`. -/
def copyConstruct (h : Heap) (other : Place) : Option Heap := do
  guard (h.usable other)
  let p ← h.load other
  let h ← h.retain p
  return h.addRoot p

/-- `IntrusivePtr(IntrusivePtr&&)`. -/
def moveConstruct (h : Heap) (other : Place) : Option Heap := do
  guard (h.usable other)
  let p ← h.load other
  return (h.store other none).addRoot p

/-- `operator=(const IntrusivePtr&)`: the local copy takes the reference, the
swap hands it the old pointer, and its destructor releases that one. -/
def copyAssign (h : Heap) (self other : Place) : Option Heap := do
  guard (h.usable self && h.usable other)
  if self = other then return h
  let copy ← h.load other
  let h ← h.retain copy
  let old ← h.load self
  -- `swap(copy)`, and what the destructor of `copy` releases
  let h := h.store self copy
  return old.elim h fun o => h.push (.release o)

/-- `IntrusivePtr::swap`. -/
def swap (h : Heap) (self other : Place) : Option Heap := do
  guard (h.usable self && h.usable other)
  let p ← h.load self
  let q ← h.load other
  return (h.store self q).store other p

/-- The destructor of a root: `reset`, then its storage goes. -/
def destroyRoot (h : Heap) (i : ℕ) : Option Heap := do
  guard (h.usable (.root i))
  return (h.reset (.root i)).withRoot i none

def perform (h : Heap) : Op → Option Heap
  | .construct => some (h.addRoot none)
  | .makeIntrusive inits => h.makeIntrusive inits
  | .copyConstruct other => h.copyConstruct other
  | .moveConstruct other => h.moveConstruct other
  | .copyAssign self other => h.copyAssign self other
  | .swap self other => h.swap self other
  | .reset self => if h.usable self then some (h.reset self) else none
  | .destroy i => h.destroyRoot i

/-- A call with its whole cascade. -/
def step (h : Heap) (op : Op) : Option Heap := (h.perform op).map settle

end Heap

/-- Sequential runs from the empty heap. -/
def machine : Machine Heap Op where
  Init h := h = .empty
  step := Heap.step

end Gradyx.IntrusiveHeap
