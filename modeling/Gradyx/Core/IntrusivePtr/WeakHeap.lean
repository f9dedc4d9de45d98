import Gradyx.Core.IntrusivePtr.Heap

/-!
# IntrusivePtr — heaps with weak handles

The heap of `Gradyx.Core.IntrusivePtr.Heap` with `WeakIntrusivePtr` handles too: an
object has members of both kinds in any order, and there are root handles of both
kinds (`include/gradyx/core/intrusive_ptr.h`).

* A target and its control block end apart: `storage` and `control` say which of
  them is left, and an access to one that is gone is a fault of its own.
* A weak release deletes a control block at most, so it runs to its end at once;
  a strong one may set off a cascade, as before.
* The strong `operator=(IntrusivePtr&&)` is not among the operations of a run: its reset
  may end the target that holds the right-hand side, and the access after that is a fault
  (`Gradyx.Core.IntrusivePtr.MoveAssign`). The one of `WeakIntrusivePtr` is here.
-/

namespace Gradyx.WeakHeap

open Gradyx.Lib
open Gradyx.IntrusivePtr (Kind sizeMax sizeAdd sizeSub)
open Gradyx.IntrusiveHeap (Ptr Place Task)

/-- A member: an `IntrusivePtr` or a `WeakIntrusivePtr`. The pointer of either names
the object, for a weak one the object of its control block. -/
structure Handle where
  kind : Kind
  ptr : Ptr
deriving DecidableEq, Repr

/-- One object with its control block. -/
structure Target where
  strongRefs : ℕ
  weakRefs : ℕ
  target : Bool
  storage : Bool
  control : Bool
  members : List Handle
deriving DecidableEq, Repr

namespace Target

def refs (t : Target) : Kind → ℕ
  | .strong => t.strongRefs
  | .weak => t.weakRefs

def setRefs (t : Target) : Kind → ℕ → Target
  | .strong, n => { t with strongRefs := n }
  | .weak, n => { t with weakRefs := n }

/-- The pointer of member `k`, when it is a handle of the kind. -/
def member (t : Target) (kind : Kind) (k : ℕ) : Option Ptr :=
  t.members[k]?.bind fun m => if m.kind = kind then some m.ptr else none

def setMember (t : Target) (kind : Kind) (k : ℕ) (p : Ptr) : Target :=
  { t with members := t.members.set k ⟨kind, p⟩ }

end Target

/-- The roots of both kinds, `none` once destroyed. The last four fields are history:
the objects and the control blocks that were deleted, and whether a step touched one
of them afterwards. -/
structure Heap where
  objs : List Target
  roots : List (Option Ptr)
  weakRoots : List (Option Ptr)
  pending : List Task
  destroyed : List ℕ
  freed : List ℕ
  fault : Bool
  controlFault : Bool
deriving DecidableEq, Repr

/-- What a constructor makes a member from: a handle of its kind, or for a weak member
a strong handle. -/
inductive Source where
  | copy (kind : Kind) (other : Place)
  | weakFromStrong (other : Place)
deriving DecidableEq, Repr

namespace Source

/-- The kind of the handle that is read. -/
def source : Source → Kind
  | .copy kind _ => kind
  | .weakFromStrong _ => .strong

/-- The kind of the member that is made. -/
def kind : Source → Kind
  | .copy kind _ => kind
  | .weakFromStrong _ => .weak

def other : Source → Place
  | .copy _ other | .weakFromStrong other => other

end Source

/-- The member functions of both kinds of handle but the strong `operator=(IntrusivePtr&&)`. -/
inductive Op where
  | construct (kind : Kind)
  | makeIntrusive (inits : List Source)
  | copyConstruct (kind : Kind) (other : Place)
  | weakFromStrong (other : Place)
  | moveConstruct (kind : Kind) (other : Place)
  | copyAssign (kind : Kind) (self other : Place)
  | weakMoveAssign (self other : Place)
  | swap (kind : Kind) (self other : Place)
  | reset (kind : Kind) (self : Place)
  | destroy (kind : Kind) (i : ℕ)
  | lock (other : Place)
  | expired (other : Place)
deriving DecidableEq, Repr

namespace Heap

def empty : Heap := ⟨[], [], [], [], [], [], false, false⟩

/-! ## Handles -/

def rootsOf (h : Heap) : Kind → List (Option Ptr)
  | .strong => h.roots
  | .weak => h.weakRoots

/-- The pointer of the handle, if a handle of the kind is there. -/
def load (h : Heap) (kind : Kind) : Place → Option Ptr
  | .root i => (h.rootsOf kind)[i]?.join
  | .member o k => h.objs[o]?.bind fun t => t.member kind k

def withObj (h : Heap) (o : ℕ) (t : Target) : Heap := { h with objs := h.objs.set o t }

def withRoot (h : Heap) (kind : Kind) (i : ℕ) (r : Option Ptr) : Heap :=
  match kind with
  | .strong => { h with roots := h.roots.set i r }
  | .weak => { h with weakRoots := h.weakRoots.set i r }

def store (h : Heap) (kind : Kind) (pl : Place) (p : Ptr) : Heap :=
  match pl with
  | .root i => h.withRoot kind i (some p)
  | .member o k =>
      match h.objs[o]? with
      | none => h
      | some t => h.withObj o (t.setMember kind k p)

def addRoot (h : Heap) (kind : Kind) (p : Ptr) : Heap :=
  match kind with
  | .strong => { h with roots := h.roots ++ [some p] }
  | .weak => { h with weakRoots := h.weakRoots ++ [some p] }

def addObj (h : Heap) (t : Target) : Heap := { h with objs := h.objs ++ [t] }

def push (h : Heap) (τ : Task) : Heap := { h with pending := τ :: h.pending }

def withPending (h : Heap) (rest : List Task) : Heap := { h with pending := rest }

/-- No object is there, or no control block. -/
def failed (h : Heap) : Kind → Heap
  | .strong => { h with fault := true }
  | .weak => { h with controlFault := true }

/-- An access to the target's storage. -/
def touchTarget (h : Heap) (t : Target) : Heap := { h with fault := h.fault || !t.storage }

/-- An access to the control block. -/
def touchControl (h : Heap) (t : Target) : Heap :=
  { h with controlFault := h.controlFault || !t.control }

def logDestroyed (h : Heap) (o : ℕ) : Heap := { h with destroyed := o :: h.destroyed }

def logFreed (h : Heap) (o : ℕ) : Heap := { h with freed := o :: h.freed }

/-- The handle may be used: a root, or a member of an object whose destructor has not
started. -/
def usable (h : Heap) (kind : Kind) : Place → Bool
  | .root i => (h.load kind (.root i)).isSome
  | .member o k => h.objs[o]?.any (·.target) && (h.load kind (.member o k)).isSome

/-! ## Reference counts -/

/-- Copy the pointer of a handle of kind `source` into one of kind `kind`: a strong
source has the control block through the target. `none` when `increment_ref_count`
terminates the process. -/
def retain (h : Heap) (source kind : Kind) : Ptr → Option Heap
  | none => some h
  | some o =>
      match h.objs[o]? with
      | none => some (h.failed source)
      | some t =>
          let h := if source = .strong then h.touchTarget t else h
          if t.refs kind = sizeMax then none
          else some ((h.touchControl t).withObj o (t.setRefs kind (t.refs kind + 1)))

/-- `release_strong_ref`, reached through the target. -/
def releaseStrongRef (h : Heap) (o : ℕ) : Heap :=
  match h.objs[o]? with
  | none => h.failed .strong
  | some t =>
      let h := (h.touchTarget t).touchControl t
      let count := sizeSub t.strongRefs
      -- the last reference: `target.exchange(nullptr)` and `delete target`
      if t.strongRefs = 1 then
        let h := h.withObj o { t with strongRefs := count, target := false }
        if t.target then h.push (.destroy o t.members.length) else h
      else h.withObj o { t with strongRefs := count }

/-- `release_weak_ref`. -/
def releaseWeakRef (h : Heap) (o : ℕ) : Heap :=
  match h.objs[o]? with
  | none => h.failed .weak
  | some t =>
      let h := h.touchControl t
      let count := sizeSub t.weakRefs
      if t.weakRefs = 1 then
        (h.logFreed o).withObj o { t with weakRefs := count, control := false }
      else h.withObj o { t with weakRefs := count }

/-- Give the reference of a pointer up, or have it given up by the cascade. -/
def drop (h : Heap) : Kind → Ptr → Heap
  | _, none => h
  | .strong, some o => h.push (.release o)
  | .weak, some o => h.releaseWeakRef o

/-- `reset`, up to its call of `release_strong_ref`. -/
def reset (h : Heap) (kind : Kind) (self : Place) : Heap :=
  match h.load kind self with
  | none => h.failed kind
  | some p => (h.store kind self none).drop kind p

/-- The storage of the target is returned. -/
def endStorage (h : Heap) (o : ℕ) : Heap :=
  match h.objs[o]? with
  | none => h.failed .strong
  | some t => ((h.touchTarget t).logDestroyed o).withObj o { t with storage := false }

/-- `~IntrusivePtrTarget`: `release_weak_ref(control_)`; then the storage goes. -/
def baseDestructor (h : Heap) (o : ℕ) : Heap := (h.releaseWeakRef o).endStorage o

/-! ## The cascade of destructors -/

/-- The kind of the member that a destructor comes to. -/
def memberKind (h : Heap) (o k : ℕ) : Option Kind :=
  h.objs[o]?.bind fun t => t.members[k]?.map Handle.kind

def cascadeStep (h : Heap) : Heap :=
  match h.pending with
  | [] => h
  | .release o :: rest => (h.withPending rest).releaseStrongRef o
  | .destroy o 0 :: rest => (h.withPending rest).baseDestructor o
  | .destroy o (k + 1) :: rest =>
      match h.memberKind o k with
      | none => (h.withPending (.destroy o k :: rest)).failed .strong
      | some kind => (h.withPending (.destroy o k :: rest)).reset kind (.member o k)

def objCost (t : Target) : ℕ := if t.target then 2 * t.members.length + 1 else 0

/-- No cascade takes more steps. -/
def cost (h : Heap) : ℕ :=
  tally IntrusiveHeap.Heap.taskCost h.pending + tally objCost h.objs

def settle (h : Heap) : Heap := cascadeStep^[h.cost] h

/-! ## Operations

`none`: the call is not possible here, or the process terminates in it. -/

/-- The constructor of an object takes the references of its members, in order. -/
def retainAll (h : Heap) (members : List (Source × Ptr)) : Option Heap :=
  members.foldlM (fun h m => h.retain m.1.source m.1.kind m.2) h

/-- `make_intrusive`, for a constructor that copies the members from handles. -/
def makeIntrusive (h : Heap) (inits : List Source) : Option Heap := do
  guard (inits.all fun init => h.usable init.source init.other)
  let members := inits.map fun init => (init, (h.load init.source init.other).join)
  let h ← h.retainAll members
  let object : Target := ⟨1, 1, true, true, true, members.map fun m => ⟨m.1.kind, m.2⟩⟩
  return (h.addObj object).addRoot .strong (some h.objs.length)

/-- A root made from a handle: a copy, or a weak handle from a strong one. -/
def copyRoot (h : Heap) (init : Source) : Option Heap := do
  guard (h.usable init.source init.other)
  let p ← h.load init.source init.other
  let h ← h.retain init.source init.kind p
  return h.addRoot init.kind p

def moveConstruct (h : Heap) (kind : Kind) (other : Place) : Option Heap := do
  guard (h.usable kind other)
  let p ← h.load kind other
  return (h.store kind other none).addRoot kind p

/-- The copy takes the reference, the swap hands it the old pointer, and its
destructor releases that one. -/
def copyAssign (h : Heap) (kind : Kind) (self other : Place) : Option Heap := do
  guard (h.usable kind self && h.usable kind other)
  if self = other then return h
  let copy ← h.load kind other
  let h ← h.retain kind kind copy
  let old ← h.load kind self
  return (h.store kind self copy).drop kind old

/-- `WeakIntrusivePtr::operator=(WeakIntrusivePtr&&)`. -/
def weakMoveAssign (h : Heap) (self other : Place) : Option Heap := do
  guard (h.usable .weak self && h.usable .weak other)
  if self = other then return h
  let h := h.reset .weak self
  let p ← h.load .weak other
  return (h.store .weak other none).store .weak self p

def swap (h : Heap) (kind : Kind) (self other : Place) : Option Heap := do
  guard (h.usable kind self && h.usable kind other)
  let p ← h.load kind self
  let q ← h.load kind other
  return (h.store kind self q).store kind other p

def destroyRoot (h : Heap) (kind : Kind) (i : ℕ) : Option Heap := do
  guard (h.usable kind (.root i))
  return (h.reset kind (.root i)).withRoot kind i none

/-- `try_retain_strong_ref`, and the load of the target: the pointer that the handle
adopts. The increment wraps, as the atomic does. -/
def tryRetainStrongRef (h : Heap) : Ptr → Heap × Ptr
  | none => (h, none)
  | some o =>
      match h.objs[o]? with
      | none => (h.failed .weak, none)
      | some t =>
          let h := h.touchControl t
          if t.strongRefs = 0 then (h, none)
          else (h.withObj o { t with strongRefs := sizeAdd t.strongRefs },
            if t.target then some o else none)

def lock (h : Heap) (other : Place) : Option Heap := do
  guard (h.usable .weak other)
  let p ← h.load .weak other
  let result := h.tryRetainStrongRef p
  return result.1.addRoot .strong result.2

/-- What `expired` answers. -/
def isExpired (h : Heap) : Ptr → Heap × Bool
  | none => (h, true)
  | some o =>
      match h.objs[o]? with
      | none => (h.failed .weak, true)
      | some t => (h.touchControl t, t.strongRefs == 0)

def expired (h : Heap) (other : Place) : Option (Heap × Bool) := do
  guard (h.usable .weak other)
  let p ← h.load .weak other
  return h.isExpired p

def perform (h : Heap) : Op → Option Heap
  | .construct kind => some (h.addRoot kind none)
  | .makeIntrusive inits => h.makeIntrusive inits
  | .copyConstruct kind other => h.copyRoot (.copy kind other)
  | .weakFromStrong other => h.copyRoot (.weakFromStrong other)
  | .moveConstruct kind other => h.moveConstruct kind other
  | .copyAssign kind self other => h.copyAssign kind self other
  | .weakMoveAssign self other => h.weakMoveAssign self other
  | .swap kind self other => h.swap kind self other
  | .reset kind self => if h.usable kind self then some (h.reset kind self) else none
  | .destroy kind i => h.destroyRoot kind i
  | .lock other => h.lock other
  | .expired other => (h.expired other).map (·.1)

/-- A call with its whole cascade. -/
def step (h : Heap) (op : Op) : Option Heap := (h.perform op).map settle

end Heap

/-- Sequential runs from the empty heap. -/
def machine : Machine Heap Op where
  Init h := h = .empty
  step := Heap.step

end Gradyx.WeakHeap
