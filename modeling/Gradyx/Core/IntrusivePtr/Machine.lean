import Gradyx.Lib.Behavior
import Gradyx.Lib.Tally

/-!
# IntrusivePtr — the reference-counting machine

One object made by `make_intrusive`, the handles to it, and any number of
threads that run member functions of `IntrusivePtr` and `WeakIntrusivePtr`
(`include/gradyx/core/intrusive_ptr.h`) on those handles.

* `Memory` is the control block and the life of the target. Every load,
  `compare_exchange_weak` attempt, `fetch_sub` and `exchange` is one step.
* A member function is a list of `Instr`; an instruction that calls a helper
  (`retain_strong_ref`, `release_weak_ref`, ...) pushes the helper's steps.
* A thread that runs a member function holds the handle objects it works on
  in its `Frame` until the function returns, so each handle object is used by
  one thread at a time by construction.

Counters are `std::size_t` values: the increment and the decrement wrap, as
the atomics do.
-/

namespace Gradyx.IntrusivePtr

open Gradyx.Lib

/-- `std::numeric_limits<std::size_t>::max()`. -/
def sizeMax : ℕ := 2 ^ 64 - 1

/-- `count + 1` in `std::size_t`, where the largest value wraps to `0`. -/
def sizeAdd (count : ℕ) : ℕ := if count = sizeMax then 0 else count + 1

/-- What `fetch_sub(1)` leaves in a `std::size_t` counter: `0` wraps to the
largest value. -/
def sizeSub : ℕ → ℕ
  | 0 => sizeMax
  | count + 1 => count

/-- The two counters, and the two classes of handles they count. -/
inductive Kind where
  | strong
  | weak
deriving DecidableEq, Repr

/-- How far the target has come: constructed, in its destructor, past its base
destructor's `release_weak_ref`, and returned to the allocator. -/
inductive Life where
  | alive
  | destroying
  | released
  | freed
deriving DecidableEq, Repr

/-- `detail::IntrusiveControlBlock` and the target it describes. `target` says
whether the atomic pointer is non-null. The last four fields are history: how
often the target and the control block were deleted, whether a step touched
one of them after that, and whether `std::terminate` ran. -/
structure Memory where
  strongRefs : ℕ
  weakRefs : ℕ
  target : Bool
  life : Life
  targetDeletes : ℕ
  controlDeletes : ℕ
  fault : Bool
  terminated : Bool
deriving DecidableEq, Repr

namespace Memory

def refs (m : Memory) : Kind → ℕ
  | .strong => m.strongRefs
  | .weak => m.weakRefs

def setRefs (m : Memory) : Kind → ℕ → Memory
  | .strong, n => { m with strongRefs := n }
  | .weak, n => { m with weakRefs := n }

/-- An access to the control block. -/
def touchControl (m : Memory) : Memory :=
  { m with fault := m.fault || m.controlDeletes != 0 }

/-- An access to the target's storage (its `control_` member). -/
def touchTarget (m : Memory) : Memory :=
  { m with fault := m.fault || m.life == .freed }

@[simp] theorem touchControl_strongRefs (m : Memory) :
    m.touchControl.strongRefs = m.strongRefs := rfl

@[simp] theorem touchControl_weakRefs (m : Memory) : m.touchControl.weakRefs = m.weakRefs := rfl

@[simp] theorem touchTarget_strongRefs (m : Memory) : m.touchTarget.strongRefs = m.strongRefs := rfl

@[simp] theorem setRefs_strong (m : Memory) (n : ℕ) : (m.setRefs .strong n).strongRefs = n := rfl

@[simp] theorem setRefs_weak_strongRefs (m : Memory) (n : ℕ) :
    (m.setRefs .weak n).strongRefs = m.strongRefs := rfl

end Memory

/-- Storage for one handle object: nothing lives there, a copy constructor has
copied the pointer but not yet counted the reference, or a handle lives there
(`set` when its pointer is non-null). -/
inductive Slot where
  | raw
  | building (k : Kind)
  | handle (k : Kind) (set : Bool)
deriving DecidableEq, Repr

/-- The handle objects a member function works on: `*this`, its argument (for
`lock` the returned handle), and the local variable `copy`. -/
inductive Reg where
  | self
  | other
  | copy
deriving DecidableEq, Repr

/-- The handle objects, and the `bool` that `expired` returns. -/
structure Regs where
  self : Slot
  other : Slot
  copy : Slot
  answer : Bool := false
deriving DecidableEq, Repr

namespace Regs

def get (r : Regs) : Reg → Slot
  | .self => r.self
  | .other => r.other
  | .copy => r.copy

def set (r : Regs) (x : Reg) (v : Slot) : Regs :=
  match x with
  | .self => { r with self := v }
  | .other => { r with other := v }
  | .copy => { r with copy := v }

/-- The result of `expired`. -/
def reply (r : Regs) (answer : Bool) : Regs := { r with answer := answer }

end Regs

/-- The steps of the member functions and of the helpers they call. -/
inductive Instr where
  /-- `IntrusivePtr()`, `WeakIntrusivePtr()` -/
  | nullConstruct (k : Kind) (d : Reg)
  /-- `target_(other.target_)`, then the retain when it is non-null -/
  | copyConstruct (k : Kind) (d s : Reg)
  /-- `WeakIntrusivePtr(const IntrusivePtr<T>& strong)` -/
  | weakFromStrong (d s : Reg)
  /-- `target_(std::exchange(other.target_, nullptr))` -/
  | moveConstruct (k : Kind) (d s : Reg)
  /-- `target_ = std::exchange(other.target_, nullptr)` -/
  | exchangeInto (k : Kind) (d s : Reg)
  /-- `reset()` -/
  | reset (k : Kind) (x : Reg)
  /-- `swap(other)` -/
  | swap (k : Kind) (a b : Reg)
  /-- the handle object's storage is given up -/
  | endLifetime (x : Reg)
  /-- `lock()`, called on the weak handle `w`, its result built in `d` -/
  | lock (d w : Reg)
  /-- `expired()` -/
  | expired (w : Reg)
  /-- `increment_ref_count`: the first load -/
  | incrementLoad (k : Kind) (d s : Reg)
  /-- `increment_ref_count`: the test for the maximum and one CAS attempt -/
  | incrementCas (k : Kind) (current : ℕ) (d s : Reg)
  /-- `try_retain_strong_ref`: the first load -/
  | tryRetainLoad (d w : Reg)
  /-- `try_retain_strong_ref`: the loop test and one CAS attempt -/
  | tryRetainCas (count : ℕ) (d w : Reg)
  /-- `lock()`: `control_->target.load` and the adopted handle -/
  | lockTargetLoad (d : Reg)
  /-- `expired()`: the load of `strong_refs` -/
  | expiredLoad (w : Reg)
  /-- `release_strong_ref`, `release_weak_ref`: `fetch_sub` -/
  | releaseFetchSub (k : Kind)
  /-- `release_strong_ref`: `target.exchange(nullptr)` -/
  | targetExchange
  /-- `delete target`, of a null pointer or not: the destructor starts, and
  reaches the base destructor -/
  | deleteTarget (set : Bool)
  /-- `~IntrusivePtrTarget()`: `release_weak_ref(control_)` -/
  | baseDestructor
  /-- the end of `delete target`: the storage is returned -/
  | freeTarget
  /-- `delete control` -/
  | deleteControl
deriving DecidableEq, Repr

/-- `release_weak_ref(control)`. -/
def releaseWeakRef (m : Memory) : Memory × List Instr :=
  let m := m.touchControl
  ({ m with weakRefs := sizeSub m.weakRefs },
    if m.weakRefs = 1 then [.deleteControl] else [])

/-- `release_strong_ref(control)` up to its `fetch_sub`. -/
def releaseStrongRef (m : Memory) : Memory × List Instr :=
  let m := m.touchControl
  ({ m with strongRefs := sizeSub m.strongRefs },
    if m.strongRefs = 1 then [.targetExchange] else [])

/-- Execute one instruction: the memory and the registers after it, and the
steps it leaves to be done before the rest of the function. `spurious` makes a
`compare_exchange_weak` attempt fail although the values agree. -/
def exec (spurious : Bool) (m : Memory) (r : Regs) : Instr → Memory × Regs × List Instr
  | .nullConstruct k d => (m, r.set d (.handle k false), [])
  | .copyConstruct k d s =>
      match r.get s with
      | .handle _ true =>
          -- a strong copy reads `target_->control_`, a weak one has the pointer itself
          (if k = .strong then m.touchTarget else m, r.set d (.building k),
            [.incrementLoad k d s])
      | _ => (m, r.set d (.handle k false), [])
  | .weakFromStrong d s =>
      match r.get s with
      | .handle _ true => (m.touchTarget, r.set d (.building .weak), [.incrementLoad .weak d s])
      | _ => (m, r.set d (.handle .weak false), [])
  | .moveConstruct k d s => (m, (r.set d (r.get s)).set s (.handle k false), [])
  | .exchangeInto k d s => (m, (r.set d (r.get s)).set s (.handle k false), [])
  | .reset k x =>
      match r.get x with
      | .handle _ true =>
          -- a strong reset reads `target->control_` after clearing its own pointer
          (if k = .strong then m.touchTarget else m, r.set x (.handle k false),
            [.releaseFetchSub k])
      | _ => (m, r, [])
  | .swap _ a b => (m, (r.set a (r.get b)).set b (r.get a), [])
  | .endLifetime x => (m, r.set x .raw, [])
  | .lock d w =>
      match r.get w with
      | .handle _ true => (m, r, [.tryRetainLoad d w])
      | _ => (m, r.set d (.handle .strong false), [])
  | .expired w =>
      match r.get w with
      | .handle _ true => (m, r, [.expiredLoad w])
      | _ => (m, r.reply true, [])
  | .incrementLoad k d s => (m.touchControl, r, [.incrementCas k (m.refs k) d s])
  | .incrementCas k current d s =>
      -- `std::terminate`
      if current = sizeMax then ({ m with terminated := true }, r, [.incrementCas k current d s])
      -- a failed attempt reloads the counter into `current`
      else if m.refs k = current ∧ spurious = false then
        (m.touchControl.setRefs k (sizeAdd current), r.set d (.handle k true), [])
      else (m.touchControl, r, [.incrementCas k (m.refs k) d s])
  | .tryRetainLoad d w => (m.touchControl, r, [.tryRetainCas m.strongRefs d w])
  | .tryRetainCas count d w =>
      -- no reference is left to share: `lock` returns an empty handle
      if count = 0 then (m, r.set d (.handle .strong false), [])
      else if m.strongRefs = count ∧ spurious = false then
        (m.touchControl.setRefs .strong (sizeAdd count), r, [.lockTargetLoad d])
      else (m.touchControl, r, [.tryRetainCas m.strongRefs d w])
  -- the handle adopts the reference that the CAS took
  | .lockTargetLoad d => (m.touchControl, r.set d (.handle .strong m.target), [])
  | .expiredLoad _ => (m.touchControl, r.reply (m.strongRefs == 0), [])
  | .releaseFetchSub .strong => ((releaseStrongRef m).1, r, (releaseStrongRef m).2)
  | .releaseFetchSub .weak => ((releaseWeakRef m).1, r, (releaseWeakRef m).2)
  | .targetExchange => ({ m.touchControl with target := false }, r, [.deleteTarget m.target])
  | .deleteTarget false => (m, r, [])
  | .deleteTarget true =>
      ({ m.touchTarget with life := .destroying, targetDeletes := m.targetDeletes + 1 }, r,
        [.baseDestructor])
  | .baseDestructor =>
      -- the storage is returned when the last destructor is done
      ({ (releaseWeakRef m.touchTarget).1 with life := .released }, r,
        (releaseWeakRef m.touchTarget).2 ++ [.freeTarget])
  | .freeTarget => ({ m.touchTarget with life := .freed }, r, [])
  | .deleteControl => ({ m.touchControl with controlDeletes := m.controlDeletes + 1 }, r, [])

/-! ## Member functions -/

/-- A call of a member function, on handle objects given by name. -/
inductive Op where
  | construct (k : Kind) (d : ℕ)
  | copyConstruct (k : Kind) (d s : ℕ)
  | moveConstruct (k : Kind) (d s : ℕ)
  | weakFromStrong (d s : ℕ)
  | copyAssign (k : Kind) (d s : ℕ)
  | moveAssign (k : Kind) (d s : ℕ)
  | swap (k : Kind) (a b : ℕ)
  | reset (k : Kind) (x : ℕ)
  | destroy (k : Kind) (x : ℕ)
  | lock (w d : ℕ)
  | expired (w : ℕ)
deriving DecidableEq, Repr

namespace Op

/-- The object the function is called on (for a constructor, the one built). -/
def self : Op → ℕ
  | construct _ d | copyConstruct _ d _ | moveConstruct _ d _ | weakFromStrong d _ => d
  | copyAssign _ d _ | moveAssign _ d _ => d
  | swap _ a _ => a
  | reset _ x | destroy _ x => x
  | lock w _ | expired w => w

/-- The argument, when it is another object than `*this`. -/
def other : Op → Option ℕ
  | construct _ _ | reset _ _ | destroy _ _ | expired _ => none
  | copyConstruct _ _ s | moveConstruct _ _ s | weakFromStrong _ s => some s
  | copyAssign _ d s | moveAssign _ d s => if d = s then none else some s
  | swap _ a b => if a = b then none else some b
  | lock _ d => some d

/-- What the storage of `*this` must hold for the call: `none` for a
constructor, which needs raw storage. -/
def selfKind : Op → Option Kind
  | construct _ _ | copyConstruct _ _ _ | moveConstruct _ _ _ | weakFromStrong _ _ => none
  | copyAssign k _ _ | moveAssign k _ _ | swap k _ _ | reset k _ | destroy k _ => some k
  | lock _ _ | expired _ => some .weak

/-- What the argument must be; the result of `lock` is built in raw storage. -/
def otherKind : Op → Option Kind
  | copyConstruct k _ _ | moveConstruct k _ _ | copyAssign k _ _ | moveAssign k _ _
  | swap k _ _ => some k
  | weakFromStrong _ _ => some .strong
  | construct _ _ | reset _ _ | destroy _ _ | expired _ | lock _ _ => none

/-- The function's body. Assignments test `this != &other`; swapping an object
with itself exchanges a pointer with itself. -/
def body : Op → List Instr
  | construct k _ => [.nullConstruct k .self]
  | copyConstruct k _ _ => [.copyConstruct k .self .other]
  | moveConstruct k _ _ => [.moveConstruct k .self .other]
  | weakFromStrong _ _ => [.weakFromStrong .self .other]
  | copyAssign k d s =>
      if d = s then []
      -- `IntrusivePtr copy{other}; swap(copy);` and the end of `copy`
      else [.copyConstruct k .copy .other, .swap k .self .copy, .reset k .copy,
        .endLifetime .copy]
  | moveAssign k d s => if d = s then [] else [.reset k .self, .exchangeInto k .self .other]
  | swap k a b => if a = b then [] else [.swap k .self .other]
  | reset k _ => [.reset k .self]
  | destroy k _ => [.reset k .self, .endLifetime .self]
  | lock _ _ => [.lock .other .self]
  | expired _ => [.expired .self]

end Op

/-- The storage holds what the call expects. -/
def Slot.Fits (v : Slot) : Option Kind → Prop
  | none => v = .raw
  | some k => v = .handle k true ∨ v = .handle k false

instance (v : Slot) : ∀ k, Decidable (v.Fits k)
  | none => inferInstanceAs (Decidable (v = .raw))
  | some k => inferInstanceAs (Decidable (v = .handle k true ∨ v = .handle k false))

/-! ## Threads and states -/

/-- A member function in progress: the names of the objects it holds, the
objects, and the steps left. -/
structure Frame where
  selfName : ℕ
  otherName : Option ℕ
  regs : Regs
  code : List Instr
deriving DecidableEq, Repr

/-- The frame after an instruction: the objects and the steps left. -/
def Frame.proceed (f : Frame) (regs : Regs) (code : List Instr) : Frame :=
  { f with regs := regs, code := code }

/-- `pool` has the handle objects no function is running on, by name; an idle
thread has no frame. -/
structure State where
  mem : Memory
  pool : List (ℕ × Slot)
  threads : List (Option Frame)
deriving DecidableEq, Repr

namespace State

def withMem (s : State) (m : Memory) : State := { s with mem := m }

def withPool (s : State) (pool : List (ℕ × Slot)) : State := { s with pool := pool }

/-- Thread `t` is now in frame `f`. -/
def put (s : State) (t : ℕ) (f : Option Frame) : State :=
  { s with threads := s.threads.set t f }

end State

inductive Label where
  /-- an idle thread calls a member function -/
  | call (t : ℕ) (op : Op)
  /-- a thread takes its next step, or returns when no step is left -/
  | run (t : ℕ) (spurious : Bool)
deriving DecidableEq, Repr

/-- The thread that moves. -/
def Label.thread : Label → ℕ
  | .call t _ | .run t _ => t

/-- Take the objects of a call out of the pool. -/
def checkOut (pool : List (ℕ × Slot)) (op : Op) : Option (Regs × List (ℕ × Slot)) :=
  match pick op.self pool with
  | none => none
  | some (v, pool) =>
      if ¬ v.Fits op.selfKind then none
      else match op.other with
        | none => some ({ self := v, other := .raw, copy := .raw }, pool)
        | some o =>
            match pick o pool with
            | none => none
            | some (w, pool) =>
                if w.Fits op.otherKind then some ({ self := v, other := w, copy := .raw }, pool)
                else none

/-- Put the objects of a finished call back. -/
def checkIn (f : Frame) (pool : List (ℕ × Slot)) : List (ℕ × Slot) :=
  match f.otherName with
  | none => (f.selfName, f.regs.self) :: pool
  | some o => (f.selfName, f.regs.self) :: (o, f.regs.other) :: pool

/-- One step of the machine; after `std::terminate` there is none. -/
def step (s : State) (l : Label) : Option State :=
  if s.mem.terminated then none
  else match l with
    | .call t op =>
        match s.threads[t]?, checkOut s.pool op with
        | some none, some (regs, pool) =>
            some ((s.withPool pool).put t (some ⟨op.self, op.other, regs, op.body⟩))
        | _, _ => none
    | .run t spurious =>
        match s.threads[t]? with
        | some (some f) =>
            match f.code with
            | [] => some ((s.withPool (checkIn f s.pool)).put t none)
            | i :: rest =>
                let e := exec spurious s.mem f.regs i
                some ((s.withMem e.1).put t (some (f.proceed e.2.1 (e.2.2 ++ rest))))
        | _ => none

/-- All a step can do: start a call, return from one, or execute the next
instruction of one. -/
theorem step_cases {s s' : State} {l : Label} (h : step s l = some s') :
    s.mem.terminated = false ∧
    ((∃ t op regs pool, l = .call t op ∧ s.threads[t]? = some none ∧
        checkOut s.pool op = some (regs, pool) ∧
        s' = (s.withPool pool).put t (some ⟨op.self, op.other, regs, op.body⟩)) ∨
      (∃ t b f, l = .run t b ∧ s.threads[t]? = some (some f) ∧ f.code = [] ∧
        s' = (s.withPool (checkIn f s.pool)).put t none) ∨
      (∃ t b f i rest, l = .run t b ∧ s.threads[t]? = some (some f) ∧ f.code = i :: rest ∧
        s' = (s.withMem (exec b s.mem f.regs i).1).put t
          (some (f.proceed (exec b s.mem f.regs i).2.1
            ((exec b s.mem f.regs i).2.2 ++ rest))))) := by
  unfold step at h
  split at h
  · -- terminated
    cases h
  rename_i hterm
  refine ⟨by simpa using hterm, ?_⟩
  cases l with
  | call t op =>
      simp only at h
      split at h
      · rename_i regs pool ht hout
        exact Or.inl ⟨t, op, regs, pool, rfl, ht, hout, (Option.some.inj h).symm⟩
      · cases h
  | run t b =>
      simp only at h
      split at h
      · rename_i f ht
        split at h
        · rename_i hc
          exact Or.inr (Or.inl ⟨t, b, f, rfl, ht, hc, (Option.some.inj h).symm⟩)
        · rename_i i rest hc
          exact Or.inr (Or.inr ⟨t, b, f, i, rest, rfl, ht, hc, (Option.some.inj h).symm⟩)
      · cases h

/-- A step leaves the frames of the other threads alone. -/
theorem step_other {s s' : State} {l : Label} {t : ℕ} (h : step s l = some s')
    (ht : l.thread ≠ t) : s'.threads[t]? = s.threads[t]? := by
  obtain ⟨-, h⟩ := step_cases h
  rcases h with ⟨t', op, regs, pool, rfl, -, -, rfl⟩ | ⟨t', b, f, rfl, -, -, rfl⟩ |
    ⟨t', b, f, i, rest, rfl, -, -, rfl⟩ <;>
    exact List.getElem?_set_ne ht

/-- A thread that has a step left executes it. -/
theorem step_run_eq {s s' : State} {t : ℕ} {b : Bool} {f : Frame} {i : Instr} {rest : List Instr}
    (h : step s (.run t b) = some s') (ht : s.threads[t]? = some (some f))
    (hcode : f.code = i :: rest) :
    s' = (s.withMem (exec b s.mem f.regs i).1).put t
      (some (f.proceed (exec b s.mem f.regs i).2.1 ((exec b s.mem f.regs i).2.2 ++ rest))) := by
  obtain ⟨-, h⟩ := step_cases h
  rcases h with ⟨t', op, regs, pool, hl, -, -, -⟩ | ⟨t', b', g, hl, hg, hnil, -⟩ |
    ⟨t', b', g, x, tail, hl, hg, hcons, hs⟩
  · cases hl
  · -- a return: no instruction is left
    cases hl
    cases ht.symm.trans hg
    cases hcode.symm.trans hnil
  · cases hl
    cases ht.symm.trans hg
    cases hcode.symm.trans hcons
    exact hs

/-- The state after `make_intrusive` returned to one of `threads` idle threads:
the handle `0` holds the only reference, and there is storage for `storage`
more handle objects. -/
def makeIntrusive (threads storage : ℕ) : State where
  mem := ⟨1, 1, true, .alive, 0, 0, false, false⟩
  pool := (0, .handle .strong true) :: (List.range storage).map fun i => (i + 1, .raw)
  threads := List.replicate threads none

def machine : Machine State Label where
  Init s := ∃ threads storage, s = makeIntrusive threads storage
  step := step

end Gradyx.IntrusivePtr
