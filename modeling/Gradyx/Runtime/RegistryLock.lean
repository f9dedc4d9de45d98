import Gradyx.Lib.LockedRefinement
import Gradyx.Runtime.Registry

/-!
# RuntimeRegistry, access by access

`src/runtime/registry.cc` again, with the `shared_mutex` and one step for each
operation on `runtimes_`: `contains` and `emplace` under a `unique_lock`, `find`
and the copy of `found->second` under a `shared_lock`. An iterator to a node that
is gone is undefined behaviour. `register_runtime` and `get` leave their sections
by `return` and by the exception of `emplace` alike, and give the lock back.
-/

namespace Gradyx

open Lib Locked

namespace RuntimeRegistry

variable {R : Type}

/-- `emplace` keeps a node that is there. -/
def emplace (runtime : R) (type : DeviceType) (runtimes : Runtimes R) : Runtimes R :=
  if type ∈ runtimes then runtimes else runtimes.insert type runtime

/-- `register_runtime`, inside the lock. -/
def registerAccesses (runtime : R) (type : DeviceType) (memory : Bool) :
    Section (Runtimes R) (Outcome R) :=
  .access id fun runtimes =>
    if type ∈ runtimes then .ret (.status alreadyRegistered)
    else if memory then .access (emplace runtime type) fun _ => .ret (.status okStatus)
    else .ret .badAlloc

/-- `get`, inside the lock: `find`, and `found->second`. -/
def getAccesses (type : DeviceType) : Section (Runtimes R) (Outcome R) :=
  .access id fun runtimes =>
    if type ∈ runtimes then
      .access id fun runtimes =>
        match runtimes.lookup type with
        | none => .undefined
        | some runtime => .ret (.runtime (.ok runtime))
    else .ret (.runtime (.error notRegistered))

/-- `unique_lock` or `shared_lock`. -/
def Locals.exclusive : Locals R → Bool
  | .registerRuntime _ _ => true
  | .get _ => false

/-- The section of a call that came to the lock. -/
def accesses (memory : Bool) : Locals R → Section (Runtimes R) (Outcome R)
  | .registerRuntime runtime type => registerAccesses runtime type memory
  | .get type => getAccesses type

/-! ## One section -/

theorem emplace_fresh {runtime : R} {type : DeviceType} {runtimes : Runtimes R}
    (h : type ∉ runtimes) : emplace runtime type runtimes = runtimes.insert type runtime := if_neg h

/-- A section by itself is what the call does in one step. -/
theorem run_registerAccesses (runtime : R) (type : DeviceType) (memory : Bool)
    (runtimes : Runtimes R) : (registerAccesses runtime type memory).run runtimes =
      some (registerRuntime runtimes runtime type memory) := by
  unfold registerAccesses registerRuntime
  simp only [Section.run, id_eq]
  split
  · rfl
  · next hfresh =>
      split
      · rw [Section.run, Section.run, emplace_fresh hfresh]
      · rfl

/-- The iterator of `find` is good while nothing is written. -/
theorem run_getAccesses (type : DeviceType) (runtimes : Runtimes R) :
    (getAccesses type).run runtimes = some (runtimes, .runtime (get runtimes type)) := by
  unfold getAccesses get
  simp only [Section.run, id_eq]
  split
  · next hmem =>
      obtain ⟨runtime, hlookup⟩ := Option.isSome_iff_exists.mp (AList.lookup_isSome.mpr hmem)
      simp only [Section.run, id_eq, hlookup]
  · next hnone =>
      rw [AList.lookup_eq_none.mpr hnone]
      rfl

theorem getAccesses_readOnly (type : DeviceType) :
    (getAccesses type : Section (Runtimes R) (Outcome R)).ReadOnly := by
  refine ⟨fun _ => rfl, fun runtimes => ?_⟩
  dsimp only
  split
  · refine ⟨fun _ => rfl, fun runtimes => ?_⟩
    dsimp only
    split
    · trivial
    · trivial
  · trivial

variable {deviceType : R → DeviceType}

/-- The registry with its lock. -/
def locked (deviceType : R → DeviceType) :
    Locked (Runtimes R) (Call R) (Locals R) Bool (Outcome R) where
  init := ∅
  outside := check deviceType
  exclusive _ locals := locals.exclusive
  body _ locals memory := accesses memory locals
  defined _ locals memory runtimes := by
    cases locals with
    | registerRuntime runtime type =>
        rw [accesses, run_registerAccesses]
        rfl
    | get type =>
        rw [accesses, run_getAccesses]
        rfl
  shared _ locals memory h := by
    cases locals with
    | registerRuntime runtime type => cases h
    | get type => exact getAccesses_readOnly type

/-- With sections that are one step it is the registry as before. -/
theorem locked_atomic : (locked deviceType).atomic = monitor deviceType := by
  have hinside : (locked deviceType).atomic.inside = (monitor deviceType).inside := by
    funext runtimes call locals memory
    refine Option.get_of_eq_some _ ?_
    cases locals with
    | registerRuntime runtime type => exact run_registerAccesses runtime type memory runtimes
    | get type => exact run_getAccesses type runtimes
  exact congrArg (Monitor.mk ∅ fun _ call => some (check deviceType call)) hinside

/-- Any number of clients, access by access: what they see of the registry is a
run of the registry whose sections are one step. A call that gives the lock back
did its step where it came to own the lock. No access meets a write by another
client, no iterator is stale, and the lock is never lost. -/
theorem accesses_atomic (deviceType : R → DeviceType) (run : Run (locked deviceType).machine) :
    (∃ run' : Run (monitor deviceType).machine, ∀ k, run'.state k = (run.state k).atomic) ∧
    (∀ i k outcome, run.label k = some (.release i) →
      (run.state (k + 1)).clients[i]? = some (.idle (some outcome)) →
      ∃ j < k, ∃ call, Session run i j k call outcome ∧ ∃ locals memory,
        (monitor deviceType).inside (run.state j).settled call locals memory =
          ((run.state (j + 1)).settled, outcome)) ∧
    ∀ k, ¬ Race (run.state k) ∧ ¬ Undefined (run.state k) ∧
      ((∃ client ∈ (run.state k).clients, ∀ last, client ≠ .idle last) →
        ∃ l, (∀ i call, l ≠ .call i call) ∧
          ((locked deviceType).step (run.state k) l).isSome) := by
  refine ⟨?_, ?_, ?_⟩
  · rw [← locked_atomic]
    exact (locked deviceType).refines.exists_run run fun _ _ _ => trivial
  · intro i k outcome hl hk
    obtain ⟨j, hj, call, hsession⟩ := exists_session run hl hk
    refine ⟨j, hj, call, hsession, ?_⟩
    rw [← locked_atomic]
    exact hsession.spec
  · intro k
    have safe := run_safe run k
    exact ⟨safe.not_race, safe.not_undefined, safe.unblocked true⟩

end RuntimeRegistry

end Gradyx
