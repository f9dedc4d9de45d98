import Gradyx.Lib.RelyGuarantee
import Gradyx.Runtime.Registry

/-!
# The default registry

`default_runtime_registry` of `backend/cpu/runtime.cc` has two local statics: the
registry, and the status of `register_builtin_runtimes`. Threads call it and, once
any of them has the reference, the member functions of the registry. A static is
initialised by the thread that comes first while the others wait; an exception
leaves it to the next one. The step of a thread takes what the environment
decides: whether there is memory, or no exception otherwise.

* `Shared` and `Local` are the assertions for the shared variables and for one
  thread, `Guarantee` is what the other threads rely on.
* `builtin_first`: nobody gets the reference before the CPU runtime is in the
  registry, so nobody can take its place.
-/

namespace Gradyx

open Lib

namespace DefaultRegistry

open RuntimeRegistry

variable {U : Type}

/-- A runtime: one that `register_cpu_runtime` made, by number, or a user's. -/
inductive Instance (U : Type) where
  | builtin (n : ℕ)
  | user (runtime : U)
deriving DecidableEq, Repr

def Instance.deviceType (deviceType : U → DeviceType) : Instance U → DeviceType
  | .builtin _ => .kCPU
  | .user runtime => deviceType runtime

/-- A local static: not initialised, being initialised by a thread, or there. -/
inductive Guard where
  | fresh
  | busy (thread : ℕ)
  | done
deriving DecidableEq, Repr

structure Globals (U : Type) where
  registryGuard : Guard := .fresh
  /-- `registry`, once it is constructed. -/
  registry : Option (Runtimes (Instance U)) := none
  initializationGuard : Guard := .fresh
  initialization : Option Status := none
  /-- The number of CPU runtimes made so far. -/
  made : ℕ := 0
  /-- A call has returned the reference. -/
  published : Bool := false
  /-- The registry was used before it was there. -/
  fault : Bool := false

/-- How the last call of a thread ended. -/
inductive Last (U : Type) where
  | reference
  | exception
  | member (call : Call (Instance U)) (outcome : Outcome (Instance U))

inductive Thread (U : Type) where
  | idle (last : Option (Last U))
  -- in `default_runtime_registry`
  | atRegistry
  | constructing
  | atInitialization
  | making
  | registering (locals : Locals (Instance U))
  -- in a member function, at the lock
  | atLock (call : Call (Instance U)) (locals : Locals (Instance U))

/-- What a thread does next; the environment's choice for a step under way. -/
inductive Label (U : Type) where
  | defaultRegistry
  | member (call : Call (Instance U))
  | next (fine : Bool)

variable (deviceType : U → DeviceType)

/-- The end of `register_builtin_runtimes`: the status initialises the static,
an exception does not. -/
def finish (g : Globals U) : Outcome (Instance U) → Globals U × Thread U
  | .status status =>
      ({ g with initializationGuard := .done, initialization := some status, published := true },
        .idle (some .reference))
  | _ => ({ g with initializationGuard := .fresh }, .idle (some .exception))

/-- The step of a thread in `default_runtime_registry`, or inside the lock. -/
def next (g : Globals U) (i : ℕ) (fine : Bool) : Thread U → Option (Globals U × Thread U)
  | .idle _ => none
  | .atRegistry =>
      match g.registryGuard with
      | .fresh => some ({ g with registryGuard := .busy i }, .constructing)
      | .busy _ => none
      | .done => some (g, .atInitialization)
  | .constructing =>
      if fine then some ({ g with registryGuard := .done, registry := some ∅ }, .atInitialization)
      else some ({ g with registryGuard := .fresh }, .idle (some .exception))
  | .atInitialization =>
      match g.initializationGuard with
      | .fresh => some ({ g with initializationGuard := .busy i }, .making)
      | .busy _ => none
      | .done => some ({ g with published := true }, .idle (some .reference))
  | .making =>
      if fine then
        let runtime := Instance.builtin g.made
        let g := { g with made := g.made + 1 }
        match check (Instance.deviceType deviceType) (.registerRuntime (some runtime)) with
        | .error outcome => some (finish g outcome)
        | .ok locals => some (g, .registering locals)
      else some ({ g with initializationGuard := .fresh }, .idle (some .exception))
  | .registering locals =>
      match g.registry, locals with
      | some runtimes, .registerRuntime runtime type =>
          let (runtimes, outcome) := registerRuntime runtimes runtime type fine
          some (finish { g with registry := some runtimes } outcome)
      | _, _ => some ({ g with fault := true }, .idle none)
  | .atLock call locals =>
      match g.registry with
      | some runtimes =>
          let (runtimes, outcome) :=
            (monitor (Instance.deviceType deviceType)).inside runtimes call locals fine
          some ({ g with registry := some runtimes }, .idle (some (.member call outcome)))
      | none => some ({ g with fault := true }, .idle none)

def advance (g : Globals U) (i : ℕ) (t : Thread U) : Label U → Option (Globals U × Thread U)
  | .defaultRegistry =>
      match t with
      | .idle _ => some (g, .atRegistry)
      | _ => none
  | .member call =>
      match t, g.published with
      | .idle _, true =>
          match check (Instance.deviceType deviceType) call with
          | .error outcome => some (g, .idle (some (.member call outcome)))
          | .ok locals => some (g, .atLock call locals)
      | _, _ => none
  | .next fine => next deviceType g i fine t

/-- Any number of threads. -/
def threads : Threads (Globals U) (Thread U) (Label U) where
  init := {}
  start := .idle none
  advance := advance deviceType

/-! ## Assertions -/

/-- The CPU runtime in the registry. -/
def cpu (g : Globals U) : Option (Instance U) := g.registry.bind fun runtimes => runtimes.lookup .kCPU

/-- The shared variables, between any two steps. -/
structure Shared (g : Globals U) : Prop where
  fault : g.fault = false
  registry : g.registryGuard = .done ↔ g.registry.isSome = true
  initializing : g.initializationGuard ≠ .fresh → g.registryGuard = .done
  published : g.published = true → g.initializationGuard = .done
  initialized : g.initializationGuard = .done →
    g.initialization = some okStatus ∧ ∃ n, cpu g = some (.builtin n)
  empty : g.initializationGuard ≠ .done → ∀ runtimes, g.registry = some runtimes → runtimes = ∅

def Thread.Constructing : Thread U → Prop
  | .constructing => True
  | _ => False

def Thread.Initializing : Thread U → Prop
  | .making | .registering _ => True
  | _ => False

/-- What the calls about CPU runtimes have answered. -/
structure Answered (g : Globals U) (call : Call (Instance U)) (outcome : Outcome (Instance U)) :
    Prop where
  get : call = .get .kCPU → ∃ runtime, cpu g = some runtime ∧ outcome = .runtime (.ok runtime)
  registerRuntime : ∀ runtime, call = .registerRuntime (some runtime) →
    runtime.deviceType deviceType = .kCPU → outcome = .status alreadyRegistered

/-- What is known where a thread stands. -/
def Thread.Reached (g : Globals U) : Thread U → Prop
  | .idle (some (.member call outcome)) => Answered deviceType g call outcome
  | .atInitialization => g.registryGuard = .done
  | .registering locals => ∃ n, locals = .registerRuntime (.builtin n) .kCPU
  | .atLock call locals =>
      g.published = true ∧ check (Instance.deviceType deviceType) call = .ok locals
  | _ => True

structure Local (g : Globals U) (i : ℕ) (t : Thread U) : Prop where
  registry : g.registryGuard = .busy i ↔ t.Constructing
  initialization : g.initializationGuard = .busy i ↔ t.Initializing
  reached : t.Reached deviceType g

/-- What thread `j` leaves to the others. -/
structure Guarantee (j : ℕ) (g g' : Globals U) : Prop where
  registryDone : g.registryGuard = .done → g'.registryGuard = .done
  registryBusy : ∀ i, i ≠ j → (g'.registryGuard = .busy i ↔ g.registryGuard = .busy i)
  initializationDone : g.initializationGuard = .done → g'.initializationGuard = .done
  initializationBusy : ∀ i, i ≠ j → (g'.initializationGuard = .busy i ↔ g.initializationGuard = .busy i)
  published : g.published = true → g'.published = true
  cpu : ∀ runtime, cpu g = some runtime → DefaultRegistry.cpu g' = some runtime

theorem Guarantee.refl (j : ℕ) (g : Globals U) : Guarantee j g g :=
  ⟨id, fun _ _ => Iff.rfl, id, fun _ _ => Iff.rfl, id, fun _ => id⟩

variable {deviceType}

theorem Answered.stable {g g' : Globals U} {call : Call (Instance U)}
    {outcome : Outcome (Instance U)} (h : Answered deviceType g call outcome) {j : ℕ}
    (hg : Guarantee j g g') : Answered deviceType g' call outcome := by
  refine ⟨fun hcall => ?_, h.registerRuntime⟩
  obtain ⟨runtime, hcpu, rfl⟩ := h.get hcall
  exact ⟨runtime, hg.cpu runtime hcpu, rfl⟩

theorem Local.stable {g g' : Globals U} {i j : ℕ} {t : Thread U} (hij : i ≠ j)
    (hg : Guarantee j g g') (h : Local deviceType g i t) : Local deviceType g' i t := by
  refine ⟨(hg.registryBusy i hij).trans h.registry,
    (hg.initializationBusy i hij).trans h.initialization, ?_⟩
  have hreached := h.reached
  cases t with
  | idle last =>
      cases last with
      | none => trivial
      | some last =>
          cases last with
          | reference => trivial
          | exception => trivial
          | member call outcome => exact Answered.stable hreached hg
  | atRegistry => trivial
  | constructing => trivial
  | atInitialization => exact hg.registryDone hreached
  | making => trivial
  | registering locals => exact hreached
  | atLock call locals => exact ⟨hg.published hreached.1, hreached.2⟩

/-! ## The steps of one thread -/

/-- The checks let every call about CPU runtimes through. -/
theorem answered_of_error {g : Globals U} {call : Call (Instance U)} {outcome : Outcome (Instance U)}
    (h : check (Instance.deviceType deviceType) call = .error outcome) :
    Answered deviceType g call outcome := by
  rcases check_error h with ⟨runtime, message, rfl, hinvalid, rfl⟩ | ⟨type, message, rfl, hinvalid, rfl⟩
  · constructor
    · intro hcall
      cases hcall
    · intro runtime' hcall htype
      cases hcall
      have := hinvalid runtime' rfl
      rw [htype] at this
      cases this
  · constructor
    · intro hcall
      cases hcall
      cases hinvalid
    · intro runtime' hcall
      cases hcall

/-- A call about CPU runtimes, inside the lock of a registry that has one. -/
theorem answered_of_inside {g g' : Globals U} {runtimes : Runtimes (Instance U)}
    (hregistry : g.registry = some runtimes) {runtime : Instance U} (hcpu : cpu g = some runtime)
    (hcpu' : cpu g' = some runtime) {call : Call (Instance U)} {locals : Locals (Instance U)}
    (hcheck : check (Instance.deviceType deviceType) call = .ok locals) (fine : Bool) :
    Answered deviceType g' call
      ((monitor (Instance.deviceType deviceType)).inside runtimes call locals fine).2 := by
  have hlookup : runtimes.lookup .kCPU = some runtime := by
    rw [cpu, hregistry] at hcpu
    exact hcpu
  rcases check_ok hcheck with ⟨runtime', rfl, -, rfl⟩ | ⟨type, rfl, -, rfl⟩
  · constructor
    · intro hcall
      cases hcall
    · intro runtime'' hcall htype
      cases hcall
      have hmem : runtime'.deviceType deviceType ∈ runtimes := by
        rw [htype]
        exact AList.lookup_isSome.mp (hlookup ▸ rfl)
      exact congrArg Prod.snd (if_pos hmem)
  · constructor
    · intro hcall
      cases hcall
      refine ⟨runtime, hcpu', ?_⟩
      show Outcome.runtime (RuntimeRegistry.get runtimes .kCPU) = _
      rw [RuntimeRegistry.get, hlookup]
    · intro runtime' hcall
      cases hcall

/-- What a step has to show. -/
structure Kept (deviceType : U → DeviceType) (i : ℕ) (g g' : Globals U) (t' : Thread U) : Prop where
  shared : Shared g'
  self : Local deviceType g' i t'
  guarantee : Guarantee i g g'

/-- A step that leaves the shared variables. -/
theorem kept_same {g : Globals U} {i : ℕ} {t t' : Thread U} (hs : Shared g)
    (hl : Local deviceType g i t) (hc : t'.Constructing ↔ t.Constructing)
    (hi : t'.Initializing ↔ t.Initializing) (hr : t'.Reached deviceType g) :
    Kept deviceType i g g t' :=
  ⟨hs, ⟨hl.registry.trans hc.symm, hl.initialization.trans hi.symm, hr⟩, Guarantee.refl i g⟩

/-- A thread comes first to the static registry. -/
theorem kept_construct {g : Globals U} {i : ℕ} (hs : Shared g)
    (hl : Local deviceType g i .atRegistry) (hfresh : g.registryGuard = .fresh) :
    Kept deviceType i g { g with registryGuard := .busy i } .constructing := by
  have hinit : g.initializationGuard = .fresh := by
    by_contra hne
    have := hs.initializing hne
    rw [hfresh] at this
    cases this
  have hnone : g.registry.isSome = false := by
    rw [← Bool.not_eq_true, ← hs.registry, hfresh]
    intro h
    cases h
  refine ⟨⟨hs.fault, ?_, ?_, hs.published, hs.initialized, hs.empty⟩,
    ⟨⟨fun _ => trivial, fun _ => rfl⟩, hl.initialization, trivial⟩,
    ⟨?_, ?_, id, fun _ _ => Iff.rfl, id, fun _ => id⟩⟩
  · constructor
    · intro h
      cases h
    · intro h
      rw [hnone] at h
      cases h
  · intro hne
    exact absurd hinit hne
  · intro h
    rw [hfresh] at h
    cases h
  · intro j hij
    rw [hfresh]
    constructor
    · intro h
      cases h
      exact absurd rfl hij
    · intro h
      cases h

/-- The static registry is there, or the next thread tries again. -/
theorem kept_constructed {g : Globals U} {i : ℕ} (hs : Shared g)
    (hl : Local deviceType g i .constructing) :
    Kept deviceType i g { g with registryGuard := .done, registry := some ∅ } .atInitialization ∧
      Kept deviceType i g { g with registryGuard := .fresh } (.idle (some .exception)) := by
  have hbusy : g.registryGuard = .busy i := hl.registry.mpr trivial
  have hinit : g.initializationGuard = .fresh := by
    by_contra hne
    have := hs.initializing hne
    rw [hbusy] at this
    cases this
  have hnone : g.registry = none := by
    rw [← Option.not_isSome_iff_eq_none, ← hs.registry, hbusy]
    intro h
    cases h
  have hcpu : cpu g = none := by
    rw [cpu, hnone]
    rfl
  have hother : ∀ guard : Guard, (∀ j, guard ≠ .busy j) → ∀ j, j ≠ i →
      (guard = .busy j ↔ g.registryGuard = .busy j) := by
    intro guard hguard j hij
    rw [hbusy]
    constructor
    · intro h
      exact absurd h (hguard j)
    · intro h
      cases h
      exact absurd rfl hij
  constructor
  · refine ⟨⟨hs.fault, ⟨fun _ => rfl, fun _ => rfl⟩, fun _ => rfl, hs.published, ?_, ?_⟩,
      ⟨⟨?_, ?_⟩, hl.initialization, rfl⟩,
      ⟨fun _ => rfl, hother .done (fun j h => by cases h), id, fun _ _ => Iff.rfl, id, ?_⟩⟩
    · intro h
      rw [hinit] at h
      cases h
    · intro _ runtimes h
      cases h
      rfl
    · intro h
      cases h
    · intro h
      cases h
    · intro runtime h
      rw [hcpu] at h
      cases h
  · refine ⟨⟨hs.fault, ⟨?_, ?_⟩, fun hne => absurd hinit hne, hs.published, hs.initialized, hs.empty⟩,
      ⟨⟨?_, ?_⟩, hl.initialization, trivial⟩,
      ⟨?_, hother .fresh (fun j h => by cases h), id, fun _ _ => Iff.rfl, id, fun _ => id⟩⟩
    · intro h
      cases h
    · intro h
      rw [hnone] at h
      cases h
    · intro h
      cases h
    · intro h
      cases h
    · intro h
      rw [hbusy] at h
      cases h

/-- A thread comes first to the static status. -/
theorem kept_initialize {g : Globals U} {i : ℕ} (hs : Shared g)
    (hl : Local deviceType g i .atInitialization) (hfresh : g.initializationGuard = .fresh) :
    Kept deviceType i g { g with initializationGuard := .busy i } .making := by
  refine ⟨⟨hs.fault, hs.registry, fun _ => hl.reached, ?_, ?_, ?_⟩,
    ⟨hl.registry, ⟨fun _ => trivial, fun _ => rfl⟩, trivial⟩,
    ⟨id, fun _ _ => Iff.rfl, ?_, ?_, id, fun _ => id⟩⟩
  · intro h
    have := hs.published h
    rw [hfresh] at this
    cases this
  · intro h
    cases h
  · intro _
    refine hs.empty ?_
    rw [hfresh]
    intro h
    cases h
  · intro h
    rw [hfresh] at h
    cases h
  · intro j hij
    rw [hfresh]
    constructor
    · intro h
      cases h
      exact absurd rfl hij
    · intro h
      cases h

/-- A later call finds both statics. -/
theorem kept_reference {g : Globals U} {i : ℕ} (hs : Shared g)
    (hl : Local deviceType g i .atInitialization) (hdone : g.initializationGuard = .done) :
    Kept deviceType i g { g with published := true } (.idle (some .reference)) :=
  ⟨⟨hs.fault, hs.registry, hs.initializing, fun _ => hdone, hs.initialized, hs.empty⟩,
    ⟨hl.registry, hl.initialization, trivial⟩,
    ⟨id, fun _ _ => Iff.rfl, id, fun _ _ => Iff.rfl, fun _ => rfl, fun _ => id⟩⟩

/-- A runtime is made, and no check ends its registration. -/
theorem kept_made {g : Globals U} {i : ℕ} (hs : Shared g) (hl : Local deviceType g i .making) :
    Kept deviceType i g { g with made := g.made + 1 }
      (.registering (.registerRuntime (.builtin g.made) .kCPU)) :=
  ⟨⟨hs.fault, hs.registry, hs.initializing, hs.published, hs.initialized, hs.empty⟩,
    ⟨hl.registry, hl.initialization, g.made, rfl⟩,
    ⟨id, fun _ _ => Iff.rfl, id, fun _ _ => Iff.rfl, id, fun _ => id⟩⟩

/-- Where the thread that initialises leaves the guard to. -/
theorem initialization_other {g : Globals U} {i : ℕ} (hbusy : g.initializationGuard = .busy i)
    {guard : Guard} (hguard : ∀ j, guard ≠ .busy j) {j : ℕ} (hij : j ≠ i) :
    guard = .busy j ↔ g.initializationGuard = .busy j := by
  rw [hbusy]
  constructor
  · intro h
    exact absurd h (hguard j)
  · intro h
    cases h
    exact absurd rfl hij

/-- An exception while the status is initialised. -/
theorem kept_thrown {g : Globals U} {i : ℕ} {t : Thread U} (hs : Shared g)
    (hl : Local deviceType g i t) (ht : t.Initializing) (hc : ¬ t.Constructing) :
    Kept deviceType i g { g with initializationGuard := .fresh } (.idle (some .exception)) := by
  have hbusy : g.initializationGuard = .busy i := hl.initialization.mpr ht
  refine ⟨⟨hs.fault, hs.registry, fun h => absurd rfl h, ?_, ?_, ?_⟩,
    ⟨⟨fun h => hc (hl.registry.mp h), fun h => h.elim⟩, ⟨?_, fun h => h.elim⟩, trivial⟩,
    ⟨id, fun _ _ => Iff.rfl, ?_, ?_, id, fun _ => id⟩⟩
  · intro h
    have := hs.published h
    rw [hbusy] at this
    cases this
  · intro h
    cases h
  · intro _
    refine hs.empty ?_
    rw [hbusy]
    intro h
    cases h
  · intro h
    cases h
  · intro h
    rw [hbusy] at h
    cases h
  · intro j hij
    exact initialization_other hbusy (fun j h => by cases h) hij

/-- The registration of a built-in runtime, in the empty registry. -/
theorem kept_registered {g : Globals U} {i n : ℕ} (hs : Shared g)
    (hl : Local deviceType g i (.registering (.registerRuntime (.builtin n) .kCPU))) :
    g.registry = some ∅ ∧
      Kept deviceType i g
        { g with
          registry := some ((∅ : Runtimes (Instance U)).insert .kCPU (.builtin n))
          initializationGuard := .done
          initialization := some okStatus
          published := true }
        (.idle (some .reference)) := by
  have hbusy : g.initializationGuard = .busy i := hl.initialization.mpr trivial
  have hdone : g.registryGuard = .done := by
    refine hs.initializing ?_
    rw [hbusy]
    intro h
    cases h
  obtain ⟨runtimes, hregistry⟩ := Option.isSome_iff_exists.mp (hs.registry.mp hdone)
  obtain rfl : runtimes = ∅ := by
    refine hs.empty ?_ runtimes hregistry
    rw [hbusy]
    intro h
    cases h
  have hcpu : cpu g = none := by
    rw [cpu, hregistry]
    rfl
  refine ⟨hregistry, ⟨hs.fault, ⟨fun _ => rfl, fun _ => hdone⟩, fun _ => hdone, fun _ => rfl, ?_, ?_⟩,
    ⟨⟨fun h => hl.registry.mp h, fun h => h.elim⟩, ⟨?_, fun h => h.elim⟩, trivial⟩,
    ⟨id, fun _ _ => Iff.rfl, fun _ => rfl, ?_, fun _ => rfl, ?_⟩⟩
  · intro _
    refine ⟨rfl, n, ?_⟩
    show ((∅ : Runtimes (Instance U)).insert .kCPU (.builtin n)).lookup .kCPU = _
    exact AList.lookup_insert _
  · intro h
    exact absurd rfl h
  · intro h
    cases h
  · intro j hij
    exact initialization_other hbusy (fun j h => by cases h) hij
  · intro runtime h
    rw [hcpu] at h
    cases h

/-- A member function of the registry, inside the lock. -/
theorem kept_member {g : Globals U} {i : ℕ} {call : Call (Instance U)}
    {locals : Locals (Instance U)} (hs : Shared g) (hl : Local deviceType g i (.atLock call locals))
    (fine : Bool) : ∃ runtimes, g.registry = some runtimes ∧
      Kept deviceType i g
        { g with
          registry := some
            ((monitor (Instance.deviceType deviceType)).inside runtimes call locals fine).1 }
        (.idle (some (.member call
          ((monitor (Instance.deviceType deviceType)).inside runtimes call locals fine).2))) := by
  obtain ⟨hpublished, hcheck⟩ := hl.reached
  have hdone := hs.published hpublished
  obtain ⟨hstatus, n, hcpu⟩ := hs.initialized hdone
  have hregistryDone : g.registryGuard = .done := by
    refine hs.initializing ?_
    rw [hdone]
    intro h
    cases h
  obtain ⟨runtimes, hregistry⟩ := Option.isSome_iff_exists.mp (hs.registry.mp hregistryDone)
  have hlookup : ∀ type runtime, runtimes.lookup type = some runtime →
      ((monitor (Instance.deviceType deviceType)).inside runtimes call locals fine).1.lookup type =
        some runtime := fun _ _ => inside_keeps
  have hkeep : ∀ runtime, cpu g = some runtime → (some ((monitor
      (Instance.deviceType deviceType)).inside runtimes call locals fine).1).bind
        (fun runtimes => runtimes.lookup .kCPU) = some runtime := by
    intro runtime h
    rw [cpu, hregistry] at h
    exact hlookup _ _ h
  refine ⟨runtimes, hregistry, ⟨hs.fault, ⟨fun _ => rfl, fun _ => hregistryDone⟩, hs.initializing,
    hs.published, fun _ => ⟨hstatus, n, hkeep _ hcpu⟩, fun h => absurd hdone h⟩,
    ⟨hl.registry, hl.initialization, answered_of_inside hregistry hcpu (by exact hkeep _ hcpu) hcheck fine⟩,
    ⟨id, fun _ _ => Iff.rfl, id, fun _ _ => Iff.rfl, id, hkeep⟩⟩

theorem kept_next {g g' : Globals U} {i : ℕ} {t t' : Thread U} {fine : Bool} (hs : Shared g)
    (hl : Local deviceType g i t) (h : next deviceType g i fine t = some (g', t')) :
    Kept deviceType i g g' t' := by
  cases t with
  | idle last => cases h
  | atRegistry =>
      simp only [next] at h
      split at h
      · next hfresh =>
          cases h
          exact kept_construct hs hl hfresh
      · cases h
      · next hdone =>
          cases h
          exact kept_same hs hl Iff.rfl Iff.rfl hdone
  | constructing =>
      obtain ⟨hfine, hthrown⟩ := kept_constructed hs hl
      cases fine with
      | true =>
          cases h
          exact hfine
      | false =>
          cases h
          exact hthrown
  | atInitialization =>
      simp only [next] at h
      split at h
      · next hfresh =>
          cases h
          exact kept_initialize hs hl hfresh
      · cases h
      · next hdone =>
          cases h
          exact kept_reference hs hl hdone
  | making =>
      cases fine with
      | true =>
          cases h
          exact kept_made hs hl
      | false =>
          cases h
          exact kept_thrown hs hl trivial id
  | registering locals =>
      obtain ⟨n, rfl⟩ := hl.reached
      obtain ⟨hregistry, hregistered⟩ := kept_registered hs hl
      simp only [next, hregistry] at h
      have hfresh : DeviceType.kCPU ∉ (∅ : Runtimes (Instance U)) := AList.notMem_empty _
      cases fine with
      | true =>
          rw [registerRuntime, if_neg hfresh, if_pos rfl] at h
          cases h
          exact hregistered
      | false =>
          rw [registerRuntime, if_neg hfresh, if_neg Bool.false_ne_true] at h
          have hsame : { g with registry := some ∅ } = g := by
            rw [← hregistry]
          rw [hsame] at h
          cases h
          exact kept_thrown hs hl trivial id
  | atLock call locals =>
      obtain ⟨runtimes, hregistry, hkept⟩ := kept_member hs hl fine
      simp only [next, hregistry] at h
      cases h
      exact hkept

theorem kept_advance {g g' : Globals U} {i : ℕ} {t t' : Thread U} {l : Label U} (hs : Shared g)
    (hl : Local deviceType g i t) (h : advance deviceType g i t l = some (g', t')) :
    Kept deviceType i g g' t' := by
  cases l with
  | next fine => exact kept_next hs hl h
  | defaultRegistry =>
      simp only [advance] at h
      split at h
      · cases h
        exact kept_same hs hl Iff.rfl Iff.rfl trivial
      · cases h
  | member call =>
      simp only [advance] at h
      split at h
      · next hpublished =>
          split at h
          · next hcheck =>
              cases h
              exact kept_same hs hl Iff.rfl Iff.rfl (answered_of_error hcheck)
          · next hcheck =>
              cases h
              exact kept_same hs hl Iff.rfl Iff.rfl ⟨hpublished, hcheck⟩
      · cases h

/-! ## Runs -/

/-- The assertions hold in every interleaving. -/
def outline (deviceType : U → DeviceType) : (threads deviceType).Outline where
  Shared := Shared
  Local := Local deviceType
  Guarantee := Guarantee
  init_shared := by
    refine ⟨rfl, ?_, fun h => absurd rfl h, ?_, ?_, ?_⟩
    · constructor
      · intro h
        cases h
      · intro h
        cases h
    · intro h
      cases h
    · intro h
      cases h
    · intro _ runtimes h
      cases h
  init_local i := by
    refine ⟨⟨?_, fun h => h.elim⟩, ⟨?_, fun h => h.elim⟩, trivial⟩
    · intro h
      cases h
    · intro h
      cases h
  own g i t l g' t' hs hl h := by
    have kept := kept_advance hs hl h
    exact ⟨kept.shared, kept.self, kept.guarantee⟩
  stable i j g g' t hij hg hl := hl.stable hij hg

/-- A CPU runtime in the registry is a built-in one. -/
theorem Shared.cpu_builtin {g : Globals U} (hs : Shared g) {runtime : Instance U}
    (h : cpu g = some runtime) : ∃ n, runtime = .builtin n := by
  by_cases hdone : g.initializationGuard = .done
  · obtain ⟨-, n, hcpu⟩ := hs.initialized hdone
    rw [hcpu] at h
    exact ⟨n, (Option.some.inj h).symm⟩
  · cases hregistry : g.registry with
    | none =>
        rw [cpu, hregistry] at h
        cases h
    | some runtimes =>
        obtain rfl := hs.empty hdone runtimes hregistry
        rw [cpu, hregistry] at h
        cases h

variable (run : Run (threads deviceType).machine)

/-- There is one CPU runtime in a run. -/
theorem cpu_unique {j k : ℕ} {x y : Instance U} (hx : cpu (run.state j).shared = some x)
    (hy : cpu (run.state k).shared = some y) : x = y := by
  have hkeep : ∀ {j k : ℕ}, j ≤ k → ∀ runtime, cpu (run.state j).shared = some runtime →
      cpu (run.state k).shared = some runtime := by
    intro j k hjk
    exact (outline deviceType).relates run
      (fun g g' => ∀ runtime, cpu g = some runtime → cpu g' = some runtime) (fun _ _ h => h)
      (fun _ _ _ hab hbc runtime h => hbc runtime (hab runtime h)) (fun _ _ _ hg => hg.cpu) hjk
  rcases Nat.le_total j k with hjk | hkj
  · have := hkeep hjk x hx
    rw [hy] at this
    exact (Option.some.inj this).symm
  · have := hkeep hkj y hy
    rw [hx] at this
    exact Option.some.inj this

/-- A thread that waits for a static waits for a thread that is initialising it. -/
theorem unblocked (k : ℕ) (h : ∃ i, ∀ last, (run.state k).thread i ≠ .idle last) :
    ∃ i, ∀ fine, (next deviceType (run.state k).shared i fine ((run.state k).thread i)).isSome := by
  obtain ⟨hs, hl⟩ := (outline deviceType).holds run k
  obtain ⟨i, hi⟩ := h
  cases ht : (run.state k).thread i with
  | idle last => exact absurd ht (hi last)
  | atRegistry =>
      cases hguard : (run.state k).shared.registryGuard with
      | fresh =>
          refine ⟨i, fun fine => ?_⟩
          simp only [ht, next, hguard, Option.isSome_some]
      | done =>
          refine ⟨i, fun fine => ?_⟩
          simp only [ht, next, hguard, Option.isSome_some]
      | busy j =>
          have hj := (hl j).registry.mp hguard
          refine ⟨j, fun fine => ?_⟩
          cases hthread : (run.state k).thread j with
          | constructing => cases fine <;> rfl
          | _ =>
              rw [hthread] at hj
              exact hj.elim
  | constructing =>
      refine ⟨i, fun fine => ?_⟩
      rw [ht]
      cases fine <;> rfl
  | atInitialization =>
      cases hguard : (run.state k).shared.initializationGuard with
      | fresh =>
          refine ⟨i, fun fine => ?_⟩
          simp only [ht, next, hguard, Option.isSome_some]
      | done =>
          refine ⟨i, fun fine => ?_⟩
          simp only [ht, next, hguard, Option.isSome_some]
      | busy j =>
          have hj := (hl j).initialization.mp hguard
          refine ⟨j, fun fine => ?_⟩
          cases hthread : (run.state k).thread j with
          | making => cases fine <;> rfl
          | registering locals =>
              simp only [next]
              split
              · rfl
              · rfl
          | _ =>
              rw [hthread] at hj
              exact hj.elim
  | making =>
      refine ⟨i, fun fine => ?_⟩
      rw [ht]
      cases fine <;> rfl
  | registering locals =>
      refine ⟨i, fun fine => ?_⟩
      rw [ht]
      simp only [next]
      split
      · rfl
      · rfl
  | atLock call locals =>
      refine ⟨i, fun fine => ?_⟩
      rw [ht]
      simp only [next]
      split
      · rfl
      · rfl

/-- Threads that race for the default registry, whatever exceptions its
initialisation meets. The registry is not used before it is there; who has the
reference finds the status of the initialisation good, one built-in CPU runtime,
the same for all, and no way to register another; and no thread waits for a
static that nobody initialises. -/
theorem builtin_first (deviceType : U → DeviceType) (run : Run (threads deviceType).machine) :
    (∀ k, (run.state k).shared.fault = false ∧
      ((run.state k).shared.published = true →
        (run.state k).shared.initialization = some okStatus)) ∧
    (∃ n, ∀ k i outcome,
      (run.state k).thread i = .idle (some (.member (.get .kCPU) outcome)) →
        outcome = .runtime (.ok (.builtin n))) ∧
    (∀ k i runtime outcome,
      (run.state k).thread i =
          .idle (some (.member (.registerRuntime (some runtime)) outcome)) →
        runtime.deviceType deviceType = .kCPU → outcome = .status alreadyRegistered) ∧
    ∀ k, (∃ i, ∀ last, (run.state k).thread i ≠ .idle last) →
      ∃ i, ∀ fine,
        (next deviceType (run.state k).shared i fine ((run.state k).thread i)).isSome := by
  have hanswered : ∀ k i call outcome,
      (run.state k).thread i = .idle (some (.member call outcome)) →
        Answered deviceType (run.state k).shared call outcome := by
    intro k i call outcome hi
    have := (((outline deviceType).holds run k).2 i).reached
    rw [hi] at this
    exact this
  refine ⟨?_, ?_, ?_, unblocked run⟩
  · intro k
    have hs := ((outline deviceType).holds run k).1
    exact ⟨hs.fault, fun h => (hs.initialized (hs.published h)).1⟩
  · by_cases hcpu : ∃ k runtime, cpu (run.state k).shared = some runtime
    · obtain ⟨k₀, runtime₀, h₀⟩ := hcpu
      obtain ⟨n, rfl⟩ := ((outline deviceType).holds run k₀).1.cpu_builtin h₀
      refine ⟨n, fun k i outcome hi => ?_⟩
      obtain ⟨runtime, hruntime, rfl⟩ := (hanswered k i _ outcome hi).get rfl
      rw [cpu_unique run hruntime h₀]
    · refine ⟨0, fun k i outcome hi => ?_⟩
      obtain ⟨runtime, hruntime, -⟩ := (hanswered k i _ outcome hi).get rfl
      exact absurd ⟨k, runtime, hruntime⟩ hcpu
  · intro k i runtime outcome hi htype
    exact (hanswered k i _ outcome hi).registerRuntime runtime rfl htype

end DefaultRegistry

end Gradyx
