import Gradyx.Core.Device
import Gradyx.Lib.Monitor
import Mathlib.Data.List.AList

/-!
# RuntimeRegistry — one runtime for each device type

`include/gradyx/runtime/registry.h`, `src/runtime/registry.cc`. Any number of
clients call `register_runtime` and `get` on one registry. The null check and the
validity check stand before the lock, the lookup and the insertion inside it.

* A registered runtime is never replaced or removed, so the mapping of a type is
  the first registration that succeeded (`lookup_iff`).
* What every later call returns is read off the mapping.
-/

namespace Gradyx

open Lib Monitor

namespace RuntimeRegistry

variable {R : Type}

/-- `runtimes_`. -/
abbrev Runtimes (R : Type) := AList fun _ : DeviceType => R

inductive Call (R : Type) where
  | registerRuntime (runtime : Option R)
  | get (type : DeviceType)
deriving DecidableEq, Repr

/-- The local variables at the lock. -/
inductive Locals (R : Type) where
  | registerRuntime (runtime : R) (type : DeviceType)
  | get (type : DeviceType)
deriving DecidableEq, Repr

/-- What a call returns, or the exception of `emplace`. -/
inductive Outcome (R : Type) where
  | status (status : Status)
  | runtime (result : Except Status R)
  | badAlloc
deriving DecidableEq

def alreadyRegistered : Status :=
  .error .kAlreadyExists "a runtime is already registered for this device type"

def notRegistered : Status := .unavailable "no runtime is registered for this device type"

/-- `register_runtime`, inside the lock. A failed `emplace` has no effect. -/
def registerRuntime (runtimes : Runtimes R) (runtime : R) (type : DeviceType) (memory : Bool) :
    Runtimes R × Outcome R :=
  if type ∈ runtimes then (runtimes, .status alreadyRegistered)
  else if memory then (runtimes.insert type runtime, .status okStatus)
  else (runtimes, .badAlloc)

/-- `get`, inside the lock. -/
def get (runtimes : Runtimes R) (type : DeviceType) : Except Status R :=
  match runtimes.lookup type with
  | none => .error notRegistered
  | some runtime => .ok runtime

/-- The checks before the lock. -/
def check (deviceType : R → DeviceType) : Call R → Except (Outcome R) (Locals R)
  | .registerRuntime none => .error (.status (.invalidArgument "cannot register a null runtime"))
  | .registerRuntime (some runtime) =>
      let type := deviceType runtime
      if !isValidDeviceType type then
        .error (.status (.invalidArgument "runtime reports an invalid device type"))
      else .ok (.registerRuntime runtime type)
  | .get type =>
      if !isValidDeviceType type then
        .error (.runtime (.error (.invalidArgument "cannot query an invalid device type")))
      else .ok (.get type)

/-- The registry, for runtimes whose `device_type()` is constant. Inside the
lock the environment decides whether there is memory. -/
def monitor (deviceType : R → DeviceType) :
    Monitor (Runtimes R) (Call R) (Locals R) Bool (Outcome R) where
  init := ∅
  outside _ call := some (check deviceType call)
  inside runtimes _ locals memory :=
    match locals with
    | .registerRuntime runtime type => registerRuntime runtimes runtime type memory
    | .get type => (runtimes, .runtime (get runtimes type))

/-! ## One call -/

variable {deviceType : R → DeviceType}

/-- The locals of a call that came to the lock. -/
theorem check_ok {call : Call R} {locals : Locals R} (h : check deviceType call = .ok locals) :
    (∃ runtime, call = .registerRuntime (some runtime) ∧
      isValidDeviceType (deviceType runtime) = true ∧
      locals = .registerRuntime runtime (deviceType runtime)) ∨
    ∃ type, call = .get type ∧ isValidDeviceType type = true ∧ locals = .get type := by
  cases call with
  | registerRuntime runtime =>
      cases runtime with
      | none => cases h
      | some runtime =>
          simp only [check] at h
          split at h
          · cases h
          · next hvalid =>
              cases h
              exact .inl ⟨runtime, rfl, by simpa using hvalid, rfl⟩
  | get type =>
      simp only [check] at h
      split at h
      · cases h
      · next hvalid =>
          cases h
          exact .inr ⟨type, rfl, by simpa using hvalid, rfl⟩

theorem invalidArgument_ne_okStatus (message : String) :
    Status.invalidArgument message ≠ okStatus := by
  intro h
  cases congrArg Status.code h

/-- A call that ends before the lock fails, for a null runtime or an invalid
type. -/
theorem check_error {call : Call R} {outcome : Outcome R}
    (h : check deviceType call = .error outcome) :
    (∃ runtime message, call = .registerRuntime runtime ∧
      (∀ r, runtime = some r → isValidDeviceType (deviceType r) = false) ∧
      outcome = .status (.invalidArgument message)) ∨
    ∃ type message, call = .get type ∧ isValidDeviceType type = false ∧
      outcome = .runtime (.error (.invalidArgument message)) := by
  cases call with
  | registerRuntime runtime =>
      cases runtime with
      | none =>
          cases h
          exact .inl ⟨none, _, rfl, fun r hr => absurd hr.symm (Option.some_ne_none r), rfl⟩
      | some runtime =>
          simp only [check] at h
          split at h
          · next hinvalid =>
              cases h
              refine .inl ⟨some runtime, _, rfl, fun r hr => ?_, rfl⟩
              cases hr
              simpa using hinvalid
          · cases h
  | get type =>
      simp only [check] at h
      split at h
      · next hinvalid =>
          cases h
          exact .inr ⟨type, _, rfl, by simpa using hinvalid, rfl⟩
      · cases h

/-- What `register_runtime` does inside the lock: it inserts, or it leaves the
mapping as it is. -/
theorem registerRuntime_cases {runtimes runtimes' : Runtimes R} {runtime : R} {type : DeviceType}
    {memory : Bool} {outcome : Outcome R}
    (h : registerRuntime runtimes runtime type memory = (runtimes', outcome)) :
    (type ∈ runtimes ∧ runtimes' = runtimes ∧ outcome = .status alreadyRegistered) ∨
    (type ∉ runtimes ∧ runtimes' = runtimes.insert type runtime ∧ outcome = .status okStatus) ∨
    (type ∉ runtimes ∧ runtimes' = runtimes ∧ outcome = .badAlloc) := by
  unfold registerRuntime at h
  split at h
  · next hmem =>
      cases h
      exact .inl ⟨hmem, rfl, rfl⟩
  · next hmem =>
      split at h
      · cases h
        exact .inr (.inl ⟨hmem, rfl, rfl⟩)
      · cases h
        exact .inr (.inr ⟨hmem, rfl, rfl⟩)

/-- No call replaces or removes a runtime. -/
theorem inside_keeps {runtimes : Runtimes R} {call : Call R} {locals : Locals R} {memory : Bool}
    {type : DeviceType} {runtime : R} (h : runtimes.lookup type = some runtime) :
    ((monitor deviceType).inside runtimes call locals memory).1.lookup type = some runtime := by
  cases locals with
  | get type' => exact h
  | registerRuntime runtime' type' =>
      change (registerRuntime runtimes runtime' type' memory).1.lookup type = some runtime
      cases hresult : registerRuntime runtimes runtime' type' memory with
      | mk runtimes' outcome =>
          rcases registerRuntime_cases hresult with ⟨-, rfl, -⟩ | ⟨hfresh, rfl, -⟩ | ⟨-, rfl, -⟩
          · exact h
          · have hne : type ≠ type' := by
              rintro rfl
              exact hfresh (AList.lookup_isSome.mp (h ▸ rfl))
            rw [AList.lookup_insert_ne hne]
            exact h
          · exact h

/-! ## Runs -/

variable (run : Run (monitor deviceType).machine)

/-- At position `k` the client registers the runtime for the type. -/
def Registers (k client : ℕ) (runtime : R) (type : DeviceType) : Prop :=
  Returned run k client (.registerRuntime (some runtime)) (.status okStatus) ∧
    deviceType runtime = type

/-- A call of `register_runtime` that passes the lock. -/
theorem entered_registerRuntime {k client : ℕ} {runtime : Option R} {outcome : Outcome R}
    (h : Entered run k client (.registerRuntime runtime) outcome) :
    ∃ runtime' memory, runtime = some runtime' ∧
      isValidDeviceType (deviceType runtime') = true ∧
      registerRuntime (objectAt run k) runtime' (deviceType runtime') memory =
        (objectAt run (k + 1), outcome) := by
  obtain ⟨locals, memory, ⟨j, -, hout⟩, hin⟩ := h.spec
  rcases check_ok (Option.some.inj hout) with ⟨runtime', hcall, hvalid, rfl⟩ | ⟨type, hcall, -⟩
  · cases hcall
    exact ⟨runtime', memory, rfl, hvalid, hin⟩
  · cases hcall

/-- A call of `get` that passes the lock. -/
theorem entered_get {k client : ℕ} {type : DeviceType} {outcome : Outcome R}
    (h : Entered run k client (.get type) outcome) :
    objectAt run (k + 1) = objectAt run k ∧ outcome = .runtime (get (objectAt run k) type) := by
  obtain ⟨locals, memory, ⟨j, -, hout⟩, hin⟩ := h.spec
  rcases check_ok (Option.some.inj hout) with ⟨runtime', hcall, -⟩ | ⟨type', hcall, -, rfl⟩
  · cases hcall
  · cases hcall
    exact ⟨(congrArg Prod.fst hin).symm, (congrArg Prod.snd hin).symm⟩

/-- A registration that succeeds inserts its runtime, where no runtime was. -/
theorem Registers.spec {k client : ℕ} {runtime : R} {type : DeviceType}
    (h : Registers run k client runtime type) :
    isValidDeviceType type = true ∧ type ∉ objectAt run k ∧
      (objectAt run (k + 1)).lookup type = some runtime := by
  obtain ⟨hrejected | hentered, rfl⟩ := h
  · rcases check_error (Option.some.inj hrejected.spec.1) with
      ⟨runtime', message, -, -, hout⟩ | ⟨type, message, hcall, -⟩
    · exact absurd (Outcome.status.inj hout).symm (invalidArgument_ne_okStatus message)
    · cases hcall
  · obtain ⟨runtime', memory, hcall, hvalid, hin⟩ := entered_registerRuntime run hentered
    cases hcall
    rcases registerRuntime_cases hin with ⟨-, -, hout⟩ | ⟨hfresh, heq, -⟩ | ⟨-, -, hout⟩
    · cases congrArg Status.code (Outcome.status.inj hout)
    · rw [heq]
      exact ⟨hvalid, hfresh, AList.lookup_insert _⟩
    · cases hout

theorem lookup_stable {i j : ℕ} (hij : i ≤ j) {type : DeviceType} {runtime : R}
    (h : (objectAt run i).lookup type = some runtime) :
    (objectAt run j).lookup type = some runtime :=
  object_stable run (fun runtimes => runtimes.lookup type = some runtime)
    (fun _ _ _ _ => inside_keeps) hij h

/-- The mapping of a type is a registration that succeeded before. -/
theorem lookup_iff {k : ℕ} {type : DeviceType} {runtime : R} :
    (objectAt run k).lookup type = some runtime ↔
      ∃ i < k, ∃ client, Registers run i client runtime type := by
  constructor
  · intro h
    obtain ⟨i, hi, hbefore, hafter, client, call, outcome, hentered⟩ :=
      exists_entered run (fun runtimes => runtimes.lookup type = some runtime)
        (by simp [monitor]) h
    refine ⟨i, hi, client, ?_⟩
    cases call with
    | get type' =>
        rw [(entered_get run hentered).1] at hafter
        exact absurd hafter hbefore
    | registerRuntime runtime' =>
        obtain ⟨runtime', memory, rfl, -, hin⟩ := entered_registerRuntime run hentered
        rcases registerRuntime_cases hin with ⟨-, heq, -⟩ | ⟨-, heq, rfl⟩ | ⟨-, heq, -⟩
        · exact absurd (heq ▸ hafter) hbefore
        · -- the insertion is the only change
          rw [heq] at hafter
          by_cases htype : type = deviceType runtime'
          · subst htype
            rw [AList.lookup_insert] at hafter
            cases hafter
            exact ⟨.inr hentered, rfl⟩
          · rw [AList.lookup_insert_ne htype] at hafter
            exact absurd hafter hbefore
        · exact absurd (heq ▸ hafter) hbefore
  · rintro ⟨i, hi, client, h⟩
    exact lookup_stable run hi h.spec.2.2

/-! ## The first registration wins -/

variable {run}

/-- At most one registration of a type succeeds. -/
theorem Registers.unique {i j c d : ℕ} {x y : R} {type : DeviceType}
    (hi : Registers run i c x type) (hj : Registers run j d y type) : i = j := by
  -- the later one would find the type taken
  have hlt : ∀ {i j c d : ℕ} {x y : R}, Registers run i c x type → Registers run j d y type →
      ¬ i < j := by
    intro i j c d x y hi hj hlt
    have hlookup := lookup_stable run hlt hi.spec.2.2
    exact hj.spec.2.1 (AList.lookup_isSome.mp (hlookup ▸ rfl))
  have h₁ := hlt hi hj
  have h₂ := hlt hj hi
  omega

/-- A later registration fails. -/
theorem Registers.later_register {i k c d : ℕ} {x y : R} {type : DeviceType}
    {outcome : Outcome R} (hi : Registers run i c x type) (hik : i < k) (hy : deviceType y = type)
    (hk : Returned run k d (.registerRuntime (some y)) outcome) :
    outcome = .status alreadyRegistered := by
  have hlookup := lookup_stable run hik hi.spec.2.2
  rcases hk with hrejected | hentered
  · rcases check_error (Option.some.inj hrejected.spec.1) with
      ⟨runtime', message, hcall, hinvalid, -⟩ | ⟨type', message, hcall, -⟩
    · cases hcall
      have := hinvalid y rfl
      rw [hy, hi.spec.1] at this
      cases this
    · cases hcall
  · obtain ⟨y', memory, hcall, -, hin⟩ := entered_registerRuntime run hentered
    cases hcall
    have hmem : deviceType y ∈ objectAt run k := by
      rw [hy]
      exact AList.lookup_isSome.mp (hlookup ▸ rfl)
    rcases registerRuntime_cases hin with ⟨-, -, hout⟩ | ⟨hfresh, -⟩ | ⟨hfresh, -⟩
    · exact hout
    · exact absurd hmem hfresh
    · exact absurd hmem hfresh

/-- `get` of a valid type returns what the mapping has. -/
theorem returned_get {k client : ℕ} {type : DeviceType} {outcome : Outcome R}
    (hvalid : isValidDeviceType type = true) (h : Returned run k client (.get type) outcome) :
    outcome = .runtime (get (objectAt run k) type) := by
  rcases h with hrejected | hentered
  · rcases check_error (Option.some.inj hrejected.spec.1) with
      ⟨runtime', message, hcall, -⟩ | ⟨type', message, hcall, hinvalid, -⟩
    · cases hcall
    · cases hcall
      rw [hvalid] at hinvalid
      cases hinvalid
  · exact (entered_get run hentered).2

theorem Registers.later_get {i k c d : ℕ} {x : R} {type : DeviceType} {outcome : Outcome R}
    (hi : Registers run i c x type) (hik : i < k) (hk : Returned run k d (.get type) outcome) :
    outcome = .runtime (.ok x) := by
  rw [returned_get hi.spec.1 hk, get, lookup_stable run hik hi.spec.2.2]

theorem get_unregistered {k d : ℕ} {type : DeviceType} {outcome : Outcome R}
    (hvalid : isValidDeviceType type = true) (hnone : ∀ i < k, ∀ c x, ¬ Registers run i c x type)
    (hk : Returned run k d (.get type) outcome) : outcome = .runtime (.error notRegistered) := by
  have hlookup : (objectAt run k).lookup type = none := by
    refine Option.eq_none_iff_forall_ne_some.mpr fun x hx => ?_
    obtain ⟨i, hi, c, h⟩ := (lookup_iff run).mp hx
    exact hnone i hi c x h
  rw [returned_get hvalid hk, get, hlookup]

/-- A failed registration leaves the mapping as it is. -/
theorem failed_register {k client : ℕ} {runtime : Option R} {outcome : Outcome R}
    (h : Returned run k client (.registerRuntime runtime) outcome)
    (hfail : outcome ≠ .status okStatus) : objectAt run (k + 1) = objectAt run k := by
  rcases h with hrejected | hentered
  · exact hrejected.spec.2
  · obtain ⟨runtime', memory, -, -, hin⟩ := entered_registerRuntime run hentered
    rcases registerRuntime_cases hin with ⟨-, heq, -⟩ | ⟨-, -, hout⟩ | ⟨-, heq, -⟩
    · exact heq
    · exact absurd hout hfail
    · exact heq

/-- A runtime that `get` returns reports the type asked for. -/
theorem get_deviceType {k client : ℕ} {type : DeviceType} {runtime : R}
    (h : Returned run k client (.get type) (.runtime (.ok runtime))) :
    deviceType runtime = type := by
  rcases h with hrejected | hentered
  · rcases check_error (Option.some.inj hrejected.spec.1) with
      ⟨runtime', message, hcall, -⟩ | ⟨type', message, -, -, hout⟩
    · cases hcall
    · cases Outcome.runtime.inj hout
  · have hout := Outcome.runtime.inj (entered_get run hentered).2
    unfold get at hout
    split at hout
    · cases hout
    · next runtime' hlookup =>
        cases hout
        obtain ⟨i, -, c, hreg⟩ := (lookup_iff run).mp hlookup
        exact hreg.2

/-- The first registration of a type that succeeds decides every later call, and
no call before it finds a runtime. -/
theorem first_registration_wins {R : Type} (deviceType : R → DeviceType)
    (run : Run (monitor deviceType).machine) :
    (∀ i j c d x y type, Registers run i c x type → Registers run j d y type → i = j) ∧
    (∀ i c x type, Registers run i c x type →
      (∀ k d outcome, i < k → Returned run k d (.get type) outcome →
        outcome = .runtime (.ok x)) ∧
      (∀ k d outcome, k < i → Returned run k d (.get type) outcome →
        outcome = .runtime (.error notRegistered)) ∧
      ∀ k d y outcome, i < k → deviceType y = type →
        Returned run k d (.registerRuntime (some y)) outcome →
        outcome = .status alreadyRegistered) ∧
    (∀ k d runtime outcome, Returned run k d (.registerRuntime runtime) outcome →
      outcome ≠ .status okStatus → objectAt run (k + 1) = objectAt run k) ∧
    ∀ k d type runtime, Returned run k d (.get type) (.runtime (.ok runtime)) →
      deviceType runtime = type := by
  refine ⟨fun i j c d x y type hi hj => hi.unique hj, fun i c x type hi => ⟨?_, ?_, ?_⟩, ?_, ?_⟩
  · intro k d outcome hik hk
    exact hi.later_get hik hk
  · intro k d outcome hki hk
    refine get_unregistered hi.spec.1 (fun j hj c' x' hj' => ?_) hk
    have := hj'.unique hi
    omega
  · intro k d y outcome hik hy hk
    exact hi.later_register hik hy hk
  · intro k d runtime outcome h hfail
    exact failed_register h hfail
  · intro k d type runtime h
    exact get_deviceType h

/-- Two clients race to register, a third one looks up before and after. -/
def raceRun : Run (monitor fun runtime : ℕ => if runtime < 2 then .kCPU else .kMeta).machine :=
  Run.ofLabels _ ⟨∅, [.idle none, .idle none, .idle none]⟩ ⟨rfl, by decide⟩
    [.call 0 (.registerRuntime (some 0)), .call 1 (.registerRuntime (some 1)),
      .call 2 (.get .kCPU), .enter 2 true, .enter 1 true, .enter 0 true,
      .call 2 (.get .kCPU), .enter 2 true]

theorem first_registration_wins_race :
    Registers raceRun 4 1 1 .kCPU ∧
      ∀ k d outcome, 4 < k → Returned raceRun k d (.get .kCPU) outcome →
        outcome = .runtime (.ok 1) := by
  have hentered : Entered raceRun 4 1 (.registerRuntime (some 1)) (.status okStatus) :=
    ⟨⟨true, by decide⟩, ⟨.registerRuntime 1 .kCPU, by decide⟩, by decide⟩
  have h : Registers raceRun 4 1 1 .kCPU := ⟨.inr hentered, by decide⟩
  exact ⟨h, ((first_registration_wins _ raceRun).2.1 4 1 1 .kCPU h).1⟩

end RuntimeRegistry

end Gradyx
