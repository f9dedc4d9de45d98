import Gradyx.Core.Status
import Gradyx.Lib.Behavior

/-!
# Result — a value or an error

`include/gradyx/core/result.h`. Any number of `Result<T>` objects, run through
any sequence of constructions, copies, moves and assignments, for a `T` whose
special members may throw.

* `storage_` is a `std::variant<T, Status>`; the compiler-generated members of
  `Result` are those of the variant, as the standard specifies them.
* `emplace` destroys the old alternative before it builds the new one, so an
  exception of `T` leaves the variant valueless.
* `Healthy`: the storage holds a `T` or an error. It is kept by every step but
  an assignment that `T` interrupts while it is built in place (`Interrupts`),
  and a storage agrees with its status exactly when it is healthy.
-/

namespace Gradyx

open Lib

/-- `storage_`: one of its alternatives, or valueless by exception. -/
inductive Result (T : Type) where
  | val (v : T)
  | err (status : Status)
  | valueless
deriving DecidableEq, Repr

namespace Result

variable {T : Type}

/-- An exception that `value` throws. -/
inductive Exception where
  | logicError (status : Status)
  | badVariantAccess
deriving DecidableEq, Repr

/-! ## Observers -/

def ok : Result T → Bool
  | .val _ => true
  | _ => false

def status : Result T → Status
  | .err status => status
  | _ => okStatus

/-- `std::get<T>`. -/
def get : Result T → Except Exception T
  | .val v => .ok v
  | _ => .error .badVariantAccess

def ensureValue (r : Result T) : Except Exception Unit :=
  if r.ok then .ok () else .error (.logicError r.status)

/-- `value()`. -/
def value (r : Result T) : Except Exception T := do
  r.ensureValue
  r.get

def normalizeError (status : Status) : Status :=
  if status.ok then .internal "Result cannot be constructed from an OK status" else status

/-! ## Special members -/

/-- `std::is_nothrow_copy_constructible_v<T>`, `std::is_nothrow_move_constructible_v<T>`. -/
structure Traits where
  nothrowCopy : Bool
  nothrowMove : Bool
deriving DecidableEq, Repr

/-- What the special members of `T`, the allocator and the moves of `Status` do
in one call: the value that a constructor of `T` builds (`none` when it throws),
the value that an assignment of `T` leaves in its target, throw or not, the
value that a move leaves in its source; whether there is memory for the message
of a `Status`, and the message of a moved-from one. -/
structure Calls (T : Type) where
  copied : Option T
  moved : Option T
  assigned : T
  rest : T
  memory : Bool := true
  message : String := ""
deriving DecidableEq, Repr

/-- A `noexcept` constructor does not throw. -/
def Calls.Allowed (tr : Traits) (c : Calls T) : Prop :=
  (tr.nothrowCopy → c.copied.isSome) ∧ (tr.nothrowMove → c.moved.isSome)

instance (tr : Traits) (c : Calls T) : Decidable (c.Allowed tr) :=
  inferInstanceAs (Decidable (_ ∧ _))

/-- `emplace<T>`. -/
def emplace : Option T → Result T
  | some v => .val v
  | none => .valueless

/-- The copy constructor of the variant; `none` when it throws. -/
def copyConstruct (c : Calls T) : Result T → Option (Result T)
  | .val _ => c.copied.map .val
  | .err status => if c.memory then some (.err status) else none
  | .valueless => some .valueless

/-- The move constructor of the variant, and what it leaves in its source. -/
def moveConstruct (c : Calls T) : Result T → Option (Result T) × Result T
  | .val _ => (c.moved.map .val, .val c.rest)
  | .err status => (some (.err status), .err { status with message := c.message })
  | .valueless => (some .valueless, .valueless)

/-- The copy assignment of the variant. Between two alternatives the new one is
built in place when its copy constructor is `noexcept` or its move constructor
is not; otherwise a temporary is copied and then moved. -/
def copyAssign (tr : Traits) (c : Calls T) (self : Result T) : Result T → Result T
  | .val _ =>
      match self with
      | .val _ => .val c.assigned
      | _ =>
          if tr.nothrowCopy || !tr.nothrowMove then emplace c.copied
          else if c.copied.isSome then emplace c.moved
          else self
  | .err status =>
      match self with
      -- member by member: the code, then the message, which needs memory
      | .err old => .err (if c.memory then status else { old with code := status.code })
      | _ => if c.memory then .err status else self
  | .valueless => .valueless

/-- The move assignment of the variant, and what it leaves in its source. -/
def moveAssign (c : Calls T) (self : Result T) : Result T → Result T × Result T
  | .val _ =>
      match self with
      | .val _ => (.val c.assigned, .val c.rest)
      | _ => (emplace c.moved, .val c.rest)
  | .err status => (.err status, .err { status with message := c.message })
  | .valueless => (.valueless, .valueless)

/-! ## Runs over many objects -/

/-- The objects in order of construction. -/
abbrev Objects (T : Type) := List (Result T)

inductive Op (T : Type) where
  /-- `Result(const T&)`. -/
  | ofCopy (c : Calls T)
  /-- `Result(T&&)`. -/
  | ofMove (c : Calls T)
  /-- `Result(Status)`. -/
  | ofStatus (status : Status) (c : Calls T)
  | copyConstruct (other : ℕ) (c : Calls T)
  | moveConstruct (other : ℕ) (c : Calls T)
  | copyAssign (self other : ℕ) (c : Calls T)
  | moveAssign (self other : ℕ) (c : Calls T)
deriving DecidableEq, Repr

namespace Op

def calls : Op T → Calls T
  | ofCopy c | ofMove c | ofStatus _ c | copyConstruct _ c | moveConstruct _ c
  | copyAssign _ _ c | moveAssign _ _ c => c

end Op

/-- A constructor that throws makes no object. -/
def add (s : Objects T) (made : Option (Result T)) : Objects T := s ++ made.toList

/-- The call, if the objects it needs are there. The caller catches every
exception. -/
def exec (tr : Traits) (s : Objects T) : Op T → Option (Objects T)
  | .ofCopy c => some (add s (c.copied.map .val))
  | .ofMove c => some (add s (c.moved.map .val))
  | .ofStatus status c =>
      -- an OK status is replaced by one with a new message
      if status.ok && !c.memory then some s
      else some (add s (some (.err (normalizeError status))))
  | .copyConstruct other c => do
      let source ← s[other]?
      return add s (source.copyConstruct c)
  | .moveConstruct other c => do
      let source ← s[other]?
      return add (s.set other (source.moveConstruct c).2) (source.moveConstruct c).1
  | .copyAssign self other c => do
      let target ← s[self]?
      let source ← s[other]?
      return s.set self (target.copyAssign tr c source)
  | .moveAssign self other c => do
      let target ← s[self]?
      let source ← s[other]?
      return (s.set other (target.moveAssign c source).2).set self (target.moveAssign c source).1

/-- Runs that start with no object. -/
def machine (tr : Traits) : Machine (Objects T) (Op T) where
  Init s := s = []
  step s op := if op.calls.Allowed tr then exec tr s op else none

/-! ## Health -/

/-- What the observers say of each other. -/
def Agrees (r : Result T) : Prop :=
  (r.ok = true ↔ r.status.ok = true) ∧ ((∃ e, r.value = .error e) ↔ r.ok = false)

/-- The storage holds a value or an error. -/
def Healthy : Result T → Prop
  | .val _ => True
  | .err status => status.ok = false
  | .valueless => False

/-- `value` throws exactly when there is no value, whatever the storage. -/
theorem value_error_iff (r : Result T) : (∃ e, r.value = .error e) ↔ r.ok = false := by
  cases r with
  | val v =>
      constructor
      · rintro ⟨e, he⟩
        cases he
      · intro h
        cases h
  | err status => exact ⟨fun _ => rfl, fun _ => ⟨_, rfl⟩⟩
  | valueless => exact ⟨fun _ => rfl, fun _ => ⟨_, rfl⟩⟩

theorem agrees_iff_healthy (r : Result T) : r.Agrees ↔ r.Healthy := by
  unfold Agrees
  rw [and_iff_left r.value_error_iff]
  cases r with
  | val v => exact ⟨fun _ => trivial, fun _ => ⟨fun _ => rfl, fun _ => rfl⟩⟩
  | err status =>
      change (false = true ↔ status.ok = true) ↔ status.ok = false
      cases status.ok <;> decide
  | valueless =>
      constructor
      · intro h
        exact absurd (h.mpr rfl) Bool.false_ne_true
      · intro h
        exact h.elim

theorem normalizeError_ok (status : Status) : (normalizeError status).ok = false := by
  unfold normalizeError
  cases h : status.ok
  · exact h
  · rw [if_pos rfl]
    exact Status.error_ok _ _

theorem emplace_healthy {built : Option T} (h : built.isSome) : (emplace built).Healthy := by
  cases built with
  | none => cases h
  | some v => trivial

theorem copyConstruct_healthy {r made : Result T} {c : Calls T} (h : r.Healthy)
    (hmade : r.copyConstruct c = some made) : made.Healthy := by
  cases r with
  | val v =>
      obtain ⟨v', -, rfl⟩ := Option.map_eq_some_iff.mp hmade
      trivial
  | err status =>
      simp only [copyConstruct] at hmade
      split at hmade
      · cases hmade
        exact h
      · cases hmade
  | valueless => exact h.elim

theorem moveConstruct_healthy {r : Result T} {c : Calls T} (h : r.Healthy) :
    (∀ made, (r.moveConstruct c).1 = some made → made.Healthy) ∧ (r.moveConstruct c).2.Healthy := by
  cases r with
  | val v =>
      refine ⟨fun made hmade => ?_, trivial⟩
      obtain ⟨v', -, rfl⟩ := Option.map_eq_some_iff.mp hmade
      trivial
  | err status =>
      refine ⟨fun made hmade => ?_, h⟩
      cases hmade
      exact h
  | valueless => exact h.elim

/-- An assignment within `self` has to build a `T`. -/
def Fills (s : Objects T) (self other : ℕ) : Prop :=
  ∃ target source, s[self]? = some target ∧ s[other]? = some source ∧
    target.ok = false ∧ source.ok = true

/-- `T` throws while an assignment builds it in a storage that does not hold a
`T`: a copy that goes in place, or a move. -/
def Interrupts (tr : Traits) (s : Objects T) : Op T → Prop
  | .copyAssign self other c => Fills s self other ∧ tr.nothrowMove = false ∧ c.copied = none
  | .moveAssign self other c => Fills s self other ∧ c.moved = none
  | _ => False

theorem copyAssign_healthy {tr : Traits} {c : Calls T} {self other : Result T}
    (hself : self.Healthy) (hother : other.Healthy) (hc : c.Allowed tr)
    (hi : self.ok = false → other.ok = true → tr.nothrowMove = false → c.copied.isSome) :
    (self.copyAssign tr c other).Healthy := by
  cases other with
  | val v =>
      cases self with
      | val w => trivial
      | err status =>
          simp only [copyAssign]
          split
          · -- in place
            next hplace =>
              refine emplace_healthy ?_
              cases hmove : tr.nothrowMove with
              | false => exact hi rfl rfl hmove
              | true => exact hc.1 (by simpa [hmove] using hplace)
          · -- through a temporary, whose move does not throw
            next hplace =>
              have hmove : tr.nothrowMove = true := by
                simp only [Bool.or_eq_true, Bool.not_eq_true', not_or, Bool.not_eq_false] at hplace
                exact hplace.2
              split
              · exact emplace_healthy (hc.2 hmove)
              · exact hself
      | valueless => exact hself.elim
  | err status =>
      cases self with
      | val w =>
          simp only [copyAssign]
          split
          · exact hother
          · exact hself
      | err old =>
          simp only [copyAssign]
          split
          · exact hother
          · exact hother
      | valueless => exact hself.elim
  | valueless => exact hother.elim

theorem moveAssign_healthy {c : Calls T} {self other : Result T}
    (hself : self.Healthy) (hother : other.Healthy)
    (hi : self.ok = false → other.ok = true → c.moved.isSome) :
    (self.moveAssign c other).1.Healthy ∧ (self.moveAssign c other).2.Healthy := by
  cases other with
  | val v =>
      refine ⟨?_, by cases self <;> trivial⟩
      cases self with
      | val w => trivial
      | err status => exact emplace_healthy (hi rfl rfl)
      | valueless => exact hself.elim
  | err status => exact ⟨hother, hother⟩
  | valueless => exact hother.elim

/-! ## Steps and runs -/

def AllHealthy (s : Objects T) : Prop := ∀ r ∈ s, r.Healthy

namespace AllHealthy

variable {s : Objects T}

theorem get (h : AllHealthy s) {i : ℕ} {r : Result T} (hr : s[i]? = some r) : r.Healthy :=
  h r (List.mem_of_getElem? hr)

theorem add (h : AllHealthy s) {made : Option (Result T)}
    (hmade : ∀ r, made = some r → r.Healthy) : AllHealthy (Result.add s made) := by
  intro r hr
  rcases List.mem_append.mp hr with hr | hr
  · exact h r hr
  · exact hmade r (Option.mem_toList.mp hr)

theorem set (h : AllHealthy s) {i : ℕ} {r : Result T} (hr : r.Healthy) : AllHealthy (s.set i r) := by
  intro r' hr'
  rcases List.mem_or_eq_of_mem_set hr' with hr' | rfl
  · exact h r' hr'
  · exact hr

end AllHealthy

theorem map_val_healthy {built : Option T} {r : Result T} (h : built.map .val = some r) :
    r.Healthy := by
  obtain ⟨v, -, rfl⟩ := Option.map_eq_some_iff.mp h
  trivial

theorem exec_healthy {tr : Traits} {s s' : Objects T} {op : Op T} (h : AllHealthy s)
    (hc : op.calls.Allowed tr) (hi : ¬ Interrupts tr s op) (hs : exec tr s op = some s') :
    AllHealthy s' := by
  cases op with
  | ofCopy c | ofMove c =>
      cases hs
      exact h.add fun r => map_val_healthy
  | ofStatus status c =>
      simp only [exec] at hs
      split at hs
      · cases hs
        exact h
      · cases hs
        refine h.add fun r hr => ?_
        cases hr
        exact normalizeError_ok status
  | copyConstruct other c =>
      simp only [exec, Option.bind_eq_bind, Option.pure_def, Option.bind_eq_some_iff,
        Option.some.injEq] at hs
      obtain ⟨source, hsource, rfl⟩ := hs
      exact h.add fun r => copyConstruct_healthy (h.get hsource)
  | moveConstruct other c =>
      simp only [exec, Option.bind_eq_bind, Option.pure_def, Option.bind_eq_some_iff,
        Option.some.injEq] at hs
      obtain ⟨source, hsource, rfl⟩ := hs
      obtain ⟨hmade, hleft⟩ := moveConstruct_healthy (c := c) (h.get hsource)
      exact (h.set hleft).add hmade
  | copyAssign self other c =>
      simp only [exec, Option.bind_eq_bind, Option.pure_def, Option.bind_eq_some_iff,
        Option.some.injEq] at hs
      obtain ⟨target, htarget, source, hsource, rfl⟩ := hs
      refine h.set (copyAssign_healthy (h.get htarget) (h.get hsource) hc ?_)
      intro hto hfrom hmove
      by_contra hnone
      exact hi ⟨⟨target, source, htarget, hsource, hto, hfrom⟩, hmove, by simpa using hnone⟩
  | moveAssign self other c =>
      simp only [exec, Option.bind_eq_bind, Option.pure_def, Option.bind_eq_some_iff,
        Option.some.injEq] at hs
      obtain ⟨target, htarget, source, hsource, rfl⟩ := hs
      obtain ⟨hto, hleft⟩ := moveAssign_healthy (c := c) (h.get htarget) (h.get hsource) (by
        intro hto hfrom
        by_contra hnone
        exact hi ⟨⟨target, source, htarget, hsource, hto, hfrom⟩, by simpa using hnone⟩)
      exact (h.set hleft).set hto

theorem copyAssign_lost {tr : Traits} {c : Calls T} {self other : Result T}
    (hto : self.ok = false) (hfrom : other.ok = true) (hmove : tr.nothrowMove = false)
    (hnone : c.copied = none) : self.copyAssign tr c other = .valueless := by
  cases other with
  | val v =>
      cases self with
      | val w => cases hto
      | err _ | valueless => simp [copyAssign, hmove, hnone, emplace]
  | err _ | valueless => cases hfrom

theorem moveAssign_lost {c : Calls T} {self other : Result T} (hto : self.ok = false)
    (hfrom : other.ok = true) (hnone : c.moved = none) :
    (self.moveAssign c other).1 = .valueless := by
  cases other with
  | val v =>
      cases self with
      | val w => cases hto
      | err _ | valueless => simp [moveAssign, hnone, emplace]
  | err _ | valueless => cases hfrom

/-- An interrupted assignment leaves its target valueless. -/
theorem valueless_of_interrupts {tr : Traits} {s s' : Objects T} {op : Op T}
    (hi : Interrupts tr s op) (hs : exec tr s op = some s') : .valueless ∈ s' := by
  cases op with
  | copyAssign self other c =>
      simp only [exec, Option.bind_eq_bind, Option.pure_def, Option.bind_eq_some_iff,
        Option.some.injEq] at hs
      obtain ⟨target, htarget, source, hsource, rfl⟩ := hs
      obtain ⟨⟨target', source', htarget', hsource', hto, hfrom⟩, hmove, hnone⟩ := hi
      cases htarget.symm.trans htarget'
      cases hsource.symm.trans hsource'
      rw [copyAssign_lost hto hfrom hmove hnone]
      exact List.mem_set (List.getElem?_eq_some_iff.mp htarget).1 _
  | moveAssign self other c =>
      simp only [exec, Option.bind_eq_bind, Option.pure_def, Option.bind_eq_some_iff,
        Option.some.injEq] at hs
      obtain ⟨target, htarget, source, hsource, rfl⟩ := hs
      obtain ⟨⟨target', source', htarget', hsource', hto, hfrom⟩, hnone⟩ := hi
      cases htarget.symm.trans htarget'
      cases hsource.symm.trans hsource'
      rw [moveAssign_lost hto hfrom hnone]
      refine List.mem_set ?_ _
      rw [List.length_set]
      exact (List.getElem?_eq_some_iff.mp htarget).1
  | _ => exact hi.elim

variable {tr : Traits}

theorem step_iff {s s' : Objects T} {op : Op T} :
    (machine tr).step s op = some s' ↔ op.calls.Allowed tr ∧ exec tr s op = some s' := by
  simp only [machine]
  split
  · next h => exact (and_iff_right h).symm
  · next h =>
      constructor
      · intro hs
        cases hs
      · intro hs
        exact absurd hs.1 h

/-- The observers of all objects agree through a run exactly when `T` interrupts
no assignment in place. -/
theorem ok_agrees_with_status (T : Type) (tr : Traits)
    (run : Run (machine (T := T) tr)) :
    (∀ k, ∀ r ∈ run.state k, r.Agrees) ↔
      ∀ k op, run.label k = some op → ¬ Interrupts tr (run.state k) op := by
  constructor
  · intro h k op hl hi
    obtain ⟨-, hs⟩ := step_iff.mp (run.step_of_label hl)
    have hlost := h (k + 1) .valueless (valueless_of_interrupts hi hs)
    exact (agrees_iff_healthy _).mp hlost
  · intro h k r hr
    refine (agrees_iff_healthy r).mpr ?_
    refine run.invariant_under (fun s op => ¬ Interrupts tr s op) AllHealthy ?_ ?_ k
      (fun i op _ => h i op) r hr
    · rintro s rfl r hr
      cases hr
    · intro s op s' hi hs hhealthy
      obtain ⟨hc, hs⟩ := step_iff.mp hs
      exact exec_healthy hhealthy hc hi hs

/-! ## A lost value -/

/-- Special members that throw on every copy and move. -/
def throwing : Calls ℕ := { copied := none, moved := none, assigned := 0, rest := 0 }

/-- An error, a value, and an assignment of the value to the error that throws. -/
def lostRun : Run (machine (T := ℕ) ⟨false, false⟩) :=
  Run.ofLabels _ [] rfl
    [.ofStatus (.outOfRange "outside range") throwing,
      .ofCopy { throwing with copied := some 7 }, .moveAssign 0 1 throwing]

/-- The object that holds no value reports an OK status. -/
theorem ok_disagrees_with_status :
    (∃ r ∈ lostRun.state 3, r.ok = false ∧ r.status.ok = true) ∧
      ¬ ∀ k, ∀ r ∈ lostRun.state k, r.Agrees := by
  have hmem : Result.valueless ∈ lostRun.state 3 := by decide
  refine ⟨⟨.valueless, hmem, rfl, rfl⟩, fun h => ?_⟩
  exact (agrees_iff_healthy _).mp (h 3 .valueless hmem)

end Result

end Gradyx
