import Mathlib.Data.Nat.Notation

/-!
# Status and error codes

`include/gradyx/core/status.h`, `src/core/status.cc`. The source location that
a `Status` carries for its printed form is left out. What a function returns as
a fresh `Result<T>` is an `Except Status T` here; the life of a `Result` object
is the subject of `Gradyx.Core.Result`.
-/

namespace Gradyx

inductive ErrorCode where
  | kOk
  | kInvalidArgument
  | kOutOfRange
  | kOverflow
  | kNotFound
  | kAlreadyExists
  | kUnavailable
  | kResourceExhausted
  | kFailedPrecondition
  | kInternal
  | kNotImplemented
deriving DecidableEq, Repr

structure Status where
  code : ErrorCode := .kOk
  message : String := ""
deriving DecidableEq, Repr

/-- `ok_status()`. -/
def okStatus : Status := {}

namespace Status

/-- `Status::error`: an error never carries the code `kOk`. -/
def error (code : ErrorCode) (message : String) : Status :=
  if code = .kOk then ⟨.kInternal, "an error Status cannot use ErrorCode::kOk"⟩
  else ⟨code, message⟩

def invalidArgument (message : String) : Status := error .kInvalidArgument message

def outOfRange (message : String) : Status := error .kOutOfRange message

def overflow (message : String) : Status := error .kOverflow message

def unavailable (message : String) : Status := error .kUnavailable message

def internal (message : String) : Status := error .kInternal message

def ok (s : Status) : Bool := s.code == .kOk

theorem error_ok (code : ErrorCode) (message : String) : (error code message).ok = false := by
  cases code <;> rfl

end Status

/-! ## Propagating a failure -/

variable {ε α β : Type}

@[simp] theorem ok_bind (x : α) (f : α → Except ε β) : (Except.ok x >>= f) = f x := rfl

@[simp] theorem error_bind (e : ε) (f : α → Except ε β) :
    (Except.error e >>= f) = Except.error e := rfl

theorem exists_ok_of_bind {x : Except ε α} {f : α → Except ε β} {b : β} (h : x >>= f = .ok b) :
    ∃ a, x = .ok a ∧ f a = .ok b := by
  cases x with
  | error e => cases h
  | ok a => exact ⟨a, rfl, h⟩

/-- The result is an error with the code. -/
def FailsWith (r : Except Status α) (code : ErrorCode) : Prop := ∃ e, r = .error e ∧ e.code = code

@[simp] theorem failsWith_ok (x : α) (code : ErrorCode) : ¬ FailsWith (.ok x) code := by
  rintro ⟨e, he, -⟩
  cases he

@[simp] theorem failsWith_error (e : Status) (code : ErrorCode) :
    FailsWith (.error e : Except Status α) code ↔ e.code = code := by
  constructor
  · rintro ⟨e', he, hcode⟩
    cases he
    exact hcode
  · intro hcode
    exact ⟨e, rfl, hcode⟩

theorem not_failsWith_of_ok {r : Except Status α} {x : α} (h : r = .ok x) (code : ErrorCode) :
    ¬ FailsWith r code := by
  rw [h]
  exact failsWith_ok x code

theorem not_failsWith_of_error {r : Except Status α} {e : Status} {code : ErrorCode}
    (h : r = .error e) (hcode : e.code ≠ code) : ¬ FailsWith r code := by
  rw [h, failsWith_error]
  exact hcode

end Gradyx
