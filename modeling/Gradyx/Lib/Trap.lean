import Mathlib.Data.Int.Notation
import Mathlib.Tactic.Common

/-! # Evaluation that may trap

Integer expressions over a type with a range. An operation whose exact result
leaves the range, and a division by zero, stop the evaluation. `and` and `or`
evaluate their right operand only where the left one does not decide, so their
rules (`and_decides`, `or_decides`) ask for the right operand only there.
-/

namespace Gradyx.Lib

/-- Why an evaluation stops. -/
inductive Trap where
  | overflow
  | zeroDivisor
deriving DecidableEq, Repr

abbrev Eval (α : Type) := Except Trap α

namespace Eval

/-! ## Arithmetic -/

section
variable (lo hi : ℤ)

/-- The exact result of an operation. -/
def fit (z : ℤ) : Eval ℤ := if lo ≤ z ∧ z ≤ hi then .ok z else .error .overflow

def add (a b : ℤ) : Eval ℤ := fit lo hi (a + b)

def sub (a b : ℤ) : Eval ℤ := fit lo hi (a - b)

def mul (a b : ℤ) : Eval ℤ := fit lo hi (a * b)

/-- The quotient, truncated towards zero. -/
def div (a b : ℤ) : Eval ℤ := if b = 0 then .error .zeroDivisor else fit lo hi (a.tdiv b)

variable {lo hi}

theorem fit_ok {z : ℤ} (h : lo ≤ z ∧ z ≤ hi) : fit lo hi z = .ok z := if_pos h

theorem div_ok {a b : ℤ} (hb : b ≠ 0) (h : lo ≤ a.tdiv b ∧ a.tdiv b ≤ hi) :
    div lo hi a b = .ok (a.tdiv b) := by
  rw [div, if_neg hb, fit_ok h]

end

/-! ## Conditions -/

def ofBool (b : Bool) : Eval Bool := .ok b

/-- `a < b`. -/
def lt (a b : Eval ℤ) : Eval Bool := do
  let x ← a
  let y ← b
  return decide (x < y)

/-- `a > b`. -/
def gt (a b : Eval ℤ) : Eval Bool := lt b a

/-- `a && b`. -/
def and (a b : Eval Bool) : Eval Bool := do if ← a then b else return false

/-- `a || b`. -/
def or (a b : Eval Bool) : Eval Bool := do if ← a then return true else b

/-- The condition is evaluated to the truth of `P`. -/
def Decides (a : Eval Bool) (P : Prop) : Prop := ∃ x, a = .ok x ∧ (x = true ↔ P)

section
variable {P Q : Prop} {a b : Eval Bool}

theorem Decides.congr (h : Decides a P) (hiff : P ↔ Q) : Decides a Q := by
  obtain ⟨x, hx, hP⟩ := h
  exact ⟨x, hx, hP.trans hiff⟩

theorem decide_decides (P : Prop) [Decidable P] : Decides (ofBool (decide P)) P :=
  ⟨_, rfl, decide_eq_true_iff⟩

theorem lt_decides {a b : Eval ℤ} {x y : ℤ} (ha : a = .ok x) (hb : b = .ok y) :
    Decides (lt a b) (x < y) := by
  subst ha hb
  exact ⟨_, rfl, decide_eq_true_iff⟩

theorem gt_decides {a b : Eval ℤ} {x y : ℤ} (ha : a = .ok x) (hb : b = .ok y) :
    Decides (gt a b) (x > y) := lt_decides hb ha

theorem and_decides (ha : Decides a P) (hb : P → Decides b Q) : Decides (and a b) (P ∧ Q) := by
  obtain ⟨x, rfl, hP⟩ := ha
  cases x with
  | true =>
      have htrue : P := hP.mp rfl
      obtain ⟨y, rfl, hQ⟩ := hb htrue
      exact ⟨y, rfl, hQ.trans (and_iff_right htrue).symm⟩
  | false =>
      have hnot : ¬ P := fun h => Bool.false_ne_true (hP.mpr h)
      exact ⟨false, rfl, iff_of_false Bool.false_ne_true fun h => hnot h.1⟩

theorem or_decides (ha : Decides a P) (hb : ¬ P → Decides b Q) : Decides (or a b) (P ∨ Q) := by
  obtain ⟨x, rfl, hP⟩ := ha
  cases x with
  | true => exact ⟨true, rfl, iff_of_true rfl (.inl (hP.mp rfl))⟩
  | false =>
      have hnot : ¬ P := fun h => Bool.false_ne_true (hP.mpr h)
      obtain ⟨y, rfl, hQ⟩ := hb hnot
      exact ⟨y, rfl, hQ.trans (or_iff_right hnot).symm⟩

end

end Eval

/-! ## Quotients of a limit -/

theorem tdiv_mem_of_nonneg {m : ℤ} (hm : 0 ≤ m) (b : ℤ) : -m ≤ m.tdiv b ∧ m.tdiv b ≤ m := by
  have := Int.natAbs_tdiv_le_natAbs m b
  omega

theorem tdiv_mem_of_nonpos {m b : ℤ} (hm : m ≤ 0) (hb : 0 < b) :
    m ≤ m.tdiv b ∧ m.tdiv b ≤ 0 := by
  have hneg : m.tdiv b = -((-m).tdiv b) := by rw [Int.neg_tdiv, Int.neg_neg]
  have hmem := tdiv_mem_of_nonneg (Int.neg_nonneg_of_nonpos hm) b
  have hnonneg := Int.tdiv_nonneg (Int.neg_nonneg_of_nonpos hm) (Int.le_of_lt hb)
  omega

end Gradyx.Lib
