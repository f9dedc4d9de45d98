import Mathlib.Algebra.Order.Ring.Int
import Mathlib.Data.Int.Notation
import Mathlib.Tactic.Linarith

/-!
# Fixed-width integer types

A C++ integer type is its signedness and its width; its values are the
integers of its range. `cast` is `static_cast`, which reduces modulo `2^width`.
-/

namespace Gradyx

structure IntType where
  signed : Bool
  width : ℕ
  width_ge : 8 ≤ width
deriving DecidableEq, Repr

namespace IntType

/-- `std::int64_t`. -/
def int64 : IntType := ⟨true, 64, by decide⟩

/-- `std::uint64_t`. -/
def uint64 : IntType := ⟨false, 64, by decide⟩

variable (t : IntType)

/-- `std::numeric_limits<T>::digits`. -/
def digits : ℕ := if t.signed then t.width - 1 else t.width

/-- `std::numeric_limits<T>::min()`. -/
def min : ℤ := if t.signed then -2 ^ t.digits else 0

/-- `std::numeric_limits<T>::max()`. -/
def max : ℤ := 2 ^ t.digits - 1

/-- `std::in_range<T>`. -/
def InRange (z : ℤ) : Prop := t.min ≤ z ∧ z ≤ t.max

instance (z : ℤ) : Decidable (t.InRange z) := inferInstanceAs (Decidable (_ ∧ _))

theorem min_nonpos : t.min ≤ 0 := by
  unfold min
  split
  · exact neg_nonpos.mpr (by positivity)
  · exact le_rfl

theorem one_le_max : 1 ≤ t.max := by
  have hdigits : 1 ≤ t.digits := by
    have := t.width_ge
    unfold digits
    split <;> omega
  have : (2 : ℤ) ^ 1 ≤ 2 ^ t.digits := pow_le_pow_right₀ (by decide) hdigits
  unfold max
  linarith

/-- The range has `2^width` values. -/
theorem max_sub_min : t.max - t.min + 1 = 2 ^ t.width := by
  have := t.width_ge
  obtain ⟨signed, width, hw⟩ := t
  cases signed
  · simp [max, min, digits]
  · obtain ⟨n, rfl⟩ : ∃ n, width = n + 1 := ⟨width - 1, by omega⟩
    simp [max, min, digits, pow_succ]
    omega

/-- The values of the type. -/
def Val : Type := { z : ℤ // t.InRange z }

instance : DecidableEq t.Val := inferInstanceAs (DecidableEq { z : ℤ // t.InRange z })

variable {t}

theorem min_add_emod_inRange (z : ℤ) : t.InRange (t.min + (z - t.min) % 2 ^ t.width) := by
  have hpos : (0 : ℤ) < 2 ^ t.width := by positivity
  have h₁ := Int.emod_nonneg (z - t.min) hpos.ne'
  have h₂ := Int.emod_lt_of_pos (z - t.min) hpos
  have h₃ := t.max_sub_min
  exact ⟨by omega, by omega⟩

variable (t) in
/-- `static_cast<T>`. -/
def cast (z : ℤ) : t.Val := ⟨t.min + (z - t.min) % 2 ^ t.width, min_add_emod_inRange z⟩

/-- A value in range is kept. -/
theorem cast_val {z : ℤ} (h : t.InRange z) : (t.cast z).val = z := by
  have h₃ := t.max_sub_min
  have hmod : (z - t.min) % 2 ^ t.width = z - t.min := by
    refine Int.emod_eq_of_lt ?_ ?_
    · have := h.1
      omega
    · have := h.2
      omega
  change t.min + (z - t.min) % 2 ^ t.width = z
  omega

theorem inRange_zero : t.InRange 0 := ⟨t.min_nonpos, zero_le_one.trans t.one_le_max⟩

theorem inRange_one : t.InRange 1 := ⟨t.min_nonpos.trans zero_le_one, t.one_le_max⟩

end IntType

end Gradyx
