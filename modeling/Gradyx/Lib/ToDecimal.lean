import Gradyx.Lib.FromChars

/-! # Printing a decimal integer

`std::to_string` for a signed integer: the digits of the magnitude without leading
zeros, after a minus sign for a negative number. `fromChars_toDecimal` is the round
trip: `std::from_chars` reads the printed number to its end.
-/

namespace Gradyx.Lib

/-- `std::to_string`. -/
def toDecimal (z : ℤ) : List Char :=
  if z < 0 then '-' :: Nat.toDigits 10 z.natAbs else Nat.toDigits 10 z.natAbs

theorem isDigits_toDigits (n : ℕ) : IsDigits (Nat.toDigits 10 n) := by
  refine ⟨Nat.toDigits_ne_nil, ?_⟩
  intro c hc
  exact Nat.isDigit_of_mem_toDigits (by decide) le_rfl hc

theorem decimal_toDigits (n : ℕ) : decimal (Nat.toDigits 10 n) = n :=
  Nat.ofDigitChars_ten_toDigits

theorem toDecimal_of_nonneg {z : ℤ} (h : 0 ≤ z) :
    IsDigits (toDecimal z) ∧ (decimal (toDecimal z) : ℤ) = z := by
  rw [toDecimal, if_neg (Int.not_lt.mpr h), decimal_toDigits]
  exact ⟨isDigits_toDigits _, Int.natAbs_of_nonneg h⟩

/-- The type that has the number reads it back. -/
theorem fromChars_toDecimal {lo hi z : ℤ} (hlo : lo ≤ z) (hhi : z ≤ hi) :
    fromChars lo hi (toDecimal z) = ⟨.ok z, []⟩ := by
  by_cases hneg : z < 0
  · have habs : -(z.natAbs : ℤ) = z := by
      rw [Int.ofNat_natAbs_of_nonpos (Int.le_of_lt hneg), Int.neg_neg]
    rw [toDecimal, if_pos hneg, fromChars_minus (isDigits_toDigits _), decimal_toDigits, habs,
      fit_ok hlo hhi]
  · obtain ⟨hdigits, hvalue⟩ := toDecimal_of_nonneg (Int.not_lt.mp hneg)
    rw [fromChars_digits hdigits, hvalue, fit_ok hlo hhi]

end Gradyx.Lib
