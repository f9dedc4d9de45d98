import Gradyx.Core.IntType
import Gradyx.Core.Status
import Mathlib.Data.Int.Basic

/-!
# Checked integer arithmetic

`include/gradyx/core/checked_math.h`. The comparisons are the source's: a
difference or a truncated quotient of the limits against an operand. Each
function is exact: it fails when the mathematical result leaves the range, and
only then.
-/

namespace Gradyx

def addOverflow : Status := .overflow "integer addition overflow"

def multiplyOverflow : Status := .overflow "integer multiplication overflow"

/-- `checked_add<T>`. -/
def checkedAdd (t : IntType) (lhs rhs : t.Val) : Except Status t.Val :=
  let maximum := t.max
  let minimum := t.min
  if t.signed = false then
    if lhs.val > maximum - rhs.val then .error addOverflow
    else .ok (t.cast (lhs.val + rhs.val))
  else
    if (rhs.val > 0 ∧ lhs.val > maximum - rhs.val) ∨
        (rhs.val < 0 ∧ lhs.val < minimum - rhs.val) then .error addOverflow
    else .ok (t.cast (lhs.val + rhs.val))

/-- The four sign cases of a signed product that leaves the range. -/
def signedProductLeaves (minimum maximum lhs rhs : ℤ) : Prop :=
  (lhs > 0 ∧ rhs > 0 ∧ lhs > maximum.tdiv rhs) ∨
  (lhs > 0 ∧ rhs < 0 ∧ rhs < minimum.tdiv lhs) ∨
  (lhs < 0 ∧ rhs > 0 ∧ lhs < minimum.tdiv rhs) ∨
  (lhs < 0 ∧ rhs < 0 ∧ lhs < maximum.tdiv rhs)

instance (minimum maximum lhs rhs : ℤ) :
    Decidable (signedProductLeaves minimum maximum lhs rhs) :=
  inferInstanceAs (Decidable (_ ∨ _))

/-- `checked_multiply<T>`. -/
def checkedMultiply (t : IntType) (lhs rhs : t.Val) : Except Status t.Val :=
  let maximum := t.max
  let minimum := t.min
  if lhs.val = 0 ∨ rhs.val = 0 then .ok (t.cast 0)
  else if t.signed = false then
    if lhs.val > maximum.tdiv rhs.val then .error multiplyOverflow
    else .ok (t.cast (lhs.val * rhs.val))
  else if (lhs.val = -1 ∧ rhs.val = minimum) ∨ (rhs.val = -1 ∧ lhs.val = minimum) then
    .error multiplyOverflow
  else if signedProductLeaves minimum maximum lhs.val rhs.val then .error multiplyOverflow
  else .ok (t.cast (lhs.val * rhs.val))

/-! ## Truncated quotients -/

/-- A quotient of a non-negative limit by a positive operand. -/
theorem tdiv_lt_iff_of_pos {m a b : ℤ} (hm : 0 ≤ m) (hb : 0 < b) : m.tdiv b < a ↔ m < a * b := by
  rw [Int.tdiv_eq_ediv_of_nonneg hm]
  exact Int.ediv_lt_iff_lt_mul hb

/-- A quotient of a non-positive limit by a positive operand. -/
theorem lt_tdiv_iff_of_pos {m a b : ℤ} (hm : m ≤ 0) (hb : 0 < b) : a < m.tdiv b ↔ a * b < m := by
  have hneg : m.tdiv b = -((-m).tdiv b) := by rw [Int.neg_tdiv, neg_neg]
  have h := tdiv_lt_iff_of_pos (a := -a) (neg_nonneg.mpr hm) hb
  rw [neg_mul] at h
  constructor
  · intro ha
    have := h.mp (by omega)
    omega
  · intro ha
    have := h.mpr (by omega)
    omega

/-- A quotient of a non-negative limit by a negative operand. -/
theorem lt_tdiv_iff_of_neg {m a b : ℤ} (hm : 0 ≤ m) (hb : b < 0) : a < m.tdiv b ↔ m < a * b := by
  have hneg : m.tdiv b = -(m.tdiv (-b)) := by rw [Int.tdiv_neg, neg_neg]
  have h := tdiv_lt_iff_of_pos (a := -a) hm (neg_pos.mpr hb)
  rw [neg_mul_neg] at h
  constructor
  · intro ha
    exact h.mp (by omega)
  · intro ha
    have := h.mpr ha
    omega

/-! ## Exactness -/

variable {t : IntType}

theorem checkedAdd_eq (lhs rhs : t.Val) :
    checkedAdd t lhs rhs = if t.InRange (lhs.val + rhs.val) then .ok (t.cast (lhs.val + rhs.val))
      else .error addOverflow := by
  obtain ⟨a, ha₁, ha₂⟩ := lhs
  obtain ⟨b, hb₁, hb₂⟩ := rhs
  unfold checkedAdd
  dsimp only
  by_cases hs : t.signed = false
  · have hmin : t.min = 0 := by simp [IntType.min, hs]
    rw [if_pos hs]
    by_cases hr : t.InRange (a + b)
    · have := hr.2
      rw [if_pos hr, if_neg (by omega)]
    · rw [if_neg hr, if_pos]
      by_contra hle
      exact hr ⟨by omega, by omega⟩
  · rw [if_neg hs]
    by_cases hr : t.InRange (a + b)
    · have h₁ := hr.1
      have h₂ := hr.2
      rw [if_pos hr, if_neg (by omega)]
    · rw [if_neg hr, if_pos]
      by_contra hle
      exact hr ⟨by omega, by omega⟩

/-- The four sign cases are exactly the products out of range. -/
theorem signedProductLeaves_iff {a b : ℤ} (ha : a ≠ 0) (hb : b ≠ 0) :
    signedProductLeaves t.min t.max a b ↔ ¬ t.InRange (a * b) := by
  have hmin := t.min_nonpos
  have hmax := zero_le_one.trans t.one_le_max
  unfold signedProductLeaves IntType.InRange
  rcases lt_or_gt_of_ne ha with ha | ha <;> rcases lt_or_gt_of_ne hb with hb | hb
  · have hpos := mul_pos_of_neg_of_neg ha hb
    have := lt_tdiv_iff_of_neg (a := a) hmax hb
    omega
  · have hneg := mul_neg_of_neg_of_pos ha hb
    have := lt_tdiv_iff_of_pos (a := a) hmin hb
    omega
  · have hneg := mul_neg_of_pos_of_neg ha hb
    have := lt_tdiv_iff_of_pos (a := b) hmin ha
    rw [mul_comm b a] at this
    omega
  · have hpos := mul_pos ha hb
    have := tdiv_lt_iff_of_pos (a := a) hmax hb
    omega

theorem checkedMultiply_eq (lhs rhs : t.Val) :
    checkedMultiply t lhs rhs = if t.InRange (lhs.val * rhs.val) then
      .ok (t.cast (lhs.val * rhs.val)) else .error multiplyOverflow := by
  obtain ⟨a, ha₁, ha₂⟩ := lhs
  obtain ⟨b, hb₁, hb₂⟩ := rhs
  unfold checkedMultiply
  dsimp only
  by_cases hz : a = 0 ∨ b = 0
  · have hprod : a * b = 0 := mul_eq_zero.mpr hz
    rw [if_pos hz, hprod, if_pos IntType.inRange_zero]
  · rw [if_neg hz]
    push Not at hz
    by_cases hs : t.signed = false
    · -- unsigned: both operands are positive
      have hmin : t.min = 0 := by simp [IntType.min, hs]
      have ha : 0 < a := by omega
      have hb : 0 < b := by omega
      have hpos := mul_pos ha hb
      have hq := tdiv_lt_iff_of_pos (a := a) (zero_le_one.trans t.one_le_max) hb
      rw [if_pos hs]
      by_cases hr : t.InRange (a * b)
      · rw [if_pos hr, if_neg (fun h => (hq.mp h).not_ge hr.2)]
      · rw [if_neg hr, if_pos]
        by_contra hle
        exact hr ⟨by omega, not_lt.mp fun h => hle (hq.mpr h)⟩
    · rw [if_neg hs]
      by_cases hspecial : (a = -1 ∧ b = t.min) ∨ (b = -1 ∧ a = t.min)
      · -- `min * -1` is `max + 1`
        have hrange : t.max = -t.min - 1 := by simp [IntType.max, IntType.min, hs]
        rw [if_pos hspecial, if_neg]
        rintro ⟨-, hle⟩
        rcases hspecial with ⟨rfl, rfl⟩ | ⟨rfl, rfl⟩ <;> omega
      · rw [if_neg hspecial]
        have hiff := signedProductLeaves_iff (t := t) hz.1 hz.2
        by_cases hr : t.InRange (a * b)
        · rw [if_pos hr, if_neg (fun h => hiff.mp h hr)]
        · rw [if_neg hr, if_pos (hiff.mpr hr)]

end Gradyx
