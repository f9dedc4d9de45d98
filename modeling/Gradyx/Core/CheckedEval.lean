import Gradyx.Core.CheckedMath
import Gradyx.Lib.Trap

/-!
# Checked integer arithmetic, operation by operation

`include/gradyx/core/checked_math.h` again, with every addition, subtraction,
multiplication and division evaluated in the type that C++ evaluates it in, and with
the right operands of `&&` and `||` evaluated only where C++ evaluates them.

* `promote` is the integral promotion, for an `int` of any width.
* `checkedAddEval`, `checkedMultiplyEval`: the functions, of which an operation may trap.
* `checkedAddEval_eq`, `checkedMultiplyEval_eq`: none does.
-/

namespace Gradyx

open Lib

/-- The type in which values of the type are computed with: `int`, if that is wider. -/
def IntType.promote (intWidth : ℕ) (t : IntType) : IntType :=
  if h : t.width < intWidth then ⟨true, intWidth, Nat.le_trans t.width_ge (Nat.le_of_lt h)⟩ else t

namespace CheckedEval

/-! ## The functions -/

section
variable {t : IntType}

/-- `if (condition) { return result; }` and what follows. -/
def returnIf (condition : Eval Bool) (result : Except Status t.Val)
    (rest : Eval (Except Status t.Val)) : Eval (Except Status t.Val) := do
  if ← condition then return result else rest

/-- `return static_cast<T>(value);` -/
def castReturn (value : Eval ℤ) : Eval (Except Status t.Val) := do return .ok (t.cast (← value))

end

section
variable (intWidth : ℕ) (t : IntType)

def add : ℤ → ℤ → Eval ℤ := Eval.add (t.promote intWidth).min (t.promote intWidth).max

def sub : ℤ → ℤ → Eval ℤ := Eval.sub (t.promote intWidth).min (t.promote intWidth).max

def mul : ℤ → ℤ → Eval ℤ := Eval.mul (t.promote intWidth).min (t.promote intWidth).max

def div : ℤ → ℤ → Eval ℤ := Eval.div (t.promote intWidth).min (t.promote intWidth).max

-- two `std::uint16_t` values are multiplied in `int`, and their product can leave it
example : mul 32 ⟨false, 16, by decide⟩ 65535 65535 = .error .overflow := by decide

/-- `lhs > maximum - rhs`. -/
def sumAbove (maximum lhs rhs : ℤ) : Eval Bool :=
  Eval.gt (.ok lhs) (sub intWidth t maximum rhs)

/-- `lhs < minimum - rhs`. -/
def sumBelow (minimum lhs rhs : ℤ) : Eval Bool :=
  Eval.lt (.ok lhs) (sub intWidth t minimum rhs)

/-- `checked_add<T>`. -/
def checkedAddEval (lhs rhs : t.Val) : Eval (Except Status t.Val) :=
  let maximum := t.max
  let minimum := t.min
  if t.signed = false then
    returnIf (sumAbove intWidth t maximum lhs.val rhs.val) (.error addOverflow)
      (castReturn (add intWidth t lhs.val rhs.val))
  else
    returnIf
      (Eval.or
        (Eval.and (Eval.ofBool (rhs.val > 0)) (sumAbove intWidth t maximum lhs.val rhs.val))
        (Eval.and (Eval.ofBool (rhs.val < 0)) (sumBelow intWidth t minimum lhs.val rhs.val)))
      (.error addOverflow)
      (castReturn (add intWidth t lhs.val rhs.val))

/-- The four sign cases of a signed product. -/
def signCases (minimum maximum lhs rhs : ℤ) : Eval Bool :=
  Eval.or
    (Eval.or
      (Eval.or
        (Eval.and (Eval.and (Eval.ofBool (lhs > 0)) (Eval.ofBool (rhs > 0)))
          (Eval.gt (.ok lhs) (div intWidth t maximum rhs)))
        (Eval.and (Eval.and (Eval.ofBool (lhs > 0)) (Eval.ofBool (rhs < 0)))
          (Eval.lt (.ok rhs) (div intWidth t minimum lhs))))
      (Eval.and (Eval.and (Eval.ofBool (lhs < 0)) (Eval.ofBool (rhs > 0)))
        (Eval.lt (.ok lhs) (div intWidth t minimum rhs))))
    (Eval.and (Eval.and (Eval.ofBool (lhs < 0)) (Eval.ofBool (rhs < 0)))
      (Eval.lt (.ok lhs) (div intWidth t maximum rhs)))

/-- `checked_multiply<T>`. -/
def checkedMultiplyEval (lhs rhs : t.Val) : Eval (Except Status t.Val) :=
  let maximum := t.max
  let minimum := t.min
  returnIf (Eval.or (Eval.ofBool (lhs.val = 0)) (Eval.ofBool (rhs.val = 0))) (.ok (t.cast 0)) <|
    if t.signed = false then
      returnIf (Eval.gt (.ok lhs.val) (div intWidth t maximum rhs.val)) (.error multiplyOverflow)
        (castReturn (mul intWidth t lhs.val rhs.val))
    else
      returnIf
        (Eval.or
          (Eval.and (Eval.ofBool (lhs.val = -1)) (Eval.ofBool (rhs.val = minimum)))
          (Eval.and (Eval.ofBool (rhs.val = -1)) (Eval.ofBool (lhs.val = minimum))))
        (.error multiplyOverflow) <|
      returnIf (signCases intWidth t minimum maximum lhs.val rhs.val) (.error multiplyOverflow)
        (castReturn (mul intWidth t lhs.val rhs.val))

end

/-! ## Operations that do not trap -/

/-- `int` has every value of a narrower type. -/
theorem inRange_promote {t : IntType} {z : ℤ} (intWidth : ℕ) (h : t.InRange z) :
    (t.promote intWidth).InRange z := by
  unfold IntType.promote
  split
  · next hwidth =>
      have hdigits : t.digits ≤ intWidth - 1 := by
        unfold IntType.digits
        split <;> omega
      have hpow : (2 : ℤ) ^ t.digits ≤ 2 ^ (intWidth - 1) := pow_le_pow_right₀ (by decide) hdigits
      have hmin : -2 ^ t.digits ≤ t.min := by
        unfold IntType.min
        split
        · exact le_rfl
        · exact neg_nonpos.mpr (by positivity)
      have hlow := h.1
      have hhigh := h.2
      simp only [IntType.max] at hhigh
      constructor
      · simp only [IntType.min, IntType.digits, if_true]
        linarith
      · simp only [IntType.max, IntType.digits, if_true]
        linarith
  · exact h

section
variable {intWidth : ℕ} {t : IntType} {a b : ℤ}

theorem add_ok (h : t.InRange (a + b)) : add intWidth t a b = .ok (a + b) :=
  Eval.fit_ok (inRange_promote intWidth h)

theorem sub_ok (h : t.InRange (a - b)) : sub intWidth t a b = .ok (a - b) :=
  Eval.fit_ok (inRange_promote intWidth h)

theorem mul_ok (h : t.InRange (a * b)) : mul intWidth t a b = .ok (a * b) :=
  Eval.fit_ok (inRange_promote intWidth h)

theorem div_ok (hb : b ≠ 0) (h : t.InRange (a.tdiv b)) : div intWidth t a b = .ok (a.tdiv b) :=
  Eval.div_ok hb (inRange_promote intWidth h)

/-- The smallest value is on the other side of zero, and one further away. -/
theorem min_of_signed (hs : t.signed = true) : t.min = -t.max - 1 := by
  simp [IntType.max, IntType.min, hs]

/-- A quotient of the largest value. -/
theorem maxQuotient_ok (intWidth : ℕ) (hb : b ≠ 0) (hsign : t.signed = false → 0 < b) :
    div intWidth t t.max b = .ok (t.max.tdiv b) := by
  have hmax : 0 ≤ t.max := zero_le_one.trans t.one_le_max
  refine div_ok hb ?_
  obtain ⟨hlow, hhigh⟩ := tdiv_mem_of_nonneg hmax b
  refine ⟨?_, hhigh⟩
  cases hs : t.signed with
  | true =>
      have := min_of_signed hs
      omega
  | false =>
      have hnonneg := Int.tdiv_nonneg hmax (Int.le_of_lt (hsign hs))
      have := t.min_nonpos
      omega

/-- A quotient of the smallest value, which is only divided by a positive one. -/
theorem minQuotient_ok (intWidth : ℕ) (t : IntType) {b : ℤ} (hb : 0 < b) :
    div intWidth t t.min b = .ok (t.min.tdiv b) := by
  have hmax := t.one_le_max
  obtain ⟨hlow, hhigh⟩ := tdiv_mem_of_nonpos t.min_nonpos hb
  exact div_ok (by omega) ⟨hlow, by omega⟩

/-! ## Conditions and returns -/

theorem sumAbove_decides (intWidth : ℕ) (a : ℤ) (hb : 0 ≤ b) (hle : b ≤ t.max) :
    Eval.Decides (sumAbove intWidth t t.max a b) (a > t.max - b) := by
  have := t.min_nonpos
  exact Eval.gt_decides rfl (sub_ok ⟨by omega, by omega⟩)

theorem sumBelow_decides (intWidth : ℕ) (a : ℤ) (hb : b ≤ 0) (hle : t.min ≤ b) :
    Eval.Decides (sumBelow intWidth t t.min a b) (a < t.min - b) := by
  have := t.one_le_max
  exact Eval.lt_decides rfl (sub_ok ⟨by omega, by omega⟩)

/-- Each quotient is taken behind the tests of its two operands. -/
theorem signCases_decides (hs : t.signed = true) :
    Eval.Decides (signCases intWidth t t.min t.max a b) (signedProductLeaves t.min t.max a b) := by
  have hsign (c : ℤ) : t.signed = false → 0 < c := fun h => absurd (hs.symm.trans h) (by decide)
  have tests (P Q : Prop) [Decidable P] [Decidable Q] :
      Eval.Decides (Eval.and (Eval.ofBool (decide P)) (Eval.ofBool (decide Q))) (P ∧ Q) :=
    Eval.and_decides (Eval.decide_decides P) fun _ => Eval.decide_decides Q
  have hpp := Eval.and_decides (tests (a > 0) (b > 0)) fun h =>
    Eval.gt_decides (x := a) rfl (maxQuotient_ok intWidth (by omega) (hsign b))
  have hpn := Eval.and_decides (tests (a > 0) (b < 0)) fun h =>
    Eval.lt_decides (x := b) rfl (minQuotient_ok intWidth t h.1)
  have hnp := Eval.and_decides (tests (a < 0) (b > 0)) fun h =>
    Eval.lt_decides (x := a) rfl (minQuotient_ok intWidth t h.2)
  have hnn := Eval.and_decides (tests (a < 0) (b < 0)) fun h =>
    Eval.lt_decides (x := a) rfl (maxQuotient_ok intWidth (by omega) (hsign b))
  refine (Eval.or_decides (Eval.or_decides (Eval.or_decides hpp fun _ => hpn) fun _ => hnp)
    fun _ => hnn).congr ?_
  simp only [signedProductLeaves, or_assoc, and_assoc]

theorem returnIf_ok {P : Prop} [Decidable P] {condition : Eval Bool}
    {result other : Except Status t.Val} {rest : Eval (Except Status t.Val)}
    (hcondition : Eval.Decides condition P) (hrest : ¬ P → rest = .ok other) :
    returnIf condition result rest = .ok (if P then result else other) := by
  obtain ⟨x, rfl, hP⟩ := hcondition
  by_cases h : P
  · rw [if_pos h, hP.mpr h]
    rfl
  · rw [if_neg h, ← hrest h, Bool.eq_false_iff.mpr fun hx => h (hP.mp hx)]
    rfl

theorem castReturn_ok {value : Eval ℤ} {z : ℤ} (h : value = .ok z) :
    castReturn value = .ok (.ok (t.cast z)) := by
  rw [h]
  rfl

end

/-! ## No operation traps -/

variable (intWidth : ℕ) {t : IntType}

theorem checkedAddEval_eq (lhs rhs : t.Val) :
    checkedAddEval intWidth t lhs rhs = .ok (checkedAdd t lhs rhs) := by
  obtain ⟨a, ha₁, ha₂⟩ := lhs
  obtain ⟨b, hb₁, hb₂⟩ := rhs
  unfold checkedAddEval checkedAdd
  dsimp only
  by_cases hs : t.signed = false
  · have hmin : t.min = 0 := by simp [IntType.min, hs]
    rw [if_pos hs, if_pos hs]
    refine returnIf_ok (sumAbove_decides intWidth a (hmin ▸ hb₁) hb₂) fun hfits => ?_
    exact castReturn_ok (add_ok ⟨by omega, by omega⟩)
  · rw [if_neg hs, if_neg hs]
    -- the sign of `rhs` says on which side the limit is
    have hcondition := Eval.or_decides
      (Eval.and_decides (Eval.decide_decides (b > 0)) fun hb =>
        sumAbove_decides intWidth a (Int.le_of_lt hb) hb₂)
      fun _ => Eval.and_decides (Eval.decide_decides (b < 0)) fun hb =>
        sumBelow_decides intWidth a (Int.le_of_lt hb) hb₁
    refine returnIf_ok hcondition fun hfits => ?_
    exact castReturn_ok (add_ok ⟨by omega, by omega⟩)

/-- A product that is returned is in range. -/
theorem inRange_of_checkedMultiply {lhs rhs v : t.Val} (h : checkedMultiply t lhs rhs = .ok v) :
    t.InRange (lhs.val * rhs.val) := by
  rw [checkedMultiply_eq] at h
  split at h
  · assumption
  · cases h

theorem checkedMultiplyEval_eq (lhs rhs : t.Val) :
    checkedMultiplyEval intWidth t lhs rhs = .ok (checkedMultiply t lhs rhs) := by
  have hrange := @inRange_of_checkedMultiply t lhs rhs
  obtain ⟨a, ha₁, ha₂⟩ := lhs
  obtain ⟨b, hb₁, hb₂⟩ := rhs
  unfold checkedMultiplyEval
  unfold checkedMultiply at hrange ⊢
  dsimp only at hrange ⊢
  refine returnIf_ok (Eval.or_decides (Eval.decide_decides _) fun _ => Eval.decide_decides _)
    fun hzero => ?_
  rw [if_neg hzero] at hrange
  have hb : b ≠ 0 := fun h => hzero (.inr h)
  by_cases hs : t.signed = false
  · have hmin : t.min = 0 := by simp [IntType.min, hs]
    rw [if_pos hs] at hrange
    rw [if_pos hs, if_pos hs]
    have hpos : t.signed = false → 0 < b := fun _ => by omega
    refine returnIf_ok (Eval.gt_decides rfl (maxQuotient_ok intWidth hb hpos)) fun hfits => ?_
    rw [if_neg hfits] at hrange
    exact castReturn_ok (mul_ok (hrange rfl))
  · rw [if_neg hs] at hrange
    rw [if_neg hs, if_neg hs]
    have hspecial := Eval.or_decides
      (Eval.and_decides (Eval.decide_decides (a = -1)) fun _ => Eval.decide_decides (b = t.min))
      fun _ => Eval.and_decides (Eval.decide_decides (b = -1)) fun _ =>
        Eval.decide_decides (a = t.min)
    refine returnIf_ok hspecial fun hother => ?_
    rw [if_neg hother] at hrange
    refine returnIf_ok (signCases_decides (by simpa using hs)) fun hfits => ?_
    rw [if_neg hfits] at hrange
    exact castReturn_ok (mul_ok (hrange rfl))

/-! ## Exactness -/

/-- The evaluation does not trap; it succeeds when the number is a value of the type, and
only then, with that number, and fails with the code `kOverflow`. -/
def Exact (r : Eval (Except Status t.Val)) (z : ℤ) : Prop :=
  ∃ result, r = .ok result ∧ ((∃ v, result = .ok v) ↔ t.InRange z) ∧
    (∀ v, result = .ok v → v.val = z) ∧ ∀ e, result = .error e → e.code = .kOverflow

/-- A result that the range decides. -/
theorem exact_of_eq {r : Eval (Except Status t.Val)} {result : Except Status t.Val} {z : ℤ}
    {e : Status} (hr : r = .ok result) (he : e.code = .kOverflow)
    (hresult : result = if t.InRange z then .ok (t.cast z) else .error e) : Exact r z := by
  refine ⟨result, hr, ?_⟩
  rw [hresult]
  by_cases hz : t.InRange z
  · rw [if_pos hz]
    refine ⟨iff_of_true ⟨_, rfl⟩ hz, fun v hv => ?_, fun e he => ?_⟩
    · rw [← Except.ok.inj hv, IntType.cast_val hz]
    · cases he
  · rw [if_neg hz]
    refine ⟨iff_of_false ?_ hz, fun v hv => ?_, fun e' he' => ?_⟩
    · rintro ⟨v, hv⟩
      cases hv
    · cases hv
    · rwa [← Except.error.inj he']

/-- Both functions are exact, for every type, every pair of values and every width of
`int`. -/
theorem checked_exact (lhs rhs : t.Val) :
    Exact (checkedAddEval intWidth t lhs rhs) (lhs.val + rhs.val) ∧
      Exact (checkedMultiplyEval intWidth t lhs rhs) (lhs.val * rhs.val) :=
  ⟨exact_of_eq (checkedAddEval_eq intWidth lhs rhs) rfl (checkedAdd_eq lhs rhs),
    exact_of_eq (checkedMultiplyEval_eq intWidth lhs rhs) rfl (checkedMultiply_eq lhs rhs)⟩

end CheckedEval

end Gradyx
