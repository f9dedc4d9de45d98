import Gradyx.Core.Scalar

/-!
# Scalar — conversions are conversions of numbers

What a conversion is for, without the storage kinds: `Target.convert` maps a
complex number to a number of the target type or to an error code. Every
`Scalar` that denotes a number converts as that number does
(`toTarget_refines`), so two scalars that denote the same number convert alike
(`representation_independence`).
-/

namespace Gradyx

open Lib

/-! ## Conversions of numbers -/

/-- A real number as a floating value of the target type. -/
def Precision.narrow (p : Precision) (q : ℚ) : Except ErrorCode ℚ :=
  if |q| ≤ p.format.max then .ok (p.format.rnd q) else .error .kOutOfRange

namespace Target

/-- The conversion of a complex number. -/
def convert : Target → ℚ × ℚ → Except ErrorCode (ℚ × ℚ)
  | .bool, z =>
      if z.2 = 0 ∧ (z.1 = 0 ∨ z.1 = 1) then .ok (z.1, 0) else .error .kInvalidArgument
  | .integer t _, z =>
      if z.2 ≠ 0 then .error .kInvalidArgument
      else if (⌊z.1⌋ : ℚ) ≠ z.1 then .error .kInvalidArgument
      else if t.InRange ⌊z.1⌋ then .ok (z.1, 0) else .error .kOutOfRange
  | .floating p, z =>
      if z.2 ≠ 0 then .error .kInvalidArgument else (p.narrow z.1).map fun q => (q, 0)
  | .complex p, z => do
      let real ← p.narrow (binary64.rnd z.1)
      let imaginary ← p.narrow (binary64.rnd z.2)
      return (real, imaginary)

theorem convert_intCast {t : IntType} (ht : t.width ≤ 64) (n : ℤ) :
    (integer t ht).convert (n, 0) = if t.InRange n then .ok (n, 0) else .error .kOutOfRange := by
  simp [convert]

/-- The number that a value of the target type denotes. -/
def number : (T : Target) → T.Value → Option (ℚ × ℚ)
  | .bool => fun b : Bool => some (if b then 1 else 0, 0)
  | .integer t _ => fun v : t.Val => some (v.val, 0)
  | .floating p => fun x : Floating p.format => x.value.map fun q => (q, 0)
  | .complex p => fun x : Floating p.format × Floating p.format =>
      x.1.value.bind fun q => x.2.value.map fun r => (q, r)

/-- The result of the code is the result on numbers. -/
def Refines (T : Target) : Except Status T.Value → Except ErrorCode (ℚ × ℚ) → Prop
  | .ok v, .ok w => T.number v = some w
  | .error s, .error c => s.code = c
  | _, _ => False

theorem Refines.exists_ok {T : Target} {r : Except Status T.Value} {w : ℚ × ℚ}
    (h : T.Refines r (.ok w)) : ∃ v, r = .ok v ∧ T.number v = some w := by
  cases r with
  | ok v => exact ⟨v, rfl, h⟩
  | error e => cases h

theorem Refines.failsWith {T : Target} {r : Except Status T.Value} {c : ErrorCode}
    (h : T.Refines r (.error c)) : FailsWith r c := by
  cases r with
  | ok v => cases h
  | error e => exact ⟨e, rfl, h⟩

end Target

/-- The number a scalar denotes. -/
def Scalar.number : Scalar → Option (ℚ × ℚ)
  | .boolean b => some (if b then 1 else 0, 0)
  | .signedInteger i => some (i.val, 0)
  | .unsignedInteger u => some (u.val, 0)
  | .floating x => x.value.map fun q => (q, 0)
  | .complex re im => re.value.bind fun q => im.value.map fun r => (q, r)

/-! ## What is representable -/

theorem LongDouble.includes_binary64 (L : LongDouble) : L.format.Includes binary64 :=
  ⟨le_trans (by decide) L.prec_ge, L.emin_le, L.emax_ge⟩

theorem Precision.binary64_includes (p : Precision) : binary64.Includes p.format := by
  cases p <;> exact ⟨by decide, by decide, by decide⟩

theorem LongDouble.includes (L : LongDouble) (p : Precision) : L.format.Includes p.format :=
  L.includes_binary64.trans p.binary64_includes

/-- The integers of 64 bits, of either signedness. -/
theorem LongDouble.rep_intCast (L : LongDouble) {n : ℤ} (h : n.natAbs < 2 ^ 64) :
    L.format.Rep |(n : ℚ)| := by
  have hn : |(n : ℚ)| = (n.natAbs : ℚ) := by
    rw [Nat.cast_natAbs]
    push_cast
    rfl
  rw [hn]
  exact Format.rep_natCast (h.trans_le (Nat.pow_le_pow_right two_pos L.prec_ge))

theorem LongDouble.rep_two_pow (L : LongDouble) {n : ℕ} (h : n ≤ 64) : L.format.Rep (2 ^ n) := by
  have := L.emax_ge
  exact Format.rep_two_pow (by omega)

/-- Every 64-bit integer is in the range of `double`. -/
theorem intCast_le_max {n : ℤ} (h : n.natAbs ≤ 2 ^ 64) : |(n : ℚ)| ≤ binary64.max := by
  have hn : |(n : ℚ)| = (n.natAbs : ℚ) := by
    rw [Nat.cast_natAbs]
    push_cast
    rfl
  have hpow : binary64.Rep (2 ^ 64) := Format.rep_two_pow (by decide)
  rw [hn]
  calc (n.natAbs : ℚ) ≤ 2 ^ 64 := by exact_mod_cast h
    _ ≤ binary64.max := hpow.2

theorem natAbs_int64 (i : IntType.int64.Val) : i.val.natAbs < 2 ^ 64 := by
  have h₁ : -2 ^ 63 ≤ i.val := i.2.1
  have h₂ : i.val ≤ 2 ^ 63 - 1 := i.2.2
  omega

theorem natAbs_uint64 (u : IntType.uint64.Val) : u.val.natAbs < 2 ^ 64 := by
  have h₁ : 0 ≤ u.val := u.2.1
  have h₂ : u.val ≤ 2 ^ 64 - 1 := u.2.2
  omega

/-- `0.0` and `1.0`. -/
theorem value_ofRat_bool (F : Format) (b : Bool) :
    (if b then F.ofRat 1 else F.ofRat 0).value = some (if b then 1 else 0) := by
  cases b
  · exact Floating.value_ofRat_rep (by simpa using Format.rep_zero)
  · exact Floating.value_ofRat_rep (by simpa using Format.rep_one)

theorem eq_zero_iff {F : Format} {x : Floating F} {q : ℚ} (h : x.value = some q) :
    x.eq (F.ofRat 0) = true ↔ q = 0 :=
  Floating.eq_iff h (value_ofRat_bool F false)

theorem eq_one_iff {F : Format} {x : Floating F} {q : ℚ} (h : x.value = some q) :
    x.eq (F.ofRat 1) = true ↔ q = 1 :=
  Floating.eq_iff h (value_ofRat_bool F true)

/-! ## The checked conversions -/

section Detail

variable {L : LongDouble}

/-- The check rejects what exceeds the largest finite value, and nothing else;
what it accepts is rounded. -/
theorem checkedFloatingCast_refines (p : Precision) {x : Floating L.format} {q : ℚ}
    (hx : x.value = some q) :
    (|q| ≤ p.format.max ∧ ∃ y, checkedFloatingCast L p.format x = .ok y ∧
      y.value = some (p.format.rnd q)) ∨
    (¬ |q| ≤ p.format.max ∧ checkedFloatingCast L p.format x = .error outOfRangeConversion) := by
  have hmax : ((Floating.largest p.format).convert L.format).value = some p.format.max :=
    Floating.value_convert_wider (L.includes p) rfl
  have hcheck : (x.lt ((Floating.largest p.format).convert L.format).neg = true ∨
      ((Floating.largest p.format).convert L.format).lt x = true) ↔ ¬ |q| ≤ p.format.max := by
    rw [Floating.lt_iff hx (Floating.value_neg hmax), Floating.lt_iff hmax hx, abs_le,
      not_and_or, not_le, not_le]
  by_cases hq : |q| ≤ p.format.max
  · left
    refine ⟨hq, x.convert p.format, ?_, Floating.value_convert hx hq⟩
    exact if_neg fun h => hcheck.mp h.2 hq
  · right
    exact ⟨hq, if_pos ⟨Floating.isFinite_of_value hx, hcheck.mpr hq⟩⟩

/-- An integer is the floor of a number exactly when it is the number. -/
theorem floatingToInteger_refines {t : IntType} (ht : t.width ≤ 64) {x : Floating L.format}
    {q : ℚ} (hx : x.value = some q) :
    floatingToInteger L t x =
      if (⌊q⌋ : ℚ) ≠ q then
        .error (.invalidArgument "cannot convert a fractional floating-point value to an integer")
      else if t.InRange ⌊q⌋ then .ok (t.cast ⌊q⌋) else .error outOfRangeConversion := by
  have htrunc : x.trunc.eq x = true ↔ (x.toInt : ℚ) = q :=
    Floating.eq_iff (Floating.value_trunc hx) hx
  unfold floatingToInteger
  rw [if_neg (by rw [Floating.isFinite_of_value hx]; decide)]
  by_cases hint : (⌊q⌋ : ℚ) = q
  · -- the value is the integer `⌊q⌋`
    have htoInt : x.toInt = ⌊q⌋ := Floating.toInt_of_value (hint.symm ▸ hx)
    have hok : x.trunc.eq x = true := htrunc.mpr (by rw [htoInt, hint])
    have hdigits : t.digits ≤ 64 := by
      unfold IntType.digits
      split <;> omega
    have hub : (L.format.ofRat (2 ^ t.digits)).value = some (2 ^ t.digits) :=
      Floating.value_ofRat_rep (by rw [abs_of_pos (by positivity)]; exact L.rep_two_pow hdigits)
    have hneg := Floating.lt_iff hx (Floating.value_neg hub)
    have hzero := Floating.lt_iff hx (show (Floating.zero L.format).value = some 0 from rfl)
    have hle := Floating.le_iff hub hx
    have hmax : (2 : ℚ) ^ t.digits ≤ q ↔ t.max < ⌊q⌋ := by
      rw [IntType.max, Int.sub_one_lt_iff, Int.le_floor]
      push_cast
      rfl
    have hout : (⌊q⌋ < t.min ∨ t.max < ⌊q⌋) ↔ ¬ t.InRange ⌊q⌋ := by
      rw [IntType.InRange, not_and_or, not_le, not_le]
    rw [if_neg (by rw [hok]; decide), if_neg (not_not.mpr hint), htoInt]
    dsimp only
    by_cases hs : t.signed = true
    · have hmin : q < -2 ^ t.digits ↔ ⌊q⌋ < t.min := by
        rw [IntType.min, if_pos hs, Int.floor_lt]
        push_cast
        rfl
      have hcheck := or_congr (hneg.trans hmin) (hle.trans hmax)
      rw [if_pos hs]
      by_cases hr : t.InRange ⌊q⌋
      · rw [if_pos hr, if_neg fun h => hout.mp (hcheck.mp h) hr]
      · rw [if_neg hr, if_pos (hcheck.mpr (hout.mpr hr))]
    · have hmin : q < 0 ↔ ⌊q⌋ < t.min := by
        rw [IntType.min, if_neg hs, Int.floor_lt]
        push_cast
        rfl
      have hcheck := or_congr (hzero.trans hmin) (hle.trans hmax)
      rw [if_neg hs]
      by_cases hr : t.InRange ⌊q⌋
      · rw [if_pos hr, if_neg fun h => hout.mp (hcheck.mp h) hr]
      · rw [if_neg hr, if_pos (hcheck.mpr (hout.mpr hr))]
  · -- were the integer part the value, the value would be its floor
    have hfrac : x.trunc.eq x = false := by
      rw [Bool.eq_false_iff]
      intro hok
      have := htrunc.mp hok
      rw [← this, Int.floor_intCast] at hint
      exact hint rfl
    rw [if_pos hfrac, if_pos hint]

end Detail

namespace Scalar

variable {L : LongDouble} {s : Scalar} {re im : ℚ}

/-! ## Each conversion refines the conversion of the number -/

theorem number_floating {x : Floating binary64} (h : (floating x).number = some (re, im)) :
    x.value = some re ∧ im = 0 := by
  obtain ⟨q, hq, heq⟩ := Option.map_eq_some_iff.mp h
  cases heq
  exact ⟨hq, rfl⟩

theorem number_complex {x y : Floating binary64} (h : (complex x y).number = some (re, im)) :
    x.value = some re ∧ y.value = some im := by
  obtain ⟨q, hq, h⟩ := Option.bind_eq_some_iff.mp h
  obtain ⟨r, hr, heq⟩ := Option.map_eq_some_iff.mp h
  cases heq
  exact ⟨hq, hr⟩

/-- `value == 1.0` of a zero or a one. -/
theorem number_eq_one {x : Floating binary64} (hx : x.value = some re) (h : re = 0 ∨ re = 1) :
    Target.bool.number (x.eq (binary64.ofRat 1)) = some (re, 0) := by
  rcases h with rfl | rfl
  · have hne : x.eq (binary64.ofRat 1) = false := by
      rw [Bool.eq_false_iff, Ne, eq_one_iff hx]
      exact zero_ne_one
    rw [hne]
    rfl
  · rw [(eq_one_iff hx).mpr rfl]
    rfl

theorem toBool_refines (h : s.number = some (re, im)) :
    Target.bool.Refines s.toBool (Target.bool.convert (re, im)) := by
  -- an integer is 0 or 1 as a number exactly when it is as an integer
  have hint : ∀ n : ℤ, Target.bool.Refines
      (if n = 0 ∨ n = 1 then .ok (n = 1 : Bool) else .error toBool.notBool)
      (Target.bool.convert (n, 0)) := by
    intro n
    have hiff : (n = 0 ∨ n = 1) ↔ ((n : ℚ) = 0 ∨ (n : ℚ) = 1) := by norm_cast
    by_cases hn : n = 0 ∨ n = 1
    · rw [if_pos hn, Target.convert, if_pos ⟨rfl, hiff.mp hn⟩]
      rcases hn with rfl | rfl <;> simp [Target.Refines, Target.number]
    · rw [if_neg hn, Target.convert, if_neg fun hc => hn (hiff.mpr hc.2)]
      rfl
  cases s with
  | boolean b =>
      cases h
      cases b <;> simp [toBool, Target.convert, Target.Refines, Target.number]
  | signedInteger i =>
      cases h
      exact hint i.val
  | unsignedInteger u =>
      cases h
      exact hint u.val
  | floating x =>
      obtain ⟨hx, rfl⟩ := number_floating h
      have hiff := or_congr (eq_zero_iff hx) (eq_one_iff hx)
      rw [toBool, Target.convert]
      by_cases hq : re = 0 ∨ re = 1
      · rw [if_pos (hiff.mpr hq), if_pos ⟨rfl, hq⟩]
        exact number_eq_one hx hq
      · rw [if_neg (hq ∘ hiff.mp), if_neg fun hc => hq hc.2]
        rfl
  | complex x y =>
      obtain ⟨hx, hy⟩ := number_complex h
      have hiff := and_congr (eq_zero_iff hy) (or_congr (eq_zero_iff hx) (eq_one_iff hx))
      rw [toBool, Target.convert]
      by_cases hq : im = 0 ∧ (re = 0 ∨ re = 1)
      · rw [if_pos (hiff.mpr hq), if_pos hq]
        exact number_eq_one hx hq.2
      · rw [if_neg (hq ∘ hiff.mp), if_neg hq]
        rfl

/-- A floating value as an integer. -/
theorem floating_refines {t : IntType} (ht : t.width ≤ 64) {x : Floating binary64}
    (hx : x.value = some re) :
    (Target.integer t ht).Refines (floatingToInteger L t (x.convert L.format))
      ((Target.integer t ht).convert (re, 0)) := by
  have hL := Floating.value_convert_wider L.includes_binary64 hx
  rw [floatingToInteger_refines ht hL, Target.convert, if_neg (not_not.mpr rfl)]
  by_cases hint : (⌊re⌋ : ℚ) = re
  · rw [if_neg (not_not.mpr hint), if_neg (not_not.mpr hint)]
    by_cases hr : t.InRange ⌊re⌋
    · rw [if_pos hr, if_pos hr]
      simp only [Target.Refines, Target.number, IntType.cast_val hr, hint]
    · rw [if_neg hr, if_neg hr]
      rfl
  · rw [if_pos hint, if_pos hint]
    rfl

theorem toInteger_refines {t : IntType} (ht : t.width ≤ 64) (h : s.number = some (re, im)) :
    (Target.integer t ht).Refines (s.toInteger L t) ((Target.integer t ht).convert (re, im)) := by
  have hint : ∀ n : ℤ, (Target.integer t ht).Refines
      (if ¬ t.InRange n then .error outOfRangeConversion else .ok (t.cast n))
      ((Target.integer t ht).convert (n, 0)) := by
    intro n
    rw [Target.convert_intCast]
    by_cases hr : t.InRange n
    · rw [if_neg (not_not.mpr hr), if_pos hr]
      simp only [Target.Refines, Target.number, IntType.cast_val hr]
    · rw [if_pos hr, if_neg hr]
      rfl
  cases s with
  | boolean b =>
      cases h
      cases b
      · have := hint 0
        rw [if_neg (not_not.mpr IntType.inRange_zero)] at this
        exact_mod_cast this
      · have := hint 1
        rw [if_neg (not_not.mpr IntType.inRange_one)] at this
        exact_mod_cast this
  | signedInteger i =>
      cases h
      exact hint i.val
  | unsignedInteger u =>
      cases h
      exact hint u.val
  | floating x =>
      obtain ⟨hx, rfl⟩ := number_floating h
      exact floating_refines ht hx
  | complex x y =>
      obtain ⟨hx, hy⟩ := number_complex h
      rw [toInteger]
      by_cases hz : im = 0
      · subst hz
        rw [if_neg (by rw [(eq_zero_iff hy).mpr rfl]; decide)]
        exact floating_refines ht hx
      · rw [if_pos (by rw [Bool.eq_false_iff, Ne, eq_zero_iff hy]; exact hz), Target.convert,
          if_pos hz]
        rfl

/-- The real part, exactly, unless the imaginary part is not zero. -/
theorem toReal_refines (h : s.number = some (re, im)) :
    (im = 0 ∧ ∃ x, s.toReal L = .ok x ∧ x.value = some re) ∨
    (im ≠ 0 ∧ s.toReal L = .error nonzeroImaginary) := by
  cases s with
  | boolean b =>
      cases h
      refine .inl ⟨rfl, _, rfl, ?_⟩
      exact value_ofRat_bool L.format b
  | signedInteger i =>
      cases h
      exact .inl ⟨rfl, _, rfl, Floating.value_ofRat_rep (L.rep_intCast (natAbs_int64 i))⟩
  | unsignedInteger u =>
      cases h
      exact .inl ⟨rfl, _, rfl, Floating.value_ofRat_rep (L.rep_intCast (natAbs_uint64 u))⟩
  | floating x =>
      obtain ⟨hx, rfl⟩ := number_floating h
      exact .inl ⟨rfl, _, rfl, Floating.value_convert_wider L.includes_binary64 hx⟩
  | complex x y =>
      obtain ⟨hx, hy⟩ := number_complex h
      by_cases hz : im = 0
      · refine .inl ⟨hz, x.convert L.format, ?_,
          Floating.value_convert_wider L.includes_binary64 hx⟩
        rw [toReal, if_neg (by rw [(eq_zero_iff hy).mpr hz]; decide)]
      · refine .inr ⟨hz, ?_⟩
        rw [toReal, if_pos (by rw [Bool.eq_false_iff, Ne, eq_zero_iff hy]; exact hz)]

/-- The parts, rounded to `double`. -/
theorem complexParts_refines (h : s.number = some (re, im)) :
    s.complexParts.1.value = some (binary64.rnd re) ∧
    s.complexParts.2.value = some (binary64.rnd im) := by
  have hzero : (binary64.ofRat 0).value = some (binary64.rnd 0) :=
    Floating.value_ofRat (by rw [abs_zero]; exact Format.max_nonneg)
  have hkeep : ∀ {x : Floating binary64} {q : ℚ}, x.value = some q →
      x.value = some (binary64.rnd q) := by
    intro x q hx
    rw [Format.rnd_of_rep (Floating.rep_of_value hx), hx]
  cases s with
  | boolean b =>
      cases h
      exact ⟨hkeep (value_ofRat_bool binary64 b), hzero⟩
  | signedInteger i =>
      cases h
      exact ⟨Floating.value_ofRat (intCast_le_max (natAbs_int64 i).le), hzero⟩
  | unsignedInteger u =>
      cases h
      exact ⟨Floating.value_ofRat (intCast_le_max (natAbs_uint64 u).le), hzero⟩
  | floating x =>
      obtain ⟨hx, rfl⟩ := number_floating h
      exact ⟨hkeep hx, hzero⟩
  | complex x y =>
      obtain ⟨hx, hy⟩ := number_complex h
      exact ⟨hkeep hx, hkeep hy⟩

theorem toFloating_refines (p : Precision) (h : s.number = some (re, im)) :
    (Target.floating p).Refines (s.toTarget L (.floating p))
      ((Target.floating p).convert (re, im)) := by
  rw [toTarget, Target.convert]
  rcases toReal_refines (L := L) h with ⟨rfl, x, hx, hv⟩ | ⟨hz, hx⟩
  · rw [hx, if_neg (not_not.mpr rfl), Precision.narrow]
    rcases checkedFloatingCast_refines p hv with ⟨hq, y, hy, hyv⟩ | ⟨hq, hy⟩
    · rw [if_pos hq]
      change (Target.floating p).Refines (checkedFloatingCast L p.format x) _
      rw [hy]
      exact congrArg (Option.map _) hyv
    · rw [if_neg hq]
      change (Target.floating p).Refines (checkedFloatingCast L p.format x) _
      rw [hy]
      rfl
  · rw [hx, if_pos hz]
    rfl

theorem toComplex_refines (p : Precision) (h : s.number = some (re, im)) :
    (Target.complex p).Refines (s.toTarget L (.complex p))
      ((Target.complex p).convert (re, im)) := by
  obtain ⟨hre, him⟩ := complexParts_refines h
  have hre' := Floating.value_convert_wider L.includes_binary64 hre
  have him' := Floating.value_convert_wider L.includes_binary64 him
  rw [toTarget, Target.convert, Precision.narrow, Precision.narrow]
  rcases checkedFloatingCast_refines p hre' with ⟨hq, x, hx, hxv⟩ | ⟨hq, hx⟩
  · rcases checkedFloatingCast_refines p him' with ⟨hr, y, hy, hyv⟩ | ⟨hr, hy⟩
    · rw [if_pos hq, if_pos hr]
      simp only [hx, hy]
      change (x.value.bind fun q => y.value.map fun r => (q, r)) = _
      rw [hxv, hyv]
      rfl
    · rw [if_pos hq, if_neg hr]
      simp only [hx, hy]
      rfl
  · rw [if_neg hq]
    simp only [hx]
    rfl

/-- A scalar that denotes a number converts as the number does. -/
theorem toTarget_refines (T : Target) {z : ℚ × ℚ} (h : s.number = some z) :
    T.Refines (s.toTarget L T) (T.convert z) := by
  obtain ⟨re, im⟩ := z
  cases T with
  | bool => exact toBool_refines h
  | integer t ht => exact toInteger_refines ht h
  | floating p => exact toFloating_refines p h
  | complex p => exact toComplex_refines p h

end Scalar

/-- Two results are the same: values that denote the same number, or errors
with the same code. -/
def Target.Same (T : Target) : Except Status T.Value → Except Status T.Value → Prop
  | .ok v, .ok w => ∃ z, T.number v = some z ∧ T.number w = some z
  | .error s, .error t => s.code = t.code
  | _, _ => False

/-- Scalars of any two kinds that denote the same finite complex number convert
alike, to every target type. -/
theorem representation_independence (L : LongDouble) (T : Target) (s₁ s₂ : Scalar) (z : ℚ × ℚ)
    (h₁ : s₁.number = some z) (h₂ : s₂.number = some z) :
    T.Same (s₁.toTarget L T) (s₂.toTarget L T) := by
  have r₁ := Scalar.toTarget_refines (L := L) T h₁
  have r₂ := Scalar.toTarget_refines (L := L) T h₂
  cases hc : T.convert z with
  | ok w =>
      rw [hc] at r₁ r₂
      cases e₁ : s₁.toTarget L T with
      | ok v₁ =>
          cases e₂ : s₂.toTarget L T with
          | ok v₂ =>
              rw [e₁] at r₁
              rw [e₂] at r₂
              exact ⟨w, r₁, r₂⟩
          | error _ =>
              rw [e₂] at r₂
              cases r₂
      | error _ =>
          rw [e₁] at r₁
          cases r₁
  | error c =>
      rw [hc] at r₁ r₂
      cases e₁ : s₁.toTarget L T with
      | ok _ =>
          rw [e₁] at r₁
          cases r₁
      | error t₁ =>
          cases e₂ : s₂.toTarget L T with
          | ok _ =>
              rw [e₂] at r₂
              cases r₂
          | error t₂ =>
              rw [e₁] at r₁
              rw [e₂] at r₂
              exact Eq.trans r₁ (Eq.symm r₂)

/-- The 80-bit format. -/
def extended80 : LongDouble :=
  ⟨⟨64, -16445, 16320, by decide, by decide, by decide⟩, by decide, by decide, by decide⟩

/-- An integer that `float` cannot hold, stored as an integer and as a
`double`. -/
theorem representation_independence_of_odd :
    (Target.complex .float).Same
      ((Scalar.signedInteger ⟨16777217, by decide⟩).toTarget extended80 (.complex .float))
      ((Scalar.floating (.finite false ((16777217 : ℕ) : ℚ)
        (Format.rep_natCast (by decide)))).toTarget extended80 (.complex .float)) :=
  representation_independence extended80 (.complex .float) _ _ (16777217, 0)
    (by simp [Scalar.number]) (by simp [Scalar.number, Floating.value])

end Gradyx
