import Gradyx.Core.ScalarNumber

/-!
# Scalar — every conversion decided

`ScalarNumber` follows the scalars that denote a number. Here the infinities and
NaN come in, so that every scalar of every kind has its outcome.

* `real` and `imag` are what the two parts of a scalar denote.
* `toInteger_cases`: the integer conversions, one line for each outcome.
* `checkedFloatingCast_cases`: the narrowing of any `long double`.
-/

namespace Gradyx

open Lib

namespace Scalar

/-- What the real part denotes. -/
def real : Scalar → Datum
  | .boolean b => .number (if b then 1 else 0)
  | .signedInteger i => .number i.val
  | .unsignedInteger u => .number u.val
  | .floating x => x.datum
  | .complex re _ => re.datum

/-- What the imaginary part denotes; it is zero but for a complex scalar. -/
def imag : Scalar → Datum
  | .complex _ im => im.datum
  | _ => .number 0

theorem number_of_parts {s : Scalar} {q r : ℚ} (hq : s.real = .number q) (hr : s.imag = .number r) :
    s.number = some (q, r) := by
  cases s with
  | boolean b | signedInteger i | unsignedInteger u =>
      cases hq
      cases hr
      rfl
  | floating x =>
      cases hr
      rw [number, Floating.datum_eq_number.mp hq]
      rfl
  | complex x y =>
      rw [number, Floating.datum_eq_number.mp hq, Floating.datum_eq_number.mp hr]
      rfl

end Scalar

/-! ## Comparisons with zero and one -/

theorem eq_ofRat_iff {F : Format} {x : Floating F} (b : Bool) :
    x.eq (if b then F.ofRat 1 else F.ofRat 0) = true ↔
      x.datum = .number (if b then 1 else 0) := by
  rw [Floating.datum_eq_number]
  have hb := value_ofRat_bool F b
  cases hx : x.value with
  | some q => rw [Floating.eq_iff hx hb, Option.some.injEq]
  | none =>
      -- a special value equals no number
      have hne : x.eq (if b then F.ofRat 1 else F.ofRat 0) = false := by
        cases x with
        | finite neg m k => cases hx
        | nan => cases hy : (if b then F.ofRat 1 else F.ofRat 0) <;> rfl
        | infinite neg =>
            cases hy : (if b then F.ofRat 1 else F.ofRat 0) with
            | finite c n l => rfl
            | nan => rfl
            | infinite c =>
                rw [hy] at hb
                cases hb
      simp [hne]

theorem eq_zero_iff_datum {F : Format} {x : Floating F} :
    x.eq (F.ofRat 0) = true ↔ x.datum = .number 0 :=
  eq_ofRat_iff false

theorem eq_one_iff_datum {F : Format} {x : Floating F} :
    x.eq (F.ofRat 1) = true ↔ x.datum = .number 1 :=
  eq_ofRat_iff true

theorem isFinite_iff {F : Format} {x : Floating F} :
    x.isFinite = true ↔ ∃ q, x.datum = .number q := by
  cases x <;> simp [Floating.isFinite, Floating.datum]

namespace Scalar

variable {L : LongDouble} {s : Scalar}

/-! ## To an integer -/

/-- The imaginary part is checked first. -/
theorem toInteger_of_imag (t : IntType) (h : s.imag ≠ .number 0) :
    s.toInteger L t = .error nonzeroImaginary := by
  cases s with
  | boolean | signedInteger | unsignedInteger | floating => exact absurd rfl h
  | complex x y =>
      refine if_pos ?_
      rw [Bool.eq_false_iff, Ne, eq_zero_iff_datum]
      exact h

theorem toInteger_of_special (t : IntType) (hi : s.imag = .number 0)
    (hr : ∀ q, s.real ≠ .number q) : FailsWith (s.toInteger L t) .kOutOfRange := by
  have hcast : ∀ x : Floating binary64, (∀ q, x.datum ≠ .number q) →
      FailsWith (floatingToInteger L t (x.convert L.format)) .kOutOfRange := by
    intro x hx
    have hfinite : (x.convert L.format).isFinite = false := by
      rw [Bool.eq_false_iff, Ne, isFinite_iff, Floating.datum_convert_wider L.includes_binary64]
      exact fun ⟨q, hq⟩ => hx q hq
    exact ⟨_, if_pos hfinite, rfl⟩
  cases s with
  | boolean | signedInteger | unsignedInteger => exact absurd rfl (hr _)
  | floating x => exact hcast x hr
  | complex x y =>
      have hy : y.eq (binary64.ofRat 0) = true := eq_zero_iff_datum.mpr hi
      rw [toInteger, if_neg (by rw [hy]; decide)]
      exact hcast x hr

/-- The outcomes of an integer conversion. -/
theorem toInteger_cases (L : LongDouble) {t : IntType} (ht : t.width ≤ 64) (s : Scalar) :
    (s.imag ≠ .number 0 ∧ FailsWith (s.toInteger L t) .kInvalidArgument) ∨
    s.imag = .number 0 ∧
      (((∀ q, s.real ≠ .number q) ∧ FailsWith (s.toInteger L t) .kOutOfRange) ∨
      (∃ q, s.real = .number q ∧ (∀ n : ℤ, q ≠ n) ∧
        FailsWith (s.toInteger L t) .kInvalidArgument) ∨
      (∃ n : ℤ, s.real = .number n ∧ ¬ t.InRange n ∧ FailsWith (s.toInteger L t) .kOutOfRange) ∨
      ∃ v : t.Val, s.real = .number v.val ∧ s.toInteger L t = .ok v) := by
  by_cases hi : s.imag = .number 0
  · refine .inr ⟨hi, ?_⟩
    by_cases hr : ∃ q, s.real = .number q
    · obtain ⟨q, hq⟩ := hr
      have hrefines := toInteger_refines (L := L) ht (number_of_parts hq hi)
      rw [Target.convert, if_neg (not_not.mpr rfl)] at hrefines
      by_cases hint : (⌊q⌋ : ℚ) = q
      · rw [if_neg (not_not.mpr hint)] at hrefines
        by_cases hin : t.InRange ⌊q⌋
        · rw [if_pos hin] at hrefines
          obtain ⟨v, hv, hval⟩ := hrefines.exists_ok
          have hval' : ((v.val : ℚ), (0 : ℚ)) = (q, 0) := Option.some.inj hval
          exact .inr (.inr (.inr ⟨v, by rw [hq, ← (Prod.mk.inj hval').1], hv⟩))
        · rw [if_neg hin] at hrefines
          exact .inr (.inr (.inl ⟨⌊q⌋, by rw [hq, hint], hin, hrefines.failsWith⟩))
      · rw [if_pos hint] at hrefines
        refine .inr (.inl ⟨q, hq, ?_, hrefines.failsWith⟩)
        rintro n rfl
        exact hint (by rw [Int.floor_intCast])
    · have hr' : ∀ q, s.real ≠ .number q := fun q hq => hr ⟨q, hq⟩
      exact .inl ⟨hr', toInteger_of_special t hi hr'⟩
  · exact .inl ⟨hi, _, toInteger_of_imag t hi, rfl⟩

/-! ## To a boolean -/

theorem intToBool_iff (n : ℤ) (b : Bool) :
    (if n = 0 ∨ n = 1 then .ok (decide (n = 1)) else .error toBool.notBool) =
        (.ok b : Except Status Bool) ↔ Datum.number n = .number (if b then 1 else 0) := by
  have hcast : ((n : ℚ) = if b then 1 else 0) ↔ n = if b then 1 else 0 := by
    cases b <;> norm_cast
  rw [Datum.number.injEq, hcast]
  by_cases hn : n = 0 ∨ n = 1
  · rw [if_pos hn, Except.ok.injEq]
    rcases hn with rfl | rfl <;> cases b <;> simp
  · rw [if_neg hn]
    constructor
    · intro h
      cases h
    · intro h
      cases b <;> simp_all

theorem floatingToBool_iff (x : Floating binary64) (b : Bool) :
    (if x.eq (binary64.ofRat 0) = true ∨ x.eq (binary64.ofRat 1) = true then
        .ok (x.eq (binary64.ofRat 1)) else .error toBool.notBool) = (.ok b : Except Status Bool) ↔
      x.datum = .number (if b then 1 else 0) := by
  rw [← eq_ofRat_iff]
  constructor
  · intro h
    split at h
    · next hx =>
        cases b with
        | true => exact Except.ok.inj h
        | false =>
            have hone : x.eq (binary64.ofRat 1) = false := Except.ok.inj h
            rw [hone] at hx
            exact hx.resolve_right Bool.false_ne_true
    · cases h
  · intro h
    cases b with
    | true =>
        have hone : x.eq (binary64.ofRat 1) = true := h
        rw [if_pos (.inr hone), hone]
    | false =>
        have hzero : x.eq (binary64.ofRat 0) = true := h
        have hone : x.eq (binary64.ofRat 1) = false := by
          rw [Bool.eq_false_iff, Ne, eq_one_iff_datum, eq_zero_iff_datum.mp hzero, Datum.number.injEq]
          exact zero_ne_one
        rw [if_pos (.inl hzero), hone]

theorem toBool_ok_iff (s : Scalar) (b : Bool) :
    s.toBool = .ok b ↔ s.imag = .number 0 ∧ s.real = .number (if b then 1 else 0) := by
  cases s with
  | boolean c => cases b <;> cases c <;> simp [toBool, imag, real]
  | signedInteger i => exact (intToBool_iff i.val b).trans (and_iff_right rfl).symm
  | unsignedInteger u => exact (intToBool_iff u.val b).trans (and_iff_right rfl).symm
  | floating x => exact (floatingToBool_iff x b).trans (and_iff_right rfl).symm
  | complex x y =>
      by_cases hy : y.eq (binary64.ofRat 0) = true
      · have := floatingToBool_iff x b
        simp only [toBool, hy, true_and]
        exact this.trans (and_iff_right (eq_zero_iff_datum.mp hy)).symm
      · have hy' : y.datum ≠ .number 0 := fun h => hy (eq_zero_iff_datum.mpr h)
        simp [toBool, hy, imag, hy']

theorem toBool_error {s : Scalar} {e : Status} (h : s.toBool = .error e) : e = toBool.notBool := by
  cases s with
  | boolean b => cases h
  | signedInteger | unsignedInteger | floating | complex =>
      simp only [toBool] at h
      split at h
      · cases h
      · exact (Except.error.inj h).symm

/-! ## The exact conversions -/

/-- The cast at the end of `floating_to_integer` is reached only with a value
that fits. -/
theorem inRange_of_floatingToInteger {t : IntType} (ht : t.width ≤ 64) {x : Floating L.format}
    {v : t.Val} (h : floatingToInteger L t x = .ok v) :
    x.isFinite = true ∧ t.InRange x.toInt := by
  by_cases hfinite : x.isFinite = true
  · refine ⟨hfinite, ?_⟩
    obtain ⟨q, hq⟩ := isFinite_iff.mp hfinite
    have hq' := Floating.datum_eq_number.mp hq
    rw [floatingToInteger_refines ht hq'] at h
    split at h
    · cases h
    · next hint =>
        split at h
        · next hin =>
            have htoInt : x.toInt = ⌊q⌋ := Floating.toInt_of_value ((not_not.mp hint).symm ▸ hq')
            rwa [htoInt]
        · cases h
  · rw [floatingToInteger, if_pos (Bool.eq_false_iff.mpr hfinite)] at h
    cases h

/-- A scalar converts to an integer type exactly when it is an integer of the
type, and to `bool` exactly when it is 0 or 1; the error tells what is wrong with
it. -/
theorem integer_conversions_exact (L : LongDouble) (s : Scalar) :
    (∀ (t : IntType) (ht : t.width ≤ 64),
      ((∃ v, s.toTarget L (.integer t ht) = .ok v) ↔
        s.imag = .number 0 ∧ ∃ n : ℤ, s.real = .number n ∧ t.InRange n) ∧
      (∀ v : t.Val, s.toTarget L (.integer t ht) = .ok v → s.real = .number v.val) ∧
      (FailsWith (s.toTarget L (.integer t ht)) .kInvalidArgument ↔
        s.imag ≠ .number 0 ∨ ∃ q, s.real = .number q ∧ ∀ n : ℤ, q ≠ n) ∧
      (FailsWith (s.toTarget L (.integer t ht)) .kOutOfRange ↔
        s.imag = .number 0 ∧ ((∀ q, s.real ≠ .number q) ∨
          ∃ n : ℤ, s.real = .number n ∧ ¬ t.InRange n)) ∧
      ∀ (x : Floating L.format) (v : t.Val), floatingToInteger L t x = .ok v →
        x.isFinite = true ∧ t.InRange x.toInt) ∧
    (∀ b : Bool, s.toTarget L .bool = .ok b ↔
      s.imag = .number 0 ∧ s.real = .number (if b then 1 else 0)) ∧
    ∀ e, s.toTarget L .bool = .error e → e.code = .kInvalidArgument := by
  refine ⟨fun t ht => ?_, toBool_ok_iff s, fun e he => ?_⟩
  · have hcast := fun (x : Floating L.format) (v : t.Val) =>
      inRange_of_floatingToInteger (L := L) ht (x := x) (v := v)
    change ((∃ v, s.toInteger L t = .ok v) ↔ _) ∧ (∀ v : t.Val, s.toInteger L t = .ok v → _) ∧
      (FailsWith (s.toInteger L t) _ ↔ _) ∧ (FailsWith (s.toInteger L t) _ ↔ _) ∧ _
    rcases toInteger_cases L ht s with ⟨hi, e, he, hc⟩ | ⟨hi, ⟨hr, e, he, hc⟩ |
      ⟨q, hq, hint, e, he, hc⟩ | ⟨n, hn, hout, e, he, hc⟩ | ⟨v, hv, he⟩⟩
    · -- an imaginary part
      refine ⟨?_, ?_, ?_, ?_, hcast⟩ <;> simp [he, hc, hi]
    · -- a special value
      refine ⟨?_, ?_, ?_, ?_, hcast⟩ <;> simp [he, hc, hi, hr]
    · -- a fraction
      refine ⟨?_, ?_, ?_, ?_, hcast⟩ <;> simp [he, hc, hi, hq, hint]
    · -- an integer out of range
      refine ⟨?_, ?_, ?_, ?_, hcast⟩ <;> simp [he, hc, hi, hn, hout]
    · refine ⟨?_, ?_, ?_, ?_, hcast⟩ <;> simp [he, hi, hv, v.2]
  · rw [toBool_error he]
    rfl

/-- `2^63` is one past the largest `int64`. -/
theorem integer_conversions_exact_limit :
    FailsWith ((floating (.finite false (2 ^ 63) (Format.rep_two_pow (by decide)))).toTarget
      extended80 (.integer .int64 (by decide))) .kOutOfRange :=
  ((integer_conversions_exact extended80 _).1 .int64 (by decide)).2.2.2.1.mpr
    ⟨rfl, .inr ⟨2 ^ 63, by norm_num [real, Floating.datum], by decide⟩⟩

/-! ## To a floating type -/

/-- What a component becomes in the target format: a finite one stays finite, and
the same when the format has it; a special one stays what it is. -/
def Converted {F : Format} (y : Floating F) : Datum → Prop
  | .nan => y = .nan
  | .infinite neg => y = .infinite neg
  | .number q => y.isFinite = true ∧ (F.Rep |q| → y.value = some q)

/-- The component is finite and exceeds the largest finite value. -/
def Exceeds (F : Format) (c : Datum) : Prop := ∃ q, c = .number q ∧ F.max < |q|

theorem checkedFloatingCast_of_special (F : Format) {x : Floating L.format}
    (h : x.isFinite = false) : checkedFloatingCast L F x = .ok (x.convert F) := by
  refine if_neg ?_
  rw [h]
  exact fun hx => absurd hx.1 Bool.false_ne_true

/-- The outcomes of `checked_floating_cast`. -/
theorem checkedFloatingCast_cases (p : Precision) (x : Floating L.format) :
    (Exceeds p.format x.datum ∧
      checkedFloatingCast L p.format x = .error outOfRangeConversion) ∨
    ¬ Exceeds p.format x.datum ∧
      ∃ y, checkedFloatingCast L p.format x = .ok y ∧ Converted y x.datum := by
  cases x with
  | nan =>
      refine .inr ⟨?_, .nan, checkedFloatingCast_of_special _ rfl, rfl⟩
      rintro ⟨q, hq, -⟩
      cases hq
  | infinite neg =>
      refine .inr ⟨?_, .infinite neg, checkedFloatingCast_of_special _ rfl, rfl⟩
      rintro ⟨q, hq, -⟩
      cases hq
  | finite neg m k =>
      have hv : (Floating.finite neg m k).value = some (if neg then -m else m) := rfl
      have hexceeds : Exceeds p.format (Floating.finite neg m k).datum ↔
          ¬ |if neg then -m else m| ≤ p.format.max := by
        rw [not_le]
        constructor
        · rintro ⟨q, hq, hlt⟩
          cases hq
          exact hlt
        · intro hlt
          exact ⟨_, rfl, hlt⟩
      rcases checkedFloatingCast_refines p hv with ⟨hle, y, hy, hyv⟩ | ⟨hgt, herror⟩
      · refine .inr ⟨fun h => hexceeds.mp h hle, y, hy, Floating.isFinite_of_value hyv, ?_⟩
        intro hrep
        rw [hyv, Format.rnd_of_rep hrep]
      · exact .inl ⟨hexceeds.mpr hgt, herror⟩

/-- The real part as a `long double`, exactly, or the error of an imaginary
part. -/
theorem toReal_cases (L : LongDouble) (s : Scalar) :
    (s.imag ≠ .number 0 ∧ s.toReal L = .error nonzeroImaginary) ∨
    s.imag = .number 0 ∧ ∃ x, s.toReal L = .ok x ∧ x.datum = s.real := by
  cases s with
  | boolean b =>
      refine .inr ⟨rfl, _, rfl, ?_⟩
      exact Floating.datum_eq_number.mpr (value_ofRat_bool L.format b)
  | signedInteger i =>
      refine .inr ⟨rfl, _, rfl, Floating.datum_eq_number.mpr ?_⟩
      exact Floating.value_ofRat_rep (L.rep_intCast (natAbs_int64 i))
  | unsignedInteger u =>
      refine .inr ⟨rfl, _, rfl, Floating.datum_eq_number.mpr ?_⟩
      exact Floating.value_ofRat_rep (L.rep_intCast (natAbs_uint64 u))
  | floating x =>
      exact .inr ⟨rfl, _, rfl, Floating.datum_convert_wider L.includes_binary64 x⟩
  | complex x y =>
      by_cases hy : y.eq (binary64.ofRat 0) = true
      · refine .inr ⟨eq_zero_iff_datum.mp hy, x.convert L.format, ?_,
          Floating.datum_convert_wider L.includes_binary64 x⟩
        rw [toReal, if_neg (by rw [hy]; decide)]
      · refine .inl ⟨fun h => hy (eq_zero_iff_datum.mpr h), ?_⟩
        rw [toReal, if_pos (Bool.eq_false_iff.mpr hy)]

/-- The real part in `double`: exactly, or an integer of 64 bits rounded. -/
theorem complexParts_real (s : Scalar) :
    s.complexParts.1.datum = s.real ∨
      ∃ n : ℤ, n.natAbs ≤ 2 ^ 64 ∧ s.real = .number n ∧
        s.complexParts.1.datum = .number (binary64.rnd n) := by
  cases s with
  | boolean b => exact .inl (Floating.datum_eq_number.mpr (value_ofRat_bool binary64 b))
  | signedInteger i =>
      have hi := (natAbs_int64 i).le
      exact .inr ⟨i.val, hi, rfl,
        Floating.datum_eq_number.mpr (Floating.value_ofRat (intCast_le_max hi))⟩
  | unsignedInteger u =>
      have hu := (natAbs_uint64 u).le
      exact .inr ⟨u.val, hu, rfl,
        Floating.datum_eq_number.mpr (Floating.value_ofRat (intCast_le_max hu))⟩
  | floating | complex => exact .inl rfl

theorem complexParts_imag (s : Scalar) : s.complexParts.2.datum = s.imag := by
  have hzero : (binary64.ofRat 0).datum = .number 0 :=
    Floating.datum_eq_number.mpr (value_ofRat_bool binary64 false)
  cases s with
  | boolean | signedInteger | unsignedInteger | floating => exact hzero
  | complex => rfl

/-- The outcomes of the conversion to a real floating type. -/
theorem toFloating_cases (L : LongDouble) (p : Precision) (s : Scalar) :
    (s.imag ≠ .number 0 ∧ s.toTarget L (.floating p) = .error nonzeroImaginary) ∨
    s.imag = .number 0 ∧
      ((Exceeds p.format s.real ∧ s.toTarget L (.floating p) = .error outOfRangeConversion) ∨
      ¬ Exceeds p.format s.real ∧ ∃ y : Floating p.format,
        s.toTarget L (.floating p) = .ok y ∧ Converted y s.real) := by
  have hbind : s.toTarget L (.floating p) =
      s.toReal L >>= fun real => checkedFloatingCast L p.format real := rfl
  rw [hbind]
  rcases toReal_cases L s with ⟨hi, hreal⟩ | ⟨hi, x, hreal, hx⟩
  · exact .inl ⟨hi, by rw [hreal]; rfl⟩
  · rw [hreal, ← hx]
    exact .inr ⟨hi, checkedFloatingCast_cases p x⟩

/-- Rounding to `double` first does not move a 64-bit integer past the largest
finite value, nor one that the format has. -/
theorem complexParts_converted (p : Precision) (s : Scalar) :
    (Exceeds p.format s.complexParts.1.datum ↔ Exceeds p.format s.real) ∧
      ∀ y : Floating p.format, Converted y s.complexParts.1.datum → Converted y s.real := by
  rcases complexParts_real s with heq | ⟨n, hn, hreal, hpart⟩
  · rw [heq]
    exact ⟨Iff.rfl, fun y h => h⟩
  · have hpow : p.format.Rep (2 ^ 64) := by
      cases p <;> exact Format.rep_two_pow (by decide)
    have hle : |(n : ℚ)| ≤ 2 ^ 64 := by
      rw [← Int.cast_abs, Int.abs_eq_natAbs]
      exact_mod_cast hn
    have hrnd : |binary64.rnd n| ≤ 2 ^ 64 :=
      Format.abs_rnd_le (p.binary64_includes.rep hpow).1 hle
    rw [hreal, hpart]
    refine ⟨⟨?_, ?_⟩, ?_⟩
    · rintro ⟨q, hq, hlt⟩
      cases hq
      exact absurd (hrnd.trans hpow.2) (not_le.mpr hlt)
    · rintro ⟨q, hq, hlt⟩
      cases hq
      exact absurd (hle.trans hpow.2) (not_le.mpr hlt)
    · rintro y ⟨hfinite, hkeep⟩
      refine ⟨hfinite, fun hrep => ?_⟩
      -- what the format has, `double` has
      have hsame : binary64.rnd n = n := Format.rnd_of_rep (p.binary64_includes.rep hrep)
      rw [hsame] at hkeep
      exact hkeep hrep

/-- The outcomes of the conversion to a complex type. -/
theorem toComplex_cases (L : LongDouble) (p : Precision) (s : Scalar) :
    ((Exceeds p.format s.real ∨ Exceeds p.format s.imag) ∧
      s.toTarget L (.complex p) = .error outOfRangeConversion) ∨
    ¬ (Exceeds p.format s.real ∨ Exceeds p.format s.imag) ∧ ∃ y z : Floating p.format,
      s.toTarget L (.complex p) = .ok (y, z) ∧ Converted y s.real ∧ Converted z s.imag := by
  obtain ⟨hexceeds, hconverted⟩ := complexParts_converted p s
  have hre := checkedFloatingCast_cases p (s.complexParts.1.convert L.format)
  have him := checkedFloatingCast_cases p (s.complexParts.2.convert L.format)
  rw [Floating.datum_convert_wider L.includes_binary64, hexceeds] at hre
  rw [Floating.datum_convert_wider L.includes_binary64, complexParts_imag] at him
  simp only [toTarget]
  rcases hre with ⟨hlarge, hre⟩ | ⟨hsmall, y, hre, hy⟩
  · exact .inl ⟨.inl hlarge, by rw [hre]; rfl⟩
  · rcases him with ⟨hlarge, him⟩ | ⟨hsmall', z, him, hz⟩
    · exact .inl ⟨.inr hlarge, by rw [hre, him]; rfl⟩
    · refine .inr ⟨not_or.mpr ⟨hsmall, hsmall'⟩, y, z, ?_, hconverted y hy, hz⟩
      rw [hre, him]
      rfl

/-! ## Round trips -/

theorem not_exceeds (F : Format) (x : Floating F) : ¬ Exceeds F x.datum := by
  rintro ⟨q, hq, hlt⟩
  exact absurd (Floating.rep_of_value (Floating.datum_eq_number.mp hq)).2 (not_le.mpr hlt)

theorem checkedFloatingCast_ok {F : Format} {x : Floating L.format} {y : Floating F}
    (h : checkedFloatingCast L F x = .ok y) : y = x.convert F := by
  unfold checkedFloatingCast at h
  dsimp only at h
  split at h
  · cases h
  · exact (Except.ok.inj h).symm

/-- A value of the format itself comes back. -/
theorem checkedFloatingCast_roundTrip (p : Precision) (x : Floating p.format) :
    checkedFloatingCast L p.format (x.convert L.format) = .ok x := by
  have hdatum := Floating.datum_convert_wider (L.includes p) x
  rcases checkedFloatingCast_cases p (x.convert L.format) with ⟨hlarge, -⟩ | ⟨-, y, hy, -⟩
  · rw [hdatum] at hlarge
    exact absurd hlarge (not_exceeds p.format x)
  · rw [hy, checkedFloatingCast_ok hy, Floating.convert_convert (L.includes p), Floating.convert_self]

theorem ofFloating_roundTrip (L : LongDouble) (p : Precision) (x : Floating p.format) :
    (ofFloating p x).toTarget L (.floating p) = .ok x := by
  cases p with
  | float =>
      have hcast := checkedFloatingCast_roundTrip (L := L) .float x
      rw [← Floating.convert_convert Precision.float.binary64_includes] at hcast
      exact hcast
  | double => exact checkedFloatingCast_roundTrip .double x

theorem ofComplex_roundTrip (L : LongDouble) (p : Precision)
    (z : Floating p.format × Floating p.format) :
    (ofComplex p z).toTarget L (.complex p) = .ok z := by
  have hparts : ∀ x y : Floating binary64,
      checkedFloatingCast L p.format (x.convert L.format) = .ok z.1 →
      checkedFloatingCast L p.format (y.convert L.format) = .ok z.2 →
      (complex x y).toTarget L (.complex p) = .ok z := by
    intro x y hx hy
    simp only [toTarget, complexParts, hx, hy]
    rfl
  have hre := checkedFloatingCast_roundTrip (L := L) p z.1
  have him := checkedFloatingCast_roundTrip (L := L) p z.2
  cases p with
  | float =>
      rw [← Floating.convert_convert Precision.float.binary64_includes] at hre him
      exact hparts _ _ hre him
  | double => exact hparts _ _ hre him

/-- The floating and the complex types at the element type of a scalar. -/
theorem toTarget_own_dtype (L : LongDouble) {s : Scalar} {T : Target}
    (hs : (∃ x, s = .floating x) ∨ ∃ x y, s = .complex x y) (hT : T.dtype = some s.dtype) :
    ∃ v, s.toTarget L T = .ok v := by
  rcases hs with ⟨x, rfl⟩ | ⟨x, y, rfl⟩
  · cases T with
    | floating p =>
        cases p with
        | float => cases hT
        | double => exact ⟨x, ofFloating_roundTrip L .double x⟩
    | integer t ht =>
        simp only [Target.dtype] at hT
        split at hT <;> cases hT
    | bool => cases hT
    | complex p => cases p <;> cases hT
  · cases T with
    | complex p =>
        cases p with
        | float => cases hT
        | double => exact ⟨(x, y), ofComplex_roundTrip L .double (x, y)⟩
    | integer t ht =>
        simp only [Target.dtype] at hT
        split at hT <;> cases hT
    | bool => cases hT
    | floating p => cases p <;> cases hT

/-- The conversions to the floating and the complex types fail for an imaginary
part or a component out of range, and for nothing else; what they return keeps the
special values and whatever the type can represent. -/
theorem floating_conversions_exact (L : LongDouble) :
    (∀ (s : Scalar) (p : Precision),
      (FailsWith (s.toTarget L (.floating p)) .kInvalidArgument ↔ s.imag ≠ .number 0) ∧
      (FailsWith (s.toTarget L (.floating p)) .kOutOfRange ↔
        s.imag = .number 0 ∧ Exceeds p.format s.real) ∧
      (FailsWith (s.toTarget L (.complex p)) .kOutOfRange ↔
        Exceeds p.format s.real ∨ Exceeds p.format s.imag) ∧
      ((∃ r, s.toTarget L (.complex p) = .ok r) ↔
        ¬ (Exceeds p.format s.real ∨ Exceeds p.format s.imag)) ∧
      (∀ y : Floating p.format, s.toTarget L (.floating p) = .ok y → Converted y s.real) ∧
      ∀ y z : Floating p.format, s.toTarget L (.complex p) = .ok (y, z) →
        Converted y s.real ∧ Converted z s.imag) ∧
    (∀ (p : Precision) (x : Floating p.format), (ofFloating p x).toTarget L (.floating p) = .ok x) ∧
    (∀ (p : Precision) (z : Floating p.format × Floating p.format),
      (ofComplex p z).toTarget L (.complex p) = .ok z) ∧
    ∀ (s : Scalar) (T : Target), ((∃ x, s = .floating x) ∨ ∃ x y, s = .complex x y) →
      T.dtype = some s.dtype → ∃ v, s.toTarget L T = .ok v := by
  refine ⟨fun s p => ?_, ofFloating_roundTrip L, ofComplex_roundTrip L, fun s T hs hT => ?_⟩
  · refine ⟨?_, ?_, ?_, ?_, ?_, ?_⟩
    · rcases toFloating_cases L p s with ⟨hi, h⟩ | ⟨hi, ⟨-, h⟩ | ⟨-, y, h, -⟩⟩
      · exact iff_of_true ⟨_, h, rfl⟩ hi
      · exact iff_of_false (not_failsWith_of_error h (by decide)) (not_not.mpr hi)
      · exact iff_of_false (not_failsWith_of_ok h _) (not_not.mpr hi)
    · rcases toFloating_cases L p s with ⟨hi, h⟩ | ⟨hi, ⟨hlarge, h⟩ | ⟨hsmall, y, h, -⟩⟩
      · exact iff_of_false (not_failsWith_of_error h (by decide)) fun hc => hi hc.1
      · exact iff_of_true ⟨_, h, rfl⟩ ⟨hi, hlarge⟩
      · exact iff_of_false (not_failsWith_of_ok h _) fun hc => hsmall hc.2
    · rcases toComplex_cases L p s with ⟨hlarge, h⟩ | ⟨hsmall, y, z, h, -⟩
      · exact iff_of_true ⟨_, h, rfl⟩ hlarge
      · exact iff_of_false (not_failsWith_of_ok h _) hsmall
    · rcases toComplex_cases L p s with ⟨hlarge, h⟩ | ⟨hsmall, y, z, h, -⟩
      · refine iff_of_false ?_ (not_not.mpr hlarge)
        rintro ⟨r, hr⟩
        cases h.symm.trans hr
      · exact iff_of_true ⟨_, h⟩ hsmall
    · intro y hy
      rcases toFloating_cases L p s with ⟨-, h⟩ | ⟨-, ⟨-, h⟩ | ⟨-, y', h, hconv⟩⟩
      · cases h.symm.trans hy
      · cases h.symm.trans hy
      · cases h.symm.trans hy
        exact hconv
    · intro y z hyz
      rcases toComplex_cases L p s with ⟨-, h⟩ | ⟨-, y', z', h, hconv⟩
      · cases h.symm.trans hyz
      · cases h.symm.trans hyz
        exact hconv
  · exact toTarget_own_dtype L hs hT

/-- The largest `double` is no `float`. -/
theorem floating_conversions_exact_largest :
    FailsWith ((ofFloating .double (.largest binary64)).toTarget extended80 (.floating .float))
      .kOutOfRange := by
  refine ((floating_conversions_exact extended80).1 _ .float).2.1.mpr ⟨rfl, binary64.max, rfl, ?_⟩
  have hexp : (2 : ℚ) ^ (104 : ℤ) ≤ 2 ^ (971 : ℤ) := zpow_le_zpow_right₀ one_le_two (by decide)
  have hpos : (0 : ℚ) < 2 ^ (971 : ℤ) := by positivity
  rw [abs_of_nonneg Format.max_nonneg]
  change (2 ^ 24 - 1 : ℚ) * 2 ^ (104 : ℤ) < (2 ^ 53 - 1) * 2 ^ (971 : ℤ)
  calc (2 ^ 24 - 1 : ℚ) * 2 ^ (104 : ℤ) ≤ (2 ^ 24 - 1) * 2 ^ (971 : ℤ) :=
        mul_le_mul_of_nonneg_left hexp (by norm_num)
    _ < (2 ^ 53 - 1) * 2 ^ (971 : ℤ) := mul_lt_mul_of_pos_right (by norm_num) hpos

end Scalar

end Gradyx
