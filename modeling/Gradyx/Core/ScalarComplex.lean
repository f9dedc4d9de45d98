import Gradyx.Core.ScalarDatum
import Gradyx.Lib.DoubleRounding

/-!
# Scalar — the complex type of a real type

`to<F>` converts an integer to `long double` and then to `F`; `to<std::complex<F>>`
converts it to `double` on the way. For `float` this rounds twice, and the two
results differ for the integers near the midpoints of two floats.
-/

namespace Gradyx

open Lib

namespace Scalar

variable {L : LongDouble}

/-- What `to<F>` returns, `to<std::complex<F>>` returns with a zero imaginary
part. -/
def ComplexAgrees (L : LongDouble) (p : Precision) (s : Scalar) : Prop :=
  ∀ r : Floating p.format, s.toTarget L (.floating p) = .ok r →
    ∃ im : Floating p.format, s.toTarget L (.complex p) = .ok (r, im) ∧ im.datum = .number 0

/-- The integer of a scalar of an integer kind. -/
def integer : Scalar → Option ℤ
  | .signedInteger i => some i.val
  | .unsignedInteger u => some u.val
  | _ => none

/-- An integer that the rounding to `double` moves across the midpoint of two
floats: the 53 bits of `double` are 29 more than those of `float`. -/
def RoundedAcross (s : Scalar) : Prop :=
  ∃ n, s.integer = some n ∧ NearMidpoint n.natAbs (n.natAbs.log2 + 1 - 53) 29

/-! ## The two paths of an integer -/

/-- A cast that is not out of range. -/
theorem checkedFloatingCast_of_le (p : Precision) {x : Floating L.format} {q : ℚ}
    (hx : x.value = some q) (hq : |q| ≤ p.format.max) :
    checkedFloatingCast L p.format x = .ok (x.convert p.format) := by
  rcases checkedFloatingCast_refines p hx with ⟨-, y, hy, -⟩ | ⟨hgt, -⟩
  · rw [hy, checkedFloatingCast_ok hy]
  · exact absurd hq hgt

/-- A zero component is cast to a zero. -/
theorem zero_cast (p : Precision) {x : Floating binary64} (hx : x.datum = .number 0) :
    ∃ im : Floating p.format, checkedFloatingCast L p.format (x.convert L.format) = .ok im ∧
      im.datum = .number 0 := by
  have hzero : x.value = some 0 := Floating.datum_eq_number.mp hx
  have hwide := Floating.value_convert_wider L.includes_binary64 hzero
  have hle : |(0 : ℚ)| ≤ p.format.max := by
    rw [abs_zero]
    exact Format.max_nonneg
  refine ⟨_, checkedFloatingCast_of_le p hwide hle, ?_⟩
  have hrep : p.format.Rep |(0 : ℚ)| := by
    rw [abs_zero]
    exact Format.rep_zero
  rw [Floating.datum_eq_number, Floating.value_convert hwide hle, Format.rnd_of_rep hrep]

theorem datum_ofRat_zero : (binary64.ofRat 0).datum = .number 0 :=
  Floating.datum_eq_number.mpr (value_ofRat_bool binary64 false)

theorem natAbs_integer {s : Scalar} {n : ℤ} (h : s.integer = some n) : n.natAbs < 2 ^ 64 := by
  cases s with
  | signedInteger i =>
      cases h
      exact natAbs_int64 i
  | unsignedInteger u =>
      cases h
      exact natAbs_uint64 u
  | boolean | floating | complex => cases h

/-- The path of an integer to a floating type, and to the complex one. -/
theorem integer_paths (L : LongDouble) (p : Precision) {s : Scalar} {n : ℤ}
    (h : s.integer = some n) :
    s.toTarget L (.floating p) = .ok (p.format.ofRat n) ∧
    ∃ im : Floating p.format,
      s.toTarget L (.complex p) = .ok ((binary64.ofRat n).convert p.format, im) ∧
        im.datum = .number 0 := by
  have hn := natAbs_integer h
  obtain ⟨hreal, hparts⟩ : s.toReal L = .ok (L.format.ofRat n) ∧
      s.complexParts = (binary64.ofRat n, binary64.ofRat 0) := by
    cases s with
    | signedInteger | unsignedInteger =>
        cases h
        exact ⟨rfl, rfl⟩
    | boolean | floating | complex => cases h
  have hpow : p.format.Rep (2 ^ 64) := by
    cases p <;> exact Format.rep_two_pow (by decide)
  have hle : |(n : ℚ)| ≤ 2 ^ 64 := by
    rw [← Int.cast_abs, Int.abs_eq_natAbs]
    exact_mod_cast hn.le
  have hmax : |(n : ℚ)| ≤ p.format.max := hle.trans hpow.2
  constructor
  · -- exact in `long double`
    have hexact : L.format.roundMag |(n : ℚ)| = |(n : ℚ)| :=
      Format.roundMag_of_rep (L.rep_intCast hn)
    have hL : |(n : ℚ)| ≤ L.format.max := (L.rep_intCast hn).2
    have hcast := checkedFloatingCast_of_le (L := L) p (Floating.value_ofRat_rep (L.rep_intCast hn)) hmax
    have hsame : (L.format.ofRat n).convert p.format = p.format.ofRat n :=
      (Floating.ofRat_convert_eq_iff hmax hL (hexact.symm ▸ hmax)).mpr (by rw [hexact])
    simp only [toTarget, hreal, ok_bind]
    rw [hcast, hsame]
    rfl
  · obtain ⟨im, him, hzero⟩ := zero_cast (L := L) p datum_ofRat_zero
    have hvalue : (binary64.ofRat n).value = some (binary64.rnd n) :=
      Floating.value_ofRat (intCast_le_max hn.le)
    have hrnd : |binary64.rnd n| ≤ p.format.max :=
      (Format.abs_rnd_le (p.binary64_includes.rep hpow).1 hle).trans hpow.2
    have hcast := checkedFloatingCast_of_le p
      (Floating.value_convert_wider L.includes_binary64 hvalue) hrnd
    refine ⟨im, ?_, hzero⟩
    simp only [toTarget, hparts, hcast, him, Floating.convert_convert L.includes_binary64]
    rfl

/-- The paths of an integer meet unless the rounding to `double` moves it across
a midpoint. -/
theorem integer_paths_meet (p : Precision) {n : ℤ} (hn : n.natAbs < 2 ^ 64) :
    (binary64.ofRat n).convert p.format = p.format.ofRat n ↔
      p = .double ∨ ¬ NearMidpoint n.natAbs (n.natAbs.log2 + 1 - 53) 29 := by
  have hpow : p.format.Rep (2 ^ 64) := by
    cases p <;> exact Format.rep_two_pow (by decide)
  have hnat : |(n : ℚ)| = (n.natAbs : ℕ) := by
    rw [Nat.cast_natAbs]
    push_cast
    rfl
  have hle : |(n : ℚ)| ≤ 2 ^ 64 := by
    rw [hnat]
    exact_mod_cast hn.le
  have hround : binary64.roundMag |(n : ℚ)| ≤ p.format.max :=
    (Format.roundMag_le (p.binary64_includes.rep hpow).1 hle).trans hpow.2
  rw [Floating.ofRat_convert_eq_iff (hle.trans hpow.2) (intCast_le_max hn.le) hround]
  cases p with
  | double =>
      refine iff_of_true ?_ (.inl rfl)
      exact Format.roundMag_of_grid (Format.grid_roundMag _)
  | float =>
      rw [hnat]
      refine (Format.roundMag_roundMag_iff (F := binary32) (G := binary64) (t := 29) (by decide) rfl
        n.natAbs).trans ?_
      exact (or_iff_right (by decide)).symm

/-! ## The exact condition -/

/-- A scalar of another kind takes both paths through the same `long double`. -/
theorem complexAgrees_of_integer_none (L : LongDouble) (p : Precision) {s : Scalar}
    (h : s.integer = none) : ComplexAgrees L p s := by
  intro r hr
  have hcomplex : ∀ {x y : Floating binary64}, s.complexParts = (x, y) → y.datum = .number 0 →
      checkedFloatingCast L p.format (x.convert L.format) = .ok r →
      ∃ im : Floating p.format, s.toTarget L (.complex p) = .ok (r, im) ∧
        im.datum = .number 0 := by
    intro x y hparts hy hx
    obtain ⟨im, him, hzero⟩ := zero_cast (L := L) p hy
    refine ⟨im, ?_, hzero⟩
    simp only [toTarget, hparts, hx, him]
    rfl
  cases s with
  | boolean b =>
      have hone : ∀ F : Format, F.Rep |(1 : ℚ)| := fun F => by
        rw [abs_one]
        exact Format.rep_one
      have hzero : ∀ F : Format, F.Rep |(0 : ℚ)| := fun F => by
        rw [abs_zero]
        exact Format.rep_zero
      refine hcomplex rfl datum_ofRat_zero ?_
      cases b with
      | false =>
          have hsame := Floating.ofRat_convert_of_rep (hzero L.format) (hzero binary64)
          exact (congrArg (checkedFloatingCast L p.format) hsame).trans hr
      | true =>
          have hsame := Floating.ofRat_convert_of_rep (hone L.format) (hone binary64)
          exact (congrArg (checkedFloatingCast L p.format) hsame).trans hr
  | signedInteger | unsignedInteger => cases h
  | floating x => exact hcomplex rfl datum_ofRat_zero hr
  | complex x y =>
      simp only [toTarget, toReal] at hr
      split at hr
      · cases hr
      · next hy =>
          have hy' : y.eq (binary64.ofRat 0) = true := Bool.not_eq_false _ ▸ hy
          exact hcomplex rfl (eq_zero_iff_datum.mp hy') hr

/-- The real type and the complex type agree on a scalar exactly when no integer
is rounded across a midpoint of two floats. -/
theorem complexAgrees_iff (L : LongDouble) (p : Precision) (s : Scalar) :
    ComplexAgrees L p s ↔ p = .double ∨ ¬ s.RoundedAcross := by
  rcases hs : s.integer with _ | n
  · refine iff_of_true (complexAgrees_of_integer_none L p hs) (.inr ?_)
    rintro ⟨n, hn, -⟩
    rw [hs] at hn
    cases hn
  · have hcondition : s.RoundedAcross ↔ NearMidpoint n.natAbs (n.natAbs.log2 + 1 - 53) 29 := by
      constructor
      · rintro ⟨m, hm, hnear⟩
        rw [hs] at hm
        cases hm
        exact hnear
      · exact fun hnear => ⟨n, hs, hnear⟩
    obtain ⟨hfloating, im, hcomplex, hzero⟩ := integer_paths L p hs
    rw [hcondition, ← integer_paths_meet p (natAbs_integer hs)]
    constructor
    · intro hagrees
      obtain ⟨im', him', -⟩ := hagrees _ hfloating
      rw [hcomplex] at him'
      exact (Prod.mk.inj (Except.ok.inj him')).1
    · intro hsame r hr
      rw [hfloating] at hr
      cases hr
      exact ⟨im, by rw [hcomplex, hsame], hzero⟩

/-- One more than the midpoint of the floats `2^60` and `2^60 + 2^37`. -/
def pastMidpoint : Scalar := .signedInteger ⟨2 ^ 60 + 2 ^ 36 + 1, by decide⟩

/-- The real type rounds the integer up, the complex type rounds it down. -/
theorem complexAgrees_fails :
    (∃ r : Floating binary32, pastMidpoint.toTarget extended80 (.floating .float) = .ok r ∧
      r.value = some (2 ^ 60 + 2 ^ 37)) ∧
    (∃ re im : Floating binary32, pastMidpoint.toTarget extended80 (.complex .float) = .ok (re, im) ∧
      re.value = some (2 ^ 60)) ∧
    ¬ ComplexAgrees extended80 .float pastMidpoint := by
  obtain ⟨hfloating, im, hcomplex, -⟩ := integer_paths extended80 .float (s := pastMidpoint) rfl
  have hmax : (2 ^ 61 : ℚ) ≤ binary32.max := (Format.rep_two_pow (by decide)).2
  have hmax' : (2 ^ 61 : ℚ) ≤ binary64.max := (Format.rep_two_pow (by decide)).2
  have honce : (binary32.ofRat (2 ^ 60 + 2 ^ 36 + 1 : ℤ)).value = some (2 ^ 60 + 2 ^ 37) := by
    have hvalue := Floating.value_ofRat_natCast (F := binary32) (n := 2 ^ 60 + 2 ^ 36 + 1) (k := 60)
      (s := 37) (by decide) (by decide) rfl (le_trans (by norm_num) hmax)
    norm_num [roundShift] at hvalue ⊢
    exact hvalue
  have hdouble : (binary64.ofRat (2 ^ 60 + 2 ^ 36 + 1 : ℤ)).value = some (2 ^ 60 + 2 ^ 36) := by
    have hvalue := Floating.value_ofRat_natCast (F := binary64) (n := 2 ^ 60 + 2 ^ 36 + 1) (k := 60)
      (s := 8) (by decide) (by decide) rfl (le_trans (by norm_num) hmax')
    norm_num [roundShift] at hvalue ⊢
    exact hvalue
  have htwice : ((binary64.ofRat (2 ^ 60 + 2 ^ 36 + 1 : ℤ)).convert binary32).value =
      some (2 ^ 60) := by
    have hrnd := Format.rnd_natCast (F := binary32) (n := 2 ^ 60 + 2 ^ 36) (k := 60) (s := 37)
      (by decide) (by decide) rfl
    rw [Floating.value_convert hdouble (le_trans (by norm_num) hmax)]
    norm_num [roundShift] at hrnd ⊢
    exact hrnd
  refine ⟨⟨_, hfloating, honce⟩, ⟨_, im, hcomplex, htwice⟩, fun hagrees => ?_⟩
  obtain ⟨im', him', -⟩ := hagrees _ hfloating
  rw [hcomplex] at him'
  have hsame := congrArg Floating.value (Prod.mk.inj (Except.ok.inj him')).1
  have hvalues : (2 ^ 60 : ℚ) = 2 ^ 60 + 2 ^ 37 := Option.some.inj (htwice.symm.trans (hsame.trans honce))
  norm_num at hvalues

end Scalar

end Gradyx
