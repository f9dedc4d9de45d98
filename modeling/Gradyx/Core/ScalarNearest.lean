import Gradyx.Core.ScalarComplex
import Gradyx.Lib.Nearest

/-!
# Scalar — conversions are nearest and keep the order

Between scalars of any two kinds. `to<F>` rounds once, to a value of `F` that no other is
nearer to; `to<std::complex<F>>` rounds each part to a `double` on the way. Two roundings
still keep the order, so no scalar between two that a type can hold is out of its range.

* `Target.rounded` is what a conversion that succeeds makes of a number.
* Numbers are ordered by both parts.
-/

namespace Gradyx

open Lib

/-- No finite value of the format is nearer to a number. -/
def NearestIn (F : Format) (q : ℚ) (x : Floating F) : Prop :=
  ∃ v, x.value = some v ∧ ∀ (y : Floating F) (w : ℚ), y.value = some w → |q - v| ≤ |q - w|

theorem nearestIn_of_rnd {F : Format} {q : ℚ} {x : Floating F} (h : x.value = some (F.rnd q)) :
    NearestIn F q x := by
  refine ⟨_, h, ?_⟩
  intro y w hy
  exact (Format.rnd_roundsTo F).nearest q w (Floating.rep_of_value hy).1

namespace Precision

variable {p : Precision} {q q₁ q₂ r : ℚ}

theorem narrow_ok : p.narrow q = .ok r ↔ |q| ≤ p.format.max ∧ r = p.format.rnd q := by
  unfold narrow
  split
  · next h =>
      constructor
      · intro hr
        cases hr
        exact ⟨h, rfl⟩
      · rintro ⟨-, rfl⟩
        rfl
  · next h => exact iff_of_false (fun hr => by cases hr) fun hr => h hr.1

/-- The numbers that a floating type holds are an interval. -/
theorem narrow_between {r₁ r₂ : ℚ} (h₁ : p.narrow q₁ = .ok r₁) (h₂ : p.narrow q₂ = .ok r₂)
    (hle : q₁ ≤ q) (hle' : q ≤ q₂) : p.narrow q = .ok (p.format.rnd q) := by
  have hlo := (abs_le.mp (narrow_ok.mp h₁).1).1
  have hhi := (abs_le.mp (narrow_ok.mp h₂).1).2
  exact narrow_ok.mpr ⟨abs_le.mpr ⟨hlo.trans hle, hle'.trans hhi⟩, rfl⟩

end Precision

namespace Target

/-- What a conversion that succeeds makes of a number. -/
def rounded : Target → ℚ × ℚ → ℚ × ℚ
  | .bool, z => (z.1, 0)
  | .integer _ _, z => (z.1, 0)
  | .floating p, z => (p.format.rnd z.1, 0)
  | .complex p, z => (p.format.rnd (binary64.rnd z.1), p.format.rnd (binary64.rnd z.2))

theorem rounded_mono (T : Target) : Monotone T.rounded := by
  have hround : ∀ F : Format, Monotone F.rnd := fun F => (Format.rnd_roundsTo F).monotone
  intro z z' h
  cases T with
  | bool => exact ⟨h.1, le_rfl⟩
  | integer t ht => exact ⟨h.1, le_rfl⟩
  | floating p => exact ⟨hround _ h.1, le_rfl⟩
  | complex p => exact ⟨hround _ (hround _ h.1), hround _ (hround _ h.2)⟩

variable {T : Target} {z z₁ z₂ w w₁ w₂ : ℚ × ℚ}

theorem convert_complex_ok {p : Precision} (h : (complex p).convert z = .ok w) :
    p.narrow (binary64.rnd z.1) = .ok w.1 ∧ p.narrow (binary64.rnd z.2) = .ok w.2 := by
  obtain ⟨re, hre, h⟩ := exists_ok_of_bind h
  obtain ⟨im, him, h⟩ := exists_ok_of_bind h
  cases h
  exact ⟨hre, him⟩

theorem convert_floating_ok {p : Precision} (h : (floating p).convert z = .ok w) :
    p.narrow z.1 = .ok w.1 ∧ w.2 = 0 := by
  rw [convert] at h
  split at h
  · cases h
  · cases hre : p.narrow z.1 with
    | error e =>
        rw [hre] at h
        cases h
    | ok re =>
        rw [hre] at h
        cases h
        exact ⟨rfl, rfl⟩

theorem convert_integer_ok {t : IntType} {ht : t.width ≤ 64}
    (h : (integer t ht).convert z = .ok w) : t.InRange ⌊z.1⌋ ∧ w = (z.1, 0) := by
  rw [convert] at h
  split at h
  · cases h
  · split at h
    · cases h
    · split at h
      · next hrange =>
          cases h
          exact ⟨hrange, rfl⟩
      · cases h

theorem convert_ok (h : T.convert z = .ok w) : w = T.rounded z := by
  cases T with
  | bool =>
      rw [convert] at h
      split at h
      · cases h
        rfl
      · cases h
  | integer t ht => exact (convert_integer_ok h).2
  | floating p =>
      obtain ⟨hre, him⟩ := convert_floating_ok h
      exact Prod.ext (Precision.narrow_ok.mp hre).2 him
  | complex p =>
      obtain ⟨hre, him⟩ := convert_complex_ok h
      exact Prod.ext (Precision.narrow_ok.mp hre).2 (Precision.narrow_ok.mp him).2

/-- Nothing between two numbers in range is out of range. -/
theorem convert_between (h₁ : T.convert z₁ = .ok w₁) (h₂ : T.convert z₂ = .ok w₂)
    (hle : z₁ ≤ z) (hle' : z ≤ z₂) : T.convert z ≠ .error .kOutOfRange := by
  intro h
  cases T with
  | bool =>
      rw [convert] at h
      split at h <;> cases h
  | integer t ht =>
      have hlo := (convert_integer_ok h₁).1.1
      have hhi := (convert_integer_ok h₂).1.2
      have hrange : t.InRange ⌊z.1⌋ :=
        ⟨hlo.trans (Int.floor_le_floor hle.1), (Int.floor_le_floor hle'.1).trans hhi⟩
      rw [convert, if_pos hrange] at h
      split at h
      · cases h
      · split at h <;> cases h
  | floating p =>
      have hre := Precision.narrow_between (convert_floating_ok h₁).1 (convert_floating_ok h₂).1
        hle.1 hle'.1
      rw [convert, hre] at h
      split at h <;> cases h
  | complex p =>
      have hround : Monotone binary64.rnd := (Format.rnd_roundsTo binary64).monotone
      have hre := Precision.narrow_between (convert_complex_ok h₁).1 (convert_complex_ok h₂).1
        (hround hle.1) (hround hle'.1)
      have him := Precision.narrow_between (convert_complex_ok h₁).2 (convert_complex_ok h₂).2
        (hround hle.2) (hround hle'.2)
      rw [convert, hre, him] at h
      cases h

end Target

namespace Scalar

variable {L : LongDouble} {T : Target} {s : Scalar} {z : ℚ × ℚ}

/-- A conversion that succeeds, as one of the number. -/
theorem convert_of_ok {v : T.Value} (hs : s.number = some z) (h : s.toTarget L T = .ok v) :
    ∃ w, T.convert z = .ok w ∧ T.number v = some w := by
  have hrefines := toTarget_refines (L := L) T hs
  rw [h] at hrefines
  cases hconvert : T.convert z with
  | ok w =>
      rw [hconvert] at hrefines
      exact ⟨w, rfl, hrefines⟩
  | error c =>
      rw [hconvert] at hrefines
      cases hrefines

theorem convert_of_failsWith {c : ErrorCode} (hs : s.number = some z)
    (h : FailsWith (s.toTarget L T) c) : T.convert z = .error c := by
  obtain ⟨status, hstatus, rfl⟩ := h
  have hrefines := toTarget_refines (L := L) T hs
  rw [hstatus] at hrefines
  cases hconvert : T.convert z with
  | ok w =>
      rw [hconvert] at hrefines
      cases hrefines
  | error c =>
      rw [hconvert] at hrefines
      exact congrArg Except.error hrefines.symm

theorem toFloating_nearest {p : Precision} {x : Floating p.format} (hs : s.number = some z)
    (h : s.toTarget L (.floating p) = .ok x) : NearestIn p.format z.1 x := by
  obtain ⟨w, hconvert, hnumber⟩ := convert_of_ok hs h
  obtain ⟨v, hv, rfl⟩ := Option.map_eq_some_iff.mp hnumber
  obtain ⟨hnarrow, -⟩ := Target.convert_floating_ok hconvert
  exact nearestIn_of_rnd (hv.trans (congrArg some (Precision.narrow_ok.mp hnarrow).2))

/-- Both parts of a complex number are rounded twice. -/
theorem toComplex_nearest {p : Precision} {x y : Floating p.format} (hs : s.number = some z)
    (h : s.toTarget L (.complex p) = .ok (x, y)) :
    (∃ d : Floating binary64, NearestIn binary64 z.1 d ∧ ∃ v, d.value = some v ∧
      NearestIn p.format v x) ∧
    ∃ d : Floating binary64, NearestIn binary64 z.2 d ∧ ∃ v, d.value = some v ∧
      NearestIn p.format v y := by
  obtain ⟨hre, him⟩ := complexParts_refines hs
  obtain ⟨w, hconvert, hnumber⟩ := convert_of_ok hs h
  obtain ⟨v, hv, hnumber⟩ := Option.bind_eq_some_iff.mp hnumber
  obtain ⟨v', hv', rfl⟩ := Option.map_eq_some_iff.mp hnumber
  obtain ⟨hnarrow, hnarrow'⟩ := Target.convert_complex_ok hconvert
  constructor
  · refine ⟨s.complexParts.1, nearestIn_of_rnd hre, _, hre, nearestIn_of_rnd ?_⟩
    exact hv.trans (congrArg some (Precision.narrow_ok.mp hnarrow).2)
  · refine ⟨s.complexParts.2, nearestIn_of_rnd him, _, him, nearestIn_of_rnd ?_⟩
    exact hv'.trans (congrArg some (Precision.narrow_ok.mp hnarrow').2)

/-- Conversions to the floating and the complex types are nearest, and all conversions keep
the order and have ranges without gaps. -/
theorem conversions_nearest_in_order (L : LongDouble) :
    (∀ (s : Scalar) (z : ℚ × ℚ) (p : Precision), s.number = some z →
      (∀ x : Floating p.format, s.toTarget L (.floating p) = .ok x → NearestIn p.format z.1 x) ∧
      ∀ x y : Floating p.format, s.toTarget L (.complex p) = .ok (x, y) →
        (∃ d : Floating binary64, NearestIn binary64 z.1 d ∧ ∃ v, d.value = some v ∧
          NearestIn p.format v x) ∧
        ∃ d : Floating binary64, NearestIn binary64 z.2 d ∧ ∃ v, d.value = some v ∧
          NearestIn p.format v y) ∧
    ∀ (T : Target) (s₁ s₂ : Scalar) (z₁ z₂ : ℚ × ℚ) (v₁ v₂ : T.Value),
      s₁.number = some z₁ → s₂.number = some z₂ → z₁ ≤ z₂ →
      s₁.toTarget L T = .ok v₁ → s₂.toTarget L T = .ok v₂ →
      (∃ w₁ w₂, T.number v₁ = some w₁ ∧ T.number v₂ = some w₂ ∧ w₁ ≤ w₂) ∧
      ∀ (s : Scalar) (z : ℚ × ℚ), s.number = some z → z₁ ≤ z → z ≤ z₂ →
        ¬ FailsWith (s.toTarget L T) .kOutOfRange := by
  constructor
  · intro s z p hs
    exact ⟨fun x hx => toFloating_nearest hs hx, fun x y hxy => toComplex_nearest hs hxy⟩
  · intro T s₁ s₂ z₁ z₂ v₁ v₂ hs₁ hs₂ hle h₁ h₂
    obtain ⟨w₁, hc₁, hw₁⟩ := convert_of_ok hs₁ h₁
    obtain ⟨w₂, hc₂, hw₂⟩ := convert_of_ok hs₂ h₂
    constructor
    · refine ⟨w₁, w₂, hw₁, hw₂, ?_⟩
      rw [Target.convert_ok hc₁, Target.convert_ok hc₂]
      exact T.rounded_mono hle
    · intro s z hs hz₁ hz₂ hfails
      exact Target.convert_between hc₁ hc₂ hz₁ hz₂ (convert_of_failsWith hs hfails)

/-- The integers `2^53 + 1` and `2^53 + 3` are no `double`s: what the first converts to is
nearest, and not above what the second converts to. -/
theorem conversions_nearest_in_order_odd :
    NearestIn binary64 (2 ^ 53 + 1) (binary64.ofRat ((2 ^ 53 + 1 : ℤ) : ℚ)) ∧
    ∃ w₁ w₂, (Target.floating .double).number (binary64.ofRat ((2 ^ 53 + 1 : ℤ) : ℚ)) = some w₁ ∧
      (Target.floating .double).number (binary64.ofRat ((2 ^ 53 + 3 : ℤ) : ℚ)) = some w₂ ∧
      w₁ ≤ w₂ := by
  have hall := conversions_nearest_in_order extended80
  have h₁ := (integer_paths extended80 .double
    (s := .signedInteger ⟨2 ^ 53 + 1, by decide⟩) rfl).1
  have h₂ := (integer_paths extended80 .double
    (s := .signedInteger ⟨2 ^ 53 + 3, by decide⟩) rfl).1
  constructor
  · exact_mod_cast (hall.1 _ _ .double rfl).1 _ h₁
  · have hle : ((2 ^ 53 + 1 : ℤ) : ℚ) ≤ ((2 ^ 53 + 3 : ℤ) : ℚ) := by norm_num
    exact (hall.2 _ _ _ (((2 ^ 53 + 1 : ℤ) : ℚ), 0) (((2 ^ 53 + 3 : ℤ) : ℚ), 0) _ _ rfl rfl
      ⟨hle, le_rfl⟩ h₁ h₂).1

end Scalar

end Gradyx
