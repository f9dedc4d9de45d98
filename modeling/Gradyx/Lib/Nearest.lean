import Gradyx.Lib.Rounding

/-! # Rounding to nearest

A function that takes every number to a nearest value of a set is monotone, whatever it
does with ties. Rounding to the grid of a format is one: no value of the format is
nearer.
-/

namespace Gradyx.Lib

universe u

/-- `f` takes every number to a value of `S`, and no value of `S` is nearer. -/
structure RoundsTo {α : Type u} [Field α] [LinearOrder α] (S : Set α) (f : α → α) : Prop where
  mem : ∀ x, f x ∈ S
  nearest : ∀ x, ∀ y ∈ S, |x - f x| ≤ |x - y|

theorem RoundsTo.monotone {α : Type u} [Field α] [LinearOrder α] [IsStrictOrderedRing α]
    {S : Set α} {f : α → α} (h : RoundsTo S f) : Monotone f := by
  intro x y hxy
  by_contra hlt
  push Not at hlt
  -- `x` is no nearer to the smaller value, `y` no nearer to the larger one
  have hx := h.nearest x (f y) (h.mem y)
  have hy := h.nearest y (f x) (h.mem x)
  have hx' : f x + f y ≤ 2 * x := by
    rcases abs_cases (x - f x) with ⟨h₁, h₁'⟩ | ⟨h₁, h₁'⟩ <;>
      rcases abs_cases (x - f y) with ⟨h₂, h₂'⟩ | ⟨h₂, h₂'⟩ <;> linarith
  have hy' : 2 * y ≤ f x + f y := by
    rcases abs_cases (y - f x) with ⟨h₁, h₁'⟩ | ⟨h₁, h₁'⟩ <;>
      rcases abs_cases (y - f y) with ⟨h₂, h₂'⟩ | ⟨h₂, h₂'⟩ <;> linarith
  have heq : x = y := by linarith
  rw [heq] at hlt
  exact absurd hlt (lt_irrefl _)

/-! ## Integers -/

theorem abs_sub_roundHalfEven_le (x : ℚ) : |x - roundHalfEven x| ≤ 1 / 2 := by
  have hfloor := Int.floor_le x
  have hlt := Int.lt_floor_add_one x
  unfold roundHalfEven
  dsimp only
  rw [abs_le]
  split_ifs <;> push_cast <;> constructor <;> linarith

/-- Two integers are at least one apart. -/
theorem roundHalfEven_nearest (x : ℚ) (k : ℤ) : |x - roundHalfEven x| ≤ |x - k| := by
  have hhalf := abs_sub_roundHalfEven_le x
  rcases eq_or_ne k (roundHalfEven x) with heq | hne
  · rw [heq]
  · have hone : (1 : ℚ) ≤ |(roundHalfEven x : ℚ) - k| := by
      rw [← Int.cast_sub, ← Int.cast_abs]
      exact_mod_cast Int.one_le_abs (sub_ne_zero.mpr hne.symm)
    have htriangle := abs_sub_le (roundHalfEven x : ℚ) x k
    rw [abs_sub_comm (roundHalfEven x : ℚ) x] at htriangle
    linarith

theorem roundHalfEven_nonneg {x : ℚ} (h : 0 ≤ x) : 0 ≤ roundHalfEven x := by
  have hfloor : 0 ≤ ⌊x⌋ := Int.floor_nonneg.mpr h
  rcases roundHalfEven_cases x with heq | ⟨heq, -⟩ <;> omega

/-! ## Formats -/

namespace Format

variable {F : Format}

theorem roundMag_eq {x : ℚ} (h : 0 ≤ x) :
    F.roundMag x = roundHalfEven (x / 2 ^ F.exponent x) * 2 ^ F.exponent x := by
  have hnonneg := roundHalfEven_nonneg (div_nonneg h (by positivity : (0 : ℚ) ≤ 2 ^ F.exponent x))
  rw [roundMag]
  congr 1
  exact_mod_cast Int.toNat_of_nonneg hnonneg

/-- No multiple of the last place is nearer. -/
theorem roundMag_nearest_multiple {x : ℚ} (h : 0 ≤ x) (k : ℤ) :
    |x - F.roundMag x| ≤ |x - k * 2 ^ F.exponent x| := by
  have hpos : (0 : ℚ) < 2 ^ F.exponent x := by positivity
  have hscale : ∀ y : ℚ, |x - y * 2 ^ F.exponent x| =
      |x / 2 ^ F.exponent x - y| * 2 ^ F.exponent x := by
    intro y
    rw [← abs_of_pos hpos, ← abs_mul, abs_of_pos hpos, sub_mul, div_mul_cancel₀ _ hpos.ne']
  rw [roundMag_eq h, hscale, hscale]
  exact mul_le_mul_of_nonneg_right (roundHalfEven_nearest _ k) hpos.le

/-- A grid point with a finer last place than a magnitude is below it, and a multiple of
the magnitude's last place lies between. -/
theorem exists_multiple_between {x : ℚ} {m : ℕ} {e : ℤ} (hx : 0 < x) (hm : m < 2 ^ F.prec)
    (he : F.emin ≤ e) (hlt : e < F.exponent x) :
    ∃ k : ℤ, (m * 2 ^ e : ℚ) ≤ k * 2 ^ F.exponent x ∧ (k * 2 ^ F.exponent x : ℚ) ≤ x := by
  obtain ⟨p, hp⟩ : ∃ p, F.prec = p + 1 := ⟨F.prec - 1, by have := F.prec_pos; omega⟩
  -- the exponent is not the smallest one, so the magnitude has all its places
  have hexp : F.exponent x = Int.log 2 x + 1 - F.prec := by
    rcases max_choice (Int.log 2 x + 1 - F.prec) F.emin with hlog | hmin
    · exact hlog
    · rw [exponent, hmin] at hlt
      omega
  have hpow : ((2 ^ p : ℤ) : ℚ) * 2 ^ F.exponent x = 2 ^ Int.log 2 x := by
    have hsum : Int.log 2 x = p + F.exponent x := by
      rw [hexp, hp]
      push_cast
      ring
    rw [hsum, zpow_add₀ two_ne_zero, zpow_natCast]
    push_cast
    rfl
  refine ⟨2 ^ p, ?_, ?_⟩
  · have hm' : (m : ℚ) ≤ 2 ^ F.prec := (natCast_pred_lt hm).le
    calc (m * 2 ^ e : ℚ) ≤ 2 ^ F.prec * 2 ^ e :=
          mul_le_mul_of_nonneg_right hm' (by positivity)
      _ = 2 ^ (F.prec + e) := by rw [zpow_add₀ two_ne_zero, zpow_natCast]
      _ ≤ 2 ^ Int.log 2 x := zpow_le_zpow_right₀ one_le_two (by omega)
      _ = ((2 ^ p : ℤ) : ℚ) * 2 ^ F.exponent x := hpow.symm
  · rw [hpow]
    exact_mod_cast Int.zpow_log_le_self (b := 2) one_lt_two hx

/-- No grid point is nearer. -/
theorem roundMag_nearest {x y : ℚ} (hx : 0 ≤ x) (hy : F.Grid y) :
    |x - F.roundMag x| ≤ |x - y| := by
  rcases hx.eq_or_lt with rfl | hpos
  · rw [roundMag_zero, sub_zero, abs_zero]
    exact abs_nonneg _
  · obtain ⟨m, e, hm, he, rfl⟩ := hy
    rcases le_or_gt (F.exponent x) e with hle | hlt
    · -- a multiple of the last place
      have hmultiple := roundMag_nearest_multiple (F := F) hx (m * 2 ^ (e - F.exponent x).toNat)
      rwa [← div_exponent hle, div_mul_cancel₀ _ (by positivity)] at hmultiple
    · obtain ⟨k, hyk, hkx⟩ := exists_multiple_between hpos hm he hlt
      calc |x - F.roundMag x| ≤ |x - k * 2 ^ F.exponent x| := roundMag_nearest_multiple hx k
        _ ≤ |x - m * 2 ^ e| := by
            rw [abs_of_nonneg (sub_nonneg.mpr hkx), abs_of_nonneg (sub_nonneg.mpr (hyk.trans hkx))]
            exact sub_le_sub_left hyk x

theorem abs_sub_rnd (q : ℚ) : |q - F.rnd q| = |(|q| - F.roundMag |q|)| := by
  rw [rnd]
  split
  · next hneg => rw [abs_of_neg hneg, sub_neg_eq_add, ← abs_neg, neg_add, sub_eq_add_neg]
  · next hnonneg => rw [abs_of_nonneg (not_lt.mp hnonneg)]

theorem abs_rnd (q : ℚ) : |F.rnd q| = F.roundMag |q| := by
  have hnonneg := fun x => (grid_roundMag (F := F) x).nonneg
  rw [rnd]
  split
  · next hneg => rw [abs_of_neg hneg, abs_neg, abs_of_nonneg (hnonneg _)]
  · next hpos => rw [abs_of_nonneg (not_lt.mp hpos), abs_of_nonneg (hnonneg _)]

/-- Rounding to a format, without an upper end. -/
theorem rnd_roundsTo (F : Format) : RoundsTo {q : ℚ | F.Grid |q|} F.rnd where
  mem q := by
    change F.Grid |F.rnd q|
    rw [abs_rnd]
    exact grid_roundMag _
  nearest q r hr := by
    rw [abs_sub_rnd]
    exact (roundMag_nearest (abs_nonneg q) hr).trans (abs_abs_sub_abs_le_abs_sub q r)

end Format

end Gradyx.Lib
