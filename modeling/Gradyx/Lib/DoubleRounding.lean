import Gradyx.Lib.Rounding

/-! # Rounding twice

A natural number rounded to a finer format first, and then to a coarser one.

* `roundShift` is the rounding of a quotient by a power of two, in integer
  arithmetic; `roundMag_natCast` reads the rounding to a format off it.
* The first rounding can put a number on the midpoint of two coarse ones, and the
  tie then goes to the even one. `NearMidpoint` are the numbers that this moves to
  the wrong side; `roundMag_roundMag_iff` says that no others come out different.
-/

namespace Gradyx.Lib

/-- `n / 2 ^ s` to the nearest integer, the even one of two. -/
def roundShift (n s : ℕ) : ℕ :=
  if 2 * (n % 2 ^ s) < 2 ^ s then n / 2 ^ s
  else if 2 ^ s < 2 * (n % 2 ^ s) then n / 2 ^ s + 1
  else if n / 2 ^ s % 2 = 0 then n / 2 ^ s else n / 2 ^ s + 1

/-- The number is off the midpoint of two multiples of `2 ^ (s + t)` by at most
half of `2 ^ s`, on the side of the odd one. -/
def NearMidpoint (n s t : ℕ) : Prop :=
  (n / 2 ^ (s + t) % 2 = 0 ∧ 2 ^ (s + t) < 2 * (n % 2 ^ (s + t)) ∧
    2 * (n % 2 ^ (s + t)) ≤ 2 ^ (s + t) + 2 ^ s) ∨
  (n / 2 ^ (s + t) % 2 = 1 ∧ 2 * (n % 2 ^ (s + t)) < 2 ^ (s + t) ∧
    2 ^ (s + t) ≤ 2 * (n % 2 ^ (s + t)) + 2 ^ s)

instance (n s t : ℕ) : Decidable (NearMidpoint n s t) := inferInstanceAs (Decidable (_ ∨ _))

/-! ## In integer arithmetic -/

/-- The rounding of a quotient and a remainder. -/
theorem roundShift_of_eq {n s q r : ℕ} (hn : n = 2 ^ s * q + r) (hr : r < 2 ^ s) :
    roundShift n s =
      if 2 * r < 2 ^ s then q else if 2 ^ s < 2 * r then q + 1
      else if q % 2 = 0 then q else q + 1 := by
  obtain ⟨hq, hr'⟩ := (Nat.div_mod_unique (Nat.two_pow_pos s)).mpr
    ⟨(hn.trans (Nat.add_comm _ _)).symm, hr⟩
  rw [roundShift, hq, hr']

theorem roundShift_mul (w s t : ℕ) : roundShift (w * 2 ^ s) (s + t) = roundShift w t := by
  have hpos := Nat.two_pow_pos s
  have hmod : w * 2 ^ s % 2 ^ (s + t) = 2 ^ s * (w % 2 ^ t) := by
    rw [Nat.pow_add, Nat.mul_comm w, Nat.mul_mod_mul_left]
  have hdiv : w * 2 ^ s / 2 ^ (s + t) = w / 2 ^ t := by
    rw [Nat.pow_add, Nat.mul_comm w, Nat.mul_div_mul_left _ _ hpos]
  have hlt : 2 * (2 ^ s * (w % 2 ^ t)) < 2 ^ (s + t) ↔ 2 * (w % 2 ^ t) < 2 ^ t := by
    rw [Nat.pow_add, Nat.mul_left_comm]
    exact Nat.mul_lt_mul_left hpos
  have hgt : 2 ^ (s + t) < 2 * (2 ^ s * (w % 2 ^ t)) ↔ 2 ^ t < 2 * (w % 2 ^ t) := by
    rw [Nat.pow_add, Nat.mul_left_comm]
    exact Nat.mul_lt_mul_left hpos
  rw [roundShift, roundShift, hmod, hdiv]
  simp only [hlt, hgt]

@[simp] theorem roundShift_zero (n : ℕ) : roundShift n 0 = n := by
  rw [roundShift_of_eq (q := n) (r := 0) (by omega) (Nat.two_pow_pos 0)]
  rfl

theorem roundShift_mul_self (m s : ℕ) : roundShift (m * 2 ^ s) s = m := by
  have := roundShift_mul m s 0
  rwa [Nat.add_zero, roundShift_zero] at this

theorem roundShift_bounds (n s : ℕ) :
    n / 2 ^ s ≤ roundShift n s ∧ roundShift n s ≤ n / 2 ^ s + 1 := by
  unfold roundShift
  split_ifs <;> omega

/-- The same where the unit is `2 * h`. -/
theorem roundShift_of_half {n s q r h : ℕ} (hpow : 2 ^ s = 2 * h) (hn : n = 2 ^ s * q + r)
    (hr : r < 2 ^ s) :
    roundShift n s =
      if r < h then q else if h < r then q + 1 else if q % 2 = 0 then q else q + 1 := by
  rw [roundShift_of_eq hn hr, hpow]
  simp only [Nat.mul_lt_mul_left two_pos]

/-- The number after it, which may be the next multiple. -/
theorem roundShift_succ {n s q r h : ℕ} (hh : 2 ≤ h) (hpow : 2 ^ s = 2 * h)
    (hn : n = 2 ^ s * q + r) (hr : r < 2 ^ s) :
    roundShift (n + 1) s =
      if r + 1 < h then q else if h < r + 1 then q + 1 else if q % 2 = 0 then q else q + 1 := by
  rcases Nat.eq_or_lt_of_le (Nat.succ_le_of_lt hr) with heq | hlt
  · have hnext : n + 1 = 2 ^ s * (q + 1) + 0 := by
      rw [hn, Nat.mul_succ]
      omega
    rw [roundShift_of_half hpow hnext (Nat.two_pow_pos s), if_pos (by omega), if_neg (by omega),
      if_pos (by omega)]
  · exact roundShift_of_half hpow (by omega) hlt

/-- Where a multiple of `v` stands to another one. -/
theorem multiple_cases (v r h : ℕ) :
    (r + 2 ≤ h ∧ v * r + 2 * v ≤ v * h) ∨ (r + 1 = h ∧ v * r + v = v * h) ∨
      (r = h ∧ v * r = v * h) ∨ (h + 1 ≤ r ∧ v * h + v ≤ v * r) := by
  rcases Nat.lt_trichotomy r h with hlt | rfl | hgt
  · rcases Nat.eq_or_lt_of_le (Nat.succ_le_of_lt hlt) with heq | hlt'
    · refine .inr (.inl ⟨heq, ?_⟩)
      rw [← heq, Nat.mul_succ]
    · refine .inl ⟨hlt', ?_⟩
      calc v * r + 2 * v = v * (r + 2) := by ring
        _ ≤ v * h := Nat.mul_le_mul_left _ hlt'
  · exact .inr (.inr (.inl ⟨rfl, rfl⟩))
  · refine .inr (.inr (.inr ⟨hgt, ?_⟩))
    calc v * h + v = v * (h + 1) := by ring
      _ ≤ v * r := Nat.mul_le_mul_left _ hgt

/-- Rounding twice differs from rounding once exactly near a midpoint. -/
theorem roundShift_roundShift_iff (n s : ℕ) {t : ℕ} (ht : 2 ≤ t) :
    roundShift (roundShift n s) t = roundShift n (s + t) ↔ ¬ NearMidpoint n s t := by
  obtain ⟨u, rfl⟩ : ∃ u, t = u + 2 := ⟨t - 2, by omega⟩
  -- the number is `v (2 h Q + R) + b`, where `v` is `2 ^ s` and `2 h` is `2 ^ t`
  obtain ⟨h, heven, htwo, hpow⟩ : ∃ h, h % 2 = 0 ∧ 2 ≤ h ∧ 2 ^ (u + 2) = 2 * h := by
    refine ⟨2 ^ (u + 1), ?_, ?_, Nat.pow_succ'⟩
    · rw [Nat.pow_succ, Nat.mul_mod_left]
    · exact Nat.le_self_pow (Nat.succ_ne_zero u) 2
  obtain ⟨A, b, hb, hn⟩ : ∃ A b, b < 2 ^ s ∧ n = 2 ^ s * A + b :=
    ⟨n / 2 ^ s, n % 2 ^ s, Nat.mod_lt _ (Nat.two_pow_pos s), (Nat.div_add_mod n _).symm⟩
  obtain ⟨Q, R, hR, hA⟩ : ∃ Q R, R < 2 ^ (u + 2) ∧ A = 2 ^ (u + 2) * Q + R :=
    ⟨A / 2 ^ (u + 2), A % 2 ^ (u + 2), Nat.mod_lt _ (Nat.two_pow_pos _), (Nat.div_add_mod A _).symm⟩
  have hn' : n = 2 ^ (s + (u + 2)) * Q + (2 ^ s * R + b) := by
    rw [hn, hA, Nat.pow_add]
    ring
  have hunit : 2 ^ (s + (u + 2)) = 2 * (2 ^ s * h) := by
    rw [Nat.pow_add, hpow]
    ring
  have hr : 2 ^ s * R + b < 2 ^ (s + (u + 2)) := by
    have hle : 2 ^ s * (R + 1) ≤ 2 ^ s * (2 * h) := Nat.mul_le_mul_left _ (hpow ▸ hR)
    rw [hunit]
    rw [Nat.mul_add_one, Nat.mul_left_comm] at hle
    omega
  obtain ⟨hq, hrem⟩ := (Nat.div_mod_unique (Nat.two_pow_pos (s + (u + 2)))).mpr
    ⟨(hn'.trans (Nat.add_comm _ _)).symm, hr⟩
  have hparity : A % 2 = R % 2 := by rw [hA, hpow, Nat.mul_assoc, Nat.mul_add_mod]
  have honce := roundShift_of_half hunit hn' hr
  have hside := multiple_cases (2 ^ s) R h
  rw [NearMidpoint, hq, hrem, hunit]
  generalize 2 ^ s * R = x, 2 ^ s * h = y at honce hside ⊢
  -- the first rounding goes down or up, and reaches the midpoint from one side only
  by_cases hdown : 2 * b < 2 ^ s ∨ 2 * b = 2 ^ s ∧ A % 2 = 0
  · have hfirst : roundShift n s = A := by
      rw [roundShift_of_eq hn hb]
      split_ifs <;> omega
    rw [hfirst, roundShift_of_half hpow hA hR, honce]
    rcases hside with ⟨hR', hx⟩ | ⟨hR', hx⟩ | ⟨hR', hx⟩ | ⟨hR', hx⟩
    · rw [if_pos (by omega), if_pos (by omega)]
      omega
    · rw [if_pos (by omega), if_pos (by omega)]
      omega
    · -- on the midpoint: the tie is right only where `b` is zero
      rw [if_neg (by omega), if_neg (by omega)]
      split_ifs <;> omega
    · rw [if_neg (by omega), if_pos (by omega), if_neg (by omega), if_pos (by omega)]
      omega
  · have hfirst : roundShift n s = A + 1 := by
      rw [roundShift_of_eq hn hb]
      split_ifs <;> omega
    rw [hfirst, roundShift_succ htwo hpow hA hR, honce]
    rcases hside with ⟨hR', hx⟩ | ⟨hR', hx⟩ | ⟨hR', hx⟩ | ⟨hR', hx⟩
    · rw [if_pos (by omega), if_pos (by omega)]
      omega
    · -- up to the midpoint, from below it
      rw [if_neg (by omega), if_neg (by omega)]
      split_ifs <;> omega
    · rw [if_neg (by omega), if_pos (by omega), if_neg (by omega), if_pos (by omega)]
      omega
    · rw [if_neg (by omega), if_pos (by omega), if_neg (by omega), if_pos (by omega)]
      omega

/-! ## In formats -/

theorem roundHalfEven_natCast_div (n s : ℕ) :
    roundHalfEven ((n : ℚ) / 2 ^ s) = (roundShift n s : ℕ) := by
  have hpos : (0 : ℚ) < 2 ^ s := by positivity
  have hfloor : ⌊(n : ℚ) / 2 ^ s⌋ = ((n / 2 ^ s : ℕ) : ℤ) := by
    have := Rat.floor_natCast_div_natCast n (2 ^ s)
    push_cast at this ⊢
    exact this
  have hrest : (n : ℚ) / 2 ^ s - ((n / 2 ^ s : ℕ) : ℤ) = ((n % 2 ^ s : ℕ) : ℚ) / 2 ^ s := by
    have hn : ((2 ^ s * (n / 2 ^ s) + n % 2 ^ s : ℕ) : ℚ) = n := by rw [Nat.div_add_mod]
    rw [Nat.cast_add, Nat.cast_mul, Nat.cast_pow, Nat.cast_two] at hn
    rw [eq_div_iff hpos.ne', sub_mul, div_mul_cancel₀ _ hpos.ne', Int.cast_natCast]
    linarith
  have hlt : ((n % 2 ^ s : ℕ) : ℚ) / 2 ^ s < 1 / 2 ↔ 2 * (n % 2 ^ s) < 2 ^ s := by
    rw [div_lt_div_iff₀ hpos two_pos, one_mul, mul_comm]
    exact_mod_cast Iff.rfl
  have hgt : 1 / 2 < ((n % 2 ^ s : ℕ) : ℚ) / 2 ^ s ↔ 2 ^ s < 2 * (n % 2 ^ s) := by
    rw [div_lt_div_iff₀ two_pos hpos, one_mul, mul_comm]
    exact_mod_cast Iff.rfl
  have heven : Even ((n / 2 ^ s : ℕ) : ℤ) ↔ n / 2 ^ s % 2 = 0 := by
    rw [Int.even_coe_nat, Nat.even_iff]
  unfold roundHalfEven roundShift
  simp only [hfloor, hrest, hlt, hgt, heven]
  split_ifs <;> simp

namespace Format

variable {F G : Format}

/-- A natural number of `k + 1` bits is rounded to a multiple of `2 ^ s`, where
`s` bits are too many. -/
theorem roundMag_natCast {n k s : ℕ} (hlo : 2 ^ k ≤ n) (hhi : n < 2 ^ (k + 1))
    (hs : F.prec + s = k + 1) : F.roundMag n = ((roundShift n s * 2 ^ s : ℕ) : ℚ) := by
  have hlog : Int.log 2 (n : ℚ) = k := by
    rw [Int.log_natCast, Nat.log_eq_of_pow_le_of_lt_pow hlo hhi]
  have hexp : F.exponent n = s := by
    have := F.emin_nonpos
    rw [exponent, hlog]
    exact max_eq_left_iff.mpr (by omega) |>.trans (by omega)
  rw [roundMag, hexp, zpow_natCast, roundHalfEven_natCast_div]
  push_cast
  rfl

theorem roundMag_natCast_of_lt {n : ℕ} (h : n < 2 ^ F.prec) : F.roundMag n = n :=
  roundMag_of_rep (rep_natCast h)

theorem rnd_natCast {n k s : ℕ} (hlo : 2 ^ k ≤ n) (hhi : n < 2 ^ (k + 1))
    (hs : F.prec + s = k + 1) : F.rnd n = ((roundShift n s * 2 ^ s : ℕ) : ℚ) := by
  rw [rnd, if_neg (not_lt.mpr (Nat.cast_nonneg n)), roundMag_natCast hlo hhi hs]

/-- The second rounding, of a number that the first one gave. -/
theorem roundMag_shifted {n k s t : ℕ} (hk : F.prec + (s + t) = k + 1) (hlo : 2 ^ k ≤ n)
    (hhi : n < 2 ^ (k + 1)) : F.roundMag ((roundShift n s * 2 ^ s : ℕ) : ℚ) =
      ((roundShift (roundShift n s) t * 2 ^ (s + t) : ℕ) : ℚ) := by
  have hprec := F.prec_pos
  obtain ⟨hge, hle⟩ := roundShift_bounds n s
  have hpow : 2 ^ (k + 1) = 2 ^ (F.prec + t) * 2 ^ s := by
    rw [← hk, ← Nat.pow_add]
    congr 1
    omega
  have hlt : n / 2 ^ s < 2 ^ (F.prec + t) := by
    rw [Nat.div_lt_iff_lt_mul (Nat.two_pow_pos s), ← hpow]
    exact hhi
  rcases Nat.lt_or_eq_of_le (hle.trans hlt) with hw | hw
  · -- the number still has `k + 1` bits
    have hlo' : 2 ^ k ≤ roundShift n s * 2 ^ s := by
      have hdvd : 2 ^ k = 2 ^ (k - s) * 2 ^ s := by
        rw [← Nat.pow_add]
        congr 1
        omega
      have hdiv : 2 ^ (k - s) ≤ n / 2 ^ s := by
        rw [Nat.le_div_iff_mul_le (Nat.two_pow_pos s), ← hdvd]
        exact hlo
      rw [hdvd]
      exact Nat.mul_le_mul_right _ (hdiv.trans hge)
    have hhi' : roundShift n s * 2 ^ s < 2 ^ (k + 1) := by
      rw [hpow]
      exact Nat.mul_lt_mul_of_pos_right hw (Nat.two_pow_pos s)
    rw [roundMag_natCast hlo' hhi' hk, roundShift_mul]
  · -- up to the next power of two, which both formats have
    have hgrid : F.Grid ((2 ^ (k + 1) : ℕ) : ℚ) := by
      refine ⟨1, (k + 1 : ℕ), Nat.one_lt_two_pow hprec.ne', ?_, ?_⟩
      · exact F.emin_nonpos.trans (Int.natCast_nonneg _)
      · rw [zpow_natCast]
        push_cast
        ring
    have hexact : roundShift (2 ^ (F.prec + t)) t = 2 ^ F.prec := by
      rw [Nat.pow_add, roundShift_mul_self]
    rw [hw, ← hpow, roundMag_of_grid hgrid, hexact, ← Nat.pow_add, hk]

/-- Rounding to a finer format first changes the result exactly near the
midpoints. -/
theorem roundMag_roundMag_iff {t : ℕ} (ht : 2 ≤ t) (hprec : G.prec = F.prec + t) (n : ℕ) :
    F.roundMag (G.roundMag n) = F.roundMag n ↔ ¬ NearMidpoint n (n.log2 + 1 - G.prec) t := by
  have hprec_pos := F.prec_pos
  by_cases hn : n < 2 ^ G.prec
  · -- the finer format has the number
    have hs : n.log2 + 1 - G.prec = 0 := by
      rcases Nat.eq_zero_or_pos n with rfl | hpos
      · rw [Nat.log2_zero]
        omega
      · have := (Nat.log2_lt hpos.ne').mpr hn
        omega
    rw [roundMag_natCast_of_lt hn, hs, ← roundShift_roundShift_iff n 0 ht, roundShift_zero,
      Nat.zero_add]
    exact iff_of_true rfl rfl
  · have hne : n ≠ 0 := by
      rintro rfl
      exact hn (Nat.two_pow_pos _)
    have hlo : 2 ^ n.log2 ≤ n := Nat.log2_self_le hne
    have hhi : n < 2 ^ (n.log2 + 1) := Nat.lt_log2_self
    obtain ⟨s, hs⟩ : ∃ s, G.prec + s = n.log2 + 1 := by
      have : G.prec ≤ n.log2 := (Nat.le_log2 hne).mpr (not_lt.mp hn)
      exact ⟨n.log2 + 1 - G.prec, by omega⟩
    have hs' : n.log2 + 1 - G.prec = s := by omega
    have honce : F.roundMag n = ((roundShift n (s + t) * 2 ^ (s + t) : ℕ) : ℚ) :=
      roundMag_natCast hlo hhi (by omega)
    have htwice : F.roundMag (G.roundMag n) =
        ((roundShift (roundShift n s) t * 2 ^ (s + t) : ℕ) : ℚ) := by
      rw [roundMag_natCast hlo hhi hs]
      exact roundMag_shifted (by omega) hlo hhi
    rw [hs', ← roundShift_roundShift_iff n s ht, honce, htwice, Nat.cast_inj]
    exact Nat.mul_left_inj (Nat.two_pow_pos _).ne'

end Format

namespace Floating

variable {F G : Format}

theorem round_eq_finite {neg : Bool} {mag : ℚ} (h : mag ≤ F.max) :
    F.round neg mag = .finite neg (F.roundMag mag) (Format.rep_roundMag h) := by
  rw [Format.round, dif_pos (Format.rep_roundMag h).2]

/-- A conversion by way of another format agrees with the direct one when the
magnitudes do. -/
theorem ofRat_convert_eq_iff {q : ℚ} (hF : |q| ≤ F.max) (hG : |q| ≤ G.max)
    (hGF : G.roundMag |q| ≤ F.max) :
    (G.ofRat q).convert F = F.ofRat q ↔ F.roundMag (G.roundMag |q|) = F.roundMag |q| := by
  rw [Format.ofRat, Format.ofRat, round_eq_finite hG, round_eq_finite hF, convert,
    round_eq_finite hGF, Floating.finite.injEq]
  exact and_iff_right rfl

/-- A value of both formats is converted as it is. -/
theorem ofRat_convert_of_rep {q : ℚ} (hF : F.Rep |q|) (hG : G.Rep |q|) :
    (G.ofRat q).convert F = F.ofRat q := by
  have hexact : G.roundMag |q| = |q| := Format.roundMag_of_rep hG
  refine (ofRat_convert_eq_iff hF.2 hG.2 ?_).mpr ?_
  · rw [hexact]
    exact hF.2
  · rw [hexact]

/-- The value of a natural number of `k + 1` bits. -/
theorem value_ofRat_natCast {n k s : ℕ} (hlo : 2 ^ k ≤ n) (hhi : n < 2 ^ (k + 1))
    (hs : F.prec + s = k + 1) (hmax : (n : ℚ) ≤ F.max) :
    (F.ofRat n).value = some ((roundShift n s * 2 ^ s : ℕ) : ℚ) := by
  rw [value_ofRat (by rwa [Nat.abs_cast]), Format.rnd_natCast hlo hhi hs]

end Floating

end Gradyx.Lib
