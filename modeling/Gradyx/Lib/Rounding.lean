import Mathlib.Algebra.Order.Field.Power
import Mathlib.Algebra.Order.Floor.Ring
import Mathlib.Data.Int.Log
import Mathlib.Data.Rat.Floor
import Mathlib.Tactic.FieldSimp
import Mathlib.Tactic.Linarith
import Mathlib.Tactic.Positivity
import Mathlib.Tactic.Ring

/-! # Binary floating-point formats

Finite binary formats as grids of dyadic rationals, and rounding to nearest,
ties to even.

* `Format.Grid` is the grid without an upper end, `Format.Rep` cuts it at the
  largest finite value.
* `roundMag` rounds a magnitude to the grid. It keeps grid points, and never
  passes one from below (`roundMag_le`).
* `Floating` is a value of a format: NaN, an infinity, or a sign and a
  representable magnitude. `convert` is the conversion between formats.
-/

namespace Gradyx.Lib

/-! ## Rounding to an integer -/

/-- The nearest integer, the even one of two. -/
def roundHalfEven (x : ℚ) : ℤ :=
  let rest := x - ⌊x⌋
  if rest < 1 / 2 then ⌊x⌋
  else if 1 / 2 < rest then ⌊x⌋ + 1
  else if Even ⌊x⌋ then ⌊x⌋ else ⌊x⌋ + 1

theorem roundHalfEven_cases (x : ℚ) : roundHalfEven x = ⌊x⌋ ∨
    roundHalfEven x = ⌊x⌋ + 1 ∧ 1 / 2 ≤ x - ⌊x⌋ := by
  unfold roundHalfEven
  dsimp only
  split
  · exact .inl rfl
  · next h =>
      have hge : 1 / 2 ≤ x - ⌊x⌋ := not_lt.mp h
      split
      · exact .inr ⟨rfl, hge⟩
      · split
        · exact .inl rfl
        · exact .inr ⟨rfl, hge⟩

@[simp] theorem roundHalfEven_intCast (n : ℤ) : roundHalfEven n = n := by
  simp [roundHalfEven]

/-- Rounding never passes an integer from below. -/
theorem roundHalfEven_le {x : ℚ} {n : ℤ} (h : x ≤ n) : roundHalfEven x ≤ n := by
  rcases roundHalfEven_cases x with hr | ⟨hr, hrest⟩
  · rw [hr]
    exact_mod_cast (Int.floor_le x).trans h
  · -- the rest is not zero, so the floor is below `n`
    have hlt : (⌊x⌋ : ℚ) < n := by linarith
    rw [hr]
    exact_mod_cast hlt

/-! ## Formats -/

/-- A binary format: the length of the significand, and the smallest and the
largest exponent of its last place. -/
structure Format where
  prec : ℕ
  emin : ℤ
  emax : ℤ
  prec_pos : 0 < prec
  emin_nonpos : emin ≤ 0
  emax_nonneg : 0 ≤ emax

namespace Format

variable (F : Format)

/-- The largest finite value. -/
def max : ℚ := (2 ^ F.prec - 1) * 2 ^ F.emax

/-- The values of at most `prec` bits with an exponent from `emin` on. -/
def Grid (q : ℚ) : Prop := ∃ (m : ℕ) (e : ℤ), m < 2 ^ F.prec ∧ F.emin ≤ e ∧ q = m * 2 ^ e

/-- The magnitudes of the finite values. -/
def Rep (q : ℚ) : Prop := F.Grid q ∧ q ≤ F.max

/-- The exponent of the last place of a magnitude. -/
def exponent (x : ℚ) : ℤ := Max.max (Int.log 2 x + 1 - F.prec) F.emin

/-- A magnitude rounded to the grid. -/
def roundMag (x : ℚ) : ℚ :=
  (roundHalfEven (x / 2 ^ F.exponent x)).toNat * 2 ^ F.exponent x

variable {F}

theorem Grid.nonneg {q : ℚ} (h : F.Grid q) : 0 ≤ q := by
  obtain ⟨m, e, -, -, rfl⟩ := h
  positivity

theorem emin_le_exponent (x : ℚ) : F.emin ≤ F.exponent x := le_max_right _ _

/-- A magnitude has at most `prec` places before its last one. -/
theorem lt_exponent (x : ℚ) : x < 2 ^ (F.exponent x + F.prec) := by
  have hlog : x < (2 : ℚ) ^ (Int.log 2 x + 1) := by
    exact_mod_cast Int.lt_zpow_succ_log_self (b := 2) one_lt_two x
  refine hlog.trans_le (zpow_le_zpow_right₀ one_le_two ?_)
  have : Int.log 2 x + 1 - F.prec ≤ F.exponent x := le_max_left _ _
  omega

theorem natCast_pred_lt {m n : ℕ} (h : m < 2 ^ n) : (m : ℚ) < 2 ^ n := by exact_mod_cast h

/-- A magnitude at most a grid point is measured with no coarser a place. -/
theorem exponent_le {x : ℚ} {m : ℕ} {e : ℤ} (hx : 0 < x) (hm : m < 2 ^ F.prec) (he : F.emin ≤ e)
    (hle : x ≤ m * 2 ^ e) : F.exponent x ≤ e := by
  have hlt : x < (2 : ℚ) ^ (F.prec + e) := by
    calc x ≤ m * 2 ^ e := hle
      _ < 2 ^ F.prec * 2 ^ e := by
          have := natCast_pred_lt hm
          have hpos : (0 : ℚ) < 2 ^ e := by positivity
          nlinarith
      _ = 2 ^ (F.prec + e) := by rw [zpow_add₀ two_ne_zero, zpow_natCast]
  have hlog : Int.log 2 x < F.prec + e :=
    (Int.lt_zpow_iff_log_lt (b := 2) one_lt_two hx).mp (by exact_mod_cast hlt)
  exact max_le (by omega) he

/-- A grid point is a multiple of any finer last place. -/
theorem div_exponent {m : ℕ} {e e' : ℤ} (h : e' ≤ e) :
    (m * 2 ^ e : ℚ) / 2 ^ e' = ((m * 2 ^ (e - e').toNat : ℤ) : ℚ) := by
  have hsplit : e = e' + ((e - e').toNat : ℤ) := by omega
  have hne : (2 : ℚ) ^ e' ≠ 0 := by positivity
  have hpow : (2 : ℚ) ^ e = 2 ^ e' * 2 ^ (e - e').toNat := by
    conv_lhs => rw [hsplit, zpow_add₀ two_ne_zero, zpow_natCast]
  rw [hpow]
  push_cast
  field_simp

theorem roundMag_zero : F.roundMag 0 = 0 := by
  have : roundHalfEven 0 = 0 := by exact_mod_cast roundHalfEven_intCast 0
  simp [roundMag, this]

/-- A rounded magnitude is on the grid. -/
theorem grid_roundMag (x : ℚ) : F.Grid (F.roundMag x) := by
  have hpos : (0 : ℚ) < 2 ^ F.exponent x := by positivity
  have hx : x / 2 ^ F.exponent x ≤ ((2 ^ F.prec : ℤ) : ℚ) := by
    rw [div_le_iff₀ hpos]
    push_cast
    have := lt_exponent (F := F) x
    rw [zpow_add₀ two_ne_zero, zpow_natCast] at this
    linarith
  have hn : (roundHalfEven (x / 2 ^ F.exponent x)).toNat ≤ 2 ^ F.prec := by
    rw [Int.toNat_le]
    exact_mod_cast roundHalfEven_le hx
  rcases Nat.lt_or_eq_of_le hn with hlt | heq
  · exact ⟨_, F.exponent x, hlt, emin_le_exponent x, rfl⟩
  · -- the significand overflowed to the next power of two
    refine ⟨1, F.exponent x + F.prec, Nat.one_lt_two_pow F.prec_pos.ne', ?_, ?_⟩
    · have := emin_le_exponent (F := F) x
      omega
    · rw [roundMag, heq, zpow_add₀ two_ne_zero, zpow_natCast]
      push_cast
      ring

/-- Rounding never passes a grid point from below. -/
theorem roundMag_le {x y : ℚ} (hy : F.Grid y) (h : x ≤ y) : F.roundMag x ≤ y := by
  rcases le_or_gt x 0 with hx | hx
  · -- nothing is below zero
    have hz : roundHalfEven (x / 2 ^ F.exponent x) ≤ 0 := by
      refine roundHalfEven_le ?_
      push_cast
      exact div_nonpos_of_nonpos_of_nonneg hx (by positivity)
    rw [roundMag, Int.toNat_of_nonpos hz]
    simpa using hy.nonneg
  · obtain ⟨m, e, hm, he, rfl⟩ := hy
    have hpos : (0 : ℚ) < 2 ^ F.exponent x := by positivity
    have hexp := exponent_le hx hm he h
    have hle : x / 2 ^ F.exponent x ≤ ((m * 2 ^ (e - F.exponent x).toNat : ℤ) : ℚ) := by
      rw [← div_exponent hexp]
      exact div_le_div_of_nonneg_right h hpos.le
    have hround := roundHalfEven_le hle
    have hnat : ((roundHalfEven (x / 2 ^ F.exponent x)).toNat : ℚ) ≤
        ((m * 2 ^ (e - F.exponent x).toNat : ℤ) : ℚ) := by
      have hnonneg : (0 : ℤ) ≤ m * 2 ^ (e - F.exponent x).toNat := by positivity
      have : ((roundHalfEven (x / 2 ^ F.exponent x)).toNat : ℤ) ≤
          m * 2 ^ (e - F.exponent x).toNat := by omega
      exact_mod_cast this
    calc F.roundMag x ≤ ((m * 2 ^ (e - F.exponent x).toNat : ℤ) : ℚ) * 2 ^ F.exponent x :=
          mul_le_mul_of_nonneg_right hnat hpos.le
      _ = m * 2 ^ e := by rw [← div_exponent hexp, div_mul_cancel₀ _ hpos.ne']

/-- Grid points are kept. -/
theorem roundMag_of_grid {x : ℚ} (h : F.Grid x) : F.roundMag x = x := by
  rcases h.nonneg.eq_or_lt with rfl | hx
  · exact roundMag_zero
  · obtain ⟨m, e, hm, he, rfl⟩ := h
    have hexp := exponent_le hx hm he le_rfl
    have hpos : (0 : ℚ) < 2 ^ F.exponent (m * 2 ^ e) := by positivity
    have hnonneg : (0 : ℤ) ≤ m * 2 ^ (e - F.exponent (m * 2 ^ e)).toNat := by positivity
    have hcast : (((m * 2 ^ (e - F.exponent (m * 2 ^ e)).toNat : ℤ).toNat : ℕ) : ℚ) =
        ((m * 2 ^ (e - F.exponent (m * 2 ^ e)).toNat : ℤ) : ℚ) := by
      exact_mod_cast Int.toNat_of_nonneg hnonneg
    rw [roundMag, div_exponent hexp, roundHalfEven_intCast, hcast, ← div_exponent hexp,
      div_mul_cancel₀ _ hpos.ne']

/-! ### Finite values -/

theorem max_nonneg : 0 ≤ F.max := by
  have : (1 : ℚ) ≤ 2 ^ F.prec := one_le_pow₀ one_le_two
  exact mul_nonneg (by linarith) (by positivity)

theorem grid_max : F.Grid F.max := by
  refine ⟨2 ^ F.prec - 1, F.emax, ?_, F.emin_nonpos.trans F.emax_nonneg, ?_⟩
  · exact Nat.sub_lt (Nat.two_pow_pos _) one_pos
  · rw [max, Nat.cast_sub (Nat.one_le_two_pow)]
    push_cast
    rfl

/-- A magnitude that is not above the largest finite value rounds to a finite
value. -/
theorem rep_roundMag {x : ℚ} (h : x ≤ F.max) : F.Rep (F.roundMag x) :=
  ⟨grid_roundMag x, roundMag_le grid_max h⟩

theorem roundMag_of_rep {x : ℚ} (h : F.Rep x) : F.roundMag x = x := roundMag_of_grid h.1

theorem rep_zero : F.Rep 0 := ⟨⟨0, 0, Nat.two_pow_pos _, F.emin_nonpos, by simp⟩, F.max_nonneg⟩

/-- The natural numbers of at most `prec` bits. -/
theorem rep_natCast {n : ℕ} (h : n < 2 ^ F.prec) : F.Rep n := by
  refine ⟨⟨n, 0, h, F.emin_nonpos, by simp⟩, ?_⟩
  have hn : (n : ℚ) ≤ 2 ^ F.prec - 1 := by
    have : (n : ℚ) + 1 ≤ 2 ^ F.prec := by exact_mod_cast h
    linarith
  have hone : (1 : ℚ) ≤ 2 ^ F.emax := one_le_zpow₀ one_le_two F.emax_nonneg
  have hsig : (0 : ℚ) ≤ 2 ^ F.prec - 1 := by
    have := Nat.cast_nonneg (α := ℚ) n
    linarith
  calc (n : ℚ) ≤ 2 ^ F.prec - 1 := hn
    _ ≤ (2 ^ F.prec - 1) * 2 ^ F.emax := le_mul_of_one_le_right hsig hone

/-- Cutting off the fraction stays in the format. -/
theorem rep_floor {q : ℚ} (h : F.Rep q) : F.Rep ⌊q⌋ := by
  obtain ⟨⟨m, e, hm, he, rfl⟩, hle⟩ := h
  refine ⟨?_, (Int.floor_le _).trans hle⟩
  rcases le_or_gt 0 e with hnonneg | hneg
  · -- an integer already
    have hint : (m * 2 ^ e : ℚ) = ((m * 2 ^ e.toNat : ℤ) : ℚ) := by
      have := div_exponent (m := m) hnonneg
      rwa [zpow_zero, div_one, sub_zero] at this
    rw [hint, Int.floor_intCast, ← hint]
    exact ⟨m, e, hm, he, rfl⟩
  · obtain ⟨k, rfl⟩ : ∃ k : ℕ, e = -k := ⟨(-e).toNat, by omega⟩
    have hdiv : (m * 2 ^ (-(k : ℤ)) : ℚ) = (m : ℚ) / ((2 ^ k : ℕ) : ℚ) := by
      rw [zpow_neg, zpow_natCast, div_eq_mul_inv]
      push_cast
      rfl
    refine ⟨m / 2 ^ k, 0, (Nat.div_le_self _ _).trans_lt hm, F.emin_nonpos, ?_⟩
    rw [hdiv, Rat.floor_natCast_div_natCast, ← Int.natCast_div, Int.cast_natCast, zpow_zero,
      mul_one]

theorem rep_one : F.Rep 1 := by
  have hone : F.Rep ((1 : ℕ) : ℚ) := rep_natCast (Nat.one_lt_two_pow F.prec_pos.ne')
  rwa [Nat.cast_one] at hone

/-- A format that is at least as fine, as long and as wide as another. -/
structure Includes (G F : Format) : Prop where
  prec : F.prec ≤ G.prec
  emin : G.emin ≤ F.emin
  emax : F.emax ≤ G.emax

theorem Includes.trans {G H : Format} (h : H.Includes G) (h' : G.Includes F) : H.Includes F :=
  ⟨h'.prec.trans h.prec, h.emin.trans h'.emin, h'.emax.trans h.emax⟩

/-- The powers of two in range. -/
theorem rep_two_pow {n : ℕ} (h : (n : ℤ) ≤ F.emax) : F.Rep (2 ^ n) := by
  refine ⟨⟨1, n, Nat.one_lt_two_pow F.prec_pos.ne', F.emin_nonpos.trans (Int.natCast_nonneg n),
    by simp⟩, ?_⟩
  have hsig : (1 : ℚ) ≤ 2 ^ F.prec - 1 := by
    have : (2 : ℚ) ^ 1 ≤ 2 ^ F.prec := pow_le_pow_right₀ one_le_two F.prec_pos
    linarith
  have hexp : (2 : ℚ) ^ n ≤ 2 ^ F.emax := by
    rw [← zpow_natCast]
    exact zpow_le_zpow_right₀ one_le_two h
  calc (2 : ℚ) ^ n ≤ 2 ^ F.emax := hexp
    _ ≤ (2 ^ F.prec - 1) * 2 ^ F.emax := le_mul_of_one_le_left (by positivity) hsig

/-- A wider format has all the values. -/
theorem Includes.rep {G : Format} (h : G.Includes F) {q : ℚ} (hq : F.Rep q) : G.Rep q := by
  obtain ⟨⟨m, e, hm, he, rfl⟩, hle⟩ := hq
  have hpow : (2 : ℕ) ^ F.prec ≤ 2 ^ G.prec := Nat.pow_le_pow_right two_pos h.prec
  refine ⟨⟨m, e, hm.trans_le hpow, h.emin.trans he, rfl⟩, hle.trans ?_⟩
  have hsig : (2 : ℚ) ^ F.prec - 1 ≤ 2 ^ G.prec - 1 := by
    have : (2 : ℚ) ^ F.prec ≤ 2 ^ G.prec := pow_le_pow_right₀ one_le_two h.prec
    linarith
  have hexp : (2 : ℚ) ^ F.emax ≤ 2 ^ G.emax := zpow_le_zpow_right₀ one_le_two h.emax
  have hnonneg : (0 : ℚ) ≤ 2 ^ G.prec - 1 := by
    have : (1 : ℚ) ≤ 2 ^ G.prec := one_le_pow₀ one_le_two
    linarith
  exact mul_le_mul hsig hexp (by positivity) hnonneg

/-- A number rounded to the grid. -/
def rnd (F : Format) (q : ℚ) : ℚ := if q < 0 then -F.roundMag (-q) else F.roundMag q

/-- Rounding stays within a grid point. -/
theorem abs_rnd_le {q y : ℚ} (hy : F.Grid y) (h : |q| ≤ y) : |F.rnd q| ≤ y := by
  have hnonneg : 0 ≤ F.roundMag |q| := (grid_roundMag |q|).nonneg
  have hle : F.roundMag |q| ≤ y := roundMag_le hy h
  unfold rnd
  split
  · next hneg =>
      rw [abs_of_neg hneg] at hnonneg hle
      rwa [abs_neg, abs_of_nonneg hnonneg]
  · next hpos =>
      rw [abs_of_nonneg (not_lt.mp hpos)] at hnonneg hle
      rwa [abs_of_nonneg hnonneg]

theorem rnd_of_rep {q : ℚ} (h : F.Rep |q|) : F.rnd q = q := by
  unfold rnd
  split
  · next hneg =>
      rw [abs_of_neg hneg] at h
      rw [roundMag_of_rep h, neg_neg]
  · next hnonneg =>
      rw [abs_of_nonneg (not_lt.mp hnonneg)] at h
      exact roundMag_of_rep h

end Format

/-! ## Values of a format -/

/-- A value: not a number, an infinity, or a sign and a magnitude. -/
inductive Floating (F : Format) where
  | nan
  | infinite (neg : Bool)
  | finite (neg : Bool) (mag : ℚ) (rep : F.Rep mag)

/-- What a value denotes, whatever its format. -/
inductive Datum where
  | nan
  | infinite (neg : Bool)
  | number (q : ℚ)

/-- Round to nearest, ties to even; past the largest finite value, an
infinity. -/
def Format.round (F : Format) (neg : Bool) (mag : ℚ) : Floating F :=
  if h : F.roundMag mag ≤ F.max then
    .finite neg (F.roundMag mag) ⟨Format.grid_roundMag mag, h⟩
  else .infinite neg

/-- The conversion of a number. -/
def Format.ofRat (F : Format) (q : ℚ) : Floating F := F.round (q < 0) |q|

namespace Floating

variable {F G : Format}

/-- The number a finite value denotes; both zeros denote `0`. -/
def value : Floating F → Option ℚ
  | .finite neg mag _ => some (if neg then -mag else mag)
  | _ => none

def datum : Floating F → Datum
  | .nan => .nan
  | .infinite neg => .infinite neg
  | .finite neg mag _ => .number (if neg then -mag else mag)

def isFinite : Floating F → Bool
  | .finite _ _ _ => true
  | _ => false

def neg : Floating F → Floating F
  | .nan => .nan
  | .infinite b => .infinite (!b)
  | .finite b mag rep => .finite (!b) mag rep

/-- `==` of IEEE 754. -/
def eq : Floating F → Floating F → Bool
  | .finite b m h, .finite c n k => (finite b m h).value == (finite c n k).value
  | .infinite b, .infinite c => b == c
  | _, _ => false

/-- `<` of IEEE 754. -/
def lt : Floating F → Floating F → Bool
  | .finite b m _, .finite c n _ => (if b then -m else m) < (if c then -n else n)
  | .infinite true, .finite _ _ _ => true
  | .finite _ _ _, .infinite false => true
  | .infinite true, .infinite false => true
  | _, _ => false

/-- `<=` of IEEE 754. -/
def le (x y : Floating F) : Bool := x.lt y || x.eq y

/-- Positive zero. -/
def zero (F : Format) : Floating F := .finite false 0 Format.rep_zero

/-- The largest finite value. -/
def largest (F : Format) : Floating F := .finite false F.max ⟨Format.grid_max, le_rfl⟩

/-- The value without its fraction. -/
def trunc : Floating F → Floating F
  | .nan => .nan
  | .infinite b => .infinite b
  | .finite b mag rep => .finite b ⌊mag⌋ (Format.rep_floor rep)

/-- The integer part of a finite value. -/
def toInt : Floating F → ℤ
  | .finite b mag _ => if b then -⌊mag⌋ else ⌊mag⌋
  | _ => 0

/-- The conversion between formats. -/
def convert (G : Format) : Floating F → Floating G
  | .nan => .nan
  | .infinite b => .infinite b
  | .finite b mag _ => G.round b mag

theorem datum_eq_number {x : Floating F} {q : ℚ} : x.datum = .number q ↔ x.value = some q := by
  cases x <;> simp [datum, value]

theorem isFinite_of_value {x : Floating F} {q : ℚ} (h : x.value = some q) :
    x.isFinite = true := by
  cases x with
  | nan | infinite => cases h
  | finite b m k => rfl

theorem value_neg {x : Floating F} {q : ℚ} (h : x.value = some q) : x.neg.value = some (-q) := by
  cases x with
  | nan | infinite => cases h
  | finite b m k =>
      cases h
      cases b <;> simp [neg, value]

theorem eq_iff {x y : Floating F} {q r : ℚ} (hx : x.value = some q) (hy : y.value = some r) :
    x.eq y = true ↔ q = r := by
  cases x with
  | nan | infinite => cases hx
  | finite b m k =>
      cases y with
      | nan | infinite => cases hy
      | finite c n l => rw [eq, hx, hy, beq_iff_eq, Option.some.injEq]

theorem lt_iff {x y : Floating F} {q r : ℚ} (hx : x.value = some q) (hy : y.value = some r) :
    x.lt y = true ↔ q < r := by
  cases x with
  | nan | infinite => cases hx
  | finite b m k =>
      cases y with
      | nan | infinite => cases hy
      | finite c n l =>
          cases hx
          cases hy
          simp [lt]

theorem le_iff {x y : Floating F} {q r : ℚ} (hx : x.value = some q) (hy : y.value = some r) :
    x.le y = true ↔ q ≤ r := by
  rw [le, Bool.or_eq_true, lt_iff hx hy, eq_iff hx hy, le_iff_lt_or_eq]

theorem value_trunc {x : Floating F} {q : ℚ} (h : x.value = some q) :
    x.trunc.value = some (x.toInt : ℚ) := by
  cases x with
  | nan | infinite => cases h
  | finite b m k => cases b <;> simp [trunc, toInt, value]

/-- The integer part of an integer. -/
theorem toInt_of_value {x : Floating F} {n : ℤ} (h : x.value = some (n : ℚ)) : x.toInt = n := by
  cases x with
  | nan | infinite => cases h
  | finite b m k =>
      cases b
      · have hm : m = n := by simpa [value] using h
        simp [toInt, hm]
      · have hm : m = ((-n : ℤ) : ℚ) := by
          have : -m = n := by simpa [value] using h
          push_cast
          linarith
        rw [toInt, if_pos rfl, hm, Int.floor_intCast, neg_neg]

/-- The magnitude of a finite value is representable. -/
theorem rep_of_value {x : Floating F} {q : ℚ} (h : x.value = some q) : F.Rep |q| := by
  cases x with
  | nan | infinite => cases h
  | finite b m k =>
      cases h
      have hm : |m| = m := abs_of_nonneg k.1.nonneg
      cases b <;> simpa [hm] using k

/-- What rounding a sign and a magnitude denotes. -/
theorem value_round {neg : Bool} {mag : ℚ} (h : mag ≤ F.max) :
    (F.round neg mag).value = some (if neg then -F.roundMag mag else F.roundMag mag) := by
  rw [Format.round, dif_pos (Format.rep_roundMag h).2]
  rfl

/-- A number within the range is converted to its rounding. -/
theorem value_ofRat {q : ℚ} (h : |q| ≤ F.max) : (F.ofRat q).value = some (F.rnd q) := by
  rw [Format.ofRat, value_round h, Format.rnd]
  by_cases hq : q < 0
  · simp [hq, abs_of_neg hq]
  · simp [hq, abs_of_nonneg (not_lt.mp hq)]

/-- A representable number is converted to itself. -/
theorem value_ofRat_rep {q : ℚ} (h : F.Rep |q|) : (F.ofRat q).value = some q := by
  rw [value_ofRat h.2, Format.rnd_of_rep h]

/-- A finite value within the range of the other format is rounded. -/
theorem value_convert {x : Floating F} {q : ℚ} (h : x.value = some q) (hq : |q| ≤ G.max) :
    (x.convert G).value = some (G.rnd q) := by
  cases x with
  | nan | infinite => cases h
  | finite b m k =>
      have hm := k.1.nonneg
      cases h
      cases b
      · have hle : m ≤ G.max := by simpa [abs_of_nonneg hm] using hq
        simp [convert, value_round hle, Format.rnd, not_lt.mpr hm]
      · have hle : m ≤ G.max := by simpa [abs_of_nonneg hm] using hq
        rw [convert, value_round hle, Format.rnd]
        rcases hm.eq_or_lt with rfl | hpos
        · simp [Format.roundMag_zero]
        · simp [hpos]

/-- A wider format keeps every finite value. -/
theorem value_convert_wider (hG : G.Includes F) {x : Floating F} {q : ℚ} (h : x.value = some q) :
    (x.convert G).value = some q := by
  have hrep : G.Rep |q| := hG.rep (rep_of_value h)
  rw [value_convert h hrep.2, Format.rnd_of_rep hrep]

/-- A wider format keeps every value. -/
theorem datum_convert_wider (hG : G.Includes F) (x : Floating F) :
    (x.convert G).datum = x.datum := by
  cases x with
  | nan => rfl
  | infinite b => rfl
  | finite b m k => exact datum_eq_number.mpr (value_convert_wider hG rfl)

/-- Through a wider format, a value comes to the same. -/
theorem convert_convert {H : Format} (hG : G.Includes F) (x : Floating F) :
    (x.convert G).convert H = x.convert H := by
  cases x with
  | nan => rfl
  | infinite b => rfl
  | finite b m k =>
      have hm : G.roundMag m = m := Format.roundMag_of_rep (hG.rep k)
      simp only [convert, Format.round, hm, dif_pos (hG.rep k).2]

/-- The conversion to the format itself keeps a value, its sign of zero too. -/
theorem convert_self (x : Floating F) : x.convert F = x := by
  cases x with
  | nan => rfl
  | infinite b => rfl
  | finite b m k =>
      have hm : F.roundMag m = m := Format.roundMag_of_rep k
      simp only [convert, Format.round, hm, dif_pos k.2]

end Floating

end Gradyx.Lib
