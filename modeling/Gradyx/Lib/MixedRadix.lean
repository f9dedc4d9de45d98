import Mathlib.Algebra.BigOperators.Group.List.Basic
import Mathlib.Algebra.Order.BigOperators.Group.List
import Mathlib.Algebra.Order.Ring.Nat
import Mathlib.Data.List.Forall2
import Mathlib.Data.List.Lex
import Mathlib.Data.Set.Card
import Mathlib.Data.Set.Function
import Mathlib.Order.RelClasses
import Mathlib.Tactic.Ring

/-! # Mixed-radix numerals

Digits over a list of radices, most significant first. The weight of a place is
the product of the radices after it; the value of a numeral is the sum of its
weighted digits. Values number the numerals in lexicographic order, without
gaps.
-/

namespace Gradyx.Lib.MixedRadix

/-- The weight of each place. -/
def weights : List ℕ → List ℕ
  | [] => []
  | _ :: l => l.prod :: weights l

/-- The weighted digits. -/
def terms (ds ws : List ℕ) : List ℕ := List.zipWith (· * ·) ds ws

/-- The value of the digits over the radices. -/
def value (rs ds : List ℕ) : ℕ := (terms ds (weights rs)).sum

/-- One digit for each radix, below it. -/
def Numeral (rs ds : List ℕ) : Prop := List.Forall₂ (· < ·) ds rs

@[simp] theorem length_weights (rs : List ℕ) : (weights rs).length = rs.length := by
  induction rs with
  | nil => rfl
  | cons r rs ih => simp [weights, ih]

theorem getElem?_weights (rs : List ℕ) {i : ℕ} (h : i < rs.length) :
    (weights rs)[i]? = some (rs.drop (i + 1)).prod := by
  induction rs generalizing i with
  | nil => cases h
  | cons r rs ih =>
      cases i with
      | zero => rfl
      | succ i => exact ih (Nat.lt_of_succ_lt_succ h)

theorem value_cons (r : ℕ) (rs : List ℕ) (d : ℕ) (ds : List ℕ) :
    value (r :: rs) (d :: ds) = d * rs.prod + value rs ds := by
  simp [value, terms, weights]

/-- A value is below the product of the radices. -/
theorem value_lt {rs ds : List ℕ} (h : Numeral rs ds) : value rs ds < rs.prod := by
  induction h with
  | nil => exact Nat.one_pos
  | @cons d r ds rs hd _ ih =>
      rw [value_cons, List.prod_cons]
      calc d * rs.prod + value rs ds < d * rs.prod + rs.prod := by omega
        _ = (d + 1) * rs.prod := by ring
        _ ≤ r * rs.prod := Nat.mul_le_mul_right _ hd

/-- A larger leading digit outweighs all the places after it. -/
theorem value_lt_of_digit {rs ds ds' : List ℕ} {r d d' : ℕ} (h : Numeral rs ds) (hd : d < d') :
    value (r :: rs) (d :: ds) < value (r :: rs) (d' :: ds') := by
  have := value_lt h
  rw [value_cons, value_cons]
  calc d * rs.prod + value rs ds < d * rs.prod + rs.prod := by omega
    _ = (d + 1) * rs.prod := by ring
    _ ≤ d' * rs.prod := Nat.mul_le_mul_right _ hd
    _ ≤ d' * rs.prod + value rs ds' := Nat.le_add_right _ _

/-- Values follow the lexicographic order. -/
theorem value_strictMono {rs ds ds' : List ℕ} (h : Numeral rs ds) (h' : Numeral rs ds')
    (hlt : ds < ds') : value rs ds < value rs ds' := by
  induction h generalizing ds' with
  | nil =>
      cases h'
      exact absurd hlt (List.not_lt_nil [])
  | @cons d r ds rs _ hds ih =>
      cases h' with
      | @cons d' _ ds' _ _ hds' =>
          rcases List.cons_lt_cons_iff.mp hlt with hd | ⟨rfl, htail⟩
          · exact value_lt_of_digit hds hd
          · rw [value_cons, value_cons]
            have := ih hds' htail
            omega

theorem value_injOn (rs : List ℕ) : Set.InjOn (value rs) {ds | Numeral rs ds} := by
  intro ds h ds' h' heq
  rcases lt_trichotomy ds ds' with hlt | rfl | hlt
  · exact absurd heq (value_strictMono h h' hlt).ne
  · rfl
  · exact absurd heq (value_strictMono h' h hlt).ne'

/-- Every number below the product of the radices is a value. -/
theorem exists_value {rs : List ℕ} {n : ℕ} (hn : n < rs.prod) :
    ∃ ds, Numeral rs ds ∧ value rs ds = n := by
  induction rs generalizing n with
  | nil =>
      rw [List.prod_nil, Nat.lt_one_iff] at hn
      exact ⟨[], .nil, hn.symm⟩
  | cons r rs ih =>
      rw [List.prod_cons] at hn
      have hpos : 0 < rs.prod := Nat.pos_of_ne_zero fun hz => by
        rw [hz, Nat.mul_zero] at hn
        exact Nat.not_lt_zero n hn
      obtain ⟨ds, hds, hv⟩ := ih (Nat.mod_lt n hpos)
      refine ⟨n / rs.prod :: ds, .cons ((Nat.div_lt_iff_lt_mul hpos).mpr hn) hds, ?_⟩
      rw [value_cons, hv]
      exact Nat.div_add_mod' n rs.prod

/-- The values number the numerals without gaps. -/
theorem value_bijOn (rs : List ℕ) :
    Set.BijOn (value rs) {ds | Numeral rs ds} {n | n < rs.prod} :=
  ⟨fun _ h => value_lt h, value_injOn rs, fun _ hn => exists_value hn⟩

/-- The value of a numeral is its rank: so many numerals are below it. -/
theorem ncard_lt_eq_value {rs ds : List ℕ} (h : Numeral rs ds) :
    {ds' | Numeral rs ds' ∧ ds' < ds}.ncard = value rs ds := by
  have himage : Set.image (value rs) {ds' | Numeral rs ds' ∧ ds' < ds} =
      ((Finset.range (value rs ds) : Finset ℕ) : Set ℕ) := by
    ext n
    rw [Finset.mem_coe, Finset.mem_range]
    constructor
    · rintro ⟨ds', ⟨h', hlt⟩, rfl⟩
      exact value_strictMono h' h hlt
    · intro hn
      obtain ⟨ds', h', rfl⟩ := exists_value (hn.trans (value_lt h))
      refine ⟨ds', ⟨h', ?_⟩, rfl⟩
      -- a numeral that is not below has no smaller value
      rcases lt_trichotomy ds' ds with hlt | rfl | hlt
      · exact hlt
      · exact absurd hn (lt_irrefl _)
      · exact absurd hn (value_strictMono h h' hlt).not_gt
  have hinj : Set.InjOn (value rs) {ds' | Numeral rs ds' ∧ ds' < ds} :=
    (value_injOn rs).mono fun _ h => h.1
  rw [← hinj.ncard_image, himage, Set.ncard_coe_finset, Finset.card_range]

/-- No part of the sum exceeds the value. -/
theorem sum_le_value {rs ds part : List ℕ} (h : part.Sublist (terms ds (weights rs))) :
    part.sum ≤ value rs ds :=
  h.sum_le_sum fun _ _ => Nat.zero_le _

end Gradyx.Lib.MixedRadix
