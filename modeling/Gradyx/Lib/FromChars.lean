import Mathlib.Algebra.Group.Nat.Defs
import Mathlib.Data.Int.Notation
import Mathlib.Data.List.TakeWhile

/-! # Reading a decimal integer

`std::from_chars` for a signed integer type, in base 10: an optional minus sign, the
longest run of digits, and an error when there is no digit or the number does not fit.

* `fromChars_digits` and `fromChars_minus` are the texts that it reads to their end.
* `fromChars_stops`: every other text is an error or has a rest.
-/

namespace Gradyx.Lib

/-- A non-empty string of decimal digits. -/
def IsDigits (text : List Char) : Prop := text ≠ [] ∧ ∀ c ∈ text, c.isDigit = true

theorem all_isDigit_iff (text : List Char) :
    (text ≠ [] ∧ text.all Char.isDigit = true) ↔ IsDigits text := by
  rw [IsDigits, List.all_eq_true]

-- by way of `List.all`, so that the characters of the text are tested and no others
instance (text : List Char) : Decidable (IsDigits text) :=
  decidable_of_iff _ (all_isDigit_iff text)

/-- The number that a string of digits denotes. -/
def decimal (digits : List Char) : ℕ := Nat.ofDigitChars 10 digits 0

/-- What `std::from_chars` sets besides `std::errc{}`. -/
inductive Errc where
  | invalidArgument
  | resultOutOfRange
deriving DecidableEq, Repr

/-- `std::from_chars_result`: the value or the error, and the text from `ptr` on. -/
structure FromCharsResult where
  value : Except Errc ℤ
  rest : List Char

variable (lo hi : ℤ)

/-- The value, if the type has it. -/
def fit (value : ℤ) : Except Errc ℤ :=
  if lo ≤ value ∧ value ≤ hi then .ok value else .error .resultOutOfRange

/-- `std::from_chars` for the type of the integers from `lo` to `hi`. -/
def fromChars (text : List Char) : FromCharsResult :=
  let negative := text.head? = some '-'
  let body := if negative then text.tail else text
  let digits := body.takeWhile Char.isDigit
  if digits = [] then ⟨.error .invalidArgument, text⟩
  else
    let magnitude : ℤ := decimal digits
    ⟨fit lo hi (if negative then -magnitude else magnitude), body.dropWhile Char.isDigit⟩

variable {lo hi}

theorem fit_ok {value : ℤ} (hlo : lo ≤ value) (hhi : value ≤ hi) : fit lo hi value = .ok value :=
  if_pos ⟨hlo, hhi⟩

theorem fit_error {value : ℤ} (h : value < lo ∨ hi < value) :
    fit lo hi value = .error .resultOutOfRange := by
  refine if_neg ?_
  rintro ⟨hlo, hhi⟩
  omega

/-! ## Strings of digits -/

namespace IsDigits

variable {text : List Char}

theorem takeWhile (h : IsDigits text) : text.takeWhile Char.isDigit = text :=
  List.takeWhile_eq_self_iff.mpr h.2

theorem dropWhile (h : IsDigits text) : text.dropWhile Char.isDigit = [] :=
  List.dropWhile_eq_nil_iff.mpr h.2

theorem head?_ne {c : Char} (h : IsDigits text) (hc : c.isDigit = false) : text.head? ≠ some c := by
  intro hhead
  have hdigit := h.2 c (List.mem_of_head? hhead)
  rw [hc] at hdigit
  cases hdigit

/-- A text that is not read to its end is not a string of digits. -/
theorem of_dropWhile (hne : text.takeWhile Char.isDigit ≠ [])
    (hrest : text.dropWhile Char.isDigit = []) : IsDigits text := by
  refine ⟨?_, List.dropWhile_eq_nil_iff.mp hrest⟩
  rintro rfl
  exact hne rfl

end IsDigits

theorem decimal_cons (d : Char) (rest : List Char) :
    decimal (d :: rest) = 10 ^ rest.length * (d.toNat - '0'.toNat) + decimal rest := by
  rw [decimal, Nat.ofDigitChars_cons, Nat.ofDigitChars_eq_ofDigitChars_zero, Nat.mul_zero,
    Nat.zero_add, decimal]

/-- Only zeros denote zero. -/
theorem decimal_eq_zero_iff {digits : List Char} (h : ∀ c ∈ digits, c.isDigit = true) :
    decimal digits = 0 ↔ ∀ c ∈ digits, c = '0' := by
  induction digits with
  | nil => exact iff_of_true rfl (fun _ hc => by cases hc)
  | cons d rest ih =>
      obtain ⟨hd, hrest⟩ := List.forall_mem_cons.mp h
      have hzero : 10 ^ rest.length * (d.toNat - '0'.toNat) = 0 ↔ d = '0' := by
        have hge := (Char.isDigit_iff_toNat.mp hd).1
        have hpow : 10 ^ rest.length ≠ 0 := (Nat.pow_pos (by decide)).ne'
        rw [Nat.mul_eq_zero, or_iff_right hpow, ← Char.toNat_inj]
        omega
      rw [decimal_cons, Nat.add_eq_zero_iff, List.forall_mem_cons, ih hrest, hzero]

/-! ## The texts that are read to their end -/

variable {text : List Char}

theorem fromChars_digits (h : IsDigits text) :
    fromChars lo hi text = ⟨fit lo hi (decimal text), []⟩ := by
  have hsign : ¬ text.head? = some '-' := h.head?_ne rfl
  rw [fromChars]
  simp only [if_neg hsign, h.takeWhile, h.dropWhile, if_neg h.1]

theorem fromChars_minus (h : IsDigits text) :
    fromChars lo hi ('-' :: text) = ⟨fit lo hi (-decimal text), []⟩ := by
  rw [fromChars]
  simp only [List.head?_cons, if_true, List.tail_cons, h.takeWhile, h.dropWhile, if_neg h.1]

/-- No other text is read to its end without an error. -/
theorem fromChars_stops (h : ¬ IsDigits text) (hminus : ∀ tail, text = '-' :: tail → ¬ IsDigits tail) :
    (∃ e, (fromChars lo hi text).value = .error e) ∨ (fromChars lo hi text).rest ≠ [] := by
  by_cases hsign : text.head? = some '-'
  · obtain ⟨tail, rfl⟩ := List.head?_eq_some_iff.mp hsign
    rw [fromChars]
    simp only [if_pos hsign, List.tail_cons]
    split
    · exact .inl ⟨_, rfl⟩
    · next hne => exact .inr fun hrest => hminus tail rfl (.of_dropWhile hne hrest)
  · rw [fromChars]
    simp only [if_neg hsign]
    split
    · exact .inl ⟨_, rfl⟩
    · next hne => exact .inr fun hrest => h (.of_dropWhile hne hrest)

end Gradyx.Lib
