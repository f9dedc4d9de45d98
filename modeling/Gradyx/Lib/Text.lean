import Gradyx.Lib.ToDecimal

/-! # Texts

The codes of an enumeration index a table of names: a text is looked up from the
front of the table, and a code without a name is printed by its number in brackets.
-/

namespace Gradyx.Lib

universe u v

/-- In a table without duplicates the first entry of a name is the only one. -/
theorem findIdx?_key_iff {α : Type u} {κ : Type v} [BEq κ] [LawfulBEq κ] {l : List α}
    {key : α → κ} (hnodup : (l.map key).Nodup) {k : κ} {i : ℕ} :
    l.findIdx? (fun a => key a == k) = some i ↔ (l.map key)[i]? = some k := by
  rw [List.findIdx?_eq_some_iff_getElem, List.getElem?_map]
  constructor
  · rintro ⟨hi, hk, -⟩
    rw [List.getElem?_eq_getElem hi, Option.map_some, eq_of_beq hk]
  · intro h
    obtain ⟨a, ha, rfl⟩ := Option.map_eq_some_iff.mp h
    obtain ⟨hi, rfl⟩ := List.getElem?_eq_some_iff.mp ha
    refine ⟨hi, beq_self_eq_true _, ?_⟩
    intro j hji heq
    have hj : j < l.length := Nat.lt_trans hji hi
    have hsame : (l.map key)[j]? = (l.map key)[i]? := by
      rw [List.getElem?_map, List.getElem?_map, List.getElem?_eq_getElem hj,
        List.getElem?_eq_getElem hi, Option.map_some, Option.map_some, eq_of_beq heq]
    have := (List.getElem?_inj (by rwa [List.length_map]) hnodup).mp hsame
    omega

theorem toDigits_injective : Function.Injective (Nat.toDigits 10) := by
  intro m n h
  rw [← decimal_toDigits m, h, decimal_toDigits]

/-- The name of a code, or its number after the label. -/
def printCode (names : List (List Char)) (label : List Char) (code : ℕ) : List Char :=
  match names[code]? with
  | some name => name
  | none => label ++ '(' :: Nat.toDigits 10 code ++ [')']

variable {names : List (List Char)} {label : List Char} {code : ℕ}

theorem printCode_of_name {name : List Char} (h : names[code]? = some name) :
    printCode names label code = name := by
  simp only [printCode, h]

theorem printCode_of_none (h : names[code]? = none) :
    printCode names label code = label ++ '(' :: Nat.toDigits 10 code ++ [')'] := by
  simp only [printCode, h]

/-- A number in brackets is no name. -/
theorem bracket_mem (h : names[code]? = none) : '(' ∈ printCode names label code := by
  rw [printCode_of_none h]
  simp

/-- No two codes are printed alike. -/
theorem printCode_injective (hnodup : names.Nodup) (hplain : ∀ name ∈ names, '(' ∉ name) :
    Function.Injective (printCode names label) := by
  intro c c' h
  cases hc : names[c]? with
  | some name =>
      cases hc' : names[c']? with
      | some name' =>
          rw [printCode_of_name hc, printCode_of_name hc'] at h
          subst h
          obtain ⟨hlt, -⟩ := List.getElem?_eq_some_iff.mp hc
          exact (List.getElem?_inj hlt hnodup).mp (hc.trans hc'.symm)
      | none =>
          have hmem : '(' ∈ printCode names label c' := bracket_mem hc'
          rw [← h, printCode_of_name hc] at hmem
          exact absurd hmem (hplain name (List.mem_of_getElem? hc))
  | none =>
      cases hc' : names[c']? with
      | some name' =>
          have hmem : '(' ∈ printCode names label c := bracket_mem hc
          rw [h, printCode_of_name hc'] at hmem
          exact absurd hmem (hplain name' (List.mem_of_getElem? hc'))
      | none =>
          rw [printCode_of_none hc, printCode_of_none hc'] at h
          have hdigits := List.append_cancel_left (List.append_cancel_right h)
          exact toDigits_injective (List.cons.inj hdigits).2

/-- A printed code is found in the table just when it has a name. -/
theorem getElem?_printCode (hnodup : names.Nodup) (hplain : ∀ name ∈ names, '(' ∉ name) {i : ℕ} :
    names[i]? = some (printCode names label code) ↔ i = code ∧ code < names.length := by
  constructor
  · intro h
    cases hc : names[code]? with
    | none => exact absurd (bracket_mem hc) (hplain _ (List.mem_of_getElem? h))
    | some name =>
        rw [printCode_of_name hc] at h
        obtain ⟨hlt, -⟩ := List.getElem?_eq_some_iff.mp h
        have hi := (List.getElem?_inj hlt hnodup).mp (h.trans hc.symm)
        exact ⟨hi, hi ▸ hlt⟩
  · rintro ⟨rfl, hlt⟩
    rw [printCode_of_name (List.getElem?_eq_getElem hlt), List.getElem?_eq_getElem hlt]

end Gradyx.Lib
