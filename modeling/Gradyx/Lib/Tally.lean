import Mathlib.Algebra.GroupWithZero.Nat
import Mathlib.Data.List.Basic

/-! # Tallies

The total weight of the entries of a list, and how it moves when one entry is
replaced or taken out by name. Reference counting is an equation between a
counter and a tally, so these are the lemmas that carry it across a step.
-/

namespace Gradyx.Lib

universe u v

variable {α : Type u} {κ : Type v}

/-- The total weight of the entries. -/
def tally (w : α → ℕ) (l : List α) : ℕ := (l.map w).sum

@[simp] theorem tally_nil (w : α → ℕ) : tally w [] = 0 := rfl

@[simp] theorem tally_cons (w : α → ℕ) (a : α) (l : List α) :
    tally w (a :: l) = w a + tally w l := by
  simp [tally]

@[simp] theorem tally_append (w : α → ℕ) (l l' : List α) :
    tally w (l ++ l') = tally w l + tally w l' := by
  simp [tally]

/-- Replacing one entry moves the tally by the difference of the weights. -/
theorem tally_set (w : α → ℕ) {l : List α} {i : ℕ} {a : α} (b : α) (h : l[i]? = some a) :
    tally w (l.set i b) + w a = tally w l + w b := by
  induction l generalizing i with
  | nil => simp at h
  | cons x l ih =>
      cases i with
      | zero =>
          simp only [List.getElem?_cons_zero, Option.some.injEq] at h
          subst h
          simp only [List.set_cons_zero, tally_cons]
          omega
      | succ i =>
          simp only [List.getElem?_cons_succ] at h
          have := ih h
          simp only [List.set_cons_succ, tally_cons]
          omega

/-- One entry weighs no more than the whole list. -/
theorem le_tally (w : α → ℕ) {l : List α} {a : α} (h : a ∈ l) : w a ≤ tally w l := by
  induction l with
  | nil => cases h
  | cons x l ih =>
      rw [tally_cons]
      rcases List.mem_cons.mp h with rfl | h
      · omega
      · have := ih h
        omega

/-- Two entries weigh no more than the whole list. -/
theorem add_le_tally (w : α → ℕ) {l : List α} {i j : ℕ} {a b : α} (hij : i ≠ j)
    (hi : l[i]? = some a) (hj : l[j]? = some b) : w a + w b ≤ tally w l := by
  induction l generalizing i j with
  | nil => simp at hi
  | cons x l ih =>
      rw [tally_cons]
      rcases i with _ | i <;> rcases j with _ | j
      · exact absurd rfl hij
      · simp only [List.getElem?_cons_zero, List.getElem?_cons_succ, Option.some.injEq] at hi hj
        have := le_tally w (List.mem_of_getElem? hj)
        subst hi
        omega
      · simp only [List.getElem?_cons_zero, List.getElem?_cons_succ, Option.some.injEq] at hi hj
        have := le_tally w (List.mem_of_getElem? hi)
        subst hj
        omega
      · have := ih (fun h => hij (congrArg Nat.succ h)) hi hj
        omega

/-- A list of weightless entries weighs nothing. -/
theorem tally_eq_zero (w : α → ℕ) {l : List α} (h : ∀ a ∈ l, w a = 0) : tally w l = 0 := by
  induction l with
  | nil => rfl
  | cons x l ih =>
      rw [tally_cons, h x List.mem_cons_self, ih fun a ha => h a (List.mem_cons_of_mem x ha)]

/-- A list that weighs something has an entry that does. -/
theorem exists_of_tally_pos (w : α → ℕ) {l : List α} (h : 0 < tally w l) : ∃ a ∈ l, 0 < w a := by
  by_contra hnone
  have := tally_eq_zero w fun a ha => Nat.eq_zero_of_not_pos fun hpos => hnone ⟨a, ha, hpos⟩
  omega

/-- Two weights that differ by a constant at most. -/
theorem tally_le_add (w w' : α → ℕ) {c : ℕ} {l : List α} (h : ∀ a ∈ l, w' a ≤ w a + c) :
    tally w' l ≤ tally w l + c * l.length := by
  induction l with
  | nil => exact Nat.zero_le _
  | cons x l ih =>
      have hx := h x List.mem_cons_self
      have hl := ih fun a ha => h a (List.mem_cons_of_mem x ha)
      rw [tally_cons, tally_cons, List.length_cons, Nat.mul_succ]
      omega

/-! ## Taking an entry out by name -/

variable [DecidableEq κ]

/-- Take the first entry with the given name out of the list. -/
def pick (i : κ) : List (κ × α) → Option (α × List (κ × α))
  | [] => none
  | e :: l =>
      if e.1 = i then some (e.2, l)
      else (pick i l).map fun p => (p.1, e :: p.2)

@[simp] theorem pick_cons (i : κ) (a : α) (l : List (κ × α)) :
    pick i ((i, a) :: l) = some (a, l) := if_pos rfl

/-- The entry behind entries of other names. -/
theorem pick_append {i : κ} {l l' : List (κ × α)} {a : α} (h : ∀ e ∈ l, e.1 ≠ i) :
    pick i (l ++ (i, a) :: l') = some (a, l ++ l') := by
  induction l with
  | nil => exact pick_cons i a l'
  | cons e l ih =>
      have hl := ih fun e' he' => h e' (List.mem_cons_of_mem _ he')
      rw [List.cons_append, pick, if_neg (h e List.mem_cons_self), hl]
      rfl

/-- The picked entry and the rest weigh what the list weighed. -/
theorem tally_pick (w : α → ℕ) {i : κ} {l l' : List (κ × α)} {a : α}
    (h : pick i l = some (a, l')) :
    tally (fun e => w e.2) l = w a + tally (fun e => w e.2) l' := by
  induction l generalizing l' with
  | nil => cases h
  | cons e l ih =>
      unfold pick at h
      split at h
      · cases h
        rw [tally_cons]
      · rw [Option.map_eq_some_iff] at h
        obtain ⟨⟨b, m⟩, hm, heq⟩ := h
        simp only [Prod.mk.injEq] at heq
        obtain ⟨rfl, rfl⟩ := heq
        rw [tally_cons, tally_cons, ih hm]
        omega

theorem mem_of_pick {i : κ} {a : α} {l l' : List (κ × α)} (h : pick i l = some (a, l')) :
    (i, a) ∈ l := by
  induction l generalizing l' with
  | nil => cases h
  | cons e l ih =>
      unfold pick at h
      split at h
      · next hi =>
          cases h
          obtain ⟨j, b⟩ := e
          obtain rfl : j = i := hi
          exact List.mem_cons_self
      · rw [Option.map_eq_some_iff] at h
        obtain ⟨⟨b, rest⟩, hrest, heq⟩ := h
        cases heq
        exact List.mem_cons_of_mem e (ih hrest)

/-- The other entries stay. -/
theorem mem_pick {i : κ} {a : α} {l l' : List (κ × α)} (h : pick i l = some (a, l')) {e : κ × α}
    (he : e ∈ l) : e ∈ l' ∨ e = (i, a) := by
  induction l generalizing l' with
  | nil => cases he
  | cons y l ih =>
      unfold pick at h
      split at h
      · next hi =>
          cases h
          rcases List.mem_cons.mp he with rfl | he
          · right
            rw [← hi]
          · exact .inl he
      · rw [Option.map_eq_some_iff] at h
        obtain ⟨⟨b, rest⟩, hrest, heq⟩ := h
        cases heq
        rcases List.mem_cons.mp he with rfl | he
        · exact .inl List.mem_cons_self
        · rcases ih hrest he with he | he
          · exact .inl (List.mem_cons_of_mem y he)
          · exact .inr he

end Gradyx.Lib
