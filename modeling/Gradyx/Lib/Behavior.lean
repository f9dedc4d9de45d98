import Mathlib.Algebra.Order.Group.Nat

/-! # Machines and their runs

A machine is a state space with labelled, executable steps. A run is one
behavior of the machine: at every position it either fires a label or
stutters, so a finite run of any length is a behavior that stutters from some
position on. The rules below are the ones every model of this development
uses: invariant induction, stability of a property once it holds, and the
behavior fired by a list of labels.
-/

namespace Gradyx.Lib

universe u v w

/-- A machine: the initial states, and for each label the state it leads to
(`none` when the label is not enabled). -/
structure Machine (σ : Type u) (ℓ : Type v) where
  Init : σ → Prop
  step : σ → ℓ → Option σ

namespace Machine

variable {σ : Type u} {ℓ : Type v} (M : Machine σ ℓ)

/-- One position of a behavior: a labelled step, or a stutter. -/
def StutStep (s : σ) : Option ℓ → σ → Prop
  | none, s' => s' = s
  | some l, s' => M.step s l = some s'

/-- The state after trying the first `k` labels; a label that is not enabled
leaves the state as it is. -/
def after (s : σ) : List ℓ → ℕ → σ
  | [], _ => s
  | _ :: _, 0 => s
  | l :: ls, k + 1 => after ((M.step s l).getD s) ls k

/-- The label fired at position `k` when the labels of a list are tried in
order. -/
def fired (s : σ) : List ℓ → ℕ → Option ℓ
  | [], _ => none
  | l :: _, 0 => if (M.step s l).isSome then some l else none
  | l :: ls, k + 1 => fired ((M.step s l).getD s) ls k

@[simp] theorem after_zero (s : σ) (ls : List ℓ) : M.after s ls 0 = s := by
  cases ls <;> rfl

theorem after_next (s : σ) (ls : List ℓ) (k : ℕ) :
    M.StutStep (M.after s ls k) (M.fired s ls k) (M.after s ls (k + 1)) := by
  induction ls generalizing s k with
  | nil => cases k <;> rfl
  | cons l ls ih =>
      cases k with
      | zero => cases h : M.step s l <;> simp [fired, after, h, StutStep]
      | succ k => exact ih _ k

/-- When the labels are used up the state stays. -/
theorem after_of_length_le (s : σ) (ls : List ℓ) {k : ℕ} (hk : ls.length ≤ k) :
    M.after s ls k = M.after s ls ls.length := by
  induction ls generalizing s k with
  | nil => rfl
  | cons l ls ih =>
      cases k with
      | zero => simp at hk
      | succ k => exact ih _ (Nat.le_of_succ_le_succ hk)

/-- Trying the labels of two lists in a row. -/
theorem after_append (s : σ) (ls ls' : List ℓ) (k : ℕ) :
    M.after s (ls ++ ls') (ls.length + k) = M.after (M.after s ls ls.length) ls' k := by
  induction ls generalizing s with
  | nil => rw [List.nil_append, List.length_nil, Nat.zero_add, after_zero]
  | cons l ls ih =>
      rw [List.cons_append, List.length_cons, Nat.succ_add]
      exact ih _

theorem fired_append (s : σ) (ls ls' : List ℓ) (k : ℕ) :
    M.fired s (ls ++ ls') (ls.length + k) = M.fired (M.after s ls ls.length) ls' k := by
  induction ls generalizing s with
  | nil => rw [List.nil_append, List.length_nil, Nat.zero_add, after_zero]
  | cons l ls ih =>
      rw [List.cons_append, List.length_cons, Nat.succ_add]
      exact ih _

end Machine

variable {σ : Type u} {ℓ : Type v}

/-- A behavior of the machine. -/
structure Run (M : Machine σ ℓ) where
  state : ℕ → σ
  label : ℕ → Option ℓ
  init : M.Init (state 0)
  next : ∀ k, M.StutStep (state k) (label k) (state (k + 1))

namespace Run

variable {M : Machine σ ℓ}

/-- The behavior that tries the labels of a list one after the other and then
stutters. -/
def ofLabels (M : Machine σ ℓ) (s : σ) (hs : M.Init s) (ls : List ℓ) : Run M where
  state := M.after s ls
  label := M.fired s ls
  init := by rwa [M.after_zero]
  next := M.after_next s ls

/-- A property of the states up to the last label holds at every position. -/
theorem forall_ofLabels (P : σ → Prop) {s : σ} (hs : M.Init s) (ls : List ℓ)
    (h : ∀ k < ls.length + 1, P (M.after s ls k)) (k : ℕ) : P ((ofLabels M s hs ls).state k) := by
  change P (M.after s ls k)
  rcases Nat.lt_or_ge k (ls.length + 1) with hk | hk
  · exact h k hk
  · rw [M.after_of_length_le s ls (by omega)]
    exact h _ (Nat.lt_succ_self _)

/-- A fired label leads to the next state. -/
theorem step_of_label (r : Run M) {k : ℕ} {l : ℓ} (h : r.label k = some l) :
    M.step (r.state k) l = some (r.state (k + 1)) := by
  have hn := r.next k
  rw [h] at hn
  exact hn

/-- A stutter keeps the state. -/
theorem stutter_of_none (r : Run M) {k : ℕ} (h : r.label k = none) :
    r.state (k + 1) = r.state k := by
  have hn := r.next k
  rw [h] at hn
  exact hn

/-- Invariant induction under a constraint on the steps taken: if every label
fired before position `k` meets `C`, an invariant of the steps that meet `C`
holds at position `k`. -/
theorem invariant_under (r : Run M) (C : σ → ℓ → Prop) (Inv : σ → Prop)
    (hinit : ∀ s, M.Init s → Inv s)
    (hstep : ∀ s l s', C s l → M.step s l = some s' → Inv s → Inv s') (k : ℕ)
    (hC : ∀ i l, i < k → r.label i = some l → C (r.state i) l) :
    Inv (r.state k) := by
  induction k with
  | zero => exact hinit _ r.init
  | succ k ih =>
      have hk : Inv (r.state k) := ih fun i l hi => hC i l (Nat.lt_succ_of_lt hi)
      cases hl : r.label k with
      | none =>
          rw [r.stutter_of_none hl]
          exact hk
      | some l =>
          exact hstep _ l _ (hC k l (Nat.lt_succ_self k) hl) (r.step_of_label hl) hk

/-- Invariant induction. -/
theorem invariant (r : Run M) (Inv : σ → Prop)
    (hinit : ∀ s, M.Init s → Inv s)
    (hstep : ∀ s l s', M.step s l = some s' → Inv s → Inv s') (k : ℕ) :
    Inv (r.state k) :=
  r.invariant_under (fun _ _ => True) Inv hinit (fun s l s' _ => hstep s l s') k
    (fun _ _ _ _ => trivial)

/-- A relation between a state and each later one: reflexive, transitive, and
respected by every step from an `Inv` state. -/
theorem relate (r : Run M) (Inv : σ → Prop) (R : σ → σ → Prop)
    (hrefl : ∀ s, R s s) (htrans : ∀ a b c, R a b → R b c → R a c)
    (hinv : ∀ k, Inv (r.state k))
    (hstep : ∀ s l s', Inv s → M.step s l = some s' → R s s')
    {i j : ℕ} (hij : i ≤ j) : R (r.state i) (r.state j) := by
  induction j, hij using Nat.le_induction with
  | base => exact hrefl _
  | succ j _ ih =>
      cases hl : r.label j with
      | none =>
          rw [r.stutter_of_none hl]
          exact ih
      | some l => exact htrans _ _ _ ih (hstep _ l _ (hinv j) (r.step_of_label hl))

/-- Stability: a property that every step from an `Inv` state keeps holds for
ever once it holds. -/
theorem stable (r : Run M) (Inv P : σ → Prop) (hinv : ∀ k, Inv (r.state k))
    (hstep : ∀ s l s', Inv s → M.step s l = some s' → P s → P s')
    {i j : ℕ} (hij : i ≤ j) (hi : P (r.state i)) : P (r.state j) :=
  r.relate Inv (fun s s' => P s → P s') (fun _ h => h) (fun _ _ _ h₁ h₂ h => h₂ (h₁ h))
    hinv hstep hij hi

/-- A property of something that the states of a stretch show (`At`), followed from each
position to the next. -/
theorem stretch (r : Run M) {φ : Type w} (At : σ → φ → Prop) (P : ℕ → φ → Prop) {i j : ℕ}
    (hij : i ≤ j) (hi : ∀ f, At (r.state i) f → P i f)
    (hnext : ∀ m, i ≤ m → m < j → ∀ g, At (r.state (m + 1)) g →
      ∃ f, At (r.state m) f ∧ (P m f → P (m + 1) g))
    {f : φ} (hf : At (r.state j) f) : P j f := by
  induction j, hij using Nat.le_induction generalizing f with
  | base => exact hi f hf
  | succ j hij ih =>
      obtain ⟨f', hf', hstep⟩ := hnext j hij (Nat.lt_succ_self j) f hf
      exact hstep (ih (fun m him hm => hnext m him (Nat.lt_succ_of_lt hm)) hf')

/-- A property that holds now and did not hold initially was established by some
earlier position. -/
theorem exists_established (r : Run M) (P : σ → Prop) {k : ℕ} (h0 : ¬ P (r.state 0))
    (hk : P (r.state k)) : ∃ j < k, ¬ P (r.state j) ∧ P (r.state (j + 1)) := by
  induction k with
  | zero => exact absurd hk h0
  | succ k ih =>
      by_cases h : P (r.state k)
      · obtain ⟨j, hj, hP⟩ := ih h
        exact ⟨j, Nat.lt_succ_of_lt hj, hP⟩
      · exact ⟨k, Nat.lt_succ_self k, h, hk⟩

end Run

end Gradyx.Lib
