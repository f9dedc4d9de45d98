import Gradyx.Lib.Behavior
import Mathlib.Logic.Function.Iterate

/-! # Simulations

A concrete machine simulates an abstract one along a function on the states
when each of its steps is a step of the abstract one or a stutter. What holds
of every abstract run then holds of the image of every concrete run.

The second part is the same for loops: a loop that iterates a step until a
cost is used up, and one whose steps are steps of another loop or stutters.
-/

namespace Gradyx.Lib

universe u v

variable {σ τ : Type u} {ℓ κ : Type v}

/-- `M`, on the steps that meet `C` and the states that meet `Inv`, simulates
`N` along `abs`. -/
structure Simulation (M : Machine σ ℓ) (N : Machine τ κ) (abs : σ → τ) (C : σ → ℓ → Prop)
    (Inv : σ → Prop) : Prop where
  init : ∀ s, M.Init s → N.Init (abs s)
  init_inv : ∀ s, M.Init s → Inv s
  step_inv : ∀ s l s', C s l → M.step s l = some s' → Inv s → Inv s'
  step : ∀ s l s', C s l → M.step s l = some s' → Inv s → ∃ l', N.StutStep (abs s) l' (abs s')

namespace Simulation

variable {M : Machine σ ℓ} {N : Machine τ κ} {abs : σ → τ} {C : σ → ℓ → Prop} {Inv : σ → Prop}

theorem inv (sim : Simulation M N abs C Inv) (r : Run M)
    (hC : ∀ k l, r.label k = some l → C (r.state k) l) (k : ℕ) : Inv (r.state k) :=
  r.invariant_under C Inv sim.init_inv sim.step_inv k fun i l _ => hC i l

/-- The image of a run is a run. -/
theorem exists_run (sim : Simulation M N abs C Inv) (r : Run M)
    (hC : ∀ k l, r.label k = some l → C (r.state k) l) :
    ∃ r' : Run N, ∀ k, r'.state k = abs (r.state k) := by
  have hnext : ∀ k, ∃ l', N.StutStep (abs (r.state k)) l' (abs (r.state (k + 1))) := by
    intro k
    cases hl : r.label k with
    | none =>
        rw [r.stutter_of_none hl]
        exact ⟨none, rfl⟩
    | some l => exact sim.step _ l _ (hC k l hl) (r.step_of_label hl) (sim.inv r hC k)
  choose label hlabel using hnext
  exact ⟨⟨fun k => abs (r.state k), label, sim.init _ r.init, hlabel⟩, fun _ => rfl⟩

end Simulation

/-! ## Loops -/

section Loop

variable {f : σ → σ} {g : τ → τ}

/-- A loop whose steps lower a cost is over when the cost is used up. -/
theorem iterate_done {Done : σ → Prop} (cost : σ → ℕ) (hdone : ∀ s, Done s → f s = s)
    (hcost : ∀ s, ¬ Done s → cost (f s) < cost s) {n : ℕ} {s : σ} (hn : cost s ≤ n) :
    Done (f^[n] s) := by
  induction n generalizing s with
  | zero =>
      by_contra h
      have := hcost s h
      omega
  | succ n ih =>
      rw [Function.iterate_succ_apply]
      by_cases h : Done s
      · rw [hdone s h, Function.iterate_fixed (hdone s h)]
        exact h
      · have := hcost s h
        exact ih (by omega)

/-- Where the loop stands still is one state. -/
theorem iterate_eq_of_fixed {m n : ℕ} {s : σ} (hm : f (f^[m] s) = f^[m] s)
    (hn : f (f^[n] s) = f^[n] s) : f^[m] s = f^[n] s := by
  rcases Nat.le_total m n with h | h
  · obtain ⟨j, rfl⟩ := Nat.exists_eq_add_of_le h
    rw [Nat.add_comm, Function.iterate_add_apply, Function.iterate_fixed hm]
  · obtain ⟨j, rfl⟩ := Nat.exists_eq_add_of_le h
    rw [Nat.add_comm, Function.iterate_add_apply, Function.iterate_fixed hn]

/-- What the steps keep, the loop keeps. -/
theorem iterate_inv {Inv : σ → Prop} (hinv : ∀ s, Inv s → Inv (f s)) {s : σ} (hs : Inv s) (n : ℕ) :
    Inv (f^[n] s) := by
  induction n with
  | zero => exact hs
  | succ n ih =>
      rw [Function.iterate_succ_apply']
      exact hinv _ ih

/-- A loop whose steps are steps of another loop, or stutters. -/
theorem iterate_simulation {abs : σ → τ} {Inv : σ → Prop} (hinv : ∀ s, Inv s → Inv (f s))
    (hsim : ∀ s, Inv s → abs (f s) = g (abs s) ∨ abs (f s) = abs s) {s : σ} (hs : Inv s) (n : ℕ) :
    ∃ m, abs (f^[n] s) = g^[m] (abs s) := by
  induction n with
  | zero => exact ⟨0, rfl⟩
  | succ n ih =>
      obtain ⟨m, hm⟩ := ih
      rw [Function.iterate_succ_apply']
      rcases hsim _ (iterate_inv hinv hs n) with h | h
      · exact ⟨m + 1, by rw [h, hm, Function.iterate_succ_apply']⟩
      · exact ⟨m, h.trans hm⟩

end Loop

end Gradyx.Lib
