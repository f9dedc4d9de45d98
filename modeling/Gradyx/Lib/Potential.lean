import Gradyx.Lib.Behavior
import Mathlib.Data.Nat.Count

/-! # Amortised cost of runs

A potential pays for the work of a run: every position that counts as work
lowers it, and only the positions that count as a gain may raise it, each by a
fixed amount. `work_le` sums this up over any stretch of a run. What stands
still when one thread runs alone has the rule `exists_after`.
-/

namespace Gradyx.Lib

universe u v

variable {σ : Type u} {ℓ : Type v}

namespace Run

variable {M : Machine σ ℓ} (r : Run M)

/-- Work of a stretch of the run is paid by the potential at its start and by
the gains on the way. -/
theorem work_le (Φ : σ → ℕ) (work gain : ℕ → Prop) [DecidablePred work] [DecidablePred gain]
    (c : ℕ)
    (hstep : ∀ k, (if work k then 1 else 0) + Φ (r.state (k + 1)) ≤
      Φ (r.state k) + if gain k then c else 0) (i n : ℕ) :
    Nat.count (fun k => work (i + k)) n + Φ (r.state (i + n)) ≤
      Φ (r.state i) + c * Nat.count (fun k => gain (i + k)) n := by
  induction n with
  | zero => rw [Nat.count_zero, Nat.count_zero, Nat.mul_zero, Nat.add_zero, Nat.zero_add, Nat.add_zero]
  | succ n ih =>
      have hnext := hstep (i + n)
      rw [Nat.count_succ, Nat.count_succ, Nat.mul_add, ← Nat.add_assoc i n 1]
      have hgain : (if gain (i + n) then c else 0) = c * if gain (i + n) then 1 else 0 := by
        split
        · rw [Nat.mul_one]
        · rw [Nat.mul_zero]
      rw [hgain] at hnext
      omega

end Run

namespace Machine

variable (M : Machine σ ℓ)

/-- A label that can be fired until a measure of the state is used up, or the goal is
reached, leads to the goal. -/
theorem exists_after (l : ℓ) (P Goal : σ → Prop) (μ : σ → ℕ)
    (hstep : ∀ s, P s → ∃ s', M.step s l = some s' ∧ (Goal s' ∨ P s' ∧ μ s' < μ s)) {s : σ}
    (hs : P s) {c : ℕ} (hc : μ s ≤ c) :
    ∃ m ≤ c + 1, Goal (M.after s (List.replicate m l) m) := by
  induction c generalizing s with
  | zero =>
      obtain ⟨s', hfire, hgoal | ⟨-, hlt⟩⟩ := hstep s hs
      · refine ⟨1, le_rfl, ?_⟩
        rw [List.replicate_one, after, after_zero, hfire]
        exact hgoal
      · omega
  | succ c ih =>
      obtain ⟨s', hfire, hgoal | ⟨hs', hlt⟩⟩ := hstep s hs
      · refine ⟨1, by omega, ?_⟩
        rw [List.replicate_one, after, after_zero, hfire]
        exact hgoal
      · obtain ⟨m, hm, hgoal⟩ := ih hs' (by omega)
        refine ⟨m + 1, by omega, ?_⟩
        rw [List.replicate_succ, after, hfire]
        exact hgoal

end Machine

end Gradyx.Lib
