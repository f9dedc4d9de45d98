import Gradyx.Lib.Behavior
import Mathlib.Logic.Function.Basic

/-! # Threads with shared variables

Any number of threads that run one program, each with its own state, on shared
variables. A proof gives an assertion about the shared variables, one about each
thread, and what a thread may do to the others: then it is enough to look at the
steps of one thread at a time (`Outline.holds`).
-/

namespace Gradyx.Lib

variable {γ τ ℓ : Type}

/-- The program of a thread. A step sees the shared variables, the number of the
thread and the thread's own state. -/
structure Threads (γ τ ℓ : Type) where
  init : γ
  start : τ
  advance : γ → ℕ → τ → ℓ → Option (γ × τ)

namespace Threads

structure State (γ τ : Type) where
  shared : γ
  thread : ℕ → τ

variable (P : Threads γ τ ℓ)

def step (s : State γ τ) (l : ℕ × ℓ) : Option (State γ τ) :=
  (P.advance s.shared l.1 (s.thread l.1) l.2).map fun next =>
    ⟨next.1, Function.update s.thread l.1 next.2⟩

def machine : Machine (State γ τ) (ℕ × ℓ) where
  Init s := s = ⟨P.init, fun _ => P.start⟩
  step := P.step

/-- Assertions for the threads of a program, with the steps of one thread against
its own and the others' assertions. -/
structure Outline where
  Shared : γ → Prop
  Local : γ → ℕ → τ → Prop
  /-- What a step of the thread does to the shared variables. -/
  Guarantee : ℕ → γ → γ → Prop
  init_shared : Shared P.init
  init_local : ∀ i, Local P.init i P.start
  own : ∀ g i t l g' t', Shared g → Local g i t → P.advance g i t l = some (g', t') →
    Shared g' ∧ Local g' i t' ∧ Guarantee i g g'
  stable : ∀ i j g g' t, i ≠ j → Guarantee j g g' → Local g i t → Local g' i t

namespace Outline

variable {P} (outline : P.Outline)

/-- All assertions hold in every state of every run. -/
theorem holds (r : Run P.machine) (k : ℕ) :
    outline.Shared (r.state k).shared ∧
      ∀ i, outline.Local (r.state k).shared i ((r.state k).thread i) := by
  refine r.invariant (fun s => outline.Shared s.shared ∧ ∀ i, outline.Local s.shared i (s.thread i))
    ?_ ?_ k
  · rintro s rfl
    exact ⟨outline.init_shared, outline.init_local⟩
  · rintro s ⟨j, l⟩ s' h ⟨hshared, hlocal⟩
    obtain ⟨⟨g', t'⟩, hadvance, rfl⟩ := Option.map_eq_some_iff.mp h
    obtain ⟨hshared', hown, hguarantee⟩ :=
      outline.own _ j _ l g' t' hshared (hlocal j) hadvance
    refine ⟨hshared', fun i => ?_⟩
    show outline.Local g' i (Function.update s.thread j t' i)
    by_cases hij : i = j
    · subst hij
      rw [Function.update_self]
      exact hown
    · rw [Function.update_of_ne hij]
      exact outline.stable i j _ _ _ hij hguarantee (hlocal i)

/-- What every step guarantees, and does not undo, holds for ever. -/
theorem relates (r : Run P.machine) (R : γ → γ → Prop) (hrefl : ∀ g, R g g)
    (htrans : ∀ a b c, R a b → R b c → R a c)
    (hguarantee : ∀ i g g', outline.Guarantee i g g' → R g g') {j k : ℕ} (hjk : j ≤ k) :
    R (r.state j).shared (r.state k).shared := by
  refine r.relate (fun s => outline.Shared s.shared ∧ ∀ i, outline.Local s.shared i (s.thread i))
    (fun s s' => R s.shared s'.shared) (fun s => hrefl s.shared)
    (fun a b c => htrans a.shared b.shared c.shared) (outline.holds r) ?_ hjk
  rintro s ⟨i, l⟩ s' ⟨hshared, hlocal⟩ h
  obtain ⟨⟨g', t'⟩, hadvance, rfl⟩ := Option.map_eq_some_iff.mp h
  exact hguarantee i _ _ (outline.own _ i _ l g' t' hshared (hlocal i) hadvance).2.2

end Outline

end Threads

end Gradyx.Lib
