import Gradyx.Lib.Behavior
import Mathlib.Logic.Relation

/-! # Happens-before

An order on the positions of a run: the steps of one thread one after the other,
and a step that releases something before the later steps that acquire it. The
rest is how the knowledge of one step spreads: a thread knows what its steps come
after, hands it on where it releases, and learns it where it acquires.
-/

namespace Gradyx.Lib

universe u v

variable {σ : Type u} {ℓ : Type v} {ρ : Type}

/-- Which thread takes a step, and which resources the step acquires and releases. -/
structure Ordering (σ : Type u) (ℓ : Type v) (ρ : Type) where
  thread : ℓ → ℕ
  acquires : σ → ℓ → ρ → Prop
  releases : σ → ℓ → ρ → Prop

namespace Ordering

variable (o : Ordering σ ℓ ρ) {M : Machine σ ℓ} (r : Run M)

/-- Program order, or from a release to an acquire. -/
def Direct (j k : ℕ) : Prop :=
  j < k ∧ ∃ l l', r.label j = some l ∧ r.label k = some l' ∧
    (o.thread l = o.thread l' ∨ ∃ x, o.releases (r.state j) l x ∧ o.acquires (r.state k) l' x)

def HappensBefore : ℕ → ℕ → Prop := Relation.TransGen (o.Direct r)

/-- Happens before, or is the same step. -/
def Reaches (e k : ℕ) : Prop := e = k ∨ o.HappensBefore r e k

/-- Before position `k` the thread took a step that `e` reaches. -/
def Knows (e t k : ℕ) : Prop :=
  ∃ p < k, ∃ l, r.label p = some l ∧ o.thread l = t ∧ o.Reaches r e p

/-- Before position `k` the resource was released by a step that `e` reaches. -/
def Carries (e : ℕ) (x : ρ) (k : ℕ) : Prop :=
  ∃ p < k, ∃ l, r.label p = some l ∧ o.releases (r.state p) l x ∧ o.Reaches r e p

variable {o r} {e t k : ℕ} {x : ρ} {l : ℓ}

theorem Reaches.direct (h : o.Reaches r e k) {m : ℕ} (hkm : o.Direct r k m) :
    o.HappensBefore r e m := by
  rcases h with rfl | h
  · exact Relation.TransGen.single hkm
  · exact Relation.TransGen.tail h hkm

theorem Knows.mono (h : o.Knows r e t k) {m : ℕ} (hkm : k ≤ m) : o.Knows r e t m := by
  obtain ⟨p, hp, hrest⟩ := h
  exact ⟨p, Nat.lt_of_lt_of_le hp hkm, hrest⟩

theorem Carries.mono (h : o.Carries r e x k) {m : ℕ} (hkm : k ≤ m) : o.Carries r e x m := by
  obtain ⟨p, hp, hrest⟩ := h
  exact ⟨p, Nat.lt_of_lt_of_le hp hkm, hrest⟩

/-- The next step of a thread comes after what it knows. -/
theorem Knows.before (h : o.Knows r e t k) (hl : r.label k = some l) (ht : o.thread l = t) :
    o.HappensBefore r e k := by
  obtain ⟨p, hp, l', hl', ht', hreach⟩ := h
  exact hreach.direct ⟨hp, l', l, hl', hl, .inl (ht'.trans ht.symm)⟩

/-- A step comes after what it acquires. -/
theorem Carries.before (h : o.Carries r e x k) (hl : r.label k = some l)
    (hx : o.acquires (r.state k) l x) : o.HappensBefore r e k := by
  obtain ⟨p, hp, l', hl', hx', hreach⟩ := h
  exact hreach.direct ⟨hp, l', l, hl', hl, .inr ⟨x, hx', hx⟩⟩

/-- A thread knows what its step comes after. -/
theorem Reaches.knows (h : o.Reaches r e k) (hl : r.label k = some l) :
    o.Knows r e (o.thread l) (k + 1) :=
  ⟨k, Nat.lt_succ_self k, l, hl, rfl, h⟩

/-- A released resource carries what the step comes after. -/
theorem Reaches.carries (h : o.Reaches r e k) (hl : r.label k = some l)
    (hx : o.releases (r.state k) l x) : o.Carries r e x (k + 1) :=
  ⟨k, Nat.lt_succ_self k, l, hl, hx, h⟩

end Ordering

end Gradyx.Lib
