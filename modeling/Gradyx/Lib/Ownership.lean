import Mathlib.Data.Set.Finite.Basic
import Mathlib.Logic.Relation
import Mathlib.Order.WellFoundedSet

/-! # Ownership graphs

Objects that own objects, and roots that hold some of them. A reference
counter does not see the graph: it only knows that an object is alive exactly
when something alive, or a root, refers to it. Without cycles, and with
finitely many objects, that local rule already makes the live objects the
reachable ones. `Unheld` are the objects that a cascade of destructors takes.
-/

namespace Gradyx.Lib

universe u

/-- Who is held by a root, and who owns whom. -/
structure Ownership (α : Type u) where
  root : α → Prop
  owns : α → α → Prop

namespace Ownership

variable {α : Type u} (g : Ownership α)

/-- Reachable from a root along owners. -/
def Reachable (x : α) : Prop := ∃ r, g.root r ∧ Relation.ReflTransGen g.owns r x

/-- No object owns itself, directly or through others. -/
def Acyclic : Prop := ∀ x, ¬ Relation.TransGen g.owns x x

/-- What reference counting maintains of the set of live objects: everything a
root or a live object refers to is live, and nothing else is. -/
structure Supports (live : Set α) : Prop where
  root_live : ∀ x, g.root x → x ∈ live
  owned_live : ∀ x y, x ∈ live → g.owns x y → y ∈ live
  supported : ∀ x ∈ live, g.root x ∨ ∃ y ∈ live, g.owns y x

variable {g} {live : Set α}

/-- A measure that falls from owner to owned excludes cycles. -/
theorem acyclic_of_rank (rank : α → ℕ) (h : ∀ x y, g.owns x y → rank y < rank x) :
    g.Acyclic := by
  have hfall : ∀ x y, Relation.TransGen g.owns x y → rank y < rank x := by
    intro x y hxy
    induction hxy with
    | single hxy => exact h _ _ hxy
    | tail _ hyz ih => exact lt_trans (h _ _ hyz) ih
  intro x hx
  exact lt_irrefl _ (hfall x x hx)

/-- Whatever is reachable is live. -/
theorem Supports.live_of_reachable (hs : g.Supports live) {x : α} (hx : g.Reachable x) :
    x ∈ live := by
  obtain ⟨r, hr, hrx⟩ := hx
  induction hrx with
  | refl => exact hs.root_live r hr
  | tail _ hyz ih => exact hs.owned_live _ _ ih hyz

/-- On finitely many live objects of an acyclic graph, "owns, directly or not"
is well-founded, so the chain of live owners above a live object ends at a
root. -/
theorem Supports.reachable_of_live (hs : g.Supports live) (hfin : live.Finite)
    (hac : g.Acyclic) {x : α} (hx : x ∈ live) : g.Reachable x := by
  have : IsStrictOrder α (Relation.TransGen g.owns) :=
    { irrefl := hac, trans := fun _ _ _ => Relation.TransGen.trans }
  have hwf : live.WellFoundedOn (Relation.TransGen g.owns) := hfin.wellFoundedOn
  refine hwf.induction hx ?_
  intro x hx ih
  rcases hs.supported x hx with hr | ⟨y, hy, hyx⟩
  · exact ⟨x, hr, .refl⟩
  · obtain ⟨r, hr, hry⟩ := ih y hy (.single hyx)
    exact ⟨r, hr, hry.tail hyx⟩

/-- Reference counting computes reachability. -/
theorem Supports.mem_iff_reachable (hs : g.Supports live) (hfin : live.Finite)
    (hac : g.Acyclic) (x : α) : x ∈ live ↔ g.Reachable x :=
  ⟨hs.reachable_of_live hfin hac, hs.live_of_reachable⟩

/-! ## Cycles -/

variable (g) in
/-- Owned, directly or not, by an object that owns itself. -/
def HeldByCycle (x : α) : Prop :=
  ∃ c, Relation.TransGen g.owns c c ∧ Relation.ReflTransGen g.owns c x

/-- A live object that no cycle holds is reachable: the live owners above it are
ordered by ownership, so the chain of them ends at a root. -/
theorem Supports.reachable_or_heldByCycle (hs : g.Supports live) (hfin : live.Finite) {x : α}
    (hx : x ∈ live) : g.Reachable x ∨ g.HeldByCycle x := by
  by_contra hnone
  rw [not_or] at hnone
  obtain ⟨hunreached, hcycle⟩ := hnone
  let below : α → α → Prop := fun a b =>
    Relation.TransGen g.owns a b ∧ Relation.ReflTransGen g.owns b x
  have : IsStrictOrder α below :=
    { irrefl := fun a ha => hcycle ⟨a, ha.1, ha.2⟩
      trans := fun _ _ _ hab hbc => ⟨hab.1.trans hbc.1, hbc.2⟩ }
  have hwf : live.WellFoundedOn below := hfin.wellFoundedOn
  have hall : ∀ y ∈ live, Relation.ReflTransGen g.owns y x → g.Reachable y := by
    intro y hy
    refine hwf.induction (P := fun y => Relation.ReflTransGen g.owns y x → g.Reachable y) hy ?_
    intro y hy ih hyx
    rcases hs.supported y hy with hr | ⟨z, hz, hzy⟩
    · exact ⟨y, hr, .refl⟩
    · obtain ⟨r, hr, hrz⟩ := ih z hz ⟨.single hzy, hyx⟩ (hyx.head hzy)
      exact ⟨r, hr, hrz.tail hzy⟩
  exact hunreached (hall x hx .refl)

/-- Where only live objects own, what is live is exactly what a root or a cycle
holds. -/
theorem Supports.mem_iff_held (hs : g.Supports live) (hfin : live.Finite)
    (howner : ∀ x y, g.owns x y → x ∈ live) (x : α) :
    x ∈ live ↔ g.Reachable x ∨ g.HeldByCycle x := by
  refine ⟨hs.reachable_or_heldByCycle hfin, ?_⟩
  rintro (hx | ⟨c, hcycle, hcx⟩)
  · exact hs.live_of_reachable hx
  · obtain ⟨d, hcd, -⟩ := Relation.TransGen.head'_iff.mp hcycle
    have hc : c ∈ live := howner c d hcd
    clear hcycle hcd
    induction hcx with
    | refl => exact hc
    | tail _ hyz ih => exact hs.owned_live _ _ ih hyz

/-! ## What nothing holds -/

variable (g) in
/-- Held by no root, and owned only by objects that nothing holds either. A cycle
holds itself. -/
inductive Unheld : α → Prop where
  | intro {x : α} (hroot : ¬ g.root x) (howners : ∀ y, g.owns y x → Unheld y) : Unheld x

theorem not_unheld_of_root {x : α} (hx : g.root x) : ¬ g.Unheld x := by
  rintro ⟨hroot, -⟩
  exact hroot hx

theorem not_unheld_of_owns {x y : α} (hx : ¬ g.Unheld x) (hxy : g.owns x y) : ¬ g.Unheld y := by
  rintro ⟨-, howners⟩
  exact hx (howners x hxy)

/-- What is held holds everything reachable from it. -/
theorem not_unheld_of_reach {x y : α} (hx : ¬ g.Unheld x)
    (hxy : Relation.ReflTransGen g.owns x y) : ¬ g.Unheld y := by
  induction hxy with
  | refl => exact hx
  | tail _ hyz ih => exact not_unheld_of_owns ih hyz

/-- With fewer references, no less is unheld, as long as the references taken
away are to objects that stay held. -/
theorem unheld_iff_of_except {g' : Ownership α} (hroot : ∀ x, g.root x → g'.root x)
    (howns : ∀ x y, g.owns x y → g'.owns x y)
    (hroot' : ∀ x, g'.root x → g.root x ∨ ¬ g.Unheld x)
    (howns' : ∀ x y, g'.owns x y → g.owns x y ∨ ¬ g.Unheld y) (x : α) :
    g'.Unheld x ↔ g.Unheld x := by
  constructor
  · intro hx
    induction hx with
    | intro hr _ ih => exact ⟨fun h => hr (hroot _ h), fun y hyx => ih y (howns y _ hyx)⟩
  · intro hx
    induction hx with
    | @intro x hr howners ih =>
        have hself : g.Unheld x := ⟨hr, howners⟩
        refine ⟨fun h => ?_, fun y hyx => ?_⟩
        · exact (hroot' x h).elim hr (· hself)
        · exact ih y ((howns' y x hyx).resolve_right (· hself))

end Ownership

end Gradyx.Lib
