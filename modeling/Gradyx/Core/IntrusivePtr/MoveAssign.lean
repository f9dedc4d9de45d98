import Gradyx.Core.IntrusivePtr.Cascade

/-!
# IntrusivePtr — move assignment

`operator=(IntrusivePtr&&)` resets the handle and reads the source afterwards,
where `operator=(const IntrusivePtr&)` takes the new reference before it drops
the old one. The two agree as long as the cascade of the reset leaves both
handles in place.

* `KeptAliveBy` are the objects that nothing but the handle keeps alive.
* `MovesLikeCopy` is what the assignment is to do.
* `moveAssign_iff`: it does so exactly when the handle keeps alive neither the
  object that the source is a member of nor the one that it is a member of itself.
-/

namespace Gradyx.IntrusiveHeap

open Gradyx.Lib

/-- The object that the handle is a member of. -/
def Place.owner : Place → Option ℕ
  | .root _ => none
  | .member o _ => some o

namespace Heap

/-! ## The call -/

/-- An access to the handle: a fault once the object around it is gone. -/
def access (h : Heap) : Place → Heap
  | .root _ => h
  | .member o _ =>
      match h.objs[o]? with
      | none => h.failed
      | some t => h.touch t

/-- `operator=(IntrusivePtr&&)`. -/
def moveAssign (h : Heap) (self other : Place) : Option Heap := do
  guard (h.usable self && h.usable other)
  if self = other then return h
  let h := (h.reset self).settle
  -- `std::exchange(other.target_, nullptr)`, and the assignment to `target_`
  let h := h.access other
  let p ← h.load other
  let h := (h.store other none).access self
  return h.store self p

/-! ## What it is to do -/

/-- The object exists, and once the handle is null nothing holds it. -/
def KeptAliveBy (h : Heap) (a : Place) (x : ℕ) : Prop :=
  h.Exists x ∧ (h.store a none).graph.Unheld x

/-- The handle is a member of an object that only the handle `a` keeps alive. -/
def InsideKeptAliveBy (h : Heap) (a pl : Place) : Prop :=
  ∃ o, pl.owner = some o ∧ h.KeptAliveBy a o

/-- The result `h'` of a move from `b` to `a`: `a` has the pointer of `b`, whose
target exists and counts `a` once; what is destroyed was kept alive by `a` and not
reachable from that target; and a copy followed by a reset of `b` gives the same. -/
structure MovesLikeCopy (h : Heap) (a b : Place) (h' : Heap) : Prop where
  fault : h'.fault = false
  settled : h'.Settled
  moved : h'.load a = h.load b
  cleared : h'.load b = some none
  kept : ∀ o, h.load b = some (some o) → h'.Exists o
  counted : ∀ (o : ℕ) (t : Target), h.load b = some (some o) → h'.objs[o]? = some t →
    t.strongRefs = (h'.store a none).handleRefs o + 1
  destroyed : ∀ x, h.Exists x → ¬ h'.Exists x → h.KeptAliveBy a x ∧
    ∀ o, h.load b = some (some o) → ¬ Relation.ReflTransGen (h.store a none).graph.owns o x
  agrees : ∀ k, h.step (.copyAssign a b) = some k → ∃ h₂, k.step (.reset b) = some h₂ ∧
    h'.objs = h₂.objs ∧ h'.roots = h₂.roots ∧ h'.destroyed.Perm h₂.destroyed

variable {B g h h' k : Heap} {held : List Ptr} {a b pl : Place} {p q : Ptr}

/-! ## Handles and the ownership graph -/

theorem root_iff_load (h : Heap) (x : ℕ) :
    h.graph.root x ↔ ∃ i, h.load (.root i) = some (some x) := by
  change some (some x) ∈ h.roots ↔ _
  rw [List.mem_iff_getElem?]
  exact exists_congr fun i => Option.join_eq_some_iff.symm

theorem owns_iff_load (h : Heap) (x y : ℕ) :
    h.graph.owns x y ↔ ∃ k, h.load (.member x k) = some (some y) := by
  constructor
  · rintro ⟨t, ht, hm⟩
    obtain ⟨k, hk⟩ := List.getElem?_of_mem hm
    exact ⟨k, Option.bind_eq_some_iff.mpr ⟨t, ht, hk⟩⟩
  · rintro ⟨k, hk⟩
    obtain ⟨t, ht, hk⟩ := Option.bind_eq_some_iff.mp hk
    exact ⟨t, ht, List.mem_of_getElem? hk⟩

/-- The handle is a root, or a member of an object that exists. -/
def Alive (h : Heap) (pl : Place) : Prop := ∀ o, pl.owner = some o → h.Exists o

/-- An unheld object is held by members of unheld objects only. -/
theorem unheld_owner {x : ℕ} (hx : h.graph.Unheld x) (hpl : h.load pl = some (some x)) :
    ∃ o, pl.owner = some o ∧ h.graph.Unheld o := by
  obtain ⟨hroot, howners⟩ := hx
  cases pl with
  | root i => exact absurd ((root_iff_load h x).mpr ⟨i, hpl⟩) hroot
  | member o k => exact ⟨o, rfl, howners o ((owns_iff_load h o x).mpr ⟨k, hpl⟩)⟩

/-- An object that exists is held by a handle that is in place. -/
theorem Settled.exists_handle (hs : h.Settled) {x : ℕ} (hx : h.Exists x) :
    ∃ pl, h.load pl = some (some x) ∧ h.Alive pl := by
  rcases hs.supports.supported x hx with hr | ⟨y, hy, hyx⟩
  · obtain ⟨i, hi⟩ := (root_iff_load h x).mp hr
    exact ⟨.root i, hi, fun o ho => by cases ho⟩
  · obtain ⟨k, hk⟩ := (owns_iff_load h y x).mp hyx
    refine ⟨.member y k, hk, fun o ho => ?_⟩
    cases ho
    exact hy

/-! ## Accesses -/

theorem Counted.access_alive (hc : h.Counted held) (hpl : h.Alive pl) : h.access pl = h := by
  cases pl with
  | root i => rfl
  | member o k =>
      have hex := hpl o rfl
      obtain ⟨t, ht⟩ := hex.obj
      have hw := hc.weak o t ht
      rw [List.count_eq_zero.mpr hex.2] at hw
      simp only [access, ht, Counted.touch_live h hw]

theorem Counted.access_fault (hc : h.Counted held) (hpl : ¬ h.Alive pl) : (h.access pl).fault = true := by
  cases pl with
  | root i => exact absurd (fun o ho => by cases ho) hpl
  | member o k =>
      have hgone : ¬ h.Exists o := fun hex => hpl fun o' ho' => by
        cases ho'
        exact hex
      cases ht : h.objs[o]? with
      | none => simp only [access, ht, failed, withFault]
      | some t =>
          have hlen := (List.getElem?_eq_some_iff.mp ht).1
          have hmem : o ∈ h.destroyed := by
            by_contra hnot
            exact hgone ⟨hlen, hnot⟩
          have hcount := List.count_pos_iff.mpr hmem
          have hw := hc.weak o t ht
          have hzero : t.weakRefs = 0 := by omega
          simp only [access, ht, touch, withFault, hzero, beq_self_eq_true, Bool.or_true]

theorem fault_access (hf : h.fault = true) (pl : Place) : (h.access pl).fault = true := by
  cases pl with
  | root i => exact hf
  | member o k =>
      cases ht : h.objs[o]? <;> simp [access, ht, failed, touch, withFault, hf]

theorem load_access (h : Heap) (pl pl' : Place) : (h.access pl).load pl' = h.load pl' := by
  cases pl with
  | root i => rfl
  | member o k => cases ht : h.objs[o]? <;> cases pl' <;> simp [access, ht, failed, touch, withFault, load]

theorem fault_store (h : Heap) (pl : Place) (p : Ptr) : (h.store pl p).fault = h.fault := by
  cases pl with
  | root i => rfl
  | member o k => cases ht : h.objs[o]? <;> simp [store, ht, withObj]

/-! ## The two calls, up to their cascades -/

theorem reset_eq (hp : h.load a = some p) : h.reset a = (h.store a none).released p := by
  cases p <;> simp only [reset, hp, released, Option.elim]

theorem store_usable_settled (hs : h.Settled) (hq : h.load pl = some q) (hpl : h.Alive pl) :
    h.usable pl = true := by
  cases pl with
  | root i => exact Option.isSome_iff_exists.mpr ⟨q, hq⟩
  | member o k =>
      obtain ⟨t, ht⟩ := (hpl o rfl).obj
      simp only [usable, ht, hq, Option.any_some, Option.isSome_some, Bool.and_true]
      exact (hs.exists_iff ht).mp (hpl o rfl)

theorem alive_of_usable (hs : h.Settled) (hu : h.usable pl = true) : h.Alive pl := by
  intro o ho
  cases pl with
  | root i => cases ho
  | member o' k =>
      cases ho
      simp only [usable, Bool.and_eq_true, Option.any_eq_true] at hu
      obtain ⟨⟨t, ht, hlive⟩, -⟩ := hu
      exact (hs.exists_iff ht).mpr hlive

theorem moveAssign_eq (ha : h.usable a = true) (hb : h.usable b = true) (hab : a ≠ b)
    (hq : (h.reset a).settle.load b = some q) :
    h.moveAssign a b =
      some (((((h.reset a).settle.access b).store b none).access a).store a q) := by
  have hq' : ((h.reset a).settle.access b).load b = some q := (load_access _ b b).trans hq
  simp only [moveAssign, guard, ha, hb, Bool.and_self, if_true, if_neg hab, hq', Option.bind_eq_bind,
    Option.pure_def, Option.bind_some]

theorem load_retain {r : Ptr} (hr : h.retain r = some h') (pl : Place) : h'.load pl = h.load pl := by
  rcases retain_eq hr with ⟨b, rfl⟩ | ⟨x, t, b, ht, rfl⟩
  · cases pl <;> rfl
  · cases pl with
    | root i => rfl
    | member o k =>
        simp only [load, withObj, withFault, List.getElem?_set]
        grind

theorem copyAssign_eq (hab : a ≠ b) (hp : h.load a = some p) (hq : h.load b = some q) {c : Heap}
    (hc : h.copyAssign a b = some c) :
    ∃ h₁, h.retain q = some h₁ ∧ c = (h₁.store a q).released p := by
  simp only [copyAssign, guard, if_neg hab, Option.bind_eq_bind, Option.pure_def] at hc
  split at hc
  · rw [Option.bind_some, hq, Option.bind_some, Option.bind_eq_some_iff] at hc
    obtain ⟨h₁, hr, hc⟩ := hc
    rw [load_retain hr, hp, Option.bind_some] at hc
    exact ⟨h₁, hr, (Option.some.inj hc).symm⟩
  · simp at hc

theorem roots_store (h : Heap) (pl : Place) (p : Ptr) :
    (h.store pl p).roots = match pl with
      | .root i => h.roots.set i (some p)
      | .member _ _ => h.roots := by
  cases pl with
  | root i => rfl
  | member o k => cases ht : h.objs[o]? <;> simp [store, ht, withObj]

theorem exists_of_same (hs : Same h h') (x : ℕ) : h'.Exists x ↔ h.Exists x := by
  rw [Exists, Exists, hs.length, hs.destroyed]

/-! ## Handles after a cascade -/

namespace Cascaded

theorem alive_iff (hg : Cascaded B g) (hpl : B.Alive pl) :
    g.Alive pl ↔ ¬ ∃ o, pl.owner = some o ∧ B.graph.Unheld o := by
  constructor
  · rintro hal ⟨o, ho, hun⟩
    exact ((hg.exists_iff o).mp (hal o ho)).2 hun
  · intro hno o ho
    exact (hg.exists_iff o).mpr ⟨hpl o ho, fun hun => hno ⟨o, ho, hun⟩⟩

/-- A handle that is still in place has its pointer, the others are null. -/
theorem load_eq (hg : Cascaded B g) (pl : Place) :
    (g.Alive pl → g.load pl = B.load pl) ∧
    (¬ g.Alive pl → g.load pl = (B.load pl).map fun _ => none) := by
  cases pl with
  | root i =>
      refine ⟨fun _ => ?_, fun hno => absurd (fun o ho => by cases ho) hno⟩
      simp only [load, hg.roots]
  | member o k =>
      refine ⟨fun hal => hg.load_live o k (hal o rfl), fun hno => hg.load_dead o k fun hex => ?_⟩
      refine hno fun o' ho' => ?_
      cases ho'
      exact hex

end Cascaded

/-! ## The reset -/

theorem alive_of_same (hs : Same h h') (pl : Place) : h'.Alive pl ↔ h.Alive pl :=
  forall_congr' fun o => imp_congr_right fun _ => exists_of_same hs o

theorem reset_cascaded (hs : h.Settled) (hp : h.load a = some p) :
    Cascaded (h.store a none) (h.reset a).settle := by
  have hc : (h.store a none).Counted [p] := (Counted.null_iff.mpr hs.1).store hp (.inr rfl)
  have hpend : (h.store a none).pending = [] := (store_same (.inr rfl)).pending.trans hs.2
  rw [reset_eq hp]
  exact settle_cascaded hc hpend

/-- A handle is still in place after the reset, unless it is inside what the
reset handle kept alive. -/
theorem alive_reset_iff (hs : h.Settled) (hp : h.load a = some p) (hpl : h.Alive pl) :
    (h.reset a).settle.Alive pl ↔ ¬ h.InsideKeptAliveBy a pl := by
  have hsame : Same h (h.store a none) := store_same (.inr rfl)
  rw [(reset_cascaded hs hp).alive_iff ((alive_of_same hsame pl).mpr hpl)]
  refine not_congr (exists_congr fun o => and_congr_right fun ho => ?_)
  exact (and_iff_right (hpl o ho)).symm

/-- A handle that is not in place any more is touched. -/
theorem moveAssign_fault (hs : h.Settled) (ha : h.usable a = true) (hb : h.usable b = true)
    (hab : a ≠ b) (hgone : ¬ ((h.reset a).settle.Alive a ∧ (h.reset a).settle.Alive b)) :
    ∃ h', h.moveAssign a b = some h' ∧ h'.fault = true := by
  obtain ⟨p, hp⟩ := load_of_usable ha
  obtain ⟨q, hq⟩ := load_of_usable hb
  have hg := reset_cascaded hs hp
  have hB : (h.store a none).load b = some q := by rw [load_store none hp, if_neg hab.symm, hq]
  by_cases hbg : (h.reset a).settle.Alive b
  · have hag : ¬ (h.reset a).settle.Alive a := fun hag => hgone ⟨hag, hbg⟩
    have hbq : (h.reset a).settle.load b = some q := ((hg.load_eq b).1 hbg).trans hB
    refine ⟨_, moveAssign_eq ha hb hab hbq, ?_⟩
    have hc : ((h.reset a).settle.store b none).Counted [q] :=
      (Counted.null_iff.mpr hg.settled.1).store hbq (.inr rfl)
    have hsame : Same (h.reset a).settle ((h.reset a).settle.store b none) := store_same (.inr rfl)
    rw [hg.settled.1.access_alive hbg, fault_store]
    exact hc.access_fault fun hal => hag ((alive_of_same hsame a).mp hal)
  · have hbq : (h.reset a).settle.load b = some none := by
      rw [(hg.load_eq b).2 hbg, hB]
      rfl
    refine ⟨_, moveAssign_eq ha hb hab hbq, ?_⟩
    rw [fault_store]
    refine fault_access ?_ a
    rw [fault_store]
    exact hg.settled.1.access_fault hbg

/-! ## The move, when both handles stay in place -/

/-- A reference to an object that stays held makes no difference. -/
theorem unheld_congr_except (hl : ∀ pl x, h.load pl = some (some x) → h'.load pl = some (some x))
    (hl' : ∀ pl x, h'.load pl = some (some x) → h.load pl = some (some x) ∨ ¬ h.graph.Unheld x)
    (x : ℕ) : h'.graph.Unheld x ↔ h.graph.Unheld x := by
  refine Ownership.unheld_iff_of_except ?_ ?_ ?_ ?_ x
  · intro y hy
    obtain ⟨i, hi⟩ := (root_iff_load h y).mp hy
    exact (root_iff_load h' y).mpr ⟨i, hl _ y hi⟩
  · intro y z hyz
    obtain ⟨j, hj⟩ := (owns_iff_load h y z).mp hyz
    exact (owns_iff_load h' y z).mpr ⟨j, hl _ z hj⟩
  · intro y hy
    obtain ⟨i, hi⟩ := (root_iff_load h' y).mp hy
    exact (hl' _ y hi).imp (fun hi' => (root_iff_load h y).mpr ⟨i, hi'⟩) id
  · intro y z hyz
    obtain ⟨j, hj⟩ := (owns_iff_load h' y z).mp hyz
    exact (hl' _ z hj).imp (fun hj' => (owns_iff_load h y z).mpr ⟨j, hj'⟩) id

/-- The source keeps its target through the reset. -/
theorem target_held (hs : h.Settled) (hab : a ≠ b) (hp : h.load a = some p)
    (hbg : (h.reset a).settle.Alive b) {o : ℕ} (ho : h.load b = some (some o)) :
    ¬ (h.store a none).graph.Unheld o := by
  intro hun
  have hB : (h.store a none).load b = some (some o) := by
    rw [load_store none hp, if_neg hab.symm, ho]
  obtain ⟨x, hx, hunx⟩ := unheld_owner hun hB
  exact (((reset_cascaded hs hp).exists_iff x).mp (hbg x hx)).2 hunx

/-- The cascade of the copy assignment is the one of the reset, with the new
pointer in the handle. -/
theorem copy_cascaded (hs : h.Settled) (ha : h.usable a = true) (hab : a ≠ b)
    (hp : h.load a = some p) (hq : h.load b = some q) (hbg : (h.reset a).settle.Alive b)
    (hk : h.step (.copyAssign a b) = some k) :
    ∃ B, Cascaded B k ∧ (∀ pl, B.load pl = if pl = a then some q else h.load pl) ∧
      (∀ x, B.Exists x ↔ h.Exists x) ∧ B.roots = (h.store a q).roots ∧
      B.objs.length = h.objs.length ∧
      ∀ x, B.graph.Unheld x ↔ (h.store a none).graph.Unheld x := by
  obtain ⟨c, hc, rfl⟩ := Option.map_eq_some_iff.mp hk
  obtain ⟨h₁, hr, rfl⟩ := copyAssign_eq hab hp hq hc
  have h₁c : h₁.Counted (q :: []) := hs.1.retain (refs_pos_of_load [] hq) hr
  have hp₁ : h₁.load a = some p := (load_retain hr a).trans hp
  have hua : h₁.usable a = true := (usable_retain hr a).trans ha
  have hsame : Same h₁ (h₁.store a q) := store_same (.inl hua)
  have hload : ∀ pl, (h₁.store a q).load pl = if pl = a then some q else h.load pl := fun pl => by
    rw [load_store q hp₁, load_retain hr]
  obtain ⟨hroots, hlen, hdestroyed, hpend⟩ : h₁.roots = h.roots ∧
      h₁.objs.length = h.objs.length ∧ h₁.destroyed = h.destroyed ∧ h₁.pending = h.pending := by
    rcases retain_eq hr with ⟨_, rfl⟩ | ⟨_, _, _, -, rfl⟩
    · exact ⟨rfl, rfl, rfl, rfl⟩
    · exact ⟨rfl, List.length_set, rfl, rfl⟩
  refine ⟨h₁.store a q, ?_, hload, fun x => ?_, ?_, hsame.length.trans hlen, ?_⟩
  · exact settle_cascaded (h₁c.store hp₁ (.inl hua)) (hsame.pending.trans (hpend.trans hs.2))
  · rw [exists_of_same hsame, Exists, Exists, hlen, hdestroyed]
  · rw [roots_store, roots_store, hroots]
  · refine unheld_congr_except (fun pl x hx => ?_) fun pl x hx => ?_
    · rw [load_store none hp] at hx
      rw [hload]
      split at hx
      · cases hx
      · next hne => rw [if_neg hne, hx]
    · rw [hload] at hx
      split at hx
      · cases hx
        exact .inr (target_held hs hab hp hbg hq)
      · next hne => exact .inl (by rw [load_store none hp, if_neg hne, hx])

/-- Of two handles to one object the second is not missed. -/
theorem not_exists_of_unheld (hk : k.Settled) (hab : a ≠ b) (ha : k.load a = some q)
    (hb : k.load b = some q) (hal : k.Alive a) {x : ℕ} (hx : (k.store b none).graph.Unheld x) :
    ¬ k.Exists x := by
  induction hx with
  | @intro x hroot howners ih =>
      intro hex
      obtain ⟨pl, hpl, hplal⟩ := hk.exists_handle hex
      -- a handle to the object that is not the second one
      obtain ⟨pl', hne, hpl', hal'⟩ : ∃ pl', pl' ≠ b ∧ k.load pl' = some (some x) ∧ k.Alive pl' := by
        by_cases hplb : pl = b
        · subst hplb
          cases hb.symm.trans hpl
          exact ⟨a, hab, ha, hal⟩
        · exact ⟨pl, hplb, hpl, hplal⟩
      have hload : (k.store b none).load pl' = some (some x) := by
        rw [load_store none hb, if_neg hne, hpl']
      cases pl' with
      | root i => exact hroot ((root_iff_load _ x).mpr ⟨i, hload⟩)
      | member o j => exact ih o ((owns_iff_load _ o x).mpr ⟨j, hload⟩) (hal' o rfl)

theorem roots_moved (q : Ptr) (hab : a ≠ b) (hg : g.roots = (h.store a none).roots)
    (hk : k.roots = (h.store a q).roots) :
    ((g.store b none).store a q).roots = (k.store b none).roots := by
  rw [roots_store] at hg hk
  rw [roots_store, roots_store, roots_store]
  cases a with
  | member o j => cases b <;> simp only [hg, hk]
  | root i =>
      cases b with
      | member o j => simp only [hg, hk, List.set_set]
      | root j =>
          have hij : j ≠ i := fun heq => hab (heq ▸ rfl)
          simp only [hg, hk]
          rw [List.set_comm _ _ hij, List.set_set]

/-- The heap after the move, if both handles stay in place. -/
def moved (h : Heap) (a b : Place) (q : Ptr) : Heap :=
  ((h.reset a).settle.store b none).store a q

section Alive

variable (hs : h.Settled) (ha : h.usable a = true) (hb : h.usable b = true) (hab : a ≠ b)
  (hp : h.load a = some p) (hq : h.load b = some q) (hag : (h.reset a).settle.Alive a)
  (hbg : (h.reset a).settle.Alive b)

include hs hab hp hq hbg in
theorem reset_load_source : (h.reset a).settle.load b = some q := by
  rw [((reset_cascaded hs hp).load_eq b).1 hbg, load_store none hp, if_neg hab.symm, hq]

include hs hp hag in
theorem reset_load_self : (h.reset a).settle.load a = some none := by
  rw [((reset_cascaded hs hp).load_eq a).1 hag, load_store none hp, if_pos rfl]

include hs hab hp hq hag hbg

theorem load_moved (pl : Place) : (h.moved a b q).load pl =
    if pl = a then some q else if pl = b then some none else (h.reset a).settle.load pl := by
  have hbq := reset_load_source hs hab hp hq hbg
  have haq : ((h.reset a).settle.store b none).load a = some none := by
    rw [load_store none hbq, if_neg hab, reset_load_self hs hp hag]
  rw [moved, load_store q haq, load_store none hbq]

theorem moved_settled : (h.moved a b q).Settled ∧ Same (h.reset a).settle (h.moved a b q) := by
  have hg := (reset_cascaded hs hp).settled
  have hbq := reset_load_source hs hab hp hq hbg
  have haq : ((h.reset a).settle.store b none).load a = some none := by
    rw [load_store none hbq, if_neg hab, reset_load_self hs hp hag]
  have hsame : Same (h.reset a).settle ((h.reset a).settle.store b none) := store_same (.inr rfl)
  have husable : ((h.reset a).settle.store b none).usable a = true :=
    usable_store none hbq (store_usable_settled hg (reset_load_self hs hp hag) hag)
  have hsame' : Same (h.reset a).settle (h.moved a b q) := hsame.trans (store_same (.inl husable))
  have hc : ((h.reset a).settle.store b none).Counted [q] :=
    (Counted.null_iff.mpr hg.1).store hbq (.inr rfl)
  exact ⟨⟨Counted.null_iff.mp (hc.store haq (.inl husable)), hsame'.pending.trans hg.2⟩, hsame'⟩

include ha hb in
theorem moveAssign_eq_moved : h.moveAssign a b = some (h.moved a b q) := by
  have hg := (reset_cascaded hs hp).settled
  have hbq := reset_load_source hs hab hp hq hbg
  have hc : ((h.reset a).settle.store b none).Counted [q] :=
    (Counted.null_iff.mpr hg.1).store hbq (.inr rfl)
  have hsame : Same (h.reset a).settle ((h.reset a).settle.store b none) := store_same (.inr rfl)
  rw [moveAssign_eq ha hb hab hbq, hg.1.access_alive hbg,
    hc.access_alive ((alive_of_same hsame a).mpr hag), moved]

include ha in
/-- A copy followed by a reset of the source gives the same heap. -/
theorem moved_agrees (hk : h.step (.copyAssign a b) = some k) :
    ∃ h₂, k.step (.reset b) = some h₂ ∧ (h.moved a b q).objs = h₂.objs ∧
      (h.moved a b q).roots = h₂.roots ∧ (h.moved a b q).destroyed.Perm h₂.destroyed := by
  have hg := reset_cascaded hs hp
  obtain ⟨B, hB, hload, hexists, hroots, hlen, hunheld⟩ := copy_cascaded hs ha hab hp hq hbg hk
  have hsameB : Same h (h.store a none) := store_same (.inr rfl)
  -- the copy destroys what the reset destroys
  have hexists_k : ∀ x, k.Exists x ↔ (h.reset a).settle.Exists x := fun x => by
    rw [hB.exists_iff, hg.exists_iff, hexists, hunheld, exists_of_same hsameB]
  have halive_k : ∀ pl, k.Alive pl ↔ (h.reset a).settle.Alive pl := fun pl =>
    forall_congr' fun o => imp_congr_right fun _ => hexists_k o
  have hka : k.load a = some q := by
    rw [(hB.load_eq a).1 ((halive_k a).mpr hag), hload, if_pos rfl]
  have hkb : k.load b = some q := by
    rw [(hB.load_eq b).1 ((halive_k b).mpr hbg), hload, if_neg hab.symm, hq]
  have husable : k.usable b = true := store_usable_settled hB.settled hkb ((halive_k b).mpr hbg)
  refine ⟨(k.reset b).settle, ?_, ?_⟩
  · simp only [step, perform, husable, if_true, Option.map_some]
  -- the reset of the source destroys nothing
  have h₂ := reset_cascaded hB.settled hkb
  have hsame_k : Same k (k.store b none) := store_same (.inr rfl)
  have hexists₂ : ∀ x, (k.reset b).settle.Exists x ↔ k.Exists x := fun x => by
    rw [h₂.exists_iff, exists_of_same hsame_k]
    refine and_iff_left_of_imp fun hex hun => ?_
    exact not_exists_of_unheld hB.settled hab hka hkb ((halive_k a).mpr hag) hun hex
  have halive₂ : ∀ pl, (k.reset b).settle.Alive pl ↔ k.Alive pl := fun pl =>
    forall_congr' fun o => imp_congr_right fun _ => hexists₂ o
  obtain ⟨hmoved, hsame⟩ := moved_settled hs hab hp hq hag hbg
  have hrootsEq : (h.moved a b q).roots = (k.reset b).settle.roots := by
    rw [h₂.roots]
    exact roots_moved q hab hg.roots (hB.roots.trans hroots)
  have hloads : ∀ pl, (h.moved a b q).load pl = (k.reset b).settle.load pl := by
    intro pl
    rw [load_moved hs hab hp hq hag hbg]
    by_cases hal : k.Alive pl
    · rw [(h₂.load_eq pl).1 ((halive₂ pl).mpr hal), load_store none hkb, (hB.load_eq pl).1 hal, hload,
        (hg.load_eq pl).1 ((halive_k pl).mp hal), load_store none hp]
      grind
    · rw [(h₂.load_eq pl).2 (mt (halive₂ pl).mp hal), load_store none hkb, (hB.load_eq pl).2 hal, hload,
        (hg.load_eq pl).2 (mt (halive_k pl).mpr hal), load_store none hp]
      have hpa : pl ≠ a := fun heq => hal (heq ▸ (halive_k a).mpr hag)
      have hpb : pl ≠ b := fun heq => hal (heq ▸ (halive_k b).mpr hbg)
      simp only [if_neg hpa, if_neg hpb, Option.map_map]
      rfl
  have hlenEq : (h.moved a b q).objs.length = (k.reset b).settle.objs.length := by
    rw [hsame.length, hg.length, hsameB.length, h₂.length, hsame_k.length, hB.length, hlen]
  obtain ⟨hobjs, hperm⟩ := hmoved.ext h₂.settled hrootsEq hlenEq (fun x => by
    rw [exists_of_same hsame, hexists₂, hexists_k]) fun o j => hloads (.member o j)
  exact ⟨hobjs, hrootsEq, hperm⟩

end Alive

/-- Move assignment does what it is to do exactly when neither handle is inside
what the old target kept alive. -/
theorem moveAssign_iff (hs : h.Settled) (ha : h.usable a = true) (hb : h.usable b = true)
    (hab : a ≠ b) : (∃ h', h.moveAssign a b = some h' ∧ MovesLikeCopy h a b h') ↔
      ¬ h.InsideKeptAliveBy a a ∧ ¬ h.InsideKeptAliveBy a b := by
  obtain ⟨p, hp⟩ := load_of_usable ha
  obtain ⟨q, hq⟩ := load_of_usable hb
  rw [← alive_reset_iff hs hp (alive_of_usable hs ha), ← alive_reset_iff hs hp (alive_of_usable hs hb)]
  constructor
  · rintro ⟨h', hm, hmoves⟩
    by_contra hgone
    obtain ⟨h'', hm', hfault⟩ := moveAssign_fault hs ha hb hab hgone
    cases hm.symm.trans hm'
    rw [hmoves.fault] at hfault
    cases hfault
  · rintro ⟨hag, hbg⟩
    obtain ⟨hset, hsame⟩ := moved_settled hs hab hp hq hag hbg
    have hg := reset_cascaded hs hp
    have hload := load_moved hs hab hp hq hag hbg
    have hself : (h.moved a b q).load a = some q := by rw [hload, if_pos rfl]
    refine ⟨_, moveAssign_eq_moved hs ha hb hab hp hq hag hbg, ?_⟩
    constructor
    · exact hset.1.fault
    · exact hset
    · rw [hself, hq]
    · rw [hload, if_neg hab.symm, if_pos rfl]
    · intro o ho
      cases hq.symm.trans ho
      refine hset.exists_of_refs ?_
      have := refsTo_le_of_load hself o
      rw [refsTo_self] at this
      exact this
    · intro o t ho ht
      cases hq.symm.trans ho
      have := handleRefs_store none hself o
      rw [hset.1.strong o t ht, hset.count_eq]
      rw [refsTo_self] at this
      exact this.symm
    · intro x hx hx'
      have hun : (h.store a none).graph.Unheld x := by
        by_contra hheld
        refine hx' ((exists_of_same hsame x).mpr ((hg.exists_iff x).mpr ⟨?_, hheld⟩))
        exact (exists_of_same (store_same (.inr rfl)) x).mpr hx
      refine ⟨⟨hx, hun⟩, fun o ho hreach => ?_⟩
      exact Ownership.not_unheld_of_reach (target_held hs hab hp hbg ho) hreach hun
    · exact fun k hk => moved_agrees hs ha hab hp hq hag hbg hk

end Heap

/-- A list of two: the handle `head` is root `1`, its `next` the member of object `1`. -/
def linkedList : List Op := [.makeIntrusive [], .makeIntrusive [.root 0], .destroy 0]

/-- `head = std::move(head->next)` reads `next` after the object around it is gone. -/
theorem moveAssign_next_fails :
    (∃ h', (machine.after .empty linkedList 3).moveAssign (.root 1) (.member 1 0) = some h' ∧
      h'.fault = true) ∧
    ¬ ∃ h', (machine.after .empty linkedList 3).moveAssign (.root 1) (.member 1 0) = some h' ∧
      Heap.MovesLikeCopy (machine.after .empty linkedList 3) (.root 1) (.member 1 0) h' := by
  have hmove : (machine.after .empty linkedList 3).moveAssign (.root 1) (.member 1 0) =
      some ⟨[⟨0, 0, false, []⟩, ⟨0, 0, false, [none]⟩], [none, some none], [], [1, 0], true⟩ := by
    decide +kernel
  refine ⟨⟨_, hmove, rfl⟩, ?_⟩
  rintro ⟨h', hh', hmoves⟩
  cases hmove.symm.trans hh'
  cases hmoves.fault

/-- The list with a second handle to its head. -/
def sharedList : List Op := linkedList ++ [.copyConstruct (.root 1)]

/-- With the second handle, the move leaves `next` in place. -/
theorem moveAssign_next_shared :
    ∃ h', (machine.after .empty sharedList 4).moveAssign (.root 1) (.member 1 0) = some h' ∧
      Heap.MovesLikeCopy (machine.after .empty sharedList 4) (.root 1) (.member 1 0) h' := by
  have hs : (machine.after .empty sharedList 4).Settled :=
    Heap.run_settled (.ofLabels machine .empty rfl sharedList) 4
  have hstate : machine.after .empty sharedList 4 =
      ⟨[⟨1, 1, true, []⟩, ⟨2, 1, true, [some 0]⟩], [none, some (some 1), some (some 1)], [], [], false⟩ := by
    decide +kernel
  rw [hstate] at hs ⊢
  refine (Heap.moveAssign_iff hs rfl rfl (by decide)).mpr ⟨?_, ?_⟩
  · rintro ⟨o, ho, -⟩
    cases ho
  · rintro ⟨o, ho, -, hun⟩
    cases ho
    -- root `2` still holds the head
    exact Ownership.not_unheld_of_root (show some (some 1) ∈ _ by decide) hun

end Gradyx.IntrusiveHeap
