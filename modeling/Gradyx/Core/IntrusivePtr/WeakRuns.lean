import Gradyx.Core.IntrusivePtr.MoveAssign
import Gradyx.Core.IntrusivePtr.WeakRefinement

/-!
# IntrusivePtr — runs with weak handles

* `perform_performs`: an operation is one of the strong heap, or none; `lock` is the
  copy of some strong handle.
-/

namespace Gradyx.IntrusiveHeap.Heap

/-! ## The operations of the strong heap -/

variable {h h' : Heap} {pl self other : Place} {p q copy old : Ptr}

theorem copyConstruct_of (hu : h.usable other = true) (hp : h.load other = some p)
    (hr : h.retain p = some h') : h.perform (.copyConstruct other) = some (h'.addRoot p) := by
  simp [perform, copyConstruct, hu, hp, hr]

theorem moveConstruct_of (hu : h.usable other = true) (hp : h.load other = some p) :
    h.perform (.moveConstruct other) = some ((h.store other none).addRoot p) := by
  simp [perform, moveConstruct, hu, hp]

theorem copyAssign_of (hself : h.usable self = true) (hother : h.usable other = true)
    (hne : self ≠ other) (hcopy : h.load other = some copy) (hr : h.retain copy = some h')
    (hold : h'.load self = some old) :
    h.perform (.copyAssign self other) =
      some (old.elim (h'.store self copy) fun o => (h'.store self copy).push (.release o)) := by
  simp [perform, copyAssign, hself, hother, hne, hcopy, hr, hold]

theorem swap_of (hself : h.usable self = true) (hother : h.usable other = true)
    (hp : h.load self = some p) (hq : h.load other = some q) :
    h.perform (.swap self other) = some ((h.store self q).store other p) := by
  simp [perform, swap, hself, hother, hp, hq]

theorem destroy_of {i : ℕ} (hu : h.usable (.root i) = true) :
    h.perform (.destroy i) = some ((h.reset (.root i)).withRoot i none) := by
  simp [perform, destroyRoot, hu]

theorem makeIntrusive_of {inits : List Place} (hu : inits.all h.usable = true)
    (hr : (inits.map fun pl => (h.load pl).join).foldlM retain h = some h') :
    h.perform (.makeIntrusive inits) =
      some ((h'.addObj ⟨1, 1, true, inits.map fun pl => (h.load pl).join⟩).addRoot
        (some h'.objs.length)) := by
  simp only [perform, makeIntrusive, guard, hu, hr, if_true, Option.bind_eq_bind,
    Option.pure_def, Option.bind_some]

end Gradyx.IntrusiveHeap.Heap

namespace Gradyx.WeakHeap

open Gradyx.Lib
open Gradyx.IntrusivePtr (Kind sizeMax sizeAdd sizeSub)
open Gradyx.IntrusiveHeap (Ptr Place Task refsTo refsTo_self)

/-- What the handles see of a target. -/
def Target.seen (t : Target) : Bool × List Handle := (t.target, t.members)

namespace Heap

variable {h h' h₁ : Heap} {o : ℕ} {t : Target} {pl self other : Place} {p q : Ptr} {kind : Kind}

/-- Between two operations. -/
structure Settled (h : Heap) : Prop extends h.Sound where
  pending : h.pending = []

theorem Settled.strongPart (hs : h.Settled) : h.strongPart.Settled :=
  ⟨hs.strong, congrArg (List.map h.task) hs.pending⟩

/-- What an operation is before its cascade. -/
structure Performs (h h' : Heap) : Prop where
  weak : h'.WeakCounted []
  strong : (∃ op, h.strongPart.perform op = some h'.strongPart) ∨ h'.strongPart = h.strongPart

/-! ## Taking references -/

/-- The same handles, with the same pointers. -/
structure SameHandles (h h' : Heap) : Prop where
  objs : h'.objs.map Target.seen = h.objs.map Target.seen
  rootsOf : h'.rootsOf = h.rootsOf
  pending : h'.pending = h.pending

namespace SameHandles

theorem refl (h : Heap) : SameHandles h h := ⟨rfl, rfl, rfl⟩

theorem trans (a : SameHandles h h₁) (b : SameHandles h₁ h') : SameHandles h h' :=
  ⟨b.objs.trans a.objs, b.rootsOf.trans a.rootsOf, b.pending.trans a.pending⟩

theorem obj (hs : SameHandles h h') (o : ℕ) :
    h'.objs[o]?.map Target.seen = h.objs[o]?.map Target.seen := by
  rw [← List.getElem?_map, ← List.getElem?_map, hs.objs]

theorem length (hs : SameHandles h h') : h'.objs.length = h.objs.length := by
  have := congrArg List.length hs.objs
  rwa [List.length_map, List.length_map] at this

theorem load (hs : SameHandles h h') (kind : Kind) (pl : Place) : h'.load kind pl = h.load kind pl := by
  cases pl with
  | root i => rw [Heap.load, Heap.load, hs.rootsOf]
  | member o k =>
      have hview : ∀ g : Heap, g.load kind (.member o k) =
          (g.objs[o]?.map Target.seen).bind fun v =>
            v.2[k]?.bind fun m => if m.kind = kind then some m.ptr else none := by
        intro g
        rw [Heap.load, Option.bind_map]
        rfl
      rw [hview, hview, hs.obj]

theorem usable (hs : SameHandles h h') (kind : Kind) (pl : Place) :
    h'.usable kind pl = h.usable kind pl := by
  cases pl with
  | root i => simp only [Heap.usable, hs.load]
  | member o k =>
      have hview : ∀ g : Heap, g.objs[o]?.any (·.target) =
          (g.objs[o]?.map Target.seen).any (·.1) := by
        intro g
        cases g.objs[o]? <;> rfl
      simp only [Heap.usable, hs.load, hview, hs.obj]

theorem place (hs : SameHandles h h') : h'.place = h.place := by
  have hview : ∀ (g : Heap) (o k : ℕ), g.rank o k =
      ((g.objs[o]?.map Target.seen).map fun v => WeakHeap.rank v.2 k).getD k := by
    intro g o k
    rw [Heap.rank, Option.map_map]
    rfl
  funext pl
  cases pl with
  | root i => rfl
  | member o k => rw [Heap.place, Heap.place, hview, hview, hs.obj]

end SameHandles

theorem withObj_same {t' : Target} (ht : h.objs[o]? = some t) (hseen : t'.seen = t.seen) :
    SameHandles h (h.withObj o t') := by
  refine ⟨?_, rfl, rfl⟩
  obtain ⟨ho, rfl⟩ := List.getElem?_eq_some_iff.mp ht
  refine List.ext_getElem? fun x => ?_
  simp only [withObj, List.getElem?_map, List.getElem?_set]
  split
  · next heq =>
      subst heq
      rw [ht, Option.map_some, Option.map_some, hseen]
  · rfl

theorem retain_same {source : Kind} (hr : h.retain source kind p = some h') : SameHandles h h' := by
  cases p with
  | none =>
      cases hr
      exact .refl h
  | some o =>
      cases ho : h.objs[o]? with
      | none =>
          simp only [retain, ho] at hr
          obtain rfl := Option.some.inj hr
          cases source <;> exact ⟨rfl, rfl, rfl⟩
      | some t =>
          simp only [retain, ho] at hr
          by_cases hmax : t.refs kind = sizeMax
          · rw [if_pos hmax] at hr
            cases hr
          · rw [if_neg hmax] at hr
            obtain rfl := Option.some.inj hr
            have hsame : SameHandles h
                ((if source = .strong then h.touchTarget t else h).touchControl t) := by
              split <;> exact ⟨rfl, rfl, rfl⟩
            have ht : ((if source = .strong then h.touchTarget t else h).touchControl t).objs[o]? =
                some t := by
              split <;> exact ho
            exact hsame.trans (withObj_same ht (by cases kind <;> rfl))

theorem releaseWeakRef_same (h : Heap) (o : ℕ) : SameHandles h (h.releaseWeakRef o) := by
  cases ho : h.objs[o]? with
  | none =>
      simp only [releaseWeakRef, ho]
      exact ⟨rfl, rfl, rfl⟩
  | some t =>
      have hsame : SameHandles h (h.touchControl t) := ⟨rfl, rfl, rfl⟩
      have hlog : SameHandles h ((h.touchControl t).logFreed o) := ⟨rfl, rfl, rfl⟩
      have ht : (h.touchControl t).objs[o]? = some t := ho
      have ht' : ((h.touchControl t).logFreed o).objs[o]? = some t := ho
      simp only [releaseWeakRef, ho]
      split
      · exact hlog.trans (withObj_same ht' rfl)
      · exact hsame.trans (withObj_same ht rfl)

theorem rootsOf_drop (h : Heap) (kind : Kind) (p : Ptr) : (h.drop kind p).rootsOf = h.rootsOf := by
  cases p with
  | none => cases kind <;> rfl
  | some o =>
      cases kind with
      | strong => rfl
      | weak => exact (releaseWeakRef_same h o).rootsOf

theorem drop_weak_same (h : Heap) (p : Ptr) : SameHandles h (h.drop .weak p) := by
  cases p with
  | none => exact .refl h
  | some o => exact releaseWeakRef_same h o

theorem target_store (h : Heap) (kind : Kind) (pl : Place) (p : Ptr) (o : ℕ) :
    (h.store kind pl p).objs[o]?.any (·.target) = h.objs[o]?.any (·.target) := by
  cases pl with
  | root i => cases kind <;> rfl
  | member x k =>
      cases hx : h.objs[x]? with
      | none => simp only [store, hx]
      | some t =>
          simp only [store, hx, withObj, List.getElem?_set]
          grind [Target.setMember]

theorem usable_store {kind' : Kind} {pl' : Place} (p : Ptr) (hq : h.load kind pl = some q)
    (hu : h.usable kind' pl' = true) : (h.store kind pl p).usable kind' pl' = true := by
  have hl : (h.store kind pl p).load kind' pl' = _ := load_store p hq
  cases pl' with
  | root i =>
      simp only [usable] at hu ⊢
      rw [hl]
      split <;> simp_all
  | member o k =>
      simp only [usable, Bool.and_eq_true] at hu ⊢
      rw [hl, target_store]
      refine ⟨hu.1, ?_⟩
      split <;> simp_all

/-- Strong handles in two places have two places among the strong handles. -/
theorem place_ne (hp : h.load .strong self = some p) (hq : h.load .strong other = some q)
    (hne : self ≠ other) : h.place self ≠ h.place other := by
  intro heq
  cases self with
  | root i =>
      cases other with
      | root j => exact hne heq
      | member o' k' => cases heq
  | member o k =>
      cases other with
      | root j => cases heq
      | member o' k' =>
          simp only [place, Place.member.injEq] at heq
          obtain ⟨rfl, hrank⟩ := heq
          obtain ⟨t, ht, hk⟩ := Option.bind_eq_some_iff.mp hp
          obtain ⟨t', ht', hk'⟩ := Option.bind_eq_some_iff.mp hq
          cases ht.symm.trans ht'
          rw [Target.member_eq_some] at hk hk'
          rw [rank_eq ht, rank_eq ht] at hrank
          rcases Nat.lt_trichotomy k k' with hlt | rfl | hlt
          · have := rank_lt hk hlt
            omega
          · exact hne rfl
          · have := rank_lt hk' hlt
            omega

/-- What must be left of the object for a handle to be copied. -/
def Live (h : Heap) (kind : Kind) (p : Ptr) : Prop :=
  ∀ o, p = some o → ∃ t, h.objs[o]? = some t ∧ t.control = true ∧
    (kind = .strong → t.storage = true)

theorem Live.control (hl : h.Live kind p) :
    ∀ o, p = some o → ∃ t, h.objs[o]? = some t ∧ t.control = true :=
  fun o ho => (hl o ho).imp fun _ ht => ⟨ht.1, ht.2.1⟩

theorem Live.storage (hl : h.Live kind p) :
    kind = .strong → ∀ o, p = some o → ∃ t, h.objs[o]? = some t ∧ t.storage = true :=
  fun hkind o ho => (hl o ho).imp fun _ ht => ⟨ht.1, ht.2.2 hkind⟩

theorem Live.retain {source kind' : Kind} (hl : h.Live kind p)
    (hr : h.retain source kind' q = some h') : h'.Live kind p := by
  intro o ho
  obtain ⟨t, ht, hcontrol, hstorage⟩ := hl o ho
  cases q with
  | none =>
      cases hr
      exact ⟨t, ht, hcontrol, hstorage⟩
  | some x =>
      cases hx : h.objs[x]? with
      | none =>
          simp only [Heap.retain, hx] at hr
          obtain rfl := Option.some.inj hr
          exact ⟨t, by cases source <;> exact ht, hcontrol, hstorage⟩
      | some u =>
          simp only [Heap.retain, hx] at hr
          by_cases hmax : u.refs kind' = sizeMax
          · rw [if_pos hmax] at hr
            cases hr
          · rw [if_neg hmax] at hr
            obtain rfl := Option.some.inj hr
            have hobjs : ((if source = .strong then h.touchTarget u else h).touchControl u).objs =
                h.objs := by
              split <;> rfl
            simp only [withObj, hobjs, List.getElem?_set]
            cases kind' <;> grind [Target.setRefs]

/-- What a handle points to is there, for a weak handle the control block at least. -/
theorem Sound.live_of_load (hs : h.Sound) (hl : h.load kind pl = some p) : h.Live kind p := by
  rintro o rfl
  cases kind with
  | strong =>
      obtain ⟨t, ht, hstorage, -⟩ := storage_of_load hs.strong hl
      exact ⟨t, ht, hs.weak.control_of_storage ht hstorage, fun _ => hstorage⟩
  | weak =>
      obtain ⟨t, ht, hcontrol⟩ := hs.weak.control_of_load hl
      refine ⟨t, ht, hcontrol, ?_⟩
      intro hkind
      cases hkind

theorem retain_strong_eq (hr : h.retain .strong .strong p = some h') :
    h.strongPart.retain p = some h'.strongPart := by
  rw [← retain_strong, hr]
  rfl

/-! ## Operations -/

theorem construct_performs (hs : h.Settled) (kind : Kind) : Performs h (h.addRoot kind none) := by
  refine ⟨(WeakCounted.null_iff.mpr hs.weak).addRoot, ?_⟩
  cases kind with
  | strong => exact .inl ⟨.construct, rfl⟩
  | weak => exact .inr rfl

theorem copyRoot_performs {init : Source} (hs : h.Settled) (hm : h.copyRoot init = some h') :
    Performs h h' := by
  simp only [copyRoot, guard, Option.bind_eq_bind, Option.pure_def] at hm
  split at hm
  · next hu =>
      simp only [Option.bind_some, Option.bind_eq_some_iff, Option.some.injEq] at hm
      obtain ⟨p, hp, h₁, hr, rfl⟩ := hm
      have hlive := hs.live_of_load hp
      refine ⟨(hs.weak.retain hlive.control hr).addRoot, ?_⟩
      cases init with
      | copy kind other =>
          cases kind with
          | strong =>
              exact .inl ⟨.copyConstruct (h.place other), IntrusiveHeap.Heap.copyConstruct_of
                (usable_strong hu) (load_strong hp) (retain_strong_eq hr)⟩
          | weak =>
              have heq : h₁.strongPart = h.strongPart := retain_weak hlive.storage hr
              exact .inr heq
      | weakFromStrong other =>
          have heq : h₁.strongPart = h.strongPart := retain_weak hlive.storage hr
          exact .inr heq
  · simp at hm

theorem moveConstruct_performs (hs : h.Settled) (hm : h.moveConstruct kind other = some h') :
    Performs h h' := by
  simp only [moveConstruct, guard, Option.bind_eq_bind, Option.pure_def] at hm
  split at hm
  · next hu =>
      simp only [Option.bind_some, Option.bind_eq_some_iff, Option.some.injEq] at hm
      obtain ⟨p, hp, rfl⟩ := hm
      refine ⟨((WeakCounted.null_iff.mpr hs.weak).store hp (.inr rfl)).addRoot, ?_⟩
      cases kind with
      | strong =>
          refine .inl ⟨.moveConstruct (h.place other), ?_⟩
          rw [IntrusiveHeap.Heap.moveConstruct_of (usable_strong hu) (load_strong hp),
            ← store_strong hp]
          rfl
      | weak => exact .inr (store_weak hp none)
  · simp at hm

theorem reset_performs (hs : h.Settled) (hu : h.usable kind self = true) :
    Performs h (h.reset kind self) := by
  obtain ⟨p, hp⟩ := load_of_usable hu
  refine ⟨hs.weak.reset hp, ?_⟩
  cases kind with
  | strong =>
      refine .inl ⟨.reset (h.place self), ?_⟩
      rw [reset_strong hp, IntrusiveHeap.Heap.perform, if_pos (usable_strong hu)]
  | weak => exact .inr (reset_weak hp)

theorem destroyRoot_performs {i : ℕ} (hs : h.Settled) (hm : h.destroyRoot kind i = some h') :
    Performs h h' := by
  simp only [destroyRoot, guard, Option.bind_eq_bind, Option.pure_def] at hm
  split at hm
  · next hu =>
      simp only [Option.bind_some, Option.some.injEq] at hm
      subst hm
      obtain ⟨p, hp⟩ := load_of_usable hu
      have hnull : (h.reset kind (.root i)).load kind (.root i) = some none := by
        have hl : (h.store kind (.root i) none).load kind (.root i) = _ := load_store none hp
        rw [if_pos ⟨rfl, rfl⟩] at hl
        simp only [reset, hp]
        rwa [load, rootsOf_drop]
      refine ⟨(hs.weak.reset hp).dropRoot hnull, ?_⟩
      cases kind with
      | strong =>
          refine .inl ⟨.destroy i, ?_⟩
          rw [IntrusiveHeap.Heap.destroy_of (usable_strong hu)]
          exact congrArg (fun g => some (g.withRoot i none)) (reset_strong hp).symm
      | weak => exact .inr (reset_weak hp)
  · simp at hm

theorem swap_performs (hs : h.Settled) (hm : h.swap kind self other = some h') :
    Performs h h' := by
  simp only [swap, guard, Option.bind_eq_bind, Option.pure_def, Bool.and_eq_true] at hm
  split at hm
  · next hu =>
      simp only [Option.bind_some, Option.bind_eq_some_iff, Option.some.injEq] at hm
      obtain ⟨p, hp, q, hq, rfl⟩ := hm
      have hq' : (h.store kind self q).load kind other = some q := by
        rw [load_store q hp]
        split
        · rfl
        · exact hq
      have hsame := (store_weakSame (.inl hu.1)).trans
        (store_weakSame (p := p) (.inl (usable_store q hp hu.2)))
      refine ⟨hs.weak.of_same hsame fun o => ?_, ?_⟩
      · have h₁ := weakHandles_store q hp o
        have h₂ := weakHandles_store p hq' o
        simp only [weakCount]
        omega
      · cases kind with
        | strong =>
            refine .inl ⟨.swap (h.place self) (h.place other), ?_⟩
            rw [IntrusiveHeap.Heap.swap_of (usable_strong hu.1) (usable_strong hu.2)
              (load_strong hp) (load_strong hq), store_strong hq', store_strong hp,
              place_store hp]
        | weak =>
            right
            rw [store_weak hq', store_weak hp]
  · simp at hm

theorem copyAssign_performs (hs : h.Settled) (hm : h.copyAssign kind self other = some h') :
    Performs h h' := by
  simp only [copyAssign, guard, Option.bind_eq_bind, Option.pure_def, Bool.and_eq_true] at hm
  split at hm
  · next hu =>
      rw [Option.bind_some] at hm
      by_cases heq : self = other
      · rw [if_pos heq] at hm
        cases hm
        exact ⟨hs.weak, .inr rfl⟩
      · rw [if_neg heq] at hm
        simp only [Option.bind_eq_some_iff, Option.some.injEq] at hm
        obtain ⟨copy, hcopy, h₁, hr, old, hold, rfl⟩ := hm
        have hlive := hs.live_of_load hcopy
        have hsame := retain_same hr
        have hself : h₁.usable kind self = true := (hsame.usable kind self).trans hu.1
        refine ⟨((hs.weak.retain hlive.control hr).store hold (.inl hself)).drop, ?_⟩
        cases kind with
        | strong =>
            have hold' := load_strong hold
            have hstore := store_strong hold copy
            rw [hsame.place] at hold' hstore
            refine .inl ⟨.copyAssign (h.place self) (h.place other), ?_⟩
            rw [IntrusiveHeap.Heap.copyAssign_of (usable_strong hu.1) (usable_strong hu.2)
              (place_ne ((hsame.load .strong self).symm.trans hold) hcopy heq) (load_strong hcopy)
              (retain_strong_eq hr) hold', drop_strong, hstore]
        | weak =>
            right
            rw [drop_weak, store_weak hold, retain_weak hlive.storage hr]
  · simp at hm

theorem weakMoveAssign_performs (hs : h.Settled) (hm : h.weakMoveAssign self other = some h') :
    Performs h h' := by
  simp only [weakMoveAssign, guard, Option.bind_eq_bind, Option.pure_def, Bool.and_eq_true] at hm
  split at hm
  · next hu =>
      rw [Option.bind_some] at hm
      by_cases heq : self = other
      · rw [if_pos heq] at hm
        cases hm
        exact ⟨hs.weak, .inr rfl⟩
      · rw [if_neg heq] at hm
        simp only [Option.bind_eq_some_iff, Option.some.injEq] at hm
        obtain ⟨p, hp, rfl⟩ := hm
        obtain ⟨old, hold⟩ := load_of_usable hu.1
        have hsame : SameHandles (h.store .weak self none) (h.reset .weak self) := by
          simp only [reset, hold]
          exact drop_weak_same _ old
        -- the handle is null, and keeps its place, while the other one is emptied
        have hnull : (h.reset .weak self).load .weak self = some none := by
          rw [hsame.load, load_store none hold, if_pos ⟨rfl, rfl⟩]
        have hself : ((h.reset .weak self).store .weak other none).load .weak self = some none := by
          rw [load_store none hp]
          split
          · rfl
          · exact hnull
        have husable : ((h.reset .weak self).store .weak other none).usable .weak self = true := by
          refine usable_store none hp ?_
          rw [hsame.usable]
          exact usable_store none hold hu.1
        have hmoved := (WeakCounted.null_iff.mpr (hs.weak.reset hold)).store hp (.inr rfl)
        refine ⟨WeakCounted.null_iff.mp (hmoved.store hself (.inl husable)), .inr ?_⟩
        rw [store_weak hself, store_weak hp, reset_weak hold]
  · simp at hm

/-! ### `make_intrusive` -/

/-- The members of an object under construction take their references. -/
theorem retainAll_eq (members : List (Source × Ptr)) :
    ∀ {h h' : Heap} {held : List Ptr}, h.WeakCounted held →
      (∀ m ∈ members, h.Live m.1.source m.2) → h.retainAll members = some h' →
      h'.WeakCounted (weaks (members.map fun m => ⟨m.1.kind, m.2⟩) ++ held) ∧
      SameHandles h h' ∧
      (strongs (members.map fun m => ⟨m.1.kind, m.2⟩)).foldlM IntrusiveHeap.Heap.retain
        h.strongPart = some h'.strongPart := by
  induction members with
  | nil =>
      intro h h' held hc _ hr
      cases hr
      exact ⟨hc, .refl h, rfl⟩
  | cons m members ih =>
      intro h h' held hc hlive hr
      rw [retainAll, List.foldlM_cons, Option.bind_eq_bind, Option.bind_eq_some_iff] at hr
      obtain ⟨h₁, hr₁, hr⟩ := hr
      have hm : h.Live m.1.source m.2 := hlive m List.mem_cons_self
      obtain ⟨hc', hsame, hstrong⟩ := ih (hc.retain hm.control hr₁)
        (fun m' hm' => (hlive m' (List.mem_cons_of_mem m hm')).retain hr₁) hr
      refine ⟨hc'.of_same (.of_objs rfl (fun _ _ => Iff.rfl) rfl rfl) fun o => ?_,
        (retain_same hr₁).trans hsame, ?_⟩
      · simp only [weakCount, tally_append, tally_weaks, List.map_cons, tally_cons, tally_nil]
        omega
      · obtain ⟨init, p⟩ := m
        cases init with
        | copy kind other =>
            cases kind with
            | strong =>
                rw [List.map_cons]
                change List.foldlM _ _ (p :: strongs _) = _
                rw [List.foldlM_cons, retain_strong_eq hr₁]
                exact hstrong
            | weak =>
                rw [retain_weak hm.storage hr₁] at hstrong
                exact hstrong
        | weakFromStrong other =>
            rw [retain_weak hm.storage hr₁] at hstrong
            exact hstrong

/-- The constructor's arguments for the strong members. -/
def strongInits (h : Heap) (inits : List Source) : List Place :=
  inits.filterMap fun init => if init.kind = .strong then some (h.place init.other) else none

theorem strongInits_spec {inits : List Source}
    (hu : ∀ init ∈ inits, h.usable init.source init.other = true) :
    (h.strongInits inits).all h.strongPart.usable = true ∧
    (h.strongInits inits).map (fun pl => (h.strongPart.load pl).join) =
      strongs ((inits.map fun init => (init, (h.load init.source init.other).join)).map
        fun m => ⟨m.1.kind, m.2⟩) := by
  induction inits with
  | nil => exact ⟨rfl, rfl⟩
  | cons init inits ih =>
      obtain ⟨hall, hmap⟩ := ih fun init' hinit' => hu init' (List.mem_cons_of_mem init hinit')
      have hinit := hu init List.mem_cons_self
      cases init with
      | copy kind other =>
          cases kind with
          | strong =>
              obtain ⟨p, hp⟩ := load_of_usable hinit
              have hu' : h.usable .strong other = true := hinit
              have hp' : h.load .strong other = some p := hp
              have hcons : h.strongInits (.copy .strong other :: inits) =
                  h.place other :: h.strongInits inits := rfl
              rw [hcons, List.all_cons, List.map_cons, hmap, usable_strong hu', load_strong hp']
              refine ⟨hall, ?_⟩
              rw [List.map_cons, List.map_cons]
              simp only [Source.source, Source.other, Source.kind, hp']
              rfl
          | weak => exact ⟨hall, hmap⟩
      | weakFromStrong other => exact ⟨hall, hmap⟩

theorem strongPart_addObj (hp : h.pending = []) (t : Target) :
    (h.addObj t).strongPart = h.strongPart.addObj t.strongPart := by
  simp [strongPart, addObj, IntrusiveHeap.Heap.addObj, hp]

theorem strongPart_newObj (hp : h.pending = []) (members : List Handle) :
    (h.addObj ⟨1, 1, true, true, true, members⟩).strongPart =
      h.strongPart.addObj ⟨1, 1, true, strongs members⟩ := strongPart_addObj hp _

theorem makeIntrusive_performs {inits : List Source} (hs : h.Settled)
    (hm : h.makeIntrusive inits = some h') : Performs h h' := by
  simp only [makeIntrusive, guard, Option.bind_eq_bind, Option.pure_def] at hm
  split at hm
  · next hall =>
      simp only [Option.bind_some, Option.bind_eq_some_iff, Option.some.injEq] at hm
      obtain ⟨h₁, hr, rfl⟩ := hm
      have hu := List.all_eq_true.mp hall
      have hlive : ∀ m ∈ inits.map fun init => (init, (h.load init.source init.other).join),
          h.Live m.1.source m.2 := by
        intro m hm
        obtain ⟨init, hinit, rfl⟩ := List.mem_map.mp hm
        obtain ⟨p, hp⟩ := load_of_usable (hu init hinit)
        have hlive := hs.live_of_load hp
        simpa [hp] using hlive
      obtain ⟨hc, hsame, hstrong⟩ := retainAll_eq _ hs.weak hlive hr
      obtain ⟨hall', hmap⟩ := strongInits_spec hu
      rw [← hmap] at hstrong
      have hc' : (h₁.addObj _).WeakCounted (weaks [⟨.strong, some h₁.objs.length⟩] ++ []) := hc.addObj
      refine ⟨hc'.addRoot, .inl ⟨.makeIntrusive (h.strongInits inits), ?_⟩⟩
      have hpending : h₁.pending = [] := hsame.pending.trans hs.pending
      have hlen : h₁.strongPart.objs.length = h₁.objs.length := List.length_map _
      rw [IntrusiveHeap.Heap.makeIntrusive_of hall' hstrong, hmap, hlen]
      exact congrArg (fun g => some (g.addRoot (some h₁.objs.length)))
        (strongPart_newObj hpending _).symm
  · simp at hm

/-! ### `lock` -/

theorem usable_of_alive {g : IntrusiveHeap.Heap} (hg : g.Settled) (hl : g.load pl = some q)
    (ha : g.Alive pl) : g.usable pl = true := by
  cases pl with
  | root i =>
      simp only [IntrusiveHeap.Heap.usable, hl]
      rfl
  | member o k =>
      obtain ⟨t, ht, -⟩ := Option.bind_eq_some_iff.mp hl
      have htarget := (hg.exists_iff ht).mp (ha o rfl)
      simp only [IntrusiveHeap.Heap.usable, hl, ht, htarget, Option.any_some, Option.isSome_some,
        Bool.and_self]

/-- The object whose control block a weak handle has exists exactly while its strong
counter is not `0`. -/
theorem Settled.exists_iff (hs : h.Settled) (ht : h.objs[o]? = some t) :
    h.strongPart.Exists o ↔ t.strongRefs ≠ 0 := by
  have hobj := strongPart_obj ht
  rw [hs.strongPart.exists_iff hobj, hs.strong.target o _ hobj, Nat.pos_iff_ne_zero]
  rfl

/-- No counter that `lock` increments is at its maximum. -/
def Countable (h : Heap) (op : Op) : Prop :=
  ∀ other o t, op = .lock other → h.load .weak other = some (some o) → h.objs[o]? = some t →
    t.strongRefs ≠ sizeMax

/-- `lock` copies some strong handle to the object, when there is one left. -/
theorem lock_performs (hs : h.Settled) (hc : h.Countable (.lock other))
    (hm : h.lock other = some h') : Performs h h' := by
  simp only [lock, guard, Option.bind_eq_bind, Option.pure_def] at hm
  split at hm
  · simp only [Option.bind_some, Option.bind_eq_some_iff, Option.some.injEq] at hm
    obtain ⟨p, hp, rfl⟩ := hm
    cases p with
    | none => exact construct_performs hs .strong
    | some o =>
        obtain ⟨t, ht, hcontrol⟩ := hs.weak.control_of_load hp
        simp only [tryRetainStrongRef, ht, touchControl_eq _ hcontrol]
        by_cases hzero : t.strongRefs = 0
        · rw [if_pos hzero]
          exact construct_performs hs .strong
        · rw [if_neg hzero]
          have hmax := hc other o t rfl hp ht
          have htarget : t.target = true := by
            have hobj := strongPart_obj ht
            exact (hs.strong.target o _ hobj).mpr (Nat.pos_of_ne_zero hzero)
          have hadd : sizeAdd t.strongRefs = t.strongRefs + 1 := if_neg hmax
          rw [if_pos htarget, hadd]
          have hweak : (h.withObj o { t with strongRefs := t.strongRefs + 1 }).WeakCounted
              (weaks [⟨.strong, some o⟩] ++ []) := hs.weak.setStrong ht _
          refine ⟨hweak.addRoot, .inl ?_⟩
          obtain ⟨pl, hl, ha⟩ := hs.strongPart.exists_handle ((hs.exists_iff ht).mpr hzero)
          refine ⟨.copyConstruct pl, ?_⟩
          have hrefs : 0 < h.strongPart.refs [] o :=
            IntrusiveHeap.Heap.refs_pos_of_load [] hl o rfl
          obtain ⟨t', ht', hstorage, -⟩ := storage_of_refs hs.strong hrefs
          cases ht.symm.trans ht'
          have hr : h.retain .strong .strong (some o) =
              some (h.withObj o { t with strongRefs := t.strongRefs + 1 }) := by
            simp only [retain, ht, touchTarget_eq _ hstorage, touchControl_eq _ hcontrol, if_true]
            exact if_neg hmax
          exact IntrusiveHeap.Heap.copyConstruct_of (usable_of_alive hs.strongPart hl ha) hl
            (retain_strong_eq hr)
  · simp at hm

theorem expired_performs (hs : h.Settled) {b : Bool} (hm : h.expired other = some (h', b)) :
    Performs h h' := by
  simp only [expired, guard, Option.bind_eq_bind, Option.pure_def] at hm
  split at hm
  · simp only [Option.bind_some, Option.bind_eq_some_iff, Option.some.injEq] at hm
    obtain ⟨p, hp, hm⟩ := hm
    have hsame : h' = h := by
      cases p with
      | none =>
          cases hm
          rfl
      | some o =>
          obtain ⟨t, ht, hcontrol⟩ := hs.weak.control_of_load hp
          simp only [isExpired, ht, touchControl_eq _ hcontrol] at hm
          exact (congrArg Prod.fst hm).symm
    rw [hsame]
    exact ⟨hs.weak, .inr rfl⟩
  · simp at hm

/-! ## Steps and runs -/

theorem perform_performs {op : Op} (hs : h.Settled) (hc : h.Countable op)
    (hm : h.perform op = some h') : Performs h h' := by
  cases op with
  | construct kind =>
      cases hm
      exact construct_performs hs kind
  | makeIntrusive inits => exact makeIntrusive_performs hs hm
  | copyConstruct kind other => exact copyRoot_performs hs hm
  | weakFromStrong other => exact copyRoot_performs hs hm
  | moveConstruct kind other => exact moveConstruct_performs hs hm
  | copyAssign kind self other => exact copyAssign_performs hs hm
  | weakMoveAssign self other => exact weakMoveAssign_performs hs hm
  | swap kind self other => exact swap_performs hs hm
  | reset kind self =>
      simp only [perform] at hm
      split at hm
      · next hu =>
          cases hm
          exact reset_performs hs hu
      · cases hm
  | destroy kind i => exact destroyRoot_performs hs hm
  | lock other => exact lock_performs hs hc hm
  | expired other =>
      obtain ⟨⟨g, b⟩, hg, rfl⟩ := Option.map_eq_some_iff.mp hm
      exact expired_performs hs hg

theorem Performs.sound (hp : Performs h h') (hs : h.Settled) : h'.Sound := by
  refine ⟨?_, hp.weak⟩
  rcases hp.strong with ⟨op, hop⟩ | heq
  · exact IntrusiveHeap.Heap.perform_counted hs.strong hop
  · rw [heq]
    exact hs.strong

theorem step_settled {op : Op} (hs : h.Settled) (hc : h.Countable op) (hm : h.step op = some h') :
    h'.Settled := by
  obtain ⟨h₁, hp, rfl⟩ := Option.map_eq_some_iff.mp hm
  exact ⟨(settle_sound ((perform_performs hs hc hp).sound hs)).1, settle_done h₁⟩

theorem step_refines {op : Op} (hs : h.Settled) (hc : h.Countable op) (hm : h.step op = some h') :
    ∃ op', IntrusiveHeap.machine.StutStep h.strongPart op' h'.strongPart := by
  obtain ⟨h₁, hp, rfl⟩ := Option.map_eq_some_iff.mp hm
  have hperforms := perform_performs hs hc hp
  have hsettle := (settle_sound (hperforms.sound hs)).2
  rcases hperforms.strong with ⟨op', hop⟩ | heq
  · refine ⟨some op', ?_⟩
    change (h.strongPart.perform op').map IntrusiveHeap.Heap.settle = _
    rw [hop, hsettle]
    rfl
  · refine ⟨none, ?_⟩
    change h₁.settle.strongPart = h.strongPart
    rw [hsettle, heq]
    exact Function.iterate_fixed (by simp only [IntrusiveHeap.Heap.cascadeStep, hs.strongPart.2]) _

theorem empty_settled : empty.Settled := by
  refine ⟨⟨IntrusiveHeap.Heap.empty_counted, ?_⟩, rfl⟩
  constructor <;> simp [empty, weakCount, weakHandles]

/-- Forgetting the weak handles is a simulation. -/
theorem simulation :
    Simulation machine IntrusiveHeap.machine strongPart Countable Settled where
  init h hh := by
    cases hh
    rfl
  init_inv h hh := by
    cases hh
    exact empty_settled
  step_inv _ _ _ hc hm hs := step_settled hs hc hm
  step _ _ _ hc hm hs := step_refines hs hc hm

end Heap

end Gradyx.WeakHeap
