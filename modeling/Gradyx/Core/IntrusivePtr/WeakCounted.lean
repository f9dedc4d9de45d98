import Gradyx.Core.IntrusivePtr.WeakProjection

/-!
# IntrusivePtr — what the weak counters count

The invariant of the weak handles in the middle of any cascade. `WeakCounted h held`:
every weak counter is the number of weak handles, of weak references in the hands of
the running call (`held`), and one more while the target has its storage.

* the control block is there as long as the counter is not `0`, and is deleted once;
* a weak member of an object whose destructor has started is null, or still to be
  destroyed.

What the strong handles do is the invariant of `strongPart`.
-/

namespace Gradyx.WeakHeap

open Gradyx.Lib
open Gradyx.IntrusivePtr (Kind sizeMax sizeAdd sizeSub)
open Gradyx.IntrusiveHeap (Ptr Place Task refsTo refsTo_self refsTo_of_lt)

/-! ## Counting weak handles -/

def Handle.weakRefs (o : ℕ) (m : Handle) : ℕ := if m.kind = .weak then refsTo o m.ptr else 0

/-- How many weak members of the object refer to `o`. -/
def Target.weakHandles (o : ℕ) (t : Target) : ℕ := tally (Handle.weakRefs o) t.members

/-- The pointers of the weak members. -/
def weaks (members : List Handle) : List Ptr :=
  members.filterMap fun m => if m.kind = .weak then some m.ptr else none

theorem tally_weaks (o : ℕ) (members : List Handle) :
    tally (refsTo o) (weaks members) = tally (Handle.weakRefs o) members := by
  induction members with
  | nil => rfl
  | cons m members ih =>
      obtain ⟨kind, p⟩ := m
      rw [tally_cons, ← ih]
      cases kind with
      | strong => exact (Nat.zero_add _).symm
      | weak => exact tally_cons (refsTo o) p (weaks members)

namespace Heap

/-- The weak handles that point to the object's control block. -/
def weakHandles (h : Heap) (o : ℕ) : ℕ :=
  tally (fun r => refsTo o r.join) h.weakRoots + tally (Target.weakHandles o) h.objs

def weakCount (h : Heap) (held : List Ptr) (o : ℕ) : ℕ := h.weakHandles o + tally (refsTo o) held

/-- The invariant. -/
structure WeakCounted (h : Heap) (held : List Ptr) : Prop where
  weak : ∀ (o : ℕ) (t : Target), h.objs[o]? = some t →
    t.weakRefs = h.weakCount held o + if t.storage then 1 else 0
  valid : ∀ o, 0 < h.weakCount held o → o < h.objs.length
  control : ∀ (o : ℕ) (t : Target), h.objs[o]? = some t → (t.control = true ↔ 0 < t.weakRefs)
  freed : ∀ (o : ℕ) (t : Target), h.objs[o]? = some t →
    h.freed.count o = if t.control then 0 else 1
  drained : ∀ (o : ℕ) (t : Target) (k : ℕ) (p : ℕ),
    h.objs[o]? = some t → t.target = false → t.members[k]? = some ⟨.weak, some p⟩ →
    ∃ j, k < j ∧ .destroy o j ∈ h.pending
  pending : ∀ o j, .destroy o j ∈ h.pending → ∃ t, h.objs[o]? = some t ∧ j ≤ t.members.length
  log : ∀ o ∈ h.freed, o < h.objs.length
  controlFault : h.controlFault = false

variable {h h' : Heap} {held held' : List Ptr} {o k : ℕ} {t t' : Target} {pl : Place} {p q : Ptr}
  {kind : Kind}

/-! ## Overwriting a handle -/

theorem weakHandles_withObj (t' : Target) (ht : h.objs[o]? = some t) (x : ℕ) :
    (h.withObj o t').weakHandles x + t.weakHandles x = h.weakHandles x + t'.weakHandles x := by
  have := tally_set (Target.weakHandles x) t' ht
  simp only [weakHandles, withObj]
  omega

theorem weakHandles_withRoot {i : ℕ} {r : Option Ptr} (r' : Option Ptr)
    (hr : h.weakRoots[i]? = some r) (x : ℕ) :
    (h.withRoot .weak i r').weakHandles x + refsTo x r.join =
      h.weakHandles x + refsTo x r'.join := by
  have := tally_set (fun r => refsTo x r.join) r' hr
  simp only [weakHandles, withRoot]
  omega

/-- Overwriting a weak handle moves one reference, and overwriting a strong one none. -/
theorem weakHandles_store (p : Ptr) (hq : h.load kind pl = some q) (x : ℕ) :
    (h.store kind pl p).weakHandles x + Handle.weakRefs x ⟨kind, q⟩ =
      h.weakHandles x + Handle.weakRefs x ⟨kind, p⟩ := by
  cases pl with
  | root i =>
      cases kind with
      | strong => rfl
      | weak => exact weakHandles_withRoot (some p) (Option.join_eq_some_iff.mp hq) x
  | member o k =>
      obtain ⟨t, ht, hk⟩ := Option.bind_eq_some_iff.mp hq
      have h₁ := weakHandles_withObj (t.setMember kind k p) ht x
      have h₂ : (t.setMember kind k p).weakHandles x + Handle.weakRefs x ⟨kind, q⟩ =
          t.weakHandles x + Handle.weakRefs x ⟨kind, p⟩ :=
        tally_set (Handle.weakRefs x) ⟨kind, p⟩ (Target.member_eq_some.mp hk)
      simp only [store, ht]
      omega

/-- A weak handle's pointer is a reference. -/
theorem refsTo_le_of_load_weak (hq : h.load .weak pl = some q) (x : ℕ) :
    refsTo x q ≤ h.weakHandles x := by
  have := weakHandles_store none hq x
  simp only [Handle.weakRefs, refsTo] at this ⊢
  grind

/-! ## Heaps that weak handles cannot tell apart -/

/-- The weak counters, the storage and the control blocks are the same, and a weak
member of a target that is given up can only have become null. -/
structure WeakSame (h h' : Heap) : Prop where
  length : h'.objs.length = h.objs.length
  obj : ∀ (o : ℕ) (t' : Target), h'.objs[o]? = some t' → ∃ t : Target, h.objs[o]? = some t ∧
    t'.weakRefs = t.weakRefs ∧ t'.storage = t.storage ∧ t'.control = t.control ∧
    t'.target = t.target ∧ t'.members.length = t.members.length ∧
    ∀ (k : ℕ) (x : ℕ), t.target = false → t'.members[k]? = some ⟨.weak, some x⟩ →
      t.members[k]? = some ⟨.weak, some x⟩
  pending : ∀ o j, .destroy o j ∈ h'.pending ↔ .destroy o j ∈ h.pending
  freed : h'.freed = h.freed
  controlFault : h'.controlFault = h.controlFault

theorem WeakSame.of_objs (ho : h'.objs = h.objs)
    (hp : ∀ o j, .destroy o j ∈ h'.pending ↔ .destroy o j ∈ h.pending) (hf : h'.freed = h.freed)
    (hc : h'.controlFault = h.controlFault) : WeakSame h h' :=
  ⟨by rw [ho], fun o t ht => ⟨t, ho ▸ ht, rfl, rfl, rfl, rfl, rfl, fun _ _ _ hx => hx⟩, hp, hf, hc⟩

theorem WeakSame.trans {h₁ h₂ h₃ : Heap} (a : WeakSame h₁ h₂) (b : WeakSame h₂ h₃) :
    WeakSame h₁ h₃ where
  length := b.length.trans a.length
  obj o t₃ ht₃ := by
    obtain ⟨t₂, ht₂, hw, hs, hc, ht, hl, hm⟩ := b.obj o t₃ ht₃
    obtain ⟨t₁, ht₁, hw', hs', hc', ht', hl', hm'⟩ := a.obj o t₂ ht₂
    refine ⟨t₁, ht₁, hw.trans hw', hs.trans hs', hc.trans hc', ht.trans ht', hl.trans hl', ?_⟩
    intro k x hd hx
    exact hm' k x hd (hm k x (ht'.trans hd) hx)
  pending o j := (b.pending o j).trans (a.pending o j)
  freed := b.freed.trans a.freed
  controlFault := b.controlFault.trans a.controlFault

/-- The strong counter of an object changes. -/
theorem WeakSame.setStrong (ht : h.objs[o]? = some t) (n : ℕ) :
    WeakSame h (h.withObj o { t with strongRefs := n }) := by
  refine ⟨List.length_set, fun x t' ht' => ?_, fun _ _ => Iff.rfl, rfl, rfl⟩
  simp only [withObj, List.getElem?_set] at ht'
  grind

theorem store_weakSame (hpl : h.usable kind pl = true ∨ kind = .strong ∨ p = none) :
    WeakSame h (h.store kind pl p) := by
  cases pl with
  | root i => cases kind <;> exact .of_objs rfl (fun _ _ => Iff.rfl) rfl rfl
  | member o k =>
      cases ho : h.objs[o]? with
      | none =>
          simp only [store, ho]
          exact .of_objs rfl (fun _ _ => Iff.rfl) rfl rfl
      | some t =>
          simp only [store, ho]
          refine ⟨List.length_set, fun x t' ht' => ?_, fun _ _ => Iff.rfl, rfl, rfl⟩
          simp only [withObj, List.getElem?_set] at ht'
          simp only [usable, ho, Option.any_some, Bool.and_eq_true] at hpl
          grind [Target.setMember]

/-- The other handles keep their pointers. -/
theorem load_store {kind' : Kind} {pl' : Place} (p : Ptr) (hq : h.load kind pl = some q) :
    (h.store kind pl p).load kind' pl' =
      if pl' = pl ∧ kind' = kind then some p else h.load kind' pl' := by
  cases pl with
  | root i =>
      cases pl' with
      | root j =>
          cases kind <;> cases kind' <;>
            simp only [load, store, withRoot, rootsOf, List.getElem?_set,
              Option.join_eq_some_iff] at hq ⊢ <;> grind
      | member o' k' => cases kind <;> simp [load, store, withRoot]
  | member o k =>
      obtain ⟨t, ht, hk⟩ := Option.bind_eq_some_iff.mp hq
      rw [Target.member_eq_some] at hk
      have ho : o < h.objs.length := (List.getElem?_eq_some_iff.mp ht).1
      have hk' : k < t.members.length := (List.getElem?_eq_some_iff.mp hk).1
      cases pl' with
      | root j =>
          simp only [store, ht]
          cases kind' <;> simp [load, rootsOf, withObj]
      | member o' k' =>
          simp only [store, ht, load, withObj, List.getElem?_set, Target.member, Target.setMember]
          grind

theorem touchTarget_eq (h : Heap) (ht : t.storage = true) : h.touchTarget t = h := by
  cases h
  simp [touchTarget, ht]

theorem touchControl_eq (h : Heap) (ht : t.control = true) : h.touchControl t = h := by
  cases h
  simp [touchControl, ht]

/-! ## What the primitives keep -/

namespace WeakCounted

/-- Moving references between weak handles and the running call. -/
theorem of_same (hc : h.WeakCounted held) (hs : WeakSame h h')
    (hr : ∀ o, h'.weakCount held' o = h.weakCount held o) : h'.WeakCounted held' := by
  obtain ⟨hlen, hobj, hp, hf, hcf⟩ := hs
  constructor
  · intro o t' ht'
    obtain ⟨t, ht, hw, hst, -⟩ := hobj o t' ht'
    rw [hw, hst, hr o]
    exact hc.weak o t ht
  · intro o ho
    rw [hlen]
    exact hc.valid o (hr o ▸ ho)
  · intro o t' ht'
    obtain ⟨t, ht, hw, -, hct, -⟩ := hobj o t' ht'
    rw [hw, hct]
    exact hc.control o t ht
  · intro o t' ht'
    obtain ⟨t, ht, -, -, hct, -⟩ := hobj o t' ht'
    rw [hf, hct]
    exact hc.freed o t ht
  · intro o t' k p ht' hdead hk
    obtain ⟨t, ht, -, -, -, htg, -, hm⟩ := hobj o t' ht'
    obtain ⟨j, hkj, hj⟩ := hc.drained o t k p ht (htg ▸ hdead) (hm k p (htg ▸ hdead) hk)
    exact ⟨j, hkj, (hp o j).mpr hj⟩
  · intro o j hj
    obtain ⟨t, ht, hle⟩ := hc.pending o j ((hp o j).mp hj)
    have ho : o < h'.objs.length := hlen ▸ (List.getElem?_eq_some_iff.mp ht).1
    obtain ⟨t₀, ht₀, -, -, -, -, hl, -⟩ := hobj o h'.objs[o] (List.getElem?_eq_getElem ho)
    cases ht.symm.trans ht₀
    exact ⟨_, List.getElem?_eq_getElem ho, hl ▸ hle⟩
  · intro o ho
    rw [hlen]
    exact hc.log o (hf ▸ ho)
  · rw [hcf]
    exact hc.controlFault

/-- A null pointer in the hands of the running call is no reference. -/
theorem null_iff : h.WeakCounted (weaks [⟨kind, none⟩] ++ held) ↔ h.WeakCounted held := by
  have hr : ∀ o, h.weakCount (weaks [⟨kind, none⟩] ++ held) o = h.weakCount held o := fun o => by
    simp [weakCount, tally_weaks, Handle.weakRefs, refsTo]
  have hsame : WeakSame h h := .of_objs rfl (fun _ _ => Iff.rfl) rfl rfl
  exact ⟨fun hc => hc.of_same hsame fun o => (hr o).symm, fun hc => hc.of_same hsame hr⟩

theorem pending_congr (hc : h.WeakCounted held) {rest : List Task}
    (hp : ∀ o j, .destroy o j ∈ rest ↔ .destroy o j ∈ h.pending) :
    (h.withPending rest).WeakCounted held :=
  hc.of_same (.of_objs rfl hp rfl rfl) fun _ => rfl

/-- Exchanging the pointer of a handle for one in the hands of the call. -/
theorem store (hc : h.WeakCounted (weaks [⟨kind, p⟩] ++ held)) (hq : h.load kind pl = some q)
    (hpl : h.usable kind pl = true ∨ p = none) :
    (h.store kind pl p).WeakCounted (weaks [⟨kind, q⟩] ++ held) := by
  refine hc.of_same (store_weakSame (hpl.imp_right .inr)) fun o => ?_
  have := weakHandles_store p hq o
  simp only [weakCount, tally_append, tally_weaks, tally_cons, tally_nil]
  omega

theorem addRoot (hc : h.WeakCounted (weaks [⟨kind, p⟩] ++ held)) :
    (h.addRoot kind p).WeakCounted held := by
  cases kind with
  | strong => exact hc.of_same (.of_objs rfl (fun _ _ => Iff.rfl) rfl rfl) fun _ => rfl
  | weak =>
      refine hc.of_same (.of_objs rfl (fun _ _ => Iff.rfl) rfl rfl) fun o => ?_
      simp only [weakCount, weakHandles, Heap.addRoot, tally_append, tally_weaks, tally_cons,
        tally_nil, Option.join_some, Handle.weakRefs, if_true]
      omega

/-- Storage of a null root goes. -/
theorem dropRoot {i : ℕ} (hc : h.WeakCounted held) (hi : h.load kind (.root i) = some none) :
    (h.withRoot kind i none).WeakCounted held := by
  cases kind with
  | strong => exact hc.of_same (.of_objs rfl (fun _ _ => Iff.rfl) rfl rfl) fun _ => rfl
  | weak =>
      refine hc.of_same (.of_objs rfl (fun _ _ => Iff.rfl) rfl rfl) fun o => ?_
      have := weakHandles_withRoot none (Option.join_eq_some_iff.mp hi) o
      simp only [weakCount]
      simpa using this

/-! ### Control blocks that something refers to -/

theorem control_of_storage (hc : h.WeakCounted held) (ht : h.objs[o]? = some t)
    (hs : t.storage = true) : t.control = true := by
  rw [hc.control o t ht, hc.weak o t ht, if_pos hs]
  exact Nat.succ_pos _

theorem control_of_count (hc : h.WeakCounted held) (ho : 0 < h.weakCount held o) :
    ∃ t, h.objs[o]? = some t ∧ t.control = true := by
  have ht := List.getElem?_eq_getElem (hc.valid o ho)
  refine ⟨_, ht, ?_⟩
  rw [hc.control o _ ht, hc.weak o _ ht]
  omega

theorem control_of_load (hc : h.WeakCounted held) (hl : h.load .weak pl = some (some o)) :
    ∃ t, h.objs[o]? = some t ∧ t.control = true := by
  have := refsTo_le_of_load_weak hl o
  rw [refsTo_self] at this
  exact hc.control_of_count (Nat.lt_of_lt_of_le this (Nat.le_add_right _ _))

/-- One more weak reference, in the hands of the running call. -/
theorem incWeak (hc : h.WeakCounted held) (ht : h.objs[o]? = some t) (hct : t.control = true) :
    (h.withObj o (t.setRefs .weak (t.weakRefs + 1))).WeakCounted (some o :: held) := by
  have hm := weakHandles_withObj (t.setRefs .weak (t.weakRefs + 1)) ht
  obtain ⟨hweak, hvalid, hcontrol, hfreed, hdrained, hpending, hlog, hfault⟩ := hc
  constructor <;>
    simp only [withObj, List.getElem?_set, List.length_set, weakCount, Target.weakHandles,
      Target.setRefs, tally_cons, refsTo] at * <;> grind

theorem touch (hc : h.WeakCounted held) (t : Target) : (h.touchTarget t).WeakCounted held :=
  hc.of_same (.of_objs rfl (fun _ _ => Iff.rfl) rfl rfl) fun _ => rfl

theorem push (hc : h.WeakCounted held) (o : ℕ) : (h.push (.release o)).WeakCounted held := by
  refine hc.of_same (.of_objs rfl (fun _ _ => ?_) rfl rfl) fun _ => rfl
  simp [Heap.push]

theorem setStrong (hc : h.WeakCounted held) (ht : h.objs[o]? = some t) (n : ℕ) :
    (h.withObj o { t with strongRefs := n }).WeakCounted held := by
  refine hc.of_same (.setStrong ht n) fun x => ?_
  have := weakHandles_withObj { t with strongRefs := n } ht x
  exact congrArg (· + _) (Nat.add_right_cancel this)

/-- Taking a reference. A strong one does not count here, but it needs the control
block as well. -/
theorem retain {source : Kind} (hc : h.WeakCounted held)
    (hp : ∀ o, p = some o → ∃ t, h.objs[o]? = some t ∧ t.control = true)
    (hr : h.retain source kind p = some h') : h'.WeakCounted (weaks [⟨kind, p⟩] ++ held) := by
  cases p with
  | none =>
      cases hr
      exact null_iff.mpr hc
  | some o =>
      obtain ⟨t, ht, hct⟩ := hp o rfl
      simp only [Heap.retain, ht, touchControl_eq _ hct] at hr
      by_cases hmax : t.refs kind = sizeMax
      · rw [if_pos hmax] at hr
        cases hr
      · rw [if_neg hmax] at hr
        obtain rfl := Option.some.inj hr
        have hc' : (if source = .strong then h.touchTarget t else h).WeakCounted held := by
          split
          · exact hc.touch t
          · exact hc
        have ht' : (if source = .strong then h.touchTarget t else h).objs[o]? = some t := by
          split <;> exact ht
        cases kind with
        | strong => exact hc'.setStrong ht' _
        | weak => exact hc'.incWeak ht' hct

/-- The last strong reference starts the destructor, with every member still to be
destroyed. -/
theorem startDestructor (hc : h.WeakCounted held) (ht : h.objs[o]? = some t) (n : ℕ) :
    ((h.withObj o { t with strongRefs := n, target := false }).push
      (.destroy o t.members.length)).WeakCounted held := by
  have hm := weakHandles_withObj { t with strongRefs := n, target := false } ht
  obtain ⟨hweak, hvalid, hcontrol, hfreed, hdrained, hpending, hlog, hfault⟩ := hc
  constructor <;>
    simp only [Heap.push, withObj, List.getElem?_set, List.length_set, weakCount,
      Target.weakHandles, weakHandles] at * <;> grind

theorem releaseStrongRef (hc : h.WeakCounted held) (ht : h.objs[o]? = some t)
    (hct : t.control = true) : (h.releaseStrongRef o).WeakCounted held := by
  simp only [Heap.releaseStrongRef, ht, touchControl_eq _ hct]
  by_cases hlast : t.strongRefs = 1
  · rw [if_pos hlast]
    by_cases htarget : t.target = true
    · rw [if_pos htarget]
      exact (hc.touch t).startDestructor ht _
    · rw [if_neg htarget]
      have := (hc.touch t).setStrong ht (sizeSub t.strongRefs)
      rwa [← Bool.eq_false_iff.mpr htarget]
  · rw [if_neg hlast]
    exact (hc.touch t).setStrong ht _

/-- Giving a weak reference back. With the last one the control block goes. -/
theorem releaseWeakRef (hc : h.WeakCounted (some o :: held)) :
    (h.releaseWeakRef o).WeakCounted held := by
  have hpos : 0 < h.weakCount (some o :: held) o := by simp [weakCount, refsTo]
  obtain ⟨t, ht, hct⟩ := hc.control_of_count hpos
  have hw := hc.weak o t ht
  have hsub : sizeSub t.weakRefs = t.weakRefs - 1 :=
    IntrusiveHeap.Heap.Counted.sizeSub_pos (by omega)
  simp only [Heap.releaseWeakRef, ht, touchControl_eq _ hct, hsub]
  by_cases hlast : t.weakRefs = 1
  · rw [if_pos hlast]
    have hm := weakHandles_withObj { t with weakRefs := t.weakRefs - 1, control := false } ht
    obtain ⟨hweak, hvalid, hcontrol, hfreed, hdrained, hpending, hlog, hfault⟩ := hc
    constructor <;>
      simp only [logFreed, withObj, List.getElem?_set, List.length_set, List.count_cons,
        List.mem_cons, weakCount, Target.weakHandles, weakHandles, tally_cons, refsTo] at * <;>
      grind
  · rw [if_neg hlast]
    have hm := weakHandles_withObj { t with weakRefs := t.weakRefs - 1 } ht
    obtain ⟨hweak, hvalid, hcontrol, hfreed, hdrained, hpending, hlog, hfault⟩ := hc
    constructor <;>
      simp only [withObj, List.getElem?_set, List.length_set, weakCount, Target.weakHandles,
        weakHandles, tally_cons, refsTo] at * <;> grind

theorem drop (hc : h.WeakCounted (weaks [⟨kind, p⟩] ++ held)) :
    (h.drop kind p).WeakCounted held := by
  cases p with
  | none => exact null_iff.mp hc
  | some o =>
      cases kind with
      | strong => exact WeakCounted.push hc o
      | weak => exact releaseWeakRef hc

theorem reset (hc : h.WeakCounted held) (hl : h.load kind pl = some p) :
    (h.reset kind pl).WeakCounted held := by
  simp only [Heap.reset, hl]
  exact ((null_iff.mpr hc).store hl (.inr rfl)).drop

/-- The storage goes: the implicit weak reference is in the hands of the destructor. -/
theorem endStorage (hc : h.WeakCounted held) (ht : h.objs[o]? = some t) (hs : t.storage = true) :
    (h.withObj o { t with storage := false }).WeakCounted (some o :: held) := by
  have hm := weakHandles_withObj { t with storage := false } ht
  obtain ⟨hweak, hvalid, hcontrol, hfreed, hdrained, hpending, hlog, hfault⟩ := hc
  constructor <;>
    simp only [withObj, List.getElem?_set, List.length_set, weakCount, Target.weakHandles,
      weakHandles, tally_cons, refsTo] at * <;> grind

theorem baseDestructor (hc : h.WeakCounted held) (ht : h.objs[o]? = some t)
    (hs : t.storage = true) : (h.baseDestructor o).WeakCounted held := by
  have ho : o < h.objs.length := (List.getElem?_eq_some_iff.mp ht).1
  have hself : ∀ u : Target, (h.objs.set o u)[o]? = some u := fun u => List.getElem?_set_self ho
  -- the storage goes before the reference is released here, and after it there
  have heq : h.baseDestructor o =
      (((h.withObj o { t with storage := false }).releaseWeakRef o).touchTarget t).logDestroyed o := by
    by_cases hlast : t.weakRefs = 1
    · simp [Heap.baseDestructor, Heap.endStorage, Heap.releaseWeakRef, ht, hself, withObj, hlast,
        touchControl, logFreed, touchTarget, logDestroyed]
    · simp [Heap.baseDestructor, Heap.endStorage, Heap.releaseWeakRef, ht, hself, withObj, hlast,
        touchControl, touchTarget, logDestroyed]
  rw [heq]
  exact ((hc.endStorage ht hs).releaseWeakRef.touch t).of_same
    (.of_objs rfl (fun _ _ => Iff.rfl) rfl rfl) fun _ => rfl

/-- The destructor goes on to the member before, when this one is no weak pointer any
more. -/
theorem nextMember {rest : List Task} (hc : h.WeakCounted held)
    (hp : h.pending = .destroy o (k + 1) :: rest) (ht : h.objs[o]? = some t)
    (hk : ∀ x, t.members[k]? ≠ some ⟨.weak, some x⟩) :
    (h.withPending (.destroy o k :: rest)).WeakCounted held := by
  obtain ⟨hweak, hvalid, hcontrol, hfreed, hdrained, hpending, hlog, hfault⟩ := hc
  constructor
  case drained =>
    intro x t' j p ht' hdead hj
    obtain ⟨i, hji, hi⟩ := hdrained x t' j p ht' hdead hj
    rw [hp, List.mem_cons] at hi
    rcases hi with heq | hi
    · cases heq
      cases ht.symm.trans ht'
      rcases Nat.lt_or_ge j k with hlt | hge
      · exact ⟨k, hlt, List.mem_cons_self⟩
      · obtain rfl : j = k := by omega
        exact absurd hj (hk p)
    · exact ⟨i, hji, List.mem_cons_of_mem _ hi⟩
  case pending =>
    intro x j hj
    rcases List.mem_cons.mp hj with heq | hj
    · cases heq
      obtain ⟨t', ht', hle⟩ := hpending o (k + 1) (hp ▸ List.mem_cons_self)
      exact ⟨t', ht', by omega⟩
    · exact hpending x j (hp ▸ List.mem_cons_of_mem _ hj)
  all_goals assumption

/-- All members are gone. -/
theorem popDestroy {rest : List Task} (hc : h.WeakCounted held)
    (hp : h.pending = .destroy o 0 :: rest) : (h.withPending rest).WeakCounted held := by
  obtain ⟨hweak, hvalid, hcontrol, hfreed, hdrained, hpending, hlog, hfault⟩ := hc
  constructor
  case drained =>
    intro x t' k p ht' hdead hk
    obtain ⟨j, hkj, hj⟩ := hdrained x t' k p ht' hdead hk
    rw [hp, List.mem_cons] at hj
    rcases hj with heq | hj
    · cases heq
      omega
    · exact ⟨j, hkj, hj⟩
  case pending =>
    intro x j hj
    exact hpending x j (hp ▸ List.mem_cons_of_mem _ hj)
  all_goals assumption

/-- A new object, with the weak references its members took. -/
theorem addObj {members : List Handle} (hc : h.WeakCounted (weaks members ++ held)) :
    (h.addObj ⟨1, 1, true, true, true, members⟩).WeakCounted held := by
  have hnew : h.weakCount (weaks members ++ held) h.objs.length = 0 := by
    by_contra hpos
    exact lt_irrefl _ (hc.valid h.objs.length (Nat.pos_of_ne_zero hpos))
  have hcount : h.freed.count h.objs.length = 0 :=
    List.count_eq_zero.mpr fun hmem => lt_irrefl _ (hc.log _ hmem)
  have hrefs : ∀ o, (h.addObj ⟨1, 1, true, true, true, members⟩).weakCount held o =
      h.weakCount (weaks members ++ held) o := by
    intro o
    simp only [weakCount, weakHandles, Heap.addObj, tally_append, tally_cons, tally_nil,
      Target.weakHandles, tally_weaks]
    omega
  have hobjs : ∀ o t, (h.objs ++ [(⟨1, 1, true, true, true, members⟩ : Target)])[o]? = some t →
      h.objs[o]? = some t ∧ o < h.objs.length ∨
        o = h.objs.length ∧ t = ⟨1, 1, true, true, true, members⟩ := by
    intro o t ht
    rw [List.getElem?_append] at ht
    grind
  obtain ⟨hweak, hvalid, hcontrol, hfreed, hdrained, hpending, hlog, hfault⟩ := hc
  constructor
  case weak =>
    intro o t ht
    rw [hrefs]
    rcases hobjs o t ht with ⟨ht, -⟩ | ⟨rfl, rfl⟩
    · exact hweak o t ht
    · rw [hnew]
      rfl
  case valid =>
    intro o ho
    rw [hrefs] at ho
    exact (hvalid o ho).trans_le (by simp [Heap.addObj])
  all_goals
    simp only [Heap.addObj, List.length_append, List.length_singleton] at *
    grind

end WeakCounted

end Heap

end Gradyx.WeakHeap
