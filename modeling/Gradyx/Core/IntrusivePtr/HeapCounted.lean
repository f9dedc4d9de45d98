import Gradyx.Core.IntrusivePtr.Heap

/-!
# IntrusivePtr — what the heap counts

The invariant of the heap in the middle of any cascade. `Counted h held`: every
counter equals the number of handles, pending releases and references in the
hands of the running call (`held`) for that object.

* each primitive of the model moves one reference, and keeps the equation;
* an object is destroyed once its counter is `0`, and its destructor stays
  pending until all its members are null;
* every cascade step lowers `cost`, whatever the graph looks like.
-/

namespace Gradyx.IntrusiveHeap

open Gradyx.Lib
open Gradyx.IntrusivePtr (sizeMax sizeSub)

/-! ## Counting references -/

/-- How often a pointer refers to the object. -/
def refsTo (o : ℕ) (p : Ptr) : ℕ := if p = some o then 1 else 0

theorem refsTo_self (o : ℕ) : refsTo o (some o) = 1 := if_pos rfl

theorem refsTo_of_lt {o n : ℕ} (ho : o < n) : refsTo o (some n) = 0 :=
  if_neg fun h => Nat.ne_of_gt ho (Option.some.inj h)

/-- How many members of the object refer to `o`. -/
def Target.refs (o : ℕ) (t : Target) : ℕ := tally (refsTo o) t.members

def Task.refs (o : ℕ) : Task → ℕ
  | .release o' => refsTo o (some o')
  | .destroy _ _ => 0

def Task.destroys (o : ℕ) : Task → ℕ
  | .release _ => 0
  | .destroy o' _ => refsTo o (some o')

namespace Heap

/-- The root handles that point to the object. -/
def rootRefs (h : Heap) (o : ℕ) : ℕ := tally (fun r => refsTo o r.join) h.roots

/-- The member handles that point to the object. -/
def memberRefs (h : Heap) (o : ℕ) : ℕ := tally (Target.refs o) h.objs

/-- The handles that point to the object. -/
def handleRefs (h : Heap) (o : ℕ) : ℕ := h.rootRefs o + h.memberRefs o

/-- The references of the handles, of the pending releases and of the running
call. -/
def refs (h : Heap) (held : List Ptr) (o : ℕ) : ℕ :=
  h.handleRefs o + tally (Task.refs o) h.pending + tally (refsTo o) held

/-- The invariant. -/
structure Counted (h : Heap) (held : List Ptr) : Prop where
  strong : ∀ (o : ℕ) (t : Target), h.objs[o]? = some t → t.strongRefs = h.refs held o
  valid : ∀ o, 0 < h.refs held o → o < h.objs.length
  target : ∀ (o : ℕ) (t : Target), h.objs[o]? = some t → (t.target = true ↔ 0 < t.strongRefs)
  weak : ∀ (o : ℕ) (t : Target), h.objs[o]? = some t → t.weakRefs + h.destroyed.count o = 1
  fate : ∀ (o : ℕ) (t : Target), h.objs[o]? = some t →
    h.destroyed.count o + tally (Task.destroys o) h.pending = if t.target then 0 else 1
  drained : ∀ (o : ℕ) (t : Target) (k : ℕ) (p : ℕ),
    h.objs[o]? = some t → t.target = false → t.members[k]? = some (some p) →
    ∃ j, k < j ∧ .destroy o j ∈ h.pending
  pending : ∀ o j, .destroy o j ∈ h.pending → ∃ t, h.objs[o]? = some t ∧ j ≤ t.members.length
  log : ∀ o ∈ h.destroyed, o < h.objs.length
  fault : h.fault = false

/-! ## Overwriting a handle -/

theorem handleRefs_withObj {h : Heap} {o : ℕ} {t : Target} (t' : Target)
    (ht : h.objs[o]? = some t) (x : ℕ) :
    (h.withObj o t').handleRefs x + t.refs x = h.handleRefs x + t'.refs x := by
  have := tally_set (Target.refs x) t' ht
  simp only [handleRefs, rootRefs, memberRefs, withObj]
  omega

theorem handleRefs_withRoot {h : Heap} {i : ℕ} {r : Option Ptr} (r' : Option Ptr)
    (hr : h.roots[i]? = some r) (x : ℕ) :
    (h.withRoot i r').handleRefs x + refsTo x r.join = h.handleRefs x + refsTo x r'.join := by
  have := tally_set (fun r => refsTo x r.join) r' hr
  simp only [handleRefs, rootRefs, memberRefs, withRoot]
  omega

theorem refs_setMember {t : Target} {k : ℕ} {q : Ptr} (p : Ptr) (hq : t.members[k]? = some q)
    (x : ℕ) : (t.setMember k p).refs x + refsTo x q = t.refs x + refsTo x p :=
  tally_set (refsTo x) p hq

/-- Overwriting a handle moves one reference from the old pointer to the new. -/
theorem handleRefs_store {h : Heap} {pl : Place} {q : Ptr} (p : Ptr) (hq : h.load pl = some q)
    (x : ℕ) : (h.store pl p).handleRefs x + refsTo x q = h.handleRefs x + refsTo x p := by
  cases pl with
  | root i =>
      have hr : h.roots[i]? = some (some q) := by simpa [load, Option.join_eq_some_iff] using hq
      exact handleRefs_withRoot (some p) hr x
  | member o k =>
      obtain ⟨t, ht, hk⟩ := Option.bind_eq_some_iff.mp hq
      have h₁ := handleRefs_withObj (t.setMember k p) ht x
      have h₂ := refs_setMember p hk x
      simp only [store, ht]
      omega

/-- The pointer of a handle is a reference. -/
theorem refsTo_le_of_load {h : Heap} {pl : Place} {q : Ptr} (hq : h.load pl = some q)
    (x : ℕ) : refsTo x q ≤ h.handleRefs x := by
  have := handleRefs_store none hq x
  simp only [refsTo] at this ⊢
  grind

/-- The other handles keep their pointers. -/
theorem load_store {h : Heap} {pl : Place} {q : Ptr} (p : Ptr) (hq : h.load pl = some q)
    (pl' : Place) : (h.store pl p).load pl' = if pl' = pl then some p else h.load pl' := by
  cases pl with
  | root i =>
      have hr : h.roots[i]? = some (some q) := by simpa [load, Option.join_eq_some_iff] using hq
      have hi : i < h.roots.length := (List.getElem?_eq_some_iff.mp hr).1
      cases pl' with
      | root j => by_cases hj : j = i <;> simp_all [load, store, withRoot, List.getElem?_set, eq_comm]
      | member o k => simp [load, store, withRoot]
  | member o k =>
      obtain ⟨t, ht, hk⟩ := Option.bind_eq_some_iff.mp hq
      have ho : o < h.objs.length := (List.getElem?_eq_some_iff.mp ht).1
      have hk' : k < t.members.length := (List.getElem?_eq_some_iff.mp hk).1
      cases pl' with
      | root j => simp [load, store, ht, withObj]
      | member o' k' =>
          simp only [load, store, ht, withObj, Target.setMember, List.getElem?_set]
          grind

/-- The objects are the same up to members of objects whose destructor has not
started; a member of the others can only have become null. -/
structure Same (h h' : Heap) : Prop where
  length : h'.objs.length = h.objs.length
  obj : ∀ (o : ℕ) (t' : Target), h'.objs[o]? = some t' → ∃ t : Target, h.objs[o]? = some t ∧
    t'.strongRefs = t.strongRefs ∧ t'.weakRefs = t.weakRefs ∧ t'.target = t.target ∧
    t'.members.length = t.members.length ∧
    ∀ (k : ℕ) (x : ℕ), t.target = false → t'.members[k]? = some (some x) →
      t.members[k]? = some (some x)
  pending : h'.pending = h.pending
  destroyed : h'.destroyed = h.destroyed
  fault : h'.fault = h.fault

theorem Same.of_objs {h h' : Heap} (ho : h'.objs = h.objs) (hp : h'.pending = h.pending)
    (hd : h'.destroyed = h.destroyed) (hf : h'.fault = h.fault) : Same h h' :=
  ⟨by rw [ho], fun o t ht => ⟨t, ho ▸ ht, rfl, rfl, rfl, rfl, fun _ _ _ hx => hx⟩, hp, hd, hf⟩

theorem Same.trans {h₁ h₂ h₃ : Heap} (a : Same h₁ h₂) (b : Same h₂ h₃) : Same h₁ h₃ where
  length := b.length.trans a.length
  obj o t₃ ht₃ := by
    obtain ⟨t₂, ht₂, hs, hw, ht, hl, hm⟩ := b.obj o t₃ ht₃
    obtain ⟨t₁, ht₁, hs', hw', ht', hl', hm'⟩ := a.obj o t₂ ht₂
    refine ⟨t₁, ht₁, hs.trans hs', hw.trans hw', ht.trans ht', hl.trans hl', ?_⟩
    intro k x hd hx
    exact hm' k x hd (hm k x (ht'.trans hd) hx)
  pending := b.pending.trans a.pending
  destroyed := b.destroyed.trans a.destroyed
  fault := b.fault.trans a.fault

theorem store_same {h : Heap} {pl : Place} {p : Ptr} (hpl : h.usable pl = true ∨ p = none) :
    Same h (h.store pl p) := by
  cases pl with
  | root i => exact .of_objs rfl rfl rfl rfl
  | member o k =>
      cases ho : h.objs[o]? with
      | none =>
          simp only [store, ho]
          exact .of_objs rfl rfl rfl rfl
      | some t =>
          simp only [store, ho]
          refine ⟨by simp [withObj], fun x t' ht' => ?_, rfl, rfl, rfl⟩
          simp only [withObj, List.getElem?_set] at ht'
          simp only [usable, ho, Option.any_some, Bool.and_eq_true] at hpl
          grind [Target.setMember]

theorem usable_store {h : Heap} {pl pl' : Place} {q : Ptr} (p : Ptr) (hq : h.load pl = some q)
    (hu : h.usable pl' = true) : (h.store pl p).usable pl' = true := by
  have hl := load_store p hq pl'
  cases pl' with
  | root i =>
      simp only [usable] at hu ⊢
      rw [hl]
      split <;> simp_all
  | member o k =>
      have hlen : (h.store pl p).objs[o]?.any (·.target) = h.objs[o]?.any (·.target) := by
        cases pl with
        | root i => rfl
        | member o' k' =>
            cases ho : h.objs[o']? with
            | none => simp only [store, ho]
            | some t =>
                simp only [store, ho, withObj, List.getElem?_set]
                grind [Target.setMember]
      simp only [usable, Bool.and_eq_true] at hu ⊢
      rw [hl, hlen]
      refine ⟨hu.1, ?_⟩
      split <;> simp_all

/-! ## What the primitives keep -/

namespace Counted

variable {h h' : Heap} {held held' : List Ptr}

/-- Moving references between handles and the running call. -/
theorem of_same (hc : h.Counted held) (hs : Same h h')
    (hr : ∀ o, h'.refs held' o = h.refs held o) : h'.Counted held' := by
  obtain ⟨hlen, hobj, hp, hd, hf⟩ := hs
  constructor
  · intro o t' ht'
    obtain ⟨t, ht, hs, -⟩ := hobj o t' ht'
    rw [hs, hr o]
    exact hc.strong o t ht
  · intro o ho
    rw [hlen]
    exact hc.valid o (hr o ▸ ho)
  · intro o t' ht'
    obtain ⟨t, ht, hs, -, htg, -⟩ := hobj o t' ht'
    rw [hs, htg]
    exact hc.target o t ht
  · intro o t' ht'
    obtain ⟨t, ht, -, hw, -⟩ := hobj o t' ht'
    rw [hw, hd]
    exact hc.weak o t ht
  · intro o t' ht'
    obtain ⟨t, ht, -, -, htg, -⟩ := hobj o t' ht'
    rw [hd, hp, htg]
    exact hc.fate o t ht
  · intro o t' k p ht' hdead hk
    obtain ⟨t, ht, -, -, htg, -, hm⟩ := hobj o t' ht'
    rw [hp]
    exact hc.drained o t k p ht (htg ▸ hdead) (hm k p (htg ▸ hdead) hk)
  · intro o j hj
    rw [hp] at hj
    obtain ⟨t, ht, hle⟩ := hc.pending o j hj
    have ho : o < h'.objs.length := hlen ▸ (List.getElem?_eq_some_iff.mp ht).1
    obtain ⟨t₀, ht₀, -, -, -, hl, -⟩ := hobj o h'.objs[o] (List.getElem?_eq_getElem ho)
    cases ht.symm.trans ht₀
    exact ⟨_, List.getElem?_eq_getElem ho, hl ▸ hle⟩
  · intro o ho
    rw [hlen]
    exact hc.log o (hd ▸ ho)
  · rw [hf]
    exact hc.fault

/-- A null pointer in the hands of the running call is no reference. -/
theorem null_iff : h.Counted (none :: held) ↔ h.Counted held := by
  have hr : ∀ o, h.refs (none :: held) o = h.refs held o := fun o => by simp [refs, refsTo]
  exact ⟨fun hc => hc.of_same (.of_objs rfl rfl rfl rfl) fun o => (hr o).symm,
    fun hc => hc.of_same (.of_objs rfl rfl rfl rfl) hr⟩

/-- Exchanging the pointer of a handle for one in the hands of the call. -/
theorem store {pl : Place} {p q : Ptr} (hc : h.Counted (p :: held)) (hq : h.load pl = some q)
    (hpl : h.usable pl = true ∨ p = none) : (h.store pl p).Counted (q :: held) := by
  have hs : Same h (h.store pl p) := store_same hpl
  refine hc.of_same hs fun o => ?_
  have := handleRefs_store p hq o
  simp only [refs, hs.pending, tally_cons]
  omega

theorem addRoot {p : Ptr} (hc : h.Counted (p :: held)) : (h.addRoot p).Counted held := by
  refine hc.of_same (.of_objs rfl rfl rfl rfl) fun o => ?_
  simp only [refs, handleRefs, rootRefs, memberRefs, Heap.addRoot, tally_append, tally_cons,
    tally_nil, Option.join_some]
  omega

theorem addNullRoot (hc : h.Counted held) : (h.addRoot none).Counted held :=
  (null_iff.mpr hc).addRoot

/-- Storage of a null root goes. -/
theorem dropRoot {i : ℕ} (hc : h.Counted held) (hi : h.load (.root i) = some none) :
    (h.withRoot i none).Counted held := by
  have hr : h.roots[i]? = some (some none) := by simpa [load, Option.join_eq_some_iff] using hi
  refine hc.of_same (.of_objs rfl rfl rfl rfl) fun o => ?_
  have := handleRefs_withRoot none hr o
  simp only [refs, Heap.withRoot] at *
  simpa using this

/-- The two pointers of a swap change places. -/
theorem swapped {a b : Place} {p q : Ptr} (hc : h.Counted held) (hp : h.load a = some p)
    (hq : h.load b = some q) (ha : h.usable a = true) (hb : h.usable b = true) :
    ((h.store a q).store b p).Counted held := by
  have hb' : (h.store a q).usable b = true := usable_store q hp hb
  have hq' : (h.store a q).load b = some q := by
    rw [load_store q hp b]
    split <;> simp_all
  have hs₁ : Same h (h.store a q) := store_same (.inl ha)
  have hs₂ : Same (h.store a q) ((h.store a q).store b p) := store_same (.inl hb')
  refine hc.of_same (hs₁.trans hs₂) fun o => ?_
  have h₁ := handleRefs_store q hp o
  have h₂ := handleRefs_store p hq' o
  simp only [refs, hs₂.pending, hs₁.pending]
  omega

/-! ### Objects that something refers to -/

theorem live_of_refs (hc : h.Counted held) {o : ℕ} (ho : 0 < h.refs held o) :
    ∃ t, h.objs[o]? = some t ∧ t.target = true ∧ t.strongRefs = h.refs held o ∧
      t.weakRefs = 1 := by
  have hlen := hc.valid o ho
  have ht : h.objs[o]? = some h.objs[o] := List.getElem?_eq_getElem hlen
  have hs := hc.strong o _ ht
  have htg : h.objs[o].target = true := (hc.target o _ ht).mpr (by omega)
  have hf := hc.fate o _ ht
  have hw := hc.weak o _ ht
  rw [if_pos htg] at hf
  exact ⟨_, ht, htg, hs, by omega⟩

theorem touch_live (h : Heap) {t : Target} (hw : t.weakRefs = 1) : h.touch t = h := by
  cases h
  simp [touch, withFault, hw]

/-- Taking a reference for the running call. -/
theorem retain {p : Ptr} (hc : h.Counted held) (hp : ∀ o, p = some o → 0 < h.refs held o)
    (hr : h.retain p = some h') : h'.Counted (p :: held) := by
  cases p with
  | none =>
      cases hr
      exact null_iff.mpr hc
  | some o =>
      obtain ⟨t, ht, htg, hs, hw⟩ := hc.live_of_refs (hp o rfl)
      simp only [Heap.retain, ht, touch_live h hw] at hr
      split at hr
      · cases hr
      · cases hr
        have hm := handleRefs_withObj { t with strongRefs := t.strongRefs + 1 } ht
        obtain ⟨hstrong, hvalid, htarget, hweak, hfate, hdrained, hpending, hlog, hfault⟩ := hc
        constructor <;>
          simp only [withObj, List.getElem?_set, List.length_set, refs, Target.refs, tally_cons,
            refsTo] at * <;> grind

theorem pushRelease {o : ℕ} (hc : h.Counted (some o :: held)) :
    (h.push (.release o)).Counted held := by
  obtain ⟨hstrong, hvalid, htarget, hweak, hfate, hdrained, hpending, hlog, hfault⟩ := hc
  constructor <;>
    simp only [push, refs, handleRefs, rootRefs, memberRefs, tally_cons, Task.refs,
      Task.destroys] at * <;> grind

theorem popRelease {o : ℕ} {rest : List Task} (hc : h.Counted held)
    (hp : h.pending = .release o :: rest) : (h.withPending rest).Counted (some o :: held) := by
  obtain ⟨hstrong, hvalid, htarget, hweak, hfate, hdrained, hpending, hlog, hfault⟩ := hc
  constructor <;>
    simp only [withPending, refs, handleRefs, rootRefs, memberRefs, hp, tally_cons, Task.refs,
      Task.destroys] at * <;> grind

theorem sizeSub_pos {n : ℕ} (hn : 0 < n) : sizeSub n = n - 1 := by
  cases n with
  | zero => omega
  | succ n => rfl

/-- Giving a reference back. The last one starts the destructor. -/
theorem releaseStrongRef {o : ℕ} (hc : h.Counted (some o :: held)) :
    (h.releaseStrongRef o).Counted held := by
  have hpos : 0 < h.refs (some o :: held) o := by simp [refs, refsTo]
  obtain ⟨t, ht, htg, hs, hw⟩ := hc.live_of_refs hpos
  simp only [Heap.releaseStrongRef, ht, touch_live h hw, htg, if_true]
  have hsub := sizeSub_pos (hs ▸ hpos)
  split
  · next hlast =>
      have hm := handleRefs_withObj { t with strongRefs := sizeSub t.strongRefs, target := false } ht
      obtain ⟨hstrong, hvalid, htarget, hweak, hfate, hdrained, hpending, hlog, hfault⟩ := hc
      constructor <;>
        simp only [push, withObj, List.getElem?_set, List.length_set, refs, Target.refs, tally_cons,
          refsTo, Task.refs, Task.destroys, handleRefs, rootRefs, memberRefs] at * <;> grind
  · next hmore =>
      have hm := handleRefs_withObj { t with strongRefs := sizeSub t.strongRefs } ht
      obtain ⟨hstrong, hvalid, htarget, hweak, hfate, hdrained, hpending, hlog, hfault⟩ := hc
      constructor <;>
        simp only [withObj, List.getElem?_set, List.length_set, refs, Target.refs, tally_cons,
          refsTo] at * <;> grind

/-- The destructor goes on to the member before: the last one is null. -/
theorem nextMember {o : ℕ} {k : ℕ} {rest : List Task} (hc : h.Counted held)
    (hp : h.pending = .destroy o (k + 1) :: rest) (hnull : h.load (.member o k) = some none) :
    (h.withPending (.destroy o k :: rest)).Counted held := by
  obtain ⟨t, ht, hk⟩ := Option.bind_eq_some_iff.mp hnull
  obtain ⟨hstrong, hvalid, htarget, hweak, hfate, hdrained, hpending, hlog, hfault⟩ := hc
  constructor
  case drained =>
    intro x t' j p ht' hdead hj
    obtain ⟨i, hji, hi⟩ := hdrained x t' j p ht' hdead hj
    rw [hp, List.mem_cons] at hi
    rcases hi with heq | hi
    · -- the member is before the one destroyed just now
      cases heq
      cases ht.symm.trans ht'
      rcases Nat.lt_or_ge j k with hlt | hge
      · exact ⟨k, hlt, List.mem_cons_self⟩
      · obtain rfl : j = k := by omega
        cases hk.symm.trans hj
    · exact ⟨i, hji, List.mem_cons_of_mem _ hi⟩
  case pending =>
    intro x j hj
    rcases List.mem_cons.mp hj with heq | hj
    · cases heq
      obtain ⟨t', ht', hle⟩ := hpending o (k + 1) (hp ▸ List.mem_cons_self)
      exact ⟨t', ht', by omega⟩
    · exact hpending x j (hp ▸ List.mem_cons_of_mem _ hj)
  all_goals
    simp only [withPending, refs, handleRefs, rootRefs, memberRefs, hp, tally_cons, Task.refs,
      Task.destroys] at *
    grind

/-- All members are gone: `~IntrusivePtrTarget` runs. -/
theorem baseDestructor {o : ℕ} {rest : List Task} (hc : h.Counted held)
    (hp : h.pending = .destroy o 0 :: rest) :
    ((h.withPending rest).baseDestructor o).Counted held := by
  obtain ⟨t, ht, -⟩ := hc.pending o 0 (hp ▸ List.mem_cons_self)
  have hdtor : h.destroyed.count o + (1 + tally (Task.destroys o) rest) =
      if t.target then 0 else 1 := by
    have := hc.fate o t ht
    rwa [hp, tally_cons, show Task.destroys o (.destroy o 0) = 1 by simp [Task.destroys, refsTo]]
      at this
  have hw : t.weakRefs = 1 := by
    have := hc.weak o t ht
    grind
  have hsub : sizeSub t.weakRefs = 0 := by rw [hw]; rfl
  have hpt : (h.withPending rest).objs[o]? = some t := ht
  have hm := handleRefs_withObj { t with weakRefs := sizeSub t.weakRefs } ht
  simp only [Heap.baseDestructor, hpt, touch_live (h.withPending rest) hw]
  obtain ⟨hstrong, hvalid, htarget, hweak, hfate, hdrained, hpending, hlog, hfault⟩ := hc
  constructor
  case fate =>
    intro x t' ht'
    simp only [withObj, withPending, logDestroyed, List.getElem?_set, List.count_cons,
      Task.destroys, refsTo, hp, tally_cons] at ht' hfate ⊢
    grind
  case drained =>
    intro x t' k p ht' hdead hk
    simp only [withObj, withPending, logDestroyed, List.getElem?_set] at ht'
    have hx : ∃ t₀, h.objs[x]? = some t₀ ∧ t₀.target = false ∧ t₀.members[k]? = some (some p) := by
      grind
    obtain ⟨t₀, ht₀, hd₀, hk₀⟩ := hx
    obtain ⟨j, hkj, hj⟩ := hdrained x t₀ k p ht₀ hd₀ hk₀
    rw [hp, List.mem_cons] at hj
    rcases hj with heq | hj
    · cases heq
      omega
    · exact ⟨j, hkj, hj⟩
  all_goals
    simp only [withPending, withObj, logDestroyed, List.getElem?_set, List.length_set, refs,
      Target.refs, handleRefs, rootRefs, memberRefs, hp, tally_cons, Task.refs,
      List.count_cons, List.mem_cons] at *
    grind

/-- A new object, with the references its members and the new root took. -/
theorem addObj {members : List Ptr} (hc : h.Counted (members ++ held)) :
    ((h.addObj ⟨1, 1, true, members⟩).addRoot (some h.objs.length)).Counted held := by
  have hnew : h.refs (members ++ held) h.objs.length = 0 := by
    by_contra hpos
    exact lt_irrefl _ (hc.valid h.objs.length (Nat.pos_of_ne_zero hpos))
  have hnot : h.objs.length ∉ h.destroyed := fun hmem => lt_irrefl _ (hc.log _ hmem)
  have hidle : tally (Task.destroys h.objs.length) h.pending = 0 := by
    refine tally_eq_zero _ fun τ hτ => ?_
    cases τ with
    | release o => rfl
    | destroy o j =>
        obtain ⟨t, ht, -⟩ := hc.pending o j hτ
        have ho := (List.getElem?_eq_some_iff.mp ht).1
        exact if_neg fun heq => Nat.ne_of_lt ho (Option.some.inj heq)
  have hcount : h.destroyed.count h.objs.length = 0 := List.count_eq_zero.mpr hnot
  -- the new references are the root's one to the new object
  have hrefs : ∀ o, ((h.addObj ⟨1, 1, true, members⟩).addRoot (some h.objs.length)).refs held o =
      h.refs (members ++ held) o + refsTo o (some h.objs.length) := by
    intro o
    simp only [refs, handleRefs, rootRefs, memberRefs, Heap.addRoot, Heap.addObj, tally_append,
      tally_cons, tally_nil, Option.join_some, Target.refs]
    omega
  have hobjs : ∀ o t, (h.objs ++ [(⟨1, 1, true, members⟩ : Target)])[o]? = some t →
      h.objs[o]? = some t ∧ o < h.objs.length ∨ o = h.objs.length ∧ t = ⟨1, 1, true, members⟩ := by
    intro o t ht
    rw [List.getElem?_append] at ht
    grind
  obtain ⟨hstrong, hvalid, htarget, hweak, hfate, hdrained, hpending, hlog, hfault⟩ := hc
  constructor
  case strong =>
    intro o t ht
    rw [hrefs]
    rcases hobjs o t ht with ⟨ht, ho⟩ | ⟨rfl, rfl⟩
    · rw [hstrong o t ht, refsTo_of_lt ho]
      rfl
    · rw [hnew, refsTo_self]
  case valid =>
    intro o ho
    rw [hrefs] at ho
    simp only [Heap.addRoot, Heap.addObj, List.length_append, List.length_singleton]
    rcases Nat.eq_zero_or_pos (h.refs (members ++ held) o) with hz | hpos
    · have : h.objs.length = o := by
        by_contra hne
        rw [hz, refsTo, if_neg fun heq => hne (Option.some.inj heq)] at ho
        omega
      omega
    · have := hvalid o hpos
      omega
  all_goals
    simp only [Heap.addRoot, Heap.addObj, List.length_append, List.length_singleton] at *
    grind

end Counted

end Heap

end Gradyx.IntrusiveHeap
