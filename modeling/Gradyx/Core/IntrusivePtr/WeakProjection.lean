import Gradyx.Core.IntrusivePtr.Reachability
import Gradyx.Core.IntrusivePtr.WeakHeap

/-!
# IntrusivePtr — the heap without its weak handles

`strongPart` forgets the weak handles of a heap and what only they can see: the weak
counters and the control blocks. Every primitive of the strong handles is the
primitive of `Gradyx.Core.IntrusivePtr.Heap` on this part, and no primitive of the
weak handles changes it.

A member keeps its place among the strong members only (`rank`), so the places and
the pending destructors are renumbered.
-/

namespace Gradyx.WeakHeap

open Gradyx.Lib
open Gradyx.IntrusivePtr (Kind sizeMax sizeAdd sizeSub)
open Gradyx.IntrusiveHeap (Ptr Place Task)

/-! ## The strong members -/

/-- The pointers of the strong members. -/
def strongs (members : List Handle) : List Ptr :=
  members.filterMap fun m => if m.kind = .strong then some m.ptr else none

/-- How many of the first `k` members are strong. -/
def rank (members : List Handle) (k : ℕ) : ℕ := (strongs (members.take k)).length

section Members

variable {members : List Handle} {kind : Kind} {k : ℕ} {p q : Ptr}

theorem strongs_cons_strong (p : Ptr) (members : List Handle) :
    strongs (⟨.strong, p⟩ :: members) = p :: strongs members := rfl

theorem strongs_cons_weak (p : Ptr) (members : List Handle) :
    strongs (⟨.weak, p⟩ :: members) = strongs members := rfl

theorem rank_zero (members : List Handle) : rank members 0 = 0 := rfl

theorem rank_length (members : List Handle) :
    rank members members.length = (strongs members).length := by
  rw [rank, List.take_length]

/-- Renumbering looks at the kinds alone. -/
theorem rank_eq_count (members : List Handle) (k : ℕ) :
    rank members k = ((members.map Handle.kind).take k).count .strong := by
  rw [rank, ← List.map_take]
  generalize members.take k = firsts
  induction firsts with
  | nil => rfl
  | cons m firsts ih =>
      obtain ⟨kind, p⟩ := m
      cases kind with
      | strong =>
          rw [strongs_cons_strong, List.length_cons, ih, List.map_cons, List.count_cons_self]
      | weak =>
          have hne : Kind.weak ≠ .strong := by decide
          rw [strongs_cons_weak, ih, List.map_cons, List.count_cons_of_ne hne]

theorem rank_congr {members' : List Handle}
    (h : members'.map Handle.kind = members.map Handle.kind) (k : ℕ) :
    rank members' k = rank members k := by
  rw [rank_eq_count, rank_eq_count, h]

theorem rank_succ (h : members[k]? = some ⟨kind, p⟩) :
    rank members (k + 1) = rank members k + if kind = .strong then 1 else 0 := by
  have hkind : (members.map Handle.kind)[k]? = some kind := by
    rw [List.getElem?_map, h]
    rfl
  rw [rank_eq_count, rank_eq_count, List.take_add_one, hkind, List.count_append]
  cases kind <;> rfl

theorem rank_mono (members : List Handle) {i j : ℕ} (h : i ≤ j) : rank members i ≤ rank members j := by
  rw [rank_eq_count, rank_eq_count]
  exact (List.take_sublist_take_left h).count_le Kind.strong

/-- A strong member comes before every later one. -/
theorem rank_lt {j : ℕ} (h : members[k]? = some ⟨.strong, p⟩) (hj : k < j) :
    rank members k < rank members j := by
  have hsucc : rank members (k + 1) = rank members k + 1 := rank_succ h
  exact Nat.lt_of_lt_of_le (hsucc ▸ Nat.lt_succ_self _) (rank_mono members hj)

theorem getElem?_strongs (h : members[k]? = some ⟨.strong, p⟩) :
    (strongs members)[rank members k]? = some p := by
  induction members generalizing k with
  | nil => cases h
  | cons m members ih =>
      cases k with
      | zero =>
          cases h
          rfl
      | succ k =>
          have := ih h
          obtain ⟨kind, q⟩ := m
          cases kind <;> exact this

theorem strongs_set_strong (h : members[k]? = some ⟨.strong, q⟩) :
    strongs (members.set k ⟨.strong, p⟩) = (strongs members).set (rank members k) p := by
  induction members generalizing k with
  | nil => cases h
  | cons m members ih =>
      cases k with
      | zero =>
          cases h
          rfl
      | succ k =>
          have hrec := ih h
          obtain ⟨kind, r⟩ := m
          rw [List.set_cons_succ]
          cases kind with
          | strong =>
              have hrank : rank (⟨.strong, r⟩ :: members) (k + 1) = rank members k + 1 := rfl
              rw [strongs_cons_strong, strongs_cons_strong, hrec, hrank, List.set_cons_succ]
          | weak =>
              have hrank : rank (⟨.weak, r⟩ :: members) (k + 1) = rank members k := rfl
              rw [strongs_cons_weak, strongs_cons_weak, hrec, hrank]

theorem strongs_set_weak (h : members[k]? = some ⟨.weak, q⟩) :
    strongs (members.set k ⟨.weak, p⟩) = strongs members := by
  induction members generalizing k with
  | nil => cases h
  | cons m members ih =>
      cases k with
      | zero =>
          cases h
          rfl
      | succ k =>
          have hrec := ih h
          obtain ⟨kind, r⟩ := m
          rw [List.set_cons_succ]
          cases kind with
          | strong => rw [strongs_cons_strong, strongs_cons_strong, hrec]
          | weak => rw [strongs_cons_weak, strongs_cons_weak, hrec]

end Members

namespace Target

/-- The target without its weak members. Its storage stands for the implicit weak
reference, the only one that is left. -/
def strongPart (t : Target) : IntrusiveHeap.Target where
  strongRefs := t.strongRefs
  weakRefs := if t.storage then 1 else 0
  target := t.target
  members := strongs t.members

/-- The members keep their kinds. -/
def SameKinds (t t' : Target) : Prop := t'.members.map Handle.kind = t.members.map Handle.kind

theorem member_eq_some {t : Target} {kind : Kind} {k : ℕ} {p : Ptr} :
    t.member kind k = some p ↔ t.members[k]? = some ⟨kind, p⟩ := by
  unfold member
  cases hk : t.members[k]? with
  | none => simp
  | some m =>
      obtain ⟨kind', q⟩ := m
      simp only [Option.bind_some, Option.some.injEq, Handle.mk.injEq]
      split
      · next heq => simp [heq]
      · next hne => simp [hne]

theorem sameKinds_setMember {t : Target} {kind : Kind} {k : ℕ} {q : Ptr}
    (h : t.member kind k = some q) (p : Ptr) : t.SameKinds (t.setMember kind k p) := by
  rw [member_eq_some] at h
  obtain ⟨hk, hget⟩ := List.getElem?_eq_some_iff.mp h
  rw [SameKinds, setMember, List.map_set]
  refine List.ext_getElem? fun j => ?_
  by_cases hj : k = j
  · subst hj
    rw [List.getElem?_set_self (by rwa [List.length_map]), List.getElem?_map, h]
    rfl
  · rw [List.getElem?_set_ne hj]

end Target

namespace Heap

/-! ## The projection -/

/-- The number of a member among the strong members of its object. -/
def rank (h : Heap) (o k : ℕ) : ℕ := (h.objs[o]?.map fun t => WeakHeap.rank t.members k).getD k

def place (h : Heap) : Place → Place
  | .root i => .root i
  | .member o k => .member o (h.rank o k)

def task (h : Heap) : Task → Task
  | .release o => .release o
  | .destroy o k => .destroy o (h.rank o k)

/-- The heap without its weak handles. -/
def strongPart (h : Heap) : IntrusiveHeap.Heap where
  objs := h.objs.map Target.strongPart
  roots := h.roots
  pending := h.pending.map h.task
  destroyed := h.destroyed
  fault := h.fault

variable {h : Heap} {o k : ℕ} {t t' : Target} {pl : Place} {p q : Ptr}

theorem rank_eq (ht : h.objs[o]? = some t) (k : ℕ) : h.rank o k = WeakHeap.rank t.members k := by
  rw [rank, ht]
  rfl

theorem getElem?_strongPart (h : Heap) (o : ℕ) :
    h.strongPart.objs[o]? = h.objs[o]?.map Target.strongPart := List.getElem?_map

theorem strongPart_obj (ht : h.objs[o]? = some t) : h.strongPart.objs[o]? = some t.strongPart := by
  rw [getElem?_strongPart, ht]
  rfl

theorem rank_withObj (ht : h.objs[o]? = some t) (hk : t.SameKinds t') :
    (h.withObj o t').rank = h.rank := by
  funext x k
  by_cases hx : o = x
  · subst hx
    have ho : o < h.objs.length := (List.getElem?_eq_some_iff.mp ht).1
    have ht' : (h.withObj o t').objs[o]? = some t' := List.getElem?_set_self ho
    rw [rank_eq ht, rank_eq ht', rank_congr hk]
  · have hsame : (h.withObj o t').objs[x]? = h.objs[x]? := List.getElem?_set_ne hx
    rw [rank, rank, hsame]

theorem task_congr {h h' : Heap} (hr : h'.rank = h.rank) : h'.task = h.task := by
  funext τ
  cases τ with
  | release o => rfl
  | destroy o k => rw [task, task, hr]

/-- Replacing an object, with members of the same kinds. -/
theorem strongPart_withObj (ht : h.objs[o]? = some t) (hk : t.SameKinds t') :
    (h.withObj o t').strongPart = h.strongPart.withObj o t'.strongPart := by
  have htask := task_congr (rank_withObj ht hk)
  simp only [strongPart, htask]
  simp only [withObj, IntrusiveHeap.Heap.withObj, List.map_set]

/-- Nothing changes when the strong part of the object is the same. -/
theorem strongPart_withObj_same (ht : h.objs[o]? = some t) (hk : t.SameKinds t')
    (hs : t'.strongPart = t.strongPart) : (h.withObj o t').strongPart = h.strongPart := by
  rw [strongPart_withObj ht hk, hs]
  obtain ⟨ho, hget⟩ := List.getElem?_eq_some_iff.mp (strongPart_obj ht)
  simp only [IntrusiveHeap.Heap.withObj]
  rw [← hget, List.set_getElem_self]

@[simp] theorem strongPart_touchControl (h : Heap) (t : Target) :
    (h.touchControl t).strongPart = h.strongPart := rfl

@[simp] theorem strongPart_failed_weak (h : Heap) : (h.failed .weak).strongPart = h.strongPart := rfl

@[simp] theorem strongPart_failed_strong (h : Heap) :
    (h.failed .strong).strongPart = h.strongPart.failed := rfl

@[simp] theorem strongPart_logFreed (h : Heap) (o : ℕ) :
    (h.logFreed o).strongPart = h.strongPart := rfl

@[simp] theorem strongPart_touchTarget (h : Heap) (t : Target) :
    (h.touchTarget t).strongPart = h.strongPart.touch t.strongPart := by
  obtain ⟨s, w, tg, storage, c, m⟩ := t
  cases storage <;> rfl

theorem strongPart_push (h : Heap) (τ : Task) :
    (h.push τ).strongPart = h.strongPart.push (h.task τ) := rfl

theorem strongPart_withPending (h : Heap) (rest : List Task) :
    (h.withPending rest).strongPart = h.strongPart.withPending (rest.map h.task) := rfl

/-! ## Handles -/

theorem load_strong (hl : h.load .strong pl = some p) :
    h.strongPart.load (h.place pl) = some p := by
  cases pl with
  | root i => exact hl
  | member o k =>
      obtain ⟨t, ht, hk⟩ := Option.bind_eq_some_iff.mp hl
      rw [place, rank_eq ht]
      refine Option.bind_eq_some_iff.mpr ⟨_, strongPart_obj ht, ?_⟩
      exact getElem?_strongs (Target.member_eq_some.mp hk)

theorem load_of_usable {kind : Kind} (hu : h.usable kind pl = true) :
    ∃ q, h.load kind pl = some q := by
  cases pl with
  | root i => exact Option.isSome_iff_exists.mp hu
  | member o k =>
      simp only [usable, Bool.and_eq_true] at hu
      exact Option.isSome_iff_exists.mp hu.2

theorem usable_strong (hu : h.usable .strong pl = true) :
    h.strongPart.usable (h.place pl) = true := by
  obtain ⟨q, hq⟩ := load_of_usable hu
  have hl := load_strong hq
  cases pl with
  | root i =>
      simp only [place] at hl
      simp only [place, IntrusiveHeap.Heap.usable, hl, Option.isSome_some]
  | member o k =>
      obtain ⟨t, ht, -⟩ := Option.bind_eq_some_iff.mp hq
      simp only [usable, ht, Option.any_some, Bool.and_eq_true] at hu
      simp only [place] at hl
      simp only [place, IntrusiveHeap.Heap.usable, strongPart_obj ht, hl, Option.any_some,
        Option.isSome_some, Bool.and_true]
      exact hu.1

theorem rank_store {kind : Kind} (hl : h.load kind pl = some q) (p : Ptr) :
    (h.store kind pl p).rank = h.rank := by
  cases pl with
  | root i => cases kind <;> rfl
  | member o k =>
      obtain ⟨t, ht, hk⟩ := Option.bind_eq_some_iff.mp hl
      simp only [store, ht]
      exact rank_withObj ht (Target.sameKinds_setMember hk p)

theorem place_store {kind : Kind} (hl : h.load kind pl = some q) (p : Ptr) :
    (h.store kind pl p).place = h.place := by
  funext pl'
  cases pl' with
  | root i => rfl
  | member o k => rw [place, place, rank_store hl]

theorem store_strong (hl : h.load .strong pl = some q) (p : Ptr) :
    (h.store .strong pl p).strongPart = h.strongPart.store (h.place pl) p := by
  cases pl with
  | root i => rfl
  | member o k =>
      obtain ⟨t, ht, hk⟩ := Option.bind_eq_some_iff.mp hl
      have hset : (t.setMember .strong k p).strongPart =
          t.strongPart.setMember (WeakHeap.rank t.members k) p := by
        simp only [Target.setMember, Target.strongPart, IntrusiveHeap.Target.setMember,
          strongs_set_strong (Target.member_eq_some.mp hk)]
        rfl
      simp only [store, ht, place, rank_eq ht, IntrusiveHeap.Heap.store, strongPart_obj ht]
      rw [strongPart_withObj ht (Target.sameKinds_setMember hk p), hset]

theorem store_weak (hl : h.load .weak pl = some q) (p : Ptr) :
    (h.store .weak pl p).strongPart = h.strongPart := by
  cases pl with
  | root i => rfl
  | member o k =>
      obtain ⟨t, ht, hk⟩ := Option.bind_eq_some_iff.mp hl
      simp only [store, ht]
      refine strongPart_withObj_same ht (Target.sameKinds_setMember hk p) ?_
      simp only [Target.setMember, Target.strongPart,
        strongs_set_weak (Target.member_eq_some.mp hk)]
      rfl

/-! ## Reference counts -/

theorem retain_strong (h : Heap) (p : Ptr) :
    (h.retain .strong .strong p).map strongPart = h.strongPart.retain p := by
  cases p with
  | none => rfl
  | some o =>
      cases ht : h.objs[o]? with
      | none => simp [retain, IntrusiveHeap.Heap.retain, getElem?_strongPart, ht]
      | some t =>
          simp only [retain, IntrusiveHeap.Heap.retain, strongPart_obj ht, ht, if_true, Target.refs]
          by_cases hmax : t.strongRefs = sizeMax
          · rw [if_pos hmax, if_pos (by exact hmax)]
            rfl
          · rw [if_neg hmax, if_neg (by exact hmax), Option.map_some]
            have ht' : ((h.touchTarget t).touchControl t).objs[o]? = some t := ht
            rw [strongPart_withObj ht' (by rfl), strongPart_touchControl, strongPart_touchTarget]
            rfl

/-- A weak reference, from a weak handle or from a strong one. -/
theorem retain_weak {h' : Heap} {source : Kind}
    (hlive : source = .strong → ∀ o, p = some o → ∃ t, h.objs[o]? = some t ∧ t.storage = true)
    (hr : h.retain source .weak p = some h') : h'.strongPart = h.strongPart := by
  cases p with
  | none =>
      cases hr
      rfl
  | some o =>
      cases ht : h.objs[o]? with
      | none =>
          cases source with
          | strong =>
              obtain ⟨t, ht', -⟩ := hlive rfl o rfl
              rw [ht] at ht'
              cases ht'
          | weak =>
              simp only [retain, ht] at hr
              cases hr
              rfl
      | some t =>
          simp only [retain, ht] at hr
          by_cases hmax : t.refs .weak = sizeMax
          · rw [if_pos hmax] at hr
            cases hr
          · rw [if_neg hmax] at hr
            obtain rfl := Option.some.inj hr
            have ht' : ((if source = .strong then h.touchTarget t else h).touchControl t).objs[o]? =
                some t := by
              split <;> exact ht
            rw [strongPart_withObj_same ht' (by rfl) (by rfl), strongPart_touchControl]
            split
            · next hs =>
                obtain ⟨t', ht'', hstorage⟩ := hlive hs o rfl
                cases ht.symm.trans ht''
                rw [strongPart_touchTarget]
                refine IntrusiveHeap.Heap.Counted.touch_live _ ?_
                simp only [Target.strongPart, hstorage, if_true]
            · rfl

theorem releaseStrongRef_strong (h : Heap) (o : ℕ) :
    (h.releaseStrongRef o).strongPart = h.strongPart.releaseStrongRef o := by
  cases ht : h.objs[o]? with
  | none => simp [releaseStrongRef, IntrusiveHeap.Heap.releaseStrongRef, getElem?_strongPart, ht]
  | some t =>
      have ht' : ((h.touchTarget t).touchControl t).objs[o]? = some t := ht
      simp only [releaseStrongRef, IntrusiveHeap.Heap.releaseStrongRef, strongPart_obj ht, ht]
      by_cases hlast : t.strongRefs = 1
      · rw [if_pos hlast, if_pos (show t.strongPart.strongRefs = 1 from hlast)]
        have hkinds : t.SameKinds { t with strongRefs := sizeSub t.strongRefs, target := false } :=
          rfl
        have hobj := strongPart_withObj ht' hkinds
        rw [strongPart_touchControl, strongPart_touchTarget] at hobj
        by_cases htarget : t.target = true
        · rw [if_pos htarget, if_pos (show t.strongPart.target = true from htarget),
            strongPart_push, hobj]
          have htask : (((h.touchTarget t).touchControl t).withObj o
              { t with strongRefs := sizeSub t.strongRefs, target := false }).task
                (.destroy o t.members.length) = .destroy o t.strongPart.members.length := by
            rw [task, rank_withObj ht' (by rfl), rank_eq ht', rank_length]
            rfl
          rw [htask]
          rfl
        · rw [if_neg htarget, if_neg (show ¬ t.strongPart.target = true from htarget), hobj]
          rfl
      · rw [if_neg hlast, if_neg (show ¬ t.strongPart.strongRefs = 1 from hlast),
          strongPart_withObj ht' (by rfl), strongPart_touchControl, strongPart_touchTarget]
        rfl

theorem releaseWeakRef_strong (h : Heap) (o : ℕ) :
    (h.releaseWeakRef o).strongPart = h.strongPart := by
  cases ht : h.objs[o]? with
  | none =>
      simp only [releaseWeakRef, ht]
      rfl
  | some t =>
      have ht' : (h.touchControl t).objs[o]? = some t := ht
      have ht'' : ((h.touchControl t).logFreed o).objs[o]? = some t := ht
      simp only [releaseWeakRef, ht]
      split
      · rw [strongPart_withObj_same ht'' (by rfl) (by rfl)]
        rfl
      · rw [strongPart_withObj_same ht' (by rfl) (by rfl)]
        rfl

/-- Giving a pointer up. -/
theorem drop_strong (h : Heap) (p : Ptr) :
    (h.drop .strong p).strongPart = p.elim h.strongPart fun o => h.strongPart.push (.release o) := by
  cases p <;> rfl

theorem drop_weak (h : Heap) (p : Ptr) : (h.drop .weak p).strongPart = h.strongPart := by
  cases p with
  | none => rfl
  | some o => exact releaseWeakRef_strong h o

theorem reset_strong (hl : h.load .strong pl = some p) :
    (h.reset .strong pl).strongPart = h.strongPart.reset (h.place pl) := by
  have hstore := store_strong hl none
  simp only [reset, hl, drop_strong, hstore, IntrusiveHeap.Heap.reset, load_strong hl]
  cases p <;> rfl

theorem reset_weak (hl : h.load .weak pl = some p) :
    (h.reset .weak pl).strongPart = h.strongPart := by
  simp only [reset, hl]
  rw [drop_weak, store_weak hl]

/-- The base destructor of an object whose storage is still there. -/
theorem baseDestructor_strong (ht : h.objs[o]? = some t) (hs : t.storage = true) :
    (h.baseDestructor o).strongPart = h.strongPart.baseDestructor o := by
  have hrelease := releaseWeakRef_strong h o
  obtain ⟨t', ht', hkeep⟩ : ∃ t', (h.releaseWeakRef o).objs[o]? = some t' ∧
      t'.strongPart = t.strongPart := by
    have ho : o < (h.releaseWeakRef o).objs.length := by
      have := (List.getElem?_eq_some_iff.mp (strongPart_obj ht)).1
      rw [← hrelease] at this
      simpa [strongPart] using this
    refine ⟨(h.releaseWeakRef o).objs[o], List.getElem?_eq_getElem ho, ?_⟩
    have hobj := strongPart_obj (List.getElem?_eq_getElem ho)
    rw [hrelease, strongPart_obj ht] at hobj
    exact (Option.some.inj hobj).symm
  have ht'' : (((h.releaseWeakRef o).touchTarget t').logDestroyed o).objs[o]? = some t' := ht'
  have hlog : (((h.releaseWeakRef o).touchTarget t').logDestroyed o).strongPart =
      (h.strongPart.touch t.strongPart).logDestroyed o := by
    rw [← hrelease, ← hkeep, ← strongPart_touchTarget]
    rfl
  have hend : ({ t' with storage := false } : Target).strongPart =
      { t.strongPart with weakRefs := sizeSub t.strongPart.weakRefs } := by
    rw [← hkeep]
    have hweak : t.strongPart.weakRefs = 1 := if_pos hs
    rw [← hkeep] at hweak
    rw [hweak]
    rfl
  simp only [baseDestructor, endStorage, ht', IntrusiveHeap.Heap.baseDestructor, strongPart_obj ht]
  rw [strongPart_withObj ht'' (by rfl), hlog, hend]

end Heap

end Gradyx.WeakHeap
