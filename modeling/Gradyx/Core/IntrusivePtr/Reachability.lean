import Gradyx.Core.IntrusivePtr.HeapCounted
import Gradyx.Lib.Ownership

/-!
# IntrusivePtr — reference counting is reachability

* `cascadeStep_counted`, `perform_counted`: every primitive step of a cascade
  and every operation keeps the invariant.
* `settle_done`: a cascade ends within `cost` steps, cycles or not.
* `refcounts_are_reachability`: after each operation of a run, the objects not
  yet destroyed are the ones reachable from the roots.
-/

namespace Gradyx.IntrusiveHeap

open Gradyx.Lib

namespace Heap

variable {h h' : Heap} {held : List Ptr}

/-! ## The cascade -/

theorem store_withPending (h : Heap) (l : List Task) (pl : Place) (p : Ptr) :
    (h.withPending l).store pl p = (h.store pl p).withPending l := by
  cases pl with
  | root i => rfl
  | member o k => cases ho : h.objs[o]? <;> simp [store, withPending, withObj, ho]

/-- `reset` of a handle gives its reference to a pending release. -/
theorem reset_counted {pl : Place} {q : Ptr} (hc : h.Counted held) (hq : h.load pl = some q) :
    (h.reset pl).Counted held := by
  have hs : (h.store pl none).Counted (q :: held) := (Counted.null_iff.mpr hc).store hq (.inr rfl)
  cases q with
  | none =>
      simp only [reset, hq]
      exact Counted.null_iff.mp hs
  | some o =>
      simp only [reset, hq]
      exact hs.pushRelease

/-- The destructor of an object destroys its next member. -/
theorem destroyMember_counted {o k : ℕ} {rest : List Task} (hc : h.Counted held)
    (hp : h.pending = .destroy o (k + 1) :: rest) :
    ((h.withPending (.destroy o k :: rest)).reset (.member o k)).Counted held := by
  obtain ⟨t, ht, hle⟩ := hc.pending o (k + 1) (hp ▸ List.mem_cons_self)
  obtain ⟨q, hq⟩ : ∃ q, h.load (.member o k) = some q :=
    ⟨t.members[k], Option.bind_eq_some_iff.mpr ⟨t, ht, List.getElem?_eq_getElem hle⟩⟩
  have hs : (h.store (.member o k) none).Counted (q :: held) :=
    (Counted.null_iff.mpr hc).store hq (.inr rfl)
  have hsp : (h.store (.member o k) none).pending = .destroy o (k + 1) :: rest := by
    rw [(store_same (.inr rfl)).pending, hp]
  have hnull : (h.store (.member o k) none).load (.member o k) = some none := by
    rw [load_store none hq, if_pos rfl]
  have hn := hs.nextMember hsp hnull
  have hq' : (h.withPending (.destroy o k :: rest)).load (.member o k) = some q := hq
  cases q with
  | none =>
      simp only [reset, hq', store_withPending]
      exact Counted.null_iff.mp hn
  | some x =>
      simp only [reset, hq', store_withPending]
      exact hn.pushRelease

/-- Every primitive step of a cascade keeps the counters exact. -/
theorem cascadeStep_counted (hc : h.Counted held) : h.cascadeStep.Counted held := by
  unfold cascadeStep
  split
  · exact hc
  · next o rest hp => exact (hc.popRelease hp).releaseStrongRef
  · next o rest hp => exact hc.baseDestructor hp
  · next o k rest hp => exact destroyMember_counted hc hp

/-! ## Termination -/

theorem cost_withObj {o : ℕ} {t : Target} (t' : Target) (ht : h.objs[o]? = some t) :
    (h.withObj o t').cost + objCost t = h.cost + objCost t' := by
  have := tally_set objCost t' ht
  simp only [cost, withObj]
  omega

theorem cost_push (h : Heap) (τ : Task) : (h.push τ).cost = taskCost τ + h.cost := by
  simp only [cost, push, tally_cons]
  omega

theorem cost_store (h : Heap) (pl : Place) (p : Ptr) : (h.store pl p).cost = h.cost := by
  cases pl with
  | root i => rfl
  | member o k =>
      cases ho : h.objs[o]? with
      | none => simp only [store, ho]
      | some t =>
          have hcost := cost_withObj (t.setMember k p) ho
          have hobj : objCost (t.setMember k p) = objCost t := by
            simp only [objCost, Target.setMember, List.length_set]
          simp only [store, ho]
          omega

theorem cost_releaseStrongRef (h : Heap) (o : ℕ) : (h.releaseStrongRef o).cost ≤ h.cost := by
  cases ho : h.objs[o]? with
  | none =>
      simp only [releaseStrongRef, ho]
      exact le_refl _
  | some t =>
      have ht : (h.touch t).objs[o]? = some t := ho
      have hcost : (h.touch t).cost = h.cost := rfl
      simp only [releaseStrongRef, ho]
      split
      · have := cost_withObj
          { t with strongRefs := IntrusivePtr.sizeSub t.strongRefs, target := false } ht
        split
        · next hlive =>
            rw [cost_push]
            simp only [objCost, taskCost, hlive, if_true, Bool.false_eq_true, if_false] at *
            omega
        · next hdead =>
            simp only [objCost, hdead, if_false, Bool.false_eq_true] at *
            omega
      · have := cost_withObj { t with strongRefs := IntrusivePtr.sizeSub t.strongRefs } ht
        simp only [objCost] at *
        omega

theorem cost_reset (h : Heap) (pl : Place) : (h.reset pl).cost ≤ h.cost + 1 := by
  unfold reset
  split
  · exact Nat.le_succ _
  · rw [cost_store]
    exact Nat.le_succ _
  · rw [cost_push, cost_store]
    exact (Nat.add_comm _ _).le

theorem cost_baseDestructor (h : Heap) (o : ℕ) : (h.baseDestructor o).cost = h.cost := by
  cases ho : h.objs[o]? with
  | none =>
      simp only [baseDestructor, ho]
      rfl
  | some t =>
      have ht : ((h.touch t).logDestroyed o).objs[o]? = some t := ho
      have hcost : ((h.touch t).logDestroyed o).cost = h.cost := rfl
      have := cost_withObj { t with weakRefs := IntrusivePtr.sizeSub t.weakRefs } ht
      simp only [baseDestructor, ho]
      simp only [objCost] at *
      omega

/-- Every primitive step of a cascade lowers the cost. -/
theorem cost_cascadeStep (hp : h.pending ≠ []) : h.cascadeStep.cost < h.cost := by
  have hpop : ∀ τ rest l, h.pending = τ :: rest →
      (h.withPending l).cost + taskCost τ + tally taskCost rest = h.cost + tally taskCost l := by
    intro τ rest l hτ
    simp only [cost, withPending, hτ, tally_cons]
    omega
  unfold cascadeStep
  split
  · next hnil => exact absurd hnil hp
  · next o rest hτ =>
      have h₁ := hpop _ _ rest hτ
      have h₂ := cost_releaseStrongRef (h.withPending rest) o
      simp only [taskCost] at h₁
      omega
  · next o rest hτ =>
      have h₁ := hpop _ _ rest hτ
      have h₂ := cost_baseDestructor (h.withPending rest) o
      simp only [taskCost] at h₁
      omega
  · next o k rest hτ =>
      have h₁ := hpop _ _ (.destroy o k :: rest) hτ
      have h₂ := cost_reset (h.withPending (.destroy o k :: rest)) (.member o k)
      simp only [taskCost, tally_cons] at h₁
      omega

/-- A cascade is over after `cost` steps. -/
theorem cascade_done (n : ℕ) : ∀ h : Heap, h.cost ≤ n → (cascadeStep^[n] h).pending = [] := by
  induction n with
  | zero =>
      intro h hn
      change h.pending = []
      by_contra hp
      have := cost_cascadeStep hp
      omega
  | succ n ih =>
      intro h hn
      rw [Function.iterate_succ_apply]
      by_cases hp : h.pending = []
      · have hfix : h.cascadeStep = h := by simp only [cascadeStep, hp]
        rw [hfix, Function.iterate_fixed hfix, hp]
      · have := cost_cascadeStep hp
        exact ih _ (by omega)

theorem settle_done (h : Heap) : h.settle.pending = [] := cascade_done h.cost h (le_refl _)

theorem settle_counted (hc : h.Counted held) : h.settle.Counted held := by
  have hiter : ∀ n, (cascadeStep^[n] h).Counted held := by
    intro n
    induction n with
    | zero => exact hc
    | succ n ih =>
        rw [Function.iterate_succ_apply']
        exact cascadeStep_counted ih
  exact hiter h.cost

/-! ## Operations -/

/-- Taking a reference changes one counter and nothing else. -/
theorem retain_eq {p : Ptr} (hr : h.retain p = some h') :
    (∃ b, h' = h.withFault b) ∨ ∃ o t b, h.objs[o]? = some t ∧
      h' = (h.withFault b).withObj o { t with strongRefs := t.strongRefs + 1 } := by
  cases p with
  | none =>
      cases hr
      exact .inl ⟨h.fault, rfl⟩
  | some o =>
      cases ho : h.objs[o]? with
      | none =>
          simp only [retain, ho] at hr
          cases hr
          exact .inl ⟨true, rfl⟩
      | some t =>
          simp only [retain, ho] at hr
          split at hr
          · cases hr
          · cases hr
            exact .inr ⟨o, t, _, ho, rfl⟩

theorem handleRefs_retain {p : Ptr} (hr : h.retain p = some h') (o : ℕ) :
    h'.handleRefs o = h.handleRefs o := by
  rcases retain_eq hr with ⟨b, rfl⟩ | ⟨x, t, b, ht, rfl⟩
  · rfl
  · have := handleRefs_withObj (h := h.withFault b) { t with strongRefs := t.strongRefs + 1 } ht o
    exact Nat.add_right_cancel this

theorem usable_retain {p : Ptr} (hr : h.retain p = some h') (pl : Place) :
    h'.usable pl = h.usable pl := by
  rcases retain_eq hr with ⟨b, rfl⟩ | ⟨x, t, b, ht, rfl⟩
  · cases pl <;> rfl
  · cases pl with
    | root i => rfl
    | member o k =>
        simp only [usable, load, withObj, withFault, List.getElem?_set]
        grind

/-- The pointer of a handle may be retained. -/
theorem refs_pos_of_load {pl : Place} {q : Ptr} (held : List Ptr) (hq : h.load pl = some q)
    (o : ℕ) (ho : q = some o) : 0 < h.refs held o := by
  have := refsTo_le_of_load hq o
  rw [ho, refsTo_self] at this
  simp only [refs]
  omega

/-- The members of an object under construction take their references. -/
theorem retainAll_counted (members : List Ptr) :
    ∀ {h h' : Heap} {held : List Ptr}, h.Counted held →
      (∀ o, some o ∈ members → 0 < h.handleRefs o) →
      members.foldlM retain h = some h' →
      h'.Counted (members ++ held) ∧ h'.objs.length = h.objs.length := by
  induction members with
  | nil =>
      intro h h' held hc _ hr
      cases hr
      exact ⟨hc, rfl⟩
  | cons p members ih =>
      intro h h' held hc hm hr
      rw [List.foldlM_cons, Option.bind_eq_bind, Option.bind_eq_some_iff] at hr
      obtain ⟨h₁, hr₁, hr⟩ := hr
      have hp : ∀ o, p = some o → 0 < h.refs held o := by
        intro o ho
        have := hm o (ho ▸ List.mem_cons_self)
        simp only [refs]
        omega
      have hlen : h₁.objs.length = h.objs.length := by
        rcases retain_eq hr₁ with ⟨b, rfl⟩ | ⟨x, t, b, -, rfl⟩
        · rfl
        · exact List.length_set
      obtain ⟨hc', hlen'⟩ := ih (hc.retain hp hr₁) (fun o ho => by
        rw [handleRefs_retain hr₁]
        exact hm o (List.mem_cons_of_mem p ho)) hr
      refine ⟨hc'.of_same (.of_objs rfl rfl rfl rfl) fun o => ?_, hlen'.trans hlen⟩
      simp only [refs, List.cons_append, tally_append, tally_cons]
      omega

theorem makeIntrusive_counted {inits : List Place} (hc : h.Counted held)
    (hm : h.makeIntrusive inits = some h') : h'.Counted held := by
  simp only [makeIntrusive, guard, Option.bind_eq_bind, Option.pure_def] at hm
  split at hm
  · next hall =>
      simp only [Option.bind_some, Option.bind_eq_some_iff, Option.some.injEq] at hm
      obtain ⟨h₁, hr, rfl⟩ := hm
      have hmem : ∀ o, some o ∈ inits.map (fun pl => (h.load pl).join) → 0 < h.handleRefs o := by
        intro o ho
        obtain ⟨pl, -, hpl⟩ := List.mem_map.mp ho
        have := refsTo_le_of_load (Option.join_eq_some_iff.mp hpl) o
        rw [refsTo_self] at this
        exact this
      exact (retainAll_counted _ hc hmem hr).1.addObj
  · simp at hm

theorem copyConstruct_counted {other : Place} (hc : h.Counted held)
    (hm : h.copyConstruct other = some h') : h'.Counted held := by
  simp only [copyConstruct, guard, Option.bind_eq_bind, Option.pure_def] at hm
  split at hm
  · simp only [Option.bind_some, Option.bind_eq_some_iff, Option.some.injEq] at hm
    obtain ⟨p, hp, h₁, hr, rfl⟩ := hm
    exact (hc.retain (refs_pos_of_load held hp) hr).addRoot
  · simp at hm

theorem moveConstruct_counted {other : Place} (hc : h.Counted held)
    (hm : h.moveConstruct other = some h') : h'.Counted held := by
  simp only [moveConstruct, guard, Option.bind_eq_bind, Option.pure_def] at hm
  split at hm
  · simp only [Option.bind_some, Option.bind_eq_some_iff, Option.some.injEq] at hm
    obtain ⟨p, hp, rfl⟩ := hm
    exact ((Counted.null_iff.mpr hc).store hp (.inr rfl)).addRoot
  · simp at hm

theorem copyAssign_counted {self other : Place} (hc : h.Counted held)
    (hm : h.copyAssign self other = some h') : h'.Counted held := by
  simp only [copyAssign, guard, Option.bind_eq_bind, Option.pure_def, Bool.and_eq_true] at hm
  split at hm
  · next hu =>
      rw [Option.bind_some] at hm
      split at hm
      · cases hm
        exact hc
      · simp only [Option.bind_eq_some_iff, Option.some.injEq] at hm
        obtain ⟨copy, hcopy, h₁, hr, old, hold, rfl⟩ := hm
        have h₁c : h₁.Counted (copy :: held) := hc.retain (refs_pos_of_load held hcopy) hr
        have hs : (h₁.store self copy).Counted (old :: held) :=
          h₁c.store hold (.inl ((usable_retain hr self).trans hu.1))
        cases old with
        | none => exact Counted.null_iff.mp hs
        | some o => exact hs.pushRelease
  · simp at hm

theorem swap_counted {self other : Place} (hc : h.Counted held)
    (hm : h.swap self other = some h') : h'.Counted held := by
  simp only [swap, guard, Option.bind_eq_bind, Option.pure_def, Bool.and_eq_true] at hm
  split at hm
  · next hu =>
      simp only [Option.bind_some, Option.bind_eq_some_iff, Option.some.injEq] at hm
      obtain ⟨p, hp, q, hq, rfl⟩ := hm
      exact hc.swapped hp hq hu.1 hu.2
  · simp at hm

theorem load_of_usable {pl : Place} (hu : h.usable pl = true) : ∃ q, h.load pl = some q := by
  cases pl with
  | root i => exact Option.isSome_iff_exists.mp hu
  | member o k =>
      simp only [usable, Bool.and_eq_true] at hu
      exact Option.isSome_iff_exists.mp hu.2

theorem destroyRoot_counted {i : ℕ} (hc : h.Counted held)
    (hm : h.destroyRoot i = some h') : h'.Counted held := by
  simp only [destroyRoot, guard, Option.bind_eq_bind, Option.pure_def] at hm
  split at hm
  · next hu =>
      simp only [Option.bind_some, Option.some.injEq] at hm
      subst hm
      obtain ⟨q, hq⟩ := load_of_usable hu
      refine (reset_counted hc hq).dropRoot ?_
      have hnull : (h.store (.root i) none).load (.root i) = some none := by
        rw [load_store none hq, if_pos rfl]
      unfold reset
      split <;> simp_all [load, push]
  · simp at hm

/-- Every operation keeps the counters exact. -/
theorem perform_counted {op : Op} (hc : h.Counted held) (hm : h.perform op = some h') :
    h'.Counted held := by
  cases op with
  | construct =>
      cases hm
      exact hc.addNullRoot
  | makeIntrusive inits => exact makeIntrusive_counted hc hm
  | copyConstruct other => exact copyConstruct_counted hc hm
  | moveConstruct other => exact moveConstruct_counted hc hm
  | copyAssign self other => exact copyAssign_counted hc hm
  | swap self other => exact swap_counted hc hm
  | reset self =>
      simp only [perform] at hm
      split at hm
      · next hu =>
          cases hm
          obtain ⟨q, hq⟩ := load_of_usable hu
          exact reset_counted hc hq
      · cases hm
  | destroy i => exact destroyRoot_counted hc hm

/-! ## Runs -/

theorem empty_counted : empty.Counted [] := by
  constructor <;> simp [empty, refs, handleRefs, rootRefs, memberRefs]

/-- What holds between two operations. -/
def Settled (h : Heap) : Prop := h.Counted [] ∧ h.pending = []

theorem step_settled {op : Op} (hs : h.Settled) (hm : h.step op = some h') : h'.Settled := by
  obtain ⟨h₁, hp, rfl⟩ := Option.map_eq_some_iff.mp hm
  exact ⟨settle_counted (perform_counted hs.1 hp), settle_done h₁⟩

theorem run_settled (r : Run machine) (k : ℕ) : (r.state k).Settled :=
  r.invariant Settled (fun h hh => by
    cases hh
    exact ⟨empty_counted, rfl⟩) (fun _ _ _ hm hs => step_settled hs hm) k

/-! ## Reachability -/

/-- The ownership graph: who is held by a root handle, and whose members hold
whom. -/
def graph (h : Heap) : Ownership ℕ where
  root o := some (some o) ∈ h.roots
  owns x y := ∃ t : Target, h.objs[x]? = some t ∧ some y ∈ t.members

/-- The object was made, and is not destroyed. -/
def Exists (h : Heap) (o : ℕ) : Prop := o < h.objs.length ∧ o ∉ h.destroyed

theorem refsTo_pos {o : ℕ} {p : Ptr} (hp : 0 < refsTo o p) : p = some o := by
  by_contra hne
  rw [refsTo, if_neg hne] at hp
  exact lt_irrefl _ hp

theorem rootRefs_pos_iff (h : Heap) (o : ℕ) : 0 < h.rootRefs o ↔ h.graph.root o := by
  constructor
  · intro hpos
    obtain ⟨r, hr, hw⟩ := exists_of_tally_pos _ hpos
    rw [Option.join_eq_some_iff.mp (refsTo_pos hw)] at hr
    exact hr
  · intro hr
    have := le_tally (fun r => refsTo o r.join) hr
    rw [Option.join_some, refsTo_self] at this
    exact this

theorem memberRefs_pos_iff (h : Heap) (o : ℕ) :
    0 < h.memberRefs o ↔ ∃ x, h.graph.owns x o := by
  constructor
  · intro hpos
    obtain ⟨t, ht, hw⟩ := exists_of_tally_pos _ hpos
    obtain ⟨p, hp, hpo⟩ := exists_of_tally_pos _ hw
    obtain ⟨x, hx⟩ := List.getElem?_of_mem ht
    exact ⟨x, t, hx, refsTo_pos hpo ▸ hp⟩
  · rintro ⟨x, t, hx, hm⟩
    have h₁ := le_tally (refsTo o) hm
    have h₂ := le_tally (Target.refs o) (List.mem_of_getElem? hx)
    rw [refsTo_self] at h₁
    exact lt_of_lt_of_le h₁ h₂

/-- With no call pending, an object is destroyed or its counter is not `0`. -/
theorem Counted.count_destroyed {held : List Ptr} (hc : h.Counted held) (hp : h.pending = [])
    {o : ℕ} {t : Target} (ht : h.objs[o]? = some t) :
    h.destroyed.count o = if t.target = true then 0 else 1 := by
  have hfate := hc.fate o t ht
  rwa [hp, tally_nil, Nat.add_zero] at hfate

theorem Counted.exists_iff {held : List Ptr} (hc : h.Counted held) (hp : h.pending = []) {o : ℕ}
    {t : Target} (ht : h.objs[o]? = some t) : h.Exists o ↔ t.target = true := by
  have hlen : o < h.objs.length := (List.getElem?_eq_some_iff.mp ht).1
  rw [Exists, ← List.count_eq_zero, hc.count_destroyed hp ht]
  cases t.target <;> simp [hlen]

/-- A destroyed object's members are null. -/
theorem Counted.member_null {held : List Ptr} (hc : h.Counted held) (hp : h.pending = [])
    {o k : ℕ} {t : Target} {q : Ptr} (ht : h.objs[o]? = some t) (hdead : t.target = false)
    (hk : t.members[k]? = some q) : q = none := by
  cases q with
  | none => rfl
  | some x =>
      obtain ⟨j, -, hj⟩ := hc.drained o t k x ht hdead hk
      rw [hp] at hj
      cases hj

theorem Counted.exists_of_owns {held : List Ptr} (hc : h.Counted held) (hp : h.pending = [])
    {x y : ℕ} (hxy : h.graph.owns x y) : h.Exists x := by
  obtain ⟨t, hx, hm⟩ := hxy
  refine (hc.exists_iff hp hx).mpr ?_
  by_contra hdead
  obtain ⟨k, hk⟩ := List.getElem?_of_mem hm
  cases hc.member_null hp hx (Bool.eq_false_iff.mpr hdead) hk

theorem Settled.exists_iff (hs : h.Settled) {o : ℕ} {t : Target} (ht : h.objs[o]? = some t) :
    h.Exists o ↔ t.target = true :=
  hs.1.exists_iff hs.2 ht

theorem Settled.count_eq (hs : h.Settled) (o : ℕ) :
    h.refs [] o = h.rootRefs o + h.memberRefs o := by
  simp only [refs, handleRefs, hs.2, tally_nil]
  rfl

/-- Everything a handle points to exists. -/
theorem Settled.exists_of_refs (hs : h.Settled) {o : ℕ} (ho : 0 < h.rootRefs o + h.memberRefs o) :
    h.Exists o := by
  rw [← hs.count_eq] at ho
  obtain ⟨t, ht, htg, -⟩ := hs.1.live_of_refs ho
  exact (hs.exists_iff ht).mpr htg

/-- The counters keep exactly what the roots and the existing objects hold. -/
theorem Settled.supports (hs : h.Settled) : h.graph.Supports {o | h.Exists o} where
  root_live o ho := hs.exists_of_refs (Nat.add_pos_left ((rootRefs_pos_iff h o).mpr ho) _)
  owned_live x y _ hxy := hs.exists_of_refs
    (Nat.add_pos_right _ ((memberRefs_pos_iff h y).mpr ⟨x, hxy⟩))
  supported o ho := by
    have hlen : o < h.objs.length := ho.1
    have ht : h.objs[o]? = some h.objs[o] := List.getElem?_eq_getElem ho.1
    have hstrong := (hs.1.target o _ ht).mp ((hs.exists_iff ht).mp ho)
    rw [hs.1.strong o _ ht, hs.count_eq] at hstrong
    rcases Nat.eq_zero_or_pos (h.rootRefs o) with hz | hroot
    · rw [hz, Nat.zero_add] at hstrong
      obtain ⟨x, hx⟩ := (memberRefs_pos_iff h o).mp hstrong
      exact .inr ⟨x, hs.1.exists_of_owns hs.2 hx, hx⟩
    · exact .inl ((rootRefs_pos_iff h o).mp hroot)

theorem Settled.exists_iff_reachable (hs : h.Settled) (hac : h.graph.Acyclic) (o : ℕ) :
    h.Exists o ↔ h.graph.Reachable o :=
  hs.supports.mem_iff_reachable
    ((Set.finite_lt_nat h.objs.length).subset fun _ ho => ho.1) hac o

/-- After each operation of any run, with its whole cascade of destructors: if
no object owns itself, the objects that exist are exactly the ones reachable
from the root handles, their counters are the numbers of root and member
handles that point to them, the others were destroyed exactly once, nothing
was touched after that, and the cascade of the next operation terminates. -/
theorem refcounts_are_reachability (r : Run machine) (k : ℕ)
    (hac : (r.state k).graph.Acyclic) :
    (∀ o, (r.state k).Exists o ↔ (r.state k).graph.Reachable o) ∧
    (∀ o t, (r.state k).objs[o]? = some t → (r.state k).Exists o →
      t.strongRefs = (r.state k).rootRefs o + (r.state k).memberRefs o) ∧
    (∀ o < (r.state k).objs.length, ¬ (r.state k).graph.Reachable o →
      (r.state k).destroyed.count o = 1) ∧
    (r.state k).fault = false ∧
    ∀ op h, (r.state k).perform op = some h → ∃ n, (cascadeStep^[n] h).pending = [] ∧
      (r.state k).step op = some (cascadeStep^[n] h) := by
  have hs : (r.state k).Settled := run_settled r k
  refine ⟨hs.exists_iff_reachable hac, ?_, ?_, hs.1.fault, ?_⟩
  · intro o t ht _
    rw [hs.1.strong o t ht, hs.count_eq]
  · intro o ho hun
    have ht : (r.state k).objs[o]? = some (r.state k).objs[o] := List.getElem?_eq_getElem ho
    have hdead : (r.state k).objs[o].target ≠ true := fun htg =>
      hun ((hs.exists_iff_reachable hac o).mp ((hs.exists_iff ht).mpr htg))
    rw [hs.1.count_destroyed hs.2 ht, if_neg hdead]
  · intro op h hp
    exact ⟨h.cost, settle_done h, by rw [step, hp]; rfl⟩

end Heap

/-- Object `2` holds `0` and `1`, and `1` holds `0`; then `1` is dropped by an
assignment to the member that held it. -/
def diamond : List Op :=
  [.makeIntrusive [], .makeIntrusive [.root 0], .makeIntrusive [.root 0, .root 1],
    .reset (.root 0), .destroy 1, .copyAssign (.member 2 1) (.root 0)]

theorem refcounts_diamond :
    (machine.after .empty diamond 6).destroyed.count 1 = 1 ∧
    (machine.after .empty diamond 6).graph.Reachable 0 := by
  have hstate : machine.after .empty diamond 6 =
      ⟨[⟨1, 1, true, []⟩, ⟨0, 0, false, [none]⟩, ⟨1, 1, true, [some 0, none]⟩],
        [some none, none, some (some 2)], [], [1], false⟩ := by decide +kernel
  have hac : (machine.after .empty diamond 6).graph.Acyclic := by
    rw [hstate]
    refine Ownership.acyclic_of_rank id fun x y hxy => ?_
    obtain ⟨t, ht, hm⟩ := hxy
    match x with
    | 0 => cases ht; cases hm
    | 1 => cases ht; simp at hm
    | 2 => cases ht; simp_all
    | _ + 3 => cases ht
  obtain ⟨hlive, -, hdead, -⟩ :=
    Heap.refcounts_are_reachability (.ofLabels machine .empty rfl diamond) 6 hac
  change (∀ o, (machine.after .empty diamond 6).Exists o ↔ _) at hlive
  change (∀ o < (machine.after .empty diamond 6).objs.length, _) at hdead
  constructor
  · refine hdead 1 (by rw [hstate]; decide) fun hr => ?_
    have hdestroyed := ((hlive 1).mpr hr).2
    rw [hstate] at hdestroyed
    exact hdestroyed (by decide)
  · refine (hlive 0).mp ?_
    rw [hstate]
    exact ⟨by decide, by decide⟩

end Gradyx.IntrusiveHeap
