import Gradyx.Core.IntrusivePtr.WeakCounted
import Gradyx.Lib.Simulation

/-!
# IntrusivePtr — weak handles do not change the strong heap

* `cascadeStep_sound`: a step of a cascade is a step of the cascade without the weak
  handles, or releases a weak handle and is none.
* `settle_sound`: so the cascades end in the same heap.
-/

namespace Gradyx.WeakHeap

open Gradyx.Lib
open Gradyx.IntrusivePtr (Kind sizeMax sizeAdd sizeSub)
open Gradyx.IntrusiveHeap (Ptr Place Task refsTo refsTo_self)

namespace Heap

variable {h h' : Heap} {held : List Ptr} {o k : ℕ} {t t' : Target} {pl : Place} {p q : Ptr}
  {kind : Kind}

/-- Both kinds of handles are counted, at any point of a cascade. -/
structure Sound (h : Heap) : Prop where
  strong : h.strongPart.Counted []
  weak : h.WeakCounted []

/-! ## Objects that are alive -/

/-- An object that a strong reference is left to. -/
theorem storage_of_refs (hc : h.strongPart.Counted held) (ho : 0 < h.strongPart.refs held o) :
    ∃ t, h.objs[o]? = some t ∧ t.storage = true ∧ t.target = true := by
  obtain ⟨s, hs, htarget, -, hweak⟩ := hc.live_of_refs ho
  rw [getElem?_strongPart, Option.map_eq_some_iff] at hs
  obtain ⟨t, ht, rfl⟩ := hs
  refine ⟨t, ht, ?_, htarget⟩
  by_contra hne
  rw [show t.strongPart.weakRefs = 0 from if_neg hne] at hweak
  cases hweak

/-- What a strong handle points to. -/
theorem storage_of_load (hc : h.strongPart.Counted held) (hl : h.load .strong pl = some (some o)) :
    ∃ t, h.objs[o]? = some t ∧ t.storage = true ∧ t.target = true := by
  refine storage_of_refs hc ?_
  exact IntrusiveHeap.Heap.refs_pos_of_load held (load_strong hl) o rfl

/-- The object of a pending destructor still has its storage. -/
theorem storage_of_pending (hc : h.strongPart.Counted held) (hp : .destroy o k ∈ h.pending)
    (ht : h.objs[o]? = some t) : t.storage = true := by
  have hmem : Task.destroy o (h.rank o k) ∈ h.strongPart.pending := List.mem_map_of_mem hp
  have hpos := le_tally (Task.destroys o) hmem
  have hfate := hc.fate o _ (strongPart_obj ht)
  have hweak := hc.weak o _ (strongPart_obj ht)
  rw [Task.destroys, refsTo_self] at hpos
  by_contra hne
  rw [show t.strongPart.weakRefs = 0 from if_neg hne] at hweak
  split at hfate <;> omega

/-! ## One step of a cascade -/

theorem memberKind_eq (ht : h.objs[o]? = some t) : h.memberKind o k = t.members[k]?.map Handle.kind := by
  rw [memberKind, ht]
  rfl

/-- What the step is in the cascade without the weak handles: the same one, or none. -/
theorem cascadeStep_strong (hs : h.Sound) :
    h.cascadeStep.strongPart = h.strongPart.cascadeStep ∨
      h.cascadeStep.strongPart = h.strongPart := by
  cases hp : h.pending with
  | nil =>
      right
      simp only [cascadeStep, hp]
  | cons τ rest =>
      have hp' : h.strongPart.pending = h.task τ :: rest.map h.task := congrArg (List.map h.task) hp
      cases τ with
      | release o =>
          left
          have hp'' : h.strongPart.pending = .release o :: rest.map h.task := hp'
          simp only [cascadeStep, hp, IntrusiveHeap.Heap.cascadeStep, hp'']
          rw [releaseStrongRef_strong, strongPart_withPending]
      | destroy o k =>
          obtain ⟨t, ht, hk⟩ := hs.weak.pending o k (hp ▸ List.mem_cons_self)
          cases k with
          | zero =>
              left
              have hp'' : h.strongPart.pending = .destroy o 0 :: rest.map h.task := by
                rw [hp', task, rank_eq ht, rank_zero]
              have hstorage := storage_of_pending hs.strong (hp ▸ List.mem_cons_self) ht
              simp only [cascadeStep, hp, IntrusiveHeap.Heap.cascadeStep, hp'']
              rw [baseDestructor_strong (h := h.withPending rest) ht hstorage, strongPart_withPending]
          | succ k =>
              obtain ⟨m, hm⟩ : ∃ m, t.members[k]? = some m := ⟨_, List.getElem?_eq_getElem hk⟩
              obtain ⟨kind, p⟩ := m
              have hkind : h.memberKind o k = some kind := by
                rw [memberKind_eq ht, hm]
                rfl
              have hload : (h.withPending (.destroy o k :: rest)).load kind (.member o k) = some p :=
                Option.bind_eq_some_iff.mpr ⟨t, ht, Target.member_eq_some.mpr hm⟩
              simp only [cascadeStep, hp, hkind]
              cases kind with
              | strong =>
                  left
                  have hp'' : h.strongPart.pending = .destroy o (h.rank o k + 1) ::
                      rest.map h.task := by
                    rw [hp', task, rank_eq ht, rank_eq ht, rank_succ hm]
                    rfl
                  simp only [IntrusiveHeap.Heap.cascadeStep, hp'']
                  rw [reset_strong hload, strongPart_withPending]
                  rfl
              | weak =>
                  right
                  rw [reset_weak hload]
                  have hrank : h.task (.destroy o k) = h.task (.destroy o (k + 1)) := by
                    rw [task, task, rank_eq ht, rank_eq ht, rank_succ hm]
                    rfl
                  rw [strongPart_withPending, List.map_cons, hrank, ← hp']
                  rfl

theorem store_withPending (h : Heap) (l : List Task) (kind : Kind) (pl : Place) (p : Ptr) :
    (h.withPending l).store kind pl p = (h.store kind pl p).withPending l := by
  cases pl with
  | root i => cases kind <;> rfl
  | member o k => cases ho : h.objs[o]? <;> simp [store, withPending, withObj, ho]

/-- The destructor of an object destroys its next member. -/
theorem destroyMember_weak {rest : List Task} (hc : h.WeakCounted held)
    (hp : h.pending = .destroy o (k + 1) :: rest) (ht : h.objs[o]? = some t)
    (hm : t.members[k]? = some ⟨kind, p⟩) :
    ((h.withPending (.destroy o k :: rest)).reset kind (.member o k)).WeakCounted held := by
  have hl : h.load kind (.member o k) = some p :=
    Option.bind_eq_some_iff.mpr ⟨t, ht, Target.member_eq_some.mpr hm⟩
  have hstore : h.store kind (.member o k) none = h.withObj o (t.setMember kind k none) := by
    simp only [store, ht]
  have hobj : (h.withObj o (t.setMember kind k none)).objs[o]? = some (t.setMember kind k none) :=
    List.getElem?_set_self (List.getElem?_eq_some_iff.mp ht).1
  have hnull : (t.setMember kind k none).members[k]? = some ⟨kind, none⟩ :=
    List.getElem?_set_self (List.getElem?_eq_some_iff.mp hm).1
  have hs := (WeakCounted.null_iff.mpr hc).store hl (.inr rfl)
  have hl' : (h.withPending (.destroy o k :: rest)).load kind (.member o k) = some p := hl
  simp only [reset, hl', store_withPending]
  rw [hstore] at hs ⊢
  refine (hs.nextMember hp hobj fun x hx => ?_).drop
  rw [hnull] at hx
  cases hx

theorem cascadeStep_weak (hs : h.Sound) : h.cascadeStep.WeakCounted [] := by
  obtain ⟨hstrong, hweak⟩ := hs
  cases hp : h.pending with
  | nil =>
      simp only [cascadeStep, hp]
      exact hweak
  | cons τ rest =>
      cases τ with
      | release o =>
          have hpop : (h.withPending rest).WeakCounted [] := by
            refine hweak.pending_congr fun x j => ?_
            simp [hp]
          have hp' : h.strongPart.pending = .release o :: rest.map h.task :=
            congrArg (List.map h.task) hp
          have hrefs : 0 < (h.withPending rest).strongPart.refs [some o] o := by
            simp [IntrusiveHeap.Heap.refs, refsTo]
          have hcounted : (h.withPending rest).strongPart.Counted [some o] :=
            hstrong.popRelease hp'
          obtain ⟨t, ht, hstorage, -⟩ := storage_of_refs hcounted hrefs
          simp only [cascadeStep, hp]
          exact hpop.releaseStrongRef ht (hpop.control_of_storage ht hstorage)
      | destroy o k =>
          obtain ⟨t, ht, hk⟩ := hweak.pending o k (hp ▸ List.mem_cons_self)
          cases k with
          | zero =>
              have hstorage := storage_of_pending hstrong (hp ▸ List.mem_cons_self) ht
              simp only [cascadeStep, hp]
              exact (hweak.popDestroy hp).baseDestructor ht hstorage
          | succ k =>
              obtain ⟨m, hm⟩ : ∃ m, t.members[k]? = some m := ⟨_, List.getElem?_eq_getElem hk⟩
              obtain ⟨kind, p⟩ := m
              have hkind : h.memberKind o k = some kind := by
                rw [memberKind_eq ht, hm]
                rfl
              simp only [cascadeStep, hp, hkind]
              exact destroyMember_weak hweak hp ht hm

theorem cascadeStep_sound (hs : h.Sound) : h.cascadeStep.Sound := by
  refine ⟨?_, cascadeStep_weak hs⟩
  rcases cascadeStep_strong hs with heq | heq
  · rw [heq]
    exact IntrusiveHeap.Heap.cascadeStep_counted hs.strong
  · rw [heq]
    exact hs.strong

/-! ## Termination -/

theorem cost_withObj (t' : Target) (ht : h.objs[o]? = some t) :
    (h.withObj o t').cost + objCost t = h.cost + objCost t' := by
  have := tally_set objCost t' ht
  simp only [cost, withObj]
  omega

theorem cost_withObj_same (ht : h.objs[o]? = some t) (htarget : t'.target = t.target)
    (hlen : t'.members.length = t.members.length) : (h.withObj o t').cost = h.cost := by
  have hobj : objCost t' = objCost t := by rw [objCost, objCost, htarget, hlen]
  have := cost_withObj t' ht
  omega

theorem cost_push (h : Heap) (τ : Task) :
    (h.push τ).cost = IntrusiveHeap.Heap.taskCost τ + h.cost := by
  simp only [cost, push, tally_cons]
  omega

theorem cost_store (h : Heap) (kind : Kind) (pl : Place) (p : Ptr) :
    (h.store kind pl p).cost = h.cost := by
  cases pl with
  | root i => cases kind <;> rfl
  | member o k =>
      cases ho : h.objs[o]? with
      | none => simp only [store, ho]
      | some t =>
          simp only [store, ho]
          exact cost_withObj_same ho rfl List.length_set

theorem cost_releaseStrongRef (h : Heap) (o : ℕ) : (h.releaseStrongRef o).cost ≤ h.cost := by
  cases ho : h.objs[o]? with
  | none =>
      simp only [releaseStrongRef, ho]
      exact le_refl _
  | some t =>
      have ht : ((h.touchTarget t).touchControl t).objs[o]? = some t := ho
      have hcost : ((h.touchTarget t).touchControl t).cost = h.cost := rfl
      simp only [releaseStrongRef, ho]
      split
      · have := cost_withObj { t with strongRefs := sizeSub t.strongRefs, target := false } ht
        split
        · next hlive =>
            rw [cost_push]
            simp only [objCost, IntrusiveHeap.Heap.taskCost, hlive, if_true, Bool.false_eq_true,
              if_false] at *
            omega
        · next hdead =>
            simp only [objCost, hdead, if_false, Bool.false_eq_true] at *
            omega
      · have heq : (((h.touchTarget t).touchControl t).withObj o
            { t with strongRefs := sizeSub t.strongRefs }).cost = h.cost :=
          cost_withObj_same ht rfl rfl
        exact heq.le

theorem cost_releaseWeakRef (h : Heap) (o : ℕ) : (h.releaseWeakRef o).cost = h.cost := by
  cases ho : h.objs[o]? with
  | none =>
      simp only [releaseWeakRef, ho]
      rfl
  | some t =>
      have ht : ((h.touchControl t).logFreed o).objs[o]? = some t := ho
      have ht' : (h.touchControl t).objs[o]? = some t := ho
      simp only [releaseWeakRef, ho]
      split
      · exact cost_withObj_same ht rfl rfl
      · exact cost_withObj_same ht' rfl rfl

theorem cost_drop (h : Heap) (kind : Kind) (p : Ptr) : (h.drop kind p).cost ≤ h.cost + 1 := by
  cases p with
  | none => cases kind <;> exact Nat.le_succ _
  | some o =>
      cases kind with
      | strong => exact (cost_push h (.release o)).le.trans (Nat.add_comm _ _).le
      | weak => exact (cost_releaseWeakRef h o).le.trans (Nat.le_succ _)

theorem cost_reset (h : Heap) (kind : Kind) (pl : Place) : (h.reset kind pl).cost ≤ h.cost + 1 := by
  unfold reset
  split
  · cases kind <;> exact Nat.le_succ _
  · exact (cost_drop _ kind _).trans (Nat.add_le_add_right (cost_store h kind pl none).le 1)

theorem cost_baseDestructor (h : Heap) (o : ℕ) : (h.baseDestructor o).cost = h.cost := by
  rw [← cost_releaseWeakRef h o, baseDestructor]
  cases ho : (h.releaseWeakRef o).objs[o]? with
  | none =>
      simp only [endStorage, ho]
      rfl
  | some t =>
      have ht : (((h.releaseWeakRef o).touchTarget t).logDestroyed o).objs[o]? = some t := ho
      simp only [endStorage, ho]
      exact cost_withObj_same ht rfl rfl

/-- Every primitive step of a cascade lowers the cost. -/
theorem cost_cascadeStep (hp : h.pending ≠ []) : h.cascadeStep.cost < h.cost := by
  have hpop : ∀ τ rest l, h.pending = τ :: rest →
      (h.withPending l).cost + IntrusiveHeap.Heap.taskCost τ +
        tally IntrusiveHeap.Heap.taskCost rest = h.cost + tally IntrusiveHeap.Heap.taskCost l := by
    intro τ rest l hτ
    simp only [cost, withPending, hτ, tally_cons]
    omega
  unfold cascadeStep
  split
  · next hnil => exact absurd hnil hp
  · next o rest hτ =>
      have h₁ := hpop _ _ rest hτ
      have h₂ := cost_releaseStrongRef (h.withPending rest) o
      simp only [IntrusiveHeap.Heap.taskCost] at h₁
      omega
  · next o rest hτ =>
      have h₁ := hpop _ _ rest hτ
      have h₂ := cost_baseDestructor (h.withPending rest) o
      simp only [IntrusiveHeap.Heap.taskCost] at h₁
      omega
  · next o k rest hτ =>
      have h₁ := hpop _ _ (.destroy o k :: rest) hτ
      simp only [IntrusiveHeap.Heap.taskCost, tally_cons] at h₁
      split
      · have h₂ : ((h.withPending (.destroy o k :: rest)).failed .strong).cost =
            (h.withPending (.destroy o k :: rest)).cost := rfl
        omega
      · next kind _ =>
          have h₂ := cost_reset (h.withPending (.destroy o k :: rest)) kind (.member o k)
          omega

theorem settle_done (h : Heap) : h.settle.pending = [] := by
  have hdone : ∀ s : Heap, s.pending = [] → s.cascadeStep = s := by
    intro s hs
    simp only [cascadeStep, hs]
  exact iterate_done cost hdone (fun _ => cost_cascadeStep) (le_refl h.cost)

/-- The cascades end in the same heap, with and without the weak handles. -/
theorem settle_sound (hs : h.Sound) :
    h.settle.Sound ∧ h.settle.strongPart = h.strongPart.settle := by
  have hinv : ∀ s : Heap, s.Sound → s.cascadeStep.Sound := fun _ => cascadeStep_sound
  refine ⟨iterate_inv hinv hs h.cost, ?_⟩
  have hsim : ∀ s : Heap, s.Sound → s.cascadeStep.strongPart = s.strongPart.cascadeStep ∨
      s.cascadeStep.strongPart = s.strongPart := fun _ => cascadeStep_strong
  obtain ⟨m, hm⟩ : ∃ m, h.settle.strongPart = IntrusiveHeap.Heap.cascadeStep^[m] h.strongPart :=
    iterate_simulation hinv hsim hs h.cost
  have hfixed : ∀ g : IntrusiveHeap.Heap, g.pending = [] → g.cascadeStep = g := by
    intro g hg
    simp only [IntrusiveHeap.Heap.cascadeStep, hg]
  have hdone : h.settle.strongPart.pending = [] := congrArg (List.map h.settle.task) (settle_done h)
  rw [hm] at hdone ⊢
  exact iterate_eq_of_fixed (hfixed _ hdone)
    (hfixed _ (IntrusiveHeap.Heap.settle_done h.strongPart))

end Heap

end Gradyx.WeakHeap
