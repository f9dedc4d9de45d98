import Gradyx.Core.IntrusivePtr.Relaxed

/-!
# IntrusivePtr — the steps under stale loads

What one step of the machine of `Gradyx.Core.IntrusivePtr.Relaxed` does to the
references of a thread, where the steps of the destruction come from, and that
a counter at zero stays there.
-/

namespace Gradyx.IntrusivePtr.Relaxed

open Gradyx.Lib

/-! ## What an instruction leaves to be done -/

/-- A step of the destruction of the target. -/
def Destroys : Instr → Prop
  | .targetExchange | .deleteTarget true | .baseDestructor | .freeTarget => True
  | _ => False

section Exec

variable {b : Bool} {m : Memory} {T : Token → ℕ} {r : Regs} {i : Instr}

/-- Only giving up a reference makes a thread hold less. -/
theorem exec_keeps (h : Counted m T) (hpre : i.Pre r) (hle : ∀ τ, i.weight τ + r.weight τ ≤ T τ)
    {k : Kind} (hne : i ≠ .releaseFetchSub k) :
    i.weight (.ref k) + r.weight (.ref k) ≤
      tally (Instr.weight (.ref k)) (IntrusivePtr.exec b m r i).2.2 +
        (IntrusivePtr.exec b m r i).2.1.weight (.ref k) := by
  have hreg : ∀ τ, r.weight τ ≤ T τ := fun τ => by have := hle τ; omega
  have hquiet := exec_quiet (b := b) h hpre hreg
  cases i with
  | incrementCas k' current d s =>
      obtain ⟨-, hd, -⟩ := hpre
      have hzero : ∀ current, Instr.weight (.ref k) (.incrementCas k' current d s) = 0 := by
        intro current
        cases k <;> rfl
      simp only [IntrusivePtr.exec]
      split
      · simp only [tally_cons, tally_nil, hzero]
        omega
      · split
        · have hset := Regs.weight_set (.ref k) r d (.handle k' true)
          rw [hd, Slot.weight_building] at hset
          simp only [tally_nil, hzero]
          omega
        · simp only [tally_cons, tally_nil, hzero]
          omega
  | tryRetainCas count d w =>
      obtain ⟨-, hd, -⟩ := hpre
      have hzero : ∀ count, Instr.weight (.ref k) (.tryRetainCas count d w) = 0 := by
        intro count
        cases k <;> rfl
      simp only [IntrusivePtr.exec]
      split
      · have hset := Regs.weight_set (.ref k) r d (.handle .strong false)
        rw [hd, Slot.weight_raw] at hset
        simp only [tally_nil, hzero]
        omega
      · split
        · simp only [tally_cons, tally_nil, hzero]
          omega
        · simp only [tally_cons, tally_nil, hzero]
          omega
  | lockTargetLoad d =>
      -- the reference becomes the handle's, whose pointer is set
      have hd : r.get d = .raw := hpre
      have htarget := h.target_of_lockTargetLoad (hle (.ref .strong))
      have hset := Regs.weight_set (.ref k) r d (.handle .strong true)
      have hsame : Slot.weight (.ref k) (.handle .strong true) =
          Instr.weight (.ref k) (.lockTargetLoad d) := by
        cases k <;> rfl
      rw [hd, Slot.weight_raw] at hset
      simp only [IntrusivePtr.exec, htarget, tally_nil]
      omega
  | releaseFetchSub k' =>
      have hzero : Instr.weight (.ref k) (.releaseFetchSub k') = 0 := by
        have hkk : k ≠ k' := fun hkk => hne (by rw [hkk])
        simp only [Instr.weight, if_neg hkk]
      rw [hzero]
      cases k' <;> exact Nat.le_trans (Nat.le_of_eq (Nat.zero_add _)) (Nat.le_add_left _ _)
  | targetExchange | freeTarget | deleteControl | baseDestructor =>
      refine Nat.le_trans (Nat.le_of_eq ?_) (Nat.le_add_left _ _)
      cases k <;> exact Nat.zero_add _
  | deleteTarget set =>
      refine Nat.le_trans (Nat.le_of_eq ?_) (Nat.le_add_left _ _)
      cases k <;> cases set <;> exact Nat.zero_add _
  | _ => exact Nat.le_of_eq (hquiet.2 (.ref k))

/-- Where the steps of the destruction come from: each leaves the next, and the last
reference of each kind leaves the first. -/
theorem exec_leaves {x : Instr} (hx : x ∈ (IntrusivePtr.exec b m r i).2.2)
    (hd : Destroys x ∨ x = .deleteControl) :
    Destroys x ∧ (Destroys i ∨ i = .releaseFetchSub .strong ∧ m.strongRefs = 1) ∨
      x = .deleteControl ∧ (i = .releaseFetchSub .weak ∨ i = .baseDestructor) ∧ m.weakRefs = 1 := by
  -- the other steps that an instruction leaves
  have hother : ∀ {y}, x ∈ [y] → ¬ (Destroys y ∨ y = .deleteControl) → False := by
    intro y hy hne
    rw [List.mem_singleton.mp hy] at hd
    exact hne hd
  cases i with
  | targetExchange =>
      rw [List.mem_singleton.mp hx] at hd ⊢
      exact .inl ⟨hd.resolve_right Instr.noConfusion, .inl trivial⟩
  | deleteTarget set =>
      cases set with
      | true =>
          rw [List.mem_singleton.mp hx]
          exact .inl ⟨trivial, .inl trivial⟩
      | false => cases hx
  | baseDestructor =>
      simp only [IntrusivePtr.exec, releaseWeakRef, List.mem_append] at hx
      rcases hx with hx | hx
      · split at hx
        · next hone => exact .inr ⟨List.mem_singleton.mp hx, .inr rfl, hone⟩
        · cases hx
      · rw [List.mem_singleton.mp hx]
        exact .inl ⟨trivial, .inl trivial⟩
  | releaseFetchSub k =>
      cases k with
      | strong =>
          simp only [IntrusivePtr.exec, releaseStrongRef] at hx
          split at hx
          · next hone =>
              rw [List.mem_singleton.mp hx]
              exact .inl ⟨trivial, .inr ⟨rfl, hone⟩⟩
          · cases hx
      | weak =>
          simp only [IntrusivePtr.exec, releaseWeakRef] at hx
          split at hx
          · next hone => exact .inr ⟨List.mem_singleton.mp hx, .inl rfl, hone⟩
          · cases hx
  | incrementCas k current d s =>
      simp only [IntrusivePtr.exec] at hx
      split at hx
      · exact (hother hx (by simp [Destroys])).elim
      · split at hx
        · cases hx
        · exact (hother hx (by simp [Destroys])).elim
  | tryRetainCas count d w =>
      simp only [IntrusivePtr.exec] at hx
      split at hx
      · cases hx
      · split at hx
        · exact (hother hx (by simp [Destroys])).elim
        · exact (hother hx (by simp [Destroys])).elim
  | copyConstruct k d s | weakFromStrong d s | reset k x' | lock d w | expired w =>
      simp only [IntrusivePtr.exec] at hx
      split at hx
      · exact (hother hx (by simp [Destroys])).elim
      · cases hx
  | incrementLoad k d s | tryRetainLoad d w => exact (hother hx (by simp [Destroys])).elim
  | _ => cases hx

/-- The destruction goes on in the thread that started it, and the last strong
reference starts it. -/
theorem exec_destroys {x : Instr} (hx : x ∈ (IntrusivePtr.exec b m r i).2.2) (hd : Destroys x) :
    Destroys i ∨ (i = .releaseFetchSub .strong ∧ m.strongRefs = 1) := by
  rcases exec_leaves hx (.inl hd) with ⟨-, h⟩ | ⟨rfl, -⟩
  · exact h
  · exact hd.elim

/-- The deletion of the control block is left by the last weak reference. -/
theorem exec_deletes (hx : Instr.deleteControl ∈ (IntrusivePtr.exec b m r i).2.2) :
    (i = .releaseFetchSub .weak ∨ i = .baseDestructor) ∧ m.weakRefs = 1 := by
  rcases exec_leaves hx (.inr rfl) with ⟨hd, -⟩ | ⟨-, h⟩
  · exact hd.elim
  · exact h

/-- No step takes a weak reference when none is left. -/
theorem exec_weak_zero (h : Counted m T) (hpre : i.Pre r)
    (hle : ∀ τ, i.weight τ + r.weight τ ≤ T τ) (hzero : m.weakRefs = 0) :
    (IntrusivePtr.exec b m r i).1.weakRefs = 0 := by
  have hnone : T (.ref .weak) + m.life.implicitRef = 0 := by
    rw [← h.weak]
    exact hzero
  have hgone : T (.ref .strong) = 0 := by
    by_contra hpos
    have hlife := h.life_of_strong (Nat.pos_of_ne_zero hpos)
    rw [hlife] at hnone
    cases hnone
  have hsrc : ∀ x k, r.get x ≠ .handle k true := by
    intro x k hx
    have h₁ := Regs.ref_of_get hx
    have h₂ := hle (.ref k)
    cases k <;> omega
  cases i with
  | incrementCas k current d s =>
      obtain ⟨-, -, hs | ⟨rfl, hs⟩⟩ := hpre
      · exact absurd hs (hsrc s .strong)
      · exact absurd hs (hsrc s .weak)
  | tryRetainCas count d w =>
      exact absurd hpre.2.2 (hsrc w .weak)
  | releaseFetchSub k =>
      have hone : Instr.weight (.ref k) (.releaseFetchSub k) = 1 := by simp [Instr.weight]
      have := hle (.ref k)
      cases k <;> omega
  | baseDestructor =>
      -- its own reference would be there
      have hbase := hle .base
      have hone : Instr.weight .base .baseDestructor = 1 := rfl
      have hlife : m.life = .destroying := by
        have := h.base
        by_contra hne
        rw [if_neg hne] at this
        omega
      rw [hlife] at hnone
      cases hnone
  | copyConstruct k d s =>
      simp only [IntrusivePtr.exec]
      split
      · split <;> exact hzero
      · exact hzero
  | weakFromStrong d s =>
      simp only [IntrusivePtr.exec]
      split <;> exact hzero
  | reset k x =>
      simp only [IntrusivePtr.exec]
      split
      · split <;> exact hzero
      · exact hzero
  | lock d w | expired w =>
      simp only [IntrusivePtr.exec]
      split <;> exact hzero
  | deleteTarget set => cases set <;> exact hzero
  | _ => exact hzero

theorem setRefs_life (m : Memory) (k : Kind) (n : ℕ) : (m.setRefs k n).life = m.life := by
  cases k <;> rfl

end Exec

theorem reread_destroys (value : Kind → ℕ) (i : Instr) : Destroys (reread value i) ↔ Destroys i := by
  cases i <;> exact Iff.rfl

theorem reread_deletes {value : Kind → ℕ} {i : Instr} (h : reread value i = .deleteControl) :
    i = .deleteControl := by
  cases i with
  | deleteControl => rfl
  | _ => cases h

/-! ## One step of a run -/

/-- What the machine does in one step, with the instruction by its effect on the
latest values. -/
theorem step_spec {s s' : State} {l : Label} (hinv : Inv s.base) (h : step s l = some s') :
    (∃ t op regs pool, l = .call t op ∧ s.base.threads[t]? = some none ∧
      checkOut s.base.pool op = some (regs, pool) ∧ s'.base.mem = s.base.mem ∧
      s'.base.pool = pool ∧
      s'.base.threads = s.base.threads.set t (some ⟨op.self, op.other, regs, op.body⟩)) ∨
    (∃ t load f, l = .run t load ∧ s.base.threads[t]? = some (some f) ∧ f.code = [] ∧
      s'.base.mem = s.base.mem ∧ s'.base.pool = checkIn f s.base.pool ∧
      s'.base.threads = s.base.threads.set t none) ∨
    (∃ t load f i rest g, l = .run t load ∧ s.base.threads[t]? = some (some f) ∧
      f.code = i :: rest ∧ s.At t f i ∧ i.Pre f.regs ∧
      (∀ τ, i.weight τ + f.regs.weight τ ≤ s.base.tally τ) ∧
      s'.base.mem = (IntrusivePtr.exec load.spurious s.base.mem f.regs i).1 ∧
      s'.base.pool = s.base.pool ∧ s'.base.threads = s.base.threads.set t (some g) ∧
      (∃ answer, g.regs = (IntrusivePtr.exec load.spurious s.base.mem f.regs i).2.1.reply answer) ∧
      g.code = (IntrusivePtr.exec load.spurious s.base.mem f.regs i).2.2.map
        (reread (s.read load.choice)) ++ rest) ∨
    ∃ t x pool, l = .use t x ∧ s.base.threads[t]? = some none ∧
      pick x s.base.pool = some (.handle .strong true, pool) ∧ s'.base.mem = s.base.mem ∧
      s'.base.pool = s.base.pool ∧ s'.base.threads = s.base.threads := by
  obtain ⟨-, hcases⟩ := step_cases h
  rcases hcases with ⟨t, op, regs, pool, rfl, ht, hout, rfl⟩ | ⟨t, load, f, rfl, ht, hcode, rfl⟩ |
    ⟨t, load, f, i, rest, rfl, ht, hcode, rfl⟩ | ⟨t, x, pool, rfl, ht, hx, rfl⟩
  · exact .inl ⟨t, op, regs, pool, rfl, ht, hout, rfl, rfl, rfl⟩
  · exact .inr (.inl ⟨t, load, f, rfl, ht, hcode, rfl, rfl, rfl⟩)
  · have hle := State.weight_le ht hcode
    have hready := hinv.ready f (List.mem_of_getElem? ht)
    rw [hcode] at hready
    obtain ⟨answer, heq⟩ := exec_eq (s.read load.choice) load (r := f.regs) hinv.counted hle
    refine .inr (.inr (.inl ⟨t, load, f, i, rest, _, rfl, ht, hcode, ⟨ht, by rw [hcode]; rfl⟩,
      hready.1, hle, ?_, rfl, rfl, ⟨answer, ?_⟩, ?_⟩))
    · show (exec (s.read load.choice) load s.base.mem f.regs i).1 = _
      rw [heq]
    · show (exec (s.read load.choice) load s.base.mem f.regs i).2.1 = _
      rw [heq]
    · show (exec (s.read load.choice) load s.base.mem f.regs i).2.2 ++ rest = _
      rw [heq]
  · have hpos : 0 < s.base.tally (.ref .strong) :=
      Nat.lt_of_lt_of_le (by decide) (pool_weight (mem_of_pick hx) (.ref .strong))
    exact .inr (.inr (.inr ⟨t, x, pool, rfl, ht, hx, touch_of_strong hinv hpos, rfl, rfl⟩))

/-- The same for a thread that is about to execute the instruction. -/
theorem run_spec {s s' : State} {t : ℕ} {load : Load} {f : Frame} {i : Instr} (hinv : Inv s.base)
    (h : step s (.run t load) = some s') (hat : s.At t f i) :
    i.Pre f.regs ∧ (∀ τ, i.weight τ + f.regs.weight τ ≤ s.base.tally τ) ∧
      s'.base.mem = (IntrusivePtr.exec load.spurious s.base.mem f.regs i).1 ∧
      ∃ g rest, f.code = i :: rest ∧ s'.base.threads = s.base.threads.set t (some g) ∧
        (∃ answer,
          g.regs = (IntrusivePtr.exec load.spurious s.base.mem f.regs i).2.1.reply answer) ∧
        g.code = (IntrusivePtr.exec load.spurious s.base.mem f.regs i).2.2.map
          (reread (s.read load.choice)) ++ rest := by
  rcases step_spec hinv h with ⟨t', op, regs, pool, hl, -⟩ | ⟨t', load', f', hl, ht, hcode, -⟩ |
    ⟨t', load', f', i', rest, g, hl, ht, hcode, -, hpre, hle, hmem, -, hthreads, hregs, hgcode⟩ |
      ⟨t', x, pool, hl, -⟩
  · cases hl
  · -- a return: no instruction is left
    cases hl
    cases ht.symm.trans hat.1
    have hhead := hat.2
    rw [hcode] at hhead
    cases hhead
  · cases hl
    cases ht.symm.trans hat.1
    have hhead := hat.2
    rw [hcode] at hhead
    cases hhead
    exact ⟨hpre, hle, hmem, g, rest, hcode, hthreads, hregs, hgcode⟩
  · cases hl

/-- A step that executes an instruction updates what the instruction updates. -/
theorem releases_of_updates {s : State} {t : ℕ} {load : Load} {f : Frame} {i : Instr} {x : Resource}
    (hat : s.At t f i) (hx : updates load.spurious s.base.mem i = some (x, .acqRel)) :
    ordering.releases s (.run t load) x ∧ ordering.acquires s (.run t load) x :=
  ⟨.inl ⟨f, i, hat, hx⟩, f, i, hat, hx⟩

theorem getElem?_set {α : Type} {l : List α} {t : ℕ} {a b : α} (h : l[t]? = some a) (u : ℕ) :
    (l.set t b)[u]? = if t = u then some b else l[u]? := by
  by_cases htu : t = u
  · subst htu
    rw [if_pos rfl, List.getElem?_set_self (List.getElem?_eq_some_iff.mp h).1]
  · rw [if_neg htu, List.getElem?_set_ne htu]

/-- A handle object that a call takes is one of its registers. -/
theorem mem_checkOut {pool pool' : List (ℕ × Slot)} {op : Op} {regs : Regs}
    (h : checkOut pool op = some (regs, pool')) {x : ℕ} {v : Slot} (hx : (x, v) ∈ pool) :
    (x, v) ∈ pool' ∨ ((x = op.self ∨ op.other = some x) ∧ ∀ τ, v.weight τ ≤ regs.weight τ) := by
  obtain ⟨w, pool₁, hself, -, h⟩ := checkOut_cases h
  rcases mem_pick hself hx with hx | hx
  · rcases h with ⟨-, rfl, rfl⟩ | ⟨o, w', hother, hpick, -, rfl⟩
    · exact .inl hx
    · rcases mem_pick hpick hx with hx | hx
      · exact .inl hx
      · cases hx
        exact .inr ⟨.inr hother, fun τ => Regs.weight_get_le τ ⟨w, v, .raw, false⟩ .other⟩
  · cases hx
    right
    rcases h with ⟨-, rfl, -⟩ | ⟨o, w', -, -, -, rfl⟩
    · exact ⟨.inl rfl, fun τ => Regs.weight_get_le τ ⟨v, .raw, .raw, false⟩ .self⟩
    · exact ⟨.inl rfl, fun τ => Regs.weight_get_le τ ⟨v, w', .raw, false⟩ .self⟩

theorem eq_of_weight {k : Kind} {v : Slot} (h : 0 < v.weight (.ref k)) : v = .handle k true := by
  cases v with
  | raw => cases h
  | building k' => cases h
  | handle k' set =>
      cases set with
      | false => cases h
      | true =>
          simp only [Slot.weight] at h
          split at h
          · next hk => rw [hk]
          · cases h

/-- A function that returns with a reference leaves it in one of its objects. -/
theorem mem_checkIn {f : Frame} {k : Kind} (pool : List (ℕ × Slot))
    (hready : Ready f.otherName.isNone [] f.regs) (h : 0 < f.regs.weight (.ref k)) :
    ∃ x, (x, .handle k true) ∈ checkIn f pool ∧
      (x = f.selfName ∨ ∃ o, f.otherName = some o ∧ x = o) := by
  obtain ⟨hcopy, hother⟩ := hready
  unfold checkIn
  cases hname : f.otherName with
  | none =>
      have hraw : f.regs.other = .raw := hother (by rw [hname]; rfl)
      simp only [Regs.weight, hcopy, hraw, Slot.weight_raw, Nat.add_zero] at h
      exact ⟨f.selfName, by rw [eq_of_weight h]; exact List.mem_cons_self, .inl rfl⟩
  | some o =>
      simp only [Regs.weight, hcopy, Slot.weight_raw, Nat.add_zero] at h
      by_cases hself : 0 < f.regs.self.weight (.ref k)
      · exact ⟨f.selfName, by rw [eq_of_weight hself]; exact List.mem_cons_self, .inl rfl⟩
      · have ho : 0 < f.regs.other.weight (.ref k) := by omega
        refine ⟨o, ?_, .inr ⟨o, rfl, rfl⟩⟩
        rw [eq_of_weight ho]
        exact List.mem_cons_of_mem _ List.mem_cons_self

/-! ## The destruction -/

variable {l : Label}

theorem weight_le_frame {f : Frame} {i : Instr} (hi : i ∈ f.code) (τ : Token) :
    i.weight τ + f.regs.weight τ ≤ f.weight τ := by
  have := le_tally (Instr.weight τ) hi
  rw [Frame.weight]
  omega

/-- The steps of the destruction of the target that are left to be done. -/
def pending (T : Token → ℕ) : ℕ := T .exchange + T .delete + T .base + T .free

theorem one_le_pending {f : Frame} {i : Instr} (hi : i ∈ f.code) (hd : Destroys i) :
    1 ≤ pending fun τ => f.weight τ := by
  have hle : ∀ τ, i.weight τ ≤ f.weight τ := fun τ =>
    Nat.le_trans (Nat.le_add_right _ _) (weight_le_frame hi τ)
  have h₁ := hle .exchange
  have h₂ := hle .delete
  have h₃ := hle .base
  have h₄ := hle .free
  have hone : 1 ≤ pending fun τ => i.weight τ := by
    cases i with
    | deleteTarget set =>
        cases set with
        | true => exact Nat.le_refl 1
        | false => exact hd.elim
    | targetExchange | baseDestructor | freeTarget => exact Nat.le_refl 1
    | _ => exact hd.elim
  simp only [pending] at hone ⊢
  omega

/-- There is one destruction at most, and none while a strong reference is left. -/
theorem pending_le {m : Memory} {T : Token → ℕ} (h : Counted m T) :
    pending T ≤ if m.strongRefs = 0 then 1 else 0 := by
  rw [pending, h.exchange, h.delete, h.base, h.free]
  have halive := h.alive
  have htarget := h.target
  by_cases hzero : m.strongRefs = 0
  · rw [if_pos hzero]
    cases htgt : m.target <;> cases hlife : m.life <;> simp_all
  · have htgt := halive (Nat.pos_of_ne_zero hzero)
    have hlife := htarget htgt
    simp [hzero, htgt, hlife]

theorem strong_of_destroys {s : IntrusivePtr.State} (hinv : Inv s) {t : ℕ} {f : Frame}
    (ht : s.threads[t]? = some (some f)) {i : Instr} (hi : i ∈ f.code) (hd : Destroys i) :
    s.mem.strongRefs = 0 := by
  have hone := one_le_pending hi hd
  have hle := pending_le hinv.counted
  have h₁ := IntrusivePtr.State.frame_weight_le ht .exchange
  have h₂ := IntrusivePtr.State.frame_weight_le ht .delete
  have h₃ := IntrusivePtr.State.frame_weight_le ht .base
  have h₄ := IntrusivePtr.State.frame_weight_le ht .free
  simp only [pending] at hone hle
  split at hle
  · next hzero => exact hzero
  · omega

/-- Only one thread destroys the target. -/
theorem destroyer_unique {s : IntrusivePtr.State} (hinv : Inv s) {t u : ℕ} {f g : Frame}
    (ht : s.threads[t]? = some (some f)) (hu : s.threads[u]? = some (some g))
    {i j : Instr} (hi : i ∈ f.code) (hdi : Destroys i) (hj : j ∈ g.code) (hdj : Destroys j) :
    t = u := by
  by_contra htu
  have hone := one_le_pending hi hdi
  have hother := one_le_pending hj hdj
  have hle : pending (fun τ => s.tally τ) ≤ 1 :=
    Nat.le_trans (pending_le hinv.counted) (by split <;> decide)
  have hboth : ∀ τ, f.weight τ + g.weight τ ≤ s.tally τ := fun τ =>
    Nat.le_trans (add_le_tally (threadWeight τ) htu ht hu) (Nat.le_add_left _ _)
  have h₁ := hboth .exchange
  have h₂ := hboth .delete
  have h₃ := hboth .base
  have h₄ := hboth .free
  simp only [pending] at hone hother hle
  omega

theorem weak_of_deletes {s : IntrusivePtr.State} (hinv : Inv s) {t : ℕ} {f : Frame}
    (ht : s.threads[t]? = some (some f)) (hi : .deleteControl ∈ f.code) :
    s.mem.weakRefs = 0 ∧ s.mem.controlDeletes = 0 := by
  have h₁ := weight_le_frame hi .control
  have h₂ := IntrusivePtr.State.frame_weight_le ht .control
  have hone : Instr.weight .control .deleteControl = 1 := rfl
  have hpos : 0 < s.tally .control := by omega
  rw [hinv.counted.control] at hpos
  split at hpos
  · next h => exact h
  · cases hpos

theorem mem_of_at {s : State} {t : ℕ} {f : Frame} {i : Instr} (h : s.At t f i) : i ∈ f.code :=
  List.mem_of_mem_head? h.2

theorem at_unique {s : State} {t : ℕ} {f g : Frame} {i j : Instr} (hi : s.At t f i)
    (hj : s.At t g j) : f = g ∧ i = j := by
  cases hi.1.symm.trans hj.1
  exact ⟨rfl, Option.some.inj (hi.2.symm.trans hj.2)⟩

/-- A pending step says how far the target has come. -/
theorem life_of_exchange {s : IntrusivePtr.State} (hinv : Inv s) {t : ℕ} {f : Frame}
    (ht : s.threads[t]? = some (some f)) (hi : .targetExchange ∈ f.code) : s.mem.life = .alive := by
  have h₁ := weight_le_frame hi .exchange
  have h₂ := IntrusivePtr.State.frame_weight_le ht .exchange
  have hone : Instr.weight .exchange .targetExchange = 1 := rfl
  have hcount := hinv.counted.exchange
  split at hcount
  · next h => exact hinv.counted.target h.2
  · omega

theorem life_of_base {s : IntrusivePtr.State} (hinv : Inv s) {t : ℕ} {f : Frame}
    (ht : s.threads[t]? = some (some f)) (hi : .baseDestructor ∈ f.code) :
    s.mem.life = .destroying := by
  have h₁ := weight_le_frame hi .base
  have h₂ := IntrusivePtr.State.frame_weight_le ht .base
  have hone : Instr.weight .base .baseDestructor = 1 := rfl
  have hcount := hinv.counted.base
  split at hcount
  · next h => exact h
  · omega

/-- No body has a step of the destruction. -/
theorem body_not_destroys (op : Op) : ∀ i ∈ op.body, ¬ Destroys i ∧ i ≠ .deleteControl := by
  intro i hi
  cases op <;> simp only [Op.body] at hi <;> (try split at hi) <;>
    simp only [List.mem_cons, List.not_mem_nil, or_false] at hi <;>
    rcases hi with rfl | rfl | rfl | rfl <;> exact ⟨id, Instr.noConfusion⟩

/-- Where a step that is left to a thread comes from. -/
theorem code_back {s s' : State} (hinv : Inv s.base) (h : step s l = some s') {u : ℕ} {g : Frame}
    (hu : s'.base.threads[u]? = some (some g)) {x : Instr} (hx : x ∈ g.code) :
    (∃ f, s.base.threads[u]? = some (some f) ∧ x ∈ f.code) ∨
    (∃ op : Op, x ∈ op.body) ∨
    ∃ load f i, l = .run u load ∧ s.At u f i ∧
      ∃ y ∈ (IntrusivePtr.exec load.spurious s.base.mem f.regs i).2.2,
        x = reread (s.read load.choice) y := by
  rcases step_spec hinv h with ⟨t, op, regs, pool, -, ht, -, -, -, hthreads⟩ |
    ⟨t, load, f, -, ht, -, -, -, hthreads⟩ |
      ⟨t, load, f, i, rest, g', hl, ht, hcode, hat, -, -, -, -, hthreads, -, hgcode⟩ |
        ⟨t, y, pool, -, -, -, -, -, hthreads⟩
  · rw [hthreads, getElem?_set ht] at hu
    split at hu
    · cases hu
      exact .inr (.inl ⟨op, hx⟩)
    · exact .inl ⟨g, hu, hx⟩
  · rw [hthreads, getElem?_set ht] at hu
    split at hu
    · cases hu
    · exact .inl ⟨g, hu, hx⟩
  · rw [hthreads, getElem?_set ht] at hu
    split at hu
    · next htu =>
        subst htu
        cases hu
        rw [hgcode] at hx
        rcases List.mem_append.mp hx with hx | hx
        · obtain ⟨y, hy, rfl⟩ := List.mem_map.mp hx
          exact .inr (.inr ⟨load, f, i, hl, hat, y, hy, rfl⟩)
        · exact .inl ⟨f, ht, by rw [hcode]; exact List.mem_cons_of_mem i hx⟩
    · exact .inl ⟨g, hu, hx⟩
  · exact .inl ⟨g, hthreads ▸ hu, hx⟩

theorem strong_zero_next {s s' : State} (hinv : Inv s.base) (h : step s l = some s')
    (hzero : s.base.mem.strongRefs = 0) : s'.base.mem.strongRefs = 0 := by
  rcases step_spec hinv h with ⟨t, op, regs, pool, -, -, -, hmem, -⟩ |
    ⟨t, load, f, -, -, -, hmem, -⟩ | ⟨t, load, f, i, rest, g, -, -, -, -, hpre, hle, hmem, -⟩ |
      ⟨t, y, pool, -, -, -, hmem, -⟩
  · rw [hmem, hzero]
  · rw [hmem, hzero]
  · rw [hmem]
    exact exec_strong_zero hinv.counted hpre hle hzero
  · rw [hmem, hzero]

theorem weak_zero_next {s s' : State} (hinv : Inv s.base) (h : step s l = some s')
    (hzero : s.base.mem.weakRefs = 0) : s'.base.mem.weakRefs = 0 := by
  rcases step_spec hinv h with ⟨t, op, regs, pool, -, -, -, hmem, -⟩ |
    ⟨t, load, f, -, -, -, hmem, -⟩ | ⟨t, load, f, i, rest, g, -, -, -, -, hpre, hle, hmem, -⟩ |
      ⟨t, y, pool, -, -, -, hmem, -⟩
  · rw [hmem, hzero]
  · rw [hmem, hzero]
  · rw [hmem]
    exact exec_weak_zero hinv.counted hpre hle hzero
  · rw [hmem, hzero]

/-- Who releases a reference holds it. -/
theorem one_le_weight {s : State} {t : ℕ} {f : Frame} {k : Kind}
    (hat : s.At t f (.releaseFetchSub k)) : 1 ≤ f.weight (.ref k) := by
  have hone : Instr.weight (.ref k) (.releaseFetchSub k) = 1 := by simp [Instr.weight]
  have := weight_le_frame (mem_of_at hat) (.ref k)
  omega

/-- The implicit weak reference is there until the base destructor gives it up. -/
theorem implicitRef_next {s s' : State} (hinv : Inv s.base) (h : step s l = some s')
    (hone : s.base.mem.life.implicitRef = 1) :
    s'.base.mem.life.implicitRef = 1 ∨
      ∃ t load f, l = .run t load ∧ s.At t f .baseDestructor := by
  rcases step_spec hinv h with ⟨t, op, regs, pool, -, -, -, hmem, -⟩ |
    ⟨t, load, f, -, -, -, hmem, -⟩ | ⟨t, load, f, i, rest, g, hl, ht, hcode, hat, hpre, hle, hmem, -⟩ |
      ⟨t, y, pool, -, -, -, hmem, -⟩
  · exact .inl (by rw [hmem, hone])
  · exact .inl (by rw [hmem, hone])
  · rw [hmem]
    cases i with
    | baseDestructor => exact .inr ⟨t, load, f, hl, hat⟩
    | freeTarget =>
        -- the storage is returned after the base destructor
        have hfree := hle .free
        have hweight : Instr.weight .free .freeTarget = 1 := rfl
        have hlife : s.base.mem.life = .released := by
          have := hinv.counted.free
          by_contra hne
          rw [if_neg hne] at this
          omega
        rw [hlife] at hone
        cases hone
    | deleteTarget set => cases set <;> exact .inl (by first | rfl | exact hone)
    | releaseFetchSub k => cases k <;> exact .inl hone
    | incrementCas k current d s =>
        left
        simp only [IntrusivePtr.exec]
        split
        · exact hone
        · split
          · rw [setRefs_life]
            exact hone
          · exact hone
    | tryRetainCas count d w =>
        left
        simp only [IntrusivePtr.exec]
        split
        · exact hone
        · split <;> exact hone
    | copyConstruct k d s | reset k x =>
        left
        simp only [IntrusivePtr.exec]
        split
        · split <;> exact hone
        · exact hone
    | weakFromStrong d s | lock d w | expired w =>
        left
        simp only [IntrusivePtr.exec]
        split <;> exact hone
    | _ => exact .inl hone
  · exact .inl (by rw [hmem, hone])

end Gradyx.IntrusivePtr.Relaxed
