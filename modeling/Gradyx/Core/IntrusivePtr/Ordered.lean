import Gradyx.Core.IntrusivePtr.RelaxedSteps

/-!
# IntrusivePtr — deletion comes after every use

In the machine with stale loads every use of the target happens before its
destruction, and every access to the control block before its deletion: by
program order, by the `acq_rel` updates of the counters, and by what orders the
calls on one handle object. The relaxed increments and the loads order nothing.

Fix the use. `Covered`: a reference whose holder knows of it is left, or the
counter carries it. Each step keeps that (`Covered.next`), since who gives up a
reference releases what it knows to the counter; so the thread that gives up the
last one acquires it (`Covered.last`).
-/

namespace Gradyx.IntrusivePtr.Relaxed

open Gradyx.Lib Ordering

/-! ## Who knows of a use -/

variable {r : Run machine} {e n : ℕ} {l : Label}

/-- The use `e` is known to the holder of some reference of the kind, or the counter
carries it. -/
def Covered (r : Run machine) (e : ℕ) (k : Kind) (n : ℕ) : Prop :=
  ordering.Carries r e (.counter k) n ∨
  (∃ x, (x, .handle k true) ∈ (r.state n).base.pool ∧ ordering.Carries r e (.handle x) n) ∨
  ∃ t f, (r.state n).base.threads[t]? = some (some f) ∧ 0 < f.weight (.ref k) ∧
    ordering.Knows r e t n

/-- A thread that holds a reference leaves what its step comes after covered: it keeps the
reference, or gives it up to the counter. -/
theorem covered_of_reaches {k : Kind} {t : ℕ} {load : Load} {f : Frame} {i : Instr}
    (hinv : Inv (r.state n).base) (hl : r.label n = some (.run t load)) (hat : (r.state n).At t f i)
    (hpos : 0 < f.weight (.ref k)) (h : ordering.Reaches r e n) : Covered r e k (n + 1) := by
  by_cases hrelease : i = .releaseFetchSub k
  · subst hrelease
    exact .inl (h.carries hl (releases_of_updates hat rfl).1)
  · obtain ⟨hpre, hle, -, g, rest, hcode, hthreads, ⟨answer, hregs⟩, hgcode⟩ :=
      run_spec hinv (r.step_of_label hl) hat
    have hkeeps := exec_keeps (b := load.spurious) hinv.counted hpre hle hrelease
    refine .inr (.inr ⟨t, g, by rw [hthreads, getElem?_set hat.1, if_pos rfl], ?_, h.knows hl⟩)
    rw [Frame.weight, hcode, tally_cons] at hpos
    rw [Frame.weight, hregs, Regs.weight_reply, hgcode, tally_append, tally_reread]
    omega

/-- A handle in the pool stays there, or a call takes it and learns of the use. -/
theorem covered_of_pool {k : Kind} {x : ℕ} (hinv : Inv (r.state n).base) (hl : r.label n = some l)
    (hx : (x, .handle k true) ∈ (r.state n).base.pool) (h : ordering.Carries r e (.handle x) n) :
    Covered r e k (n + 1) := by
  have hstays : (x, .handle k true) ∈ (r.state (n + 1)).base.pool → Covered r e k (n + 1) :=
    fun hx' => .inr (.inl ⟨x, hx', h.mono (Nat.le_succ n)⟩)
  rcases step_spec hinv (r.step_of_label hl) with
    ⟨t, op, regs, pool, rfl, ht, hout, -, hpool, hthreads⟩ | ⟨t, load, f, -, -, -, -, hpool, -⟩ |
      ⟨t, load, f, i, rest, g, -, -, -, -, -, -, -, hpool, -⟩ | ⟨t, y, pool, -, -, -, -, hpool, -⟩
  · rcases mem_checkOut hout hx with hx' | ⟨hname, hweight⟩
    · exact hstays (hpool ▸ hx')
    · have hacquires : ordering.acquires (r.state n) (.call t op) (.handle x) := by
        rcases hname with rfl | hname
        · exact .inl rfl
        · exact .inr ⟨x, hname, rfl⟩
      have hbefore := h.before hl hacquires
      refine .inr (.inr ⟨t, _, by rw [hthreads, getElem?_set ht, if_pos rfl], ?_,
        Reaches.knows (.inr hbefore) hl⟩)
      have hone : Slot.weight (.ref k) (.handle k true) = 1 := by simp [Slot.weight]
      have := hweight (.ref k)
      show 0 < regs.weight (.ref k) + tally (Instr.weight (.ref k)) op.body
      omega
  · refine hstays ?_
    rw [hpool]
    unfold checkIn
    split
    · exact List.mem_cons_of_mem _ hx
    · exact List.mem_cons_of_mem _ (List.mem_cons_of_mem _ hx)
  · exact hstays (hpool ▸ hx)
  · exact hstays (hpool ▸ hx)

/-- A function that returns hands what it knows to its handle objects. -/
theorem covered_of_return {k : Kind} {t : ℕ} {load : Load} {f : Frame}
    (hinv : Inv (r.state n).base) (hl : r.label n = some (.run t load))
    (ht : (r.state n).base.threads[t]? = some (some f)) (hcode : f.code = [])
    (hpool : (r.state (n + 1)).base.pool = checkIn f (r.state n).base.pool)
    (hpos : 0 < f.weight (.ref k)) (h : ordering.Knows r e t n) : Covered r e k (n + 1) := by
  have hready := hinv.ready f (List.mem_of_getElem? ht)
  rw [hcode] at hready
  rw [Frame.weight, hcode, tally_nil, Nat.add_zero] at hpos
  obtain ⟨x, hx, hname⟩ := mem_checkIn (r.state n).base.pool hready hpos
  have hreleases : ordering.releases (r.state n) (.run t load) (.handle x) := by
    refine .inr ⟨f, ht, hcode, ?_⟩
    rcases hname with rfl | ⟨o, ho, rfl⟩
    · exact .inl rfl
    · exact .inr ⟨x, ho, rfl⟩
  exact .inr (.inl ⟨x, hpool ▸ hx, Reaches.carries (.inr (h.before hl rfl)) hl hreleases⟩)

/-- A step leaves a use covered. -/
theorem Covered.next {k : Kind} (hinv : Inv (r.state n).base) (hl : r.label n = some l)
    (h : Covered r e k n) : Covered r e k (n + 1) := by
  rcases h with hcounter | ⟨x, hx, hcarries⟩ | ⟨u, f, hu, hpos, hknows⟩
  · exact .inl (hcounter.mono (Nat.le_succ n))
  · exact covered_of_pool hinv hl hx hcarries
  · -- a function in progress: only a step of its own thread changes what it holds
    have hstays : (r.state (n + 1)).base.threads[u]? = some (some f) → Covered r e k (n + 1) :=
      fun hu' => .inr (.inr ⟨u, f, hu', hpos, hknows.mono (Nat.le_succ n)⟩)
    rcases step_spec hinv (r.step_of_label hl) with
      ⟨t, op, regs, pool, -, ht, -, -, -, hthreads⟩ |
      ⟨t, load, f', rfl, ht, hcode, -, hpool, hthreads⟩ |
      ⟨t, load, f', i, rest, g, rfl, ht, -, hat, -, -, -, -, hthreads, -⟩ |
      ⟨t, y, pool, -, -, -, -, -, hthreads⟩
    · refine hstays ?_
      have hne : t ≠ u := by
        rintro rfl
        rw [ht] at hu
        cases hu
      rw [hthreads, getElem?_set ht, if_neg hne]
      exact hu
    · by_cases htu : t = u
      · subst htu
        rw [ht] at hu
        cases hu
        exact covered_of_return hinv hl ht hcode hpool hpos hknows
      · exact hstays (by rw [hthreads, getElem?_set ht, if_neg htu]; exact hu)
    · by_cases htu : t = u
      · subst htu
        rw [ht] at hu
        cases hu
        exact covered_of_reaches hinv hl hat hpos (.inr (hknows.before hl rfl))
      · exact hstays (by rw [hthreads, getElem?_set ht, if_neg htu]; exact hu)
    · exact hstays (hthreads ▸ hu)

/-- Who gives up the last reference comes after every covered use. -/
theorem Covered.last {k : Kind} {t : ℕ} {load : Load} {f : Frame} {i : Instr}
    (hl : r.label n = some (.run t load)) (hat : (r.state n).At t f i)
    (hupdates : updates load.spurious (r.state n).base.mem i = some (.counter k, .acqRel))
    (hlast : (r.state n).base.tally (.ref k) ≤ f.weight (.ref k)) (h : Covered r e k n) :
    ordering.HappensBefore r e n := by
  have ht := hat.1
  have hframe := le_tally (threadWeight (.ref k)) (List.mem_of_getElem? ht)
  rcases h with hcounter | ⟨x, hx, -⟩ | ⟨u, g, hu, hpos, hknows⟩
  · exact hcounter.before hl (releases_of_updates hat hupdates).2
  · have hpool := le_tally (fun e : ℕ × Slot => e.2.weight (.ref k)) hx
    have hone : Slot.weight (.ref k) (.handle k true) = 1 := by simp [Slot.weight]
    simp only [State.tally, threadWeight, hone] at hlast hframe hpool
    omega
  · by_cases htu : t = u
    · subst htu
      exact hknows.before hl rfl
    · have hboth := add_le_tally (threadWeight (.ref k)) htu ht hu
      simp only [IntrusivePtr.State.tally, threadWeight] at hlast hboth
      omega

/-- The use is known to some strong reference, or to the thread that destroys the
target. -/
def CoveredStrong (r : Run machine) (e n : ℕ) : Prop :=
  (0 < (r.state n).base.mem.strongRefs → Covered r e .strong n) ∧
    ((r.state n).base.mem.strongRefs = 0 → ∀ t f, (r.state n).base.threads[t]? = some (some f) →
      (∃ i ∈ f.code, Destroys i) → ordering.Knows r e t n)

/-- The use is known to some weak reference, or to whoever holds the implicit one, or
to the thread that deletes the control block. -/
def CoveredWeak (r : Run machine) (e n : ℕ) : Prop :=
  (0 < (r.state n).base.mem.weakRefs → Covered r e .weak n ∨
    (r.state n).base.mem.life.implicitRef = 1 ∧ CoveredStrong r e n) ∧
    ((r.state n).base.mem.weakRefs = 0 → ∀ t f, (r.state n).base.threads[t]? = some (some f) →
      .deleteControl ∈ f.code → ordering.Knows r e t n)

theorem CoveredStrong.next (hinv : Inv (r.state n).base) (hl : r.label n = some l)
    (h : CoveredStrong r e n) : CoveredStrong r e (n + 1) := by
  have hstep := r.step_of_label hl
  constructor
  · intro hpos
    refine (h.1 ?_).next hinv hl
    by_contra hzero
    rw [strong_zero_next hinv hstep (Nat.eq_zero_of_not_pos hzero)] at hpos
    cases hpos
  · rintro - u g hu ⟨x, hx, hd⟩
    -- a thread that was destroying the target knows already
    have hold : ∀ f y, (r.state n).base.threads[u]? = some (some f) → y ∈ f.code → Destroys y →
        ordering.Knows r e u (n + 1) := by
      intro f y hf hy hdy
      exact (h.2 (strong_of_destroys hinv hf hy hdy) u f hf ⟨y, hy, hdy⟩).mono (Nat.le_succ n)
    rcases code_back hinv hstep hu hx with ⟨f, hf, hxf⟩ | ⟨op, hop⟩ |
      ⟨load, f, i, rfl, hat, y, hy, rfl⟩
    · exact hold f x hf hxf hd
    · exact absurd hd (body_not_destroys op x hop).1
    · rcases exec_destroys hy ((reread_destroys _ y).mp hd) with hdi | ⟨rfl, hone⟩
      · exact hold f i hat.1 (mem_of_at hat) hdi
      · -- the last strong reference
        refine Reaches.knows (.inr ((h.1 (by rw [hone]; decide)).last hl hat rfl ?_)) hl
        have hcount : (r.state n).base.mem.strongRefs = (r.state n).base.tally (.ref .strong) :=
          hinv.counted.strong
        have := one_le_weight hat
        omega

/-- The thread that runs the base destructor comes after every use that the strong
references knew. -/
theorem CoveredStrong.before {t : ℕ} {load : Load} {f : Frame} {i : Instr}
    (hinv : Inv (r.state n).base) (hl : r.label n = some (.run t load))
    (hat : (r.state n).At t f i) (hd : Destroys i) (h : CoveredStrong r e n) :
    ordering.HappensBefore r e n :=
  (h.2 (strong_of_destroys hinv hat.1 (mem_of_at hat) hd) t f hat.1 ⟨i, mem_of_at hat, hd⟩).before
    hl rfl

theorem CoveredWeak.next (hinv : Inv (r.state n).base) (hl : r.label n = some l)
    (h : CoveredWeak r e n) : CoveredWeak r e (n + 1) := by
  have hstep := r.step_of_label hl
  constructor
  · intro hpos
    have hbefore : 0 < (r.state n).base.mem.weakRefs := by
      by_contra hzero
      rw [weak_zero_next hinv hstep (Nat.eq_zero_of_not_pos hzero)] at hpos
      cases hpos
    rcases h.1 hbefore with hcovered | ⟨himplicit, hstrong⟩
    · exact .inl (hcovered.next hinv hl)
    · rcases implicitRef_next hinv hstep himplicit with himplicit | ⟨t, load, f, rfl, hat⟩
      · exact .inr ⟨himplicit, hstrong.next hinv hl⟩
      · -- the base destructor hands what the strong references knew to the weak counter
        have hb := hstrong.before hinv hl hat trivial
        exact .inl (.inl (Reaches.carries (.inr hb) hl (releases_of_updates hat rfl).1))
  · rintro - u g hu hx
    have hold : ∀ f, (r.state n).base.threads[u]? = some (some f) → .deleteControl ∈ f.code →
        ordering.Knows r e u (n + 1) := by
      intro f hf hxf
      exact (h.2 (weak_of_deletes hinv hf hxf).1 u f hf hxf).mono (Nat.le_succ n)
    rcases code_back hinv hstep hu hx with ⟨f, hf, hxf⟩ | ⟨op, hop⟩ |
      ⟨load, f, i, rfl, hat, y, hy, hreread⟩
    · exact hold f hf hxf
    · exact absurd rfl (body_not_destroys op _ hop).2
    · obtain rfl := reread_deletes hreread.symm
      obtain ⟨hi, hone⟩ := exec_deletes hy
      refine Reaches.knows (.inr ?_) hl
      have hweak : (r.state n).base.mem.weakRefs =
          (r.state n).base.tally (.ref .weak) + (r.state n).base.mem.life.implicitRef :=
        hinv.counted.weak
      rcases hi with rfl | rfl
      · -- the last weak reference; the implicit one is gone
        have hheld := one_le_weight hat
        have hframe := le_tally (threadWeight (.ref .weak)) (List.mem_of_getElem? hat.1)
        have htally : f.weight (.ref .weak) ≤ (r.state n).base.tally (.ref .weak) :=
          Nat.le_trans hframe (Nat.le_add_left _ _)
        rcases h.1 (by rw [hone]; decide) with hcovered | ⟨himplicit, -⟩
        · exact hcovered.last hl hat rfl (by omega)
        · omega
      · -- the implicit reference is the last
        have hstrong := strong_of_destroys hinv hat.1 (mem_of_at hat) trivial
        have hbase := le_tally (Instr.weight .base) (mem_of_at hat)
        have hweight : Instr.weight .base .baseDestructor = 1 := rfl
        have hframe := le_tally (threadWeight .base) (List.mem_of_getElem? hat.1)
        have hlife : (r.state n).base.mem.life = .destroying := by
          have hcount : (r.state n).base.tally .base = _ := hinv.counted.base
          by_contra hne
          rw [if_neg hne] at hcount
          simp only [IntrusivePtr.State.tally, threadWeight, Frame.weight] at hcount hframe
          omega
        rcases h.1 (by rw [hone]; decide) with hcovered | ⟨-, hcovered⟩
        · refine hcovered.last hl hat rfl ?_
          rw [hlife] at hweak
          have himplicit : Life.destroying.implicitRef = 1 := rfl
          omega
        · exact hcovered.before hinv hl hat trivial

/-! ## Uses -/

/-- An instruction that reads the target's storage through a handle. -/
def UsesTarget (r : Regs) : Instr → Prop
  | .copyConstruct k _ s => k = .strong ∧ ∃ k', r.get s = .handle k' true
  | .weakFromStrong _ s => ∃ k', r.get s = .handle k' true
  | .reset k x => k = .strong ∧ ∃ k', r.get x = .handle k' true
  | _ => False

/-- An instruction that ends the target: its destructors, and the return of its
storage. -/
def EndsTarget : Instr → Prop
  | .deleteTarget true | .baseDestructor | .freeTarget => True
  | _ => False

/-- An instruction that accesses the control block. -/
def UsesControl : Instr → Prop
  | .incrementLoad _ _ _ | .incrementCas _ _ _ _ | .tryRetainLoad _ _ | .tryRetainCas _ _ _
  | .lockTargetLoad _ | .expiredLoad _ | .releaseFetchSub _ | .targetExchange
  | .baseDestructor => True
  | _ => False

/-- The step at the position executes an instruction of the kind. -/
def Executes (r : Run machine) (P : Regs → Instr → Prop) (n : ℕ) : Prop :=
  ∃ t load f i, r.label n = some (.run t load) ∧ (r.state n).At t f i ∧ P f.regs i

/-- The target is used at the position, by a member function or through a handle. -/
def TargetUsedAt (r : Run machine) (n : ℕ) : Prop :=
  Executes r UsesTarget n ∨ ∃ t x, r.label n = some (.use t x)

/-- The control block is used at the position. -/
def ControlUsedAt (r : Run machine) (n : ℕ) : Prop :=
  Executes r (fun _ => UsesControl) n ∨ ∃ t x, r.label n = some (.use t x)

theorem strong_of_usesTarget {regs : Regs} {i : Instr} (hpre : i.Pre regs)
    (h : UsesTarget regs i) : 0 < regs.weight (.ref .strong) := by
  cases i with
  | copyConstruct k d s =>
      obtain ⟨rfl, k', hs⟩ := h
      obtain ⟨-, -, v, hv⟩ := hpre
      cases hs.symm.trans hv
      exact Regs.ref_of_get hv
  | weakFromStrong d s =>
      obtain ⟨k', hs⟩ := h
      obtain ⟨-, -, v, hv⟩ := hpre
      cases hs.symm.trans hv
      exact Regs.ref_of_get hv
  | reset k x =>
      obtain ⟨rfl, k', hx⟩ := h
      obtain ⟨v, hv⟩ := hpre
      cases hx.symm.trans hv
      exact Regs.ref_of_get hv
  | _ => exact h.elim

/-- Who accesses the control block holds a reference, or destroys the target. -/
theorem holder_of_usesControl {regs : Regs} {i : Instr} (hpre : i.Pre regs) (h : UsesControl i) :
    (∃ k, 0 < i.weight (.ref k) + regs.weight (.ref k)) ∨ i = .targetExchange ∨
      i = .baseDestructor := by
  have hget : ∀ {x k}, regs.get x = .handle k true →
      ∃ k, 0 < i.weight (.ref k) + regs.weight (.ref k) := by
    intro x k hx
    exact ⟨k, Nat.lt_of_lt_of_le (Regs.ref_of_get hx) (Nat.le_add_left _ _)⟩
  cases i with
  | incrementLoad k d s | incrementCas k current d s =>
      obtain ⟨-, -, hs | ⟨-, hs⟩⟩ := hpre
      · exact .inl (hget hs)
      · exact .inl (hget hs)
  | tryRetainLoad d w | tryRetainCas count d w => exact .inl (hget hpre.2.2)
  | expiredLoad w => exact .inl (hget hpre)
  | lockTargetLoad d =>
      exact .inl ⟨.strong, Nat.lt_of_lt_of_le Nat.one_pos (Nat.le_add_right _ _)⟩
  | releaseFetchSub k =>
      refine .inl ⟨k, Nat.lt_of_lt_of_le Nat.one_pos (Nat.le_trans ?_ (Nat.le_add_right _ _))⟩
      simp [Instr.weight]
  | targetExchange => exact .inr (.inl rfl)
  | baseDestructor => exact .inr (.inr rfl)
  | _ => exact h.elim

theorem destroys_of_endsTarget {i : Instr} (h : EndsTarget i) : Destroys i := by
  cases i with
  | deleteTarget set =>
      cases set with
      | true => trivial
      | false => exact h
  | baseDestructor | freeTarget => trivial
  | _ => exact h.elim

/-- While a strong reference is left, so is the implicit weak one. -/
theorem implicit_of_strong {s : IntrusivePtr.State} (hinv : Inv s)
    (hpos : 0 < s.mem.strongRefs) : s.mem.life.implicitRef = 1 ∧ 0 < s.mem.weakRefs := by
  have himplicit : s.mem.life.implicitRef = 1 := by
    rw [hinv.counted.life_of_strong (hinv.counted.strong ▸ hpos)]
    rfl
  exact ⟨himplicit, hinv.counted.weak_pos_of_implicit himplicit⟩

/-! ## A use is covered -/

/-- A thread with a strong reference leaves what its step comes after known to the
strong references. -/
theorem coveredStrong_of_reaches {t : ℕ} {load : Load} {f : Frame} {i : Instr}
    (hinv : Inv (r.state n).base) (hl : r.label n = some (.run t load)) (hat : (r.state n).At t f i)
    (hpos : 0 < f.weight (.ref .strong)) (h : ordering.Reaches r e n) :
    CoveredStrong r e (n + 1) := by
  refine ⟨fun _ => covered_of_reaches hinv hl hat hpos h, ?_⟩
  rintro - u g hu ⟨x, hx, hd⟩
  have hstrong : 0 < (r.state n).base.mem.strongRefs := by
    rw [hinv.counted.strong]
    exact Nat.lt_of_lt_of_le hpos (IntrusivePtr.State.frame_weight_le hat.1 _)
  -- nobody destroys yet, so only the thread itself may begin to
  have hnone : ∀ (v : ℕ) (f : Frame) y, (r.state n).base.threads[v]? = some (some f) → y ∈ f.code →
      ¬ Destroys y := by
    intro v f y hf hy hdy
    have := strong_of_destroys hinv hf hy hdy
    omega
  rcases code_back hinv (r.step_of_label hl) hu hx with ⟨f', hf', hxf⟩ | ⟨op, hop⟩ |
    ⟨load', f', i', hl', hat', y, hy, rfl⟩
  · exact absurd hd (hnone u f' x hf' hxf)
  · exact absurd hd (body_not_destroys op x hop).1
  · cases hl'
    exact h.knows hl

/-- A thread that accesses the control block leaves what its step comes after known to
the weak references, if it is known to them or to the strong ones. -/
theorem coveredWeak_of_reaches {t : ℕ} {load : Load} (hinv : Inv (r.state n).base)
    (hl : r.label n = some (.run t load)) (hpos : 0 < (r.state n).base.mem.weakRefs)
    (h : ordering.Reaches r e n)
    (hleft : Covered r e .weak (n + 1) ∨
      (r.state (n + 1)).base.mem.life.implicitRef = 1 ∧ CoveredStrong r e (n + 1)) :
    CoveredWeak r e (n + 1) := by
  refine ⟨fun _ => hleft, ?_⟩
  rintro - u g hu hx
  rcases code_back hinv (r.step_of_label hl) hu hx with ⟨f, hf, hxf⟩ | ⟨op, hop⟩ |
    ⟨load', f, i, hl', hat, y, hy, -⟩
  · have := (weak_of_deletes hinv hf hxf).1
    omega
  · exact absurd rfl (body_not_destroys op _ hop).2
  · cases hl'
    exact h.knows hl

/-- A use through a handle in the pool, which stays there. -/
theorem covered_of_use {t x : ℕ} (hinv : Inv (r.state n).base)
    (hl : r.label n = some (.use t x)) :
    CoveredStrong r n (n + 1) ∧ CoveredWeak r n (n + 1) ∧
      0 < (r.state n).base.mem.strongRefs := by
  rcases step_spec hinv (r.step_of_label hl) with ⟨t', op, regs, pool, h, -⟩ |
    ⟨t', load, f, h, -⟩ | ⟨t', load, f, i, rest, g, h, -⟩ | ⟨t', x', pool, h, -, hx, hmem, hpool, -⟩
  · cases h
  · cases h
  · cases h
  · cases h
    have hmem' := mem_of_pick hx
    have hpos : 0 < (r.state n).base.mem.strongRefs := by
      rw [hinv.counted.strong]
      exact Nat.lt_of_lt_of_le (by decide) (pool_weight hmem' (.ref .strong))
    obtain ⟨himplicit, hweak⟩ := implicit_of_strong hinv hpos
    have hcovered : Covered r n .strong (n + 1) :=
      .inr (.inl ⟨x, hpool ▸ hmem', Reaches.carries (.inl rfl) hl rfl⟩)
    have hstrong : CoveredStrong r n (n + 1) := by
      refine ⟨fun _ => hcovered, fun hzero => ?_⟩
      rw [hmem] at hzero
      omega
    refine ⟨hstrong, ⟨fun _ => .inr ⟨by rw [hmem]; exact himplicit, hstrong⟩, fun hzero => ?_⟩, hpos⟩
    rw [hmem] at hzero
    omega

theorem coveredStrong_of_targetUsedAt (hinv : Inv (r.state n).base) (h : TargetUsedAt r n) :
    CoveredStrong r n (n + 1) ∧ 0 < (r.state n).base.mem.strongRefs := by
  rcases h with ⟨t, load, f, i, hl, hat, huses⟩ | ⟨t, x, hl⟩
  · obtain ⟨hpre, -⟩ := run_spec hinv (r.step_of_label hl) hat
    have hpos : 0 < f.weight (.ref .strong) :=
      Nat.lt_of_lt_of_le (strong_of_usesTarget hpre huses) (Nat.le_add_right _ _)
    refine ⟨coveredStrong_of_reaches hinv hl hat hpos (.inl rfl), ?_⟩
    rw [hinv.counted.strong]
    exact Nat.lt_of_lt_of_le hpos (IntrusivePtr.State.frame_weight_le hat.1 _)
  · exact ⟨(covered_of_use hinv hl).1, (covered_of_use hinv hl).2.2⟩

/-- The thread that clears the target pointer knows what its step comes after, and nobody
else destroys the target. -/
theorem coveredStrong_of_exchange {t : ℕ} {load : Load} {f : Frame} (hinv : Inv (r.state n).base)
    (hl : r.label n = some (.run t load)) (hat : (r.state n).At t f .targetExchange) :
    CoveredStrong r n (n + 1) := by
  have hzero := strong_of_destroys hinv hat.1 (mem_of_at hat) trivial
  refine ⟨fun hpos => ?_, ?_⟩
  · rw [strong_zero_next hinv (r.step_of_label hl) hzero] at hpos
    cases hpos
  · rintro - u g hu ⟨x, hx, hd⟩
    rcases code_back hinv (r.step_of_label hl) hu hx with ⟨f', hf', hxf⟩ | ⟨op, hop⟩ |
      ⟨load', f', i', hl', -⟩
    · obtain rfl := destroyer_unique hinv hat.1 hf' (mem_of_at hat) trivial hxf hd
      exact Reaches.knows (.inl rfl) hl
    · exact absurd hd (body_not_destroys op x hop).1
    · cases hl'
      exact Reaches.knows (.inl rfl) hl

theorem coveredWeak_of_controlUsedAt (hinv : Inv (r.state n).base) (h : ControlUsedAt r n) :
    CoveredWeak r n (n + 1) ∧ 0 < (r.state n).base.mem.weakRefs := by
  rcases h with ⟨t, load, f, i, hl, hat, huses⟩ | ⟨t, x, hl⟩
  · have hstep : step (r.state n) (.run t load) = some (r.state (n + 1)) := r.step_of_label hl
    obtain ⟨hpre, -⟩ := run_spec hinv hstep hat
    suffices hleft : 0 < (r.state n).base.mem.weakRefs ∧ (Covered r n .weak (n + 1) ∨
        (r.state (n + 1)).base.mem.life.implicitRef = 1 ∧ CoveredStrong r n (n + 1)) from
      ⟨coveredWeak_of_reaches hinv hl hleft.1 (.inl rfl) hleft.2, hleft.1⟩
    -- the implicit reference is there after every other step
    have hstays : (r.state n).base.mem.life.implicitRef = 1 → i ≠ .baseDestructor →
        (r.state (n + 1)).base.mem.life.implicitRef = 1 := by
      intro hone hne
      rcases implicitRef_next hinv hstep hone with h | ⟨t', load', f', hl', hat'⟩
      · exact h
      · cases hl'
        exact absurd (at_unique hat hat').2 hne
    rcases holder_of_usesControl hpre huses with ⟨k, hk⟩ | rfl | rfl
    · have hpos : 0 < f.weight (.ref k) := Nat.lt_of_lt_of_le hk (weight_le_frame (mem_of_at hat) _)
      have htally := Nat.lt_of_lt_of_le hpos (IntrusivePtr.State.frame_weight_le hat.1 (.ref k))
      cases k with
      | strong =>
          have hstrong : 0 < (r.state n).base.mem.strongRefs := by
            rw [hinv.counted.strong]
            exact htally
          obtain ⟨himplicit, hweak⟩ := implicit_of_strong hinv hstrong
          have hne : i ≠ .baseDestructor := by
            rintro rfl
            have := strong_of_destroys hinv hat.1 (mem_of_at hat) trivial
            omega
          exact ⟨hweak, .inr ⟨hstays himplicit hne,
            coveredStrong_of_reaches hinv hl hat hpos (.inl rfl)⟩⟩
      | weak =>
          refine ⟨?_, .inl (covered_of_reaches hinv hl hat hpos (.inl rfl))⟩
          rw [hinv.counted.weak]
          omega
    · -- the target is alive until it is deleted
      have hlife := life_of_exchange hinv hat.1 (mem_of_at hat)
      have himplicit : (r.state n).base.mem.life.implicitRef = 1 := by
        rw [hlife]
        rfl
      exact ⟨hinv.counted.weak_pos_of_implicit himplicit,
        .inr ⟨hstays himplicit Instr.noConfusion, coveredStrong_of_exchange hinv hl hat⟩⟩
    · have hlife := life_of_base hinv hat.1 (mem_of_at hat)
      have himplicit : (r.state n).base.mem.life.implicitRef = 1 := by
        rw [hlife]
        rfl
      exact ⟨hinv.counted.weak_pos_of_implicit himplicit,
        .inl (.inl (Reaches.carries (.inl rfl) hl (releases_of_updates hat rfl).1))⟩
  · obtain ⟨-, hcovered, hpos⟩ := covered_of_use hinv hl
    exact ⟨hcovered, (implicit_of_strong hinv hpos).2⟩

/-! ## Whole runs -/

theorem Covered.stutter {k : Kind} (hs : r.state (n + 1) = r.state n) (h : Covered r e k n) :
    Covered r e k (n + 1) := by
  unfold Covered at h ⊢
  rw [hs]
  rcases h with hcounter | ⟨x, hx, hcarries⟩ | ⟨t, f, ht, hpos, hknows⟩
  · exact .inl (hcounter.mono (Nat.le_succ n))
  · exact .inr (.inl ⟨x, hx, hcarries.mono (Nat.le_succ n)⟩)
  · exact .inr (.inr ⟨t, f, ht, hpos, hknows.mono (Nat.le_succ n)⟩)

theorem CoveredStrong.stutter (hs : r.state (n + 1) = r.state n) (h : CoveredStrong r e n) :
    CoveredStrong r e (n + 1) := by
  unfold CoveredStrong at h ⊢
  rw [hs]
  exact ⟨fun hpos => (h.1 hpos).stutter hs,
    fun hzero t f ht hd => (h.2 hzero t f ht hd).mono (Nat.le_succ n)⟩

theorem CoveredWeak.stutter (hs : r.state (n + 1) = r.state n) (h : CoveredWeak r e n) :
    CoveredWeak r e (n + 1) := by
  unfold CoveredWeak at h ⊢
  rw [hs]
  refine ⟨fun hpos => ?_, fun hzero t f ht hx => (h.2 hzero t f ht hx).mono (Nat.le_succ n)⟩
  rcases h.1 hpos with hcovered | ⟨himplicit, hstrong⟩
  · exact .inl (hcovered.stutter hs)
  · exact .inr ⟨himplicit, hstrong.stutter hs⟩

theorem CoveredStrong.later (hinv : ∀ n, Inv (r.state n).base) {m : ℕ} (h : CoveredStrong r e n)
    (hnm : n ≤ m) : CoveredStrong r e m := by
  induction m, hnm using Nat.le_induction with
  | base => exact h
  | succ m _ ih =>
      cases hl : r.label m with
      | none => exact ih.stutter (r.stutter_of_none hl)
      | some l => exact ih.next (hinv m) hl

theorem CoveredWeak.later (hinv : ∀ n, Inv (r.state n).base) {m : ℕ} (h : CoveredWeak r e n)
    (hnm : n ≤ m) : CoveredWeak r e m := by
  induction m, hnm using Nat.le_induction with
  | base => exact h
  | succ m _ ih =>
      cases hl : r.label m with
      | none => exact ih.stutter (r.stutter_of_none hl)
      | some l => exact ih.next (hinv m) hl

/-- Whatever values the loads return, nothing is used after its deletion or deleted twice,
and the uses and the deletion are ordered: every use of the target happens before each step
of its destruction, every access to the control block before its deletion. -/
theorem deleted_after_uses (r : Run machine)
    (hbound : ∀ n, (r.state n).base.held .strong < sizeMax) :
    (∀ n, (r.state n).base.mem.fault = false ∧ (r.state n).base.mem.targetDeletes ≤ 1 ∧
      (r.state n).base.mem.controlDeletes ≤ 1) ∧
    (∀ j k, TargetUsedAt r j → Executes r (fun _ => EndsTarget) k →
      ordering.HappensBefore r j k) ∧
    ∀ j k, ControlUsedAt r j → Executes r (fun _ i => i = .deleteControl) k →
      ordering.HappensBefore r j k := by
  have hinv : ∀ n, Inv (r.state n).base := fun n => run_inv r n fun i _ => hbound i
  refine ⟨fun n => ⟨(hinv n).counted.fault, ?_, ?_⟩, ?_, ?_⟩
  · rw [(hinv n).counted.targetDeletes]
    split <;> decide
  · rcases (hinv n).counted.controlDeletes with h | ⟨h, -⟩ <;> rw [h]
    exact Nat.zero_le 1
  · rintro j k hj ⟨t, load, f, i, hl, hat, hends⟩
    have hd := destroys_of_endsTarget hends
    obtain ⟨hcovered, hpos⟩ := coveredStrong_of_targetUsedAt (hinv j) hj
    -- no strong reference is left for good, so the use was earlier
    have hjk : j < k := by
      by_contra hkj
      have hzero := strong_of_destroys (hinv k) hat.1 (mem_of_at hat) hd
      have := r.stable (fun s => Inv s.base) (fun s => s.base.mem.strongRefs = 0) hinv
        (fun _ _ _ hi hstep => strong_zero_next hi hstep) (Nat.le_of_not_lt hkj) hzero
      omega
    exact (hcovered.later hinv hjk).before (hinv k) hl hat hd
  · rintro j k hj ⟨t, load, f, i, hl, hat, rfl⟩
    obtain ⟨hcovered, hpos⟩ := coveredWeak_of_controlUsedAt (hinv j) hj
    have hzero := (weak_of_deletes (hinv k) hat.1 (mem_of_at hat)).1
    have hjk : j < k := by
      by_contra hkj
      have := r.stable (fun s => Inv s.base) (fun s => s.base.mem.weakRefs = 0) hinv
        (fun _ _ _ hi hstep => weak_zero_next hi hstep) (Nat.le_of_not_lt hkj) hzero
      omega
    exact ((hcovered.later hinv hjk).2 hzero t f hat.1 (mem_of_at hat)).before hl rfl

/-- Thread 0 makes a copy, thread 1 uses it and gives it up, and thread 0 gives up the
last handle. The loads return what the counter was before the step before. -/
def handOverLabels : List Label :=
  let step t := .run t { choice := 0 }
  [.call 0 (.copyConstruct .strong 1 0), step 0, step 0, step 0, step 0, .use 1 1,
    .call 1 (.destroy .strong 1), step 1, step 1, step 1, step 1,
    .call 0 (.destroy .strong 0), step 0, step 0, step 0, step 0, step 0, step 0, step 0]

def handOverRun : Run machine :=
  Run.ofLabels machine { base := makeIntrusive 2 2 } init_twoThreads handOverLabels

/-- The use at 5 is thread 1's, the destruction starts at 15 in thread 0; the `fetch_sub`
of thread 1 is at 8, the deletion of the control block at 17. -/
theorem deleted_after_uses_handOver :
    ordering.HappensBefore handOverRun 5 15 ∧ ordering.HappensBefore handOverRun 8 17 := by
  have hbound := Run.forall_ofLabels (M := machine) (fun s => s.base.held .strong < sizeMax)
    init_twoThreads handOverLabels (by decide +kernel)
  obtain ⟨-, htarget, hcontrol⟩ := deleted_after_uses handOverRun hbound
  constructor
  · exact htarget 5 15 (.inr ⟨1, 1, by decide +kernel⟩)
      ⟨0, { choice := 0 }, _, .deleteTarget true, by decide +kernel, ⟨rfl, rfl⟩, trivial⟩
  · exact hcontrol 8 17
      (.inl ⟨1, { choice := 0 }, _, .releaseFetchSub .strong, by decide +kernel, ⟨rfl, rfl⟩,
        trivial⟩)
      ⟨0, { choice := 0 }, _, .deleteControl, by decide +kernel, ⟨rfl, rfl⟩, rfl⟩

end Gradyx.IntrusivePtr.Relaxed
