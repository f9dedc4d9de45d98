import Gradyx.Core.IntrusivePtr.Expiry
import Gradyx.Lib.HappensBefore

/-!
# IntrusivePtr under its memory orders

The machine of `Gradyx.Core.IntrusivePtr.Machine` with the memory orders of
`include/gradyx/core/intrusive_ptr.h`. A load, and an attempt that fails, may
return any value that the atomic had before, not only the latest; what reads and
writes in one step (`fetch_sub`, `exchange`, an attempt that succeeds) reads the
latest. These updates are still taken one after the other, each thread's in its
own order. Threads also use the target through a handle between the calls.

* `ordering` says which steps release and acquire: `acq_rel` on the counters and
  the target pointer, where the source has it, and the handle objects, since the
  calls on one handle object come one after the other. The increments of
  `increment_ref_count` are relaxed and order nothing, and the edges from plain
  loads are left out.
* `run_inv`: stale values change nothing about the counters.
-/

namespace Gradyx.IntrusivePtr.Relaxed

open Gradyx.Lib

/-- The state, and the values that the counters had before. -/
structure State where
  base : IntrusivePtr.State
  pastStrong : List ℕ := []
  pastWeak : List ℕ := []
deriving DecidableEq, Repr

namespace State

/-- What a load of a counter returns: the latest value, or an earlier one. -/
def read (s : State) (choice : ℕ) : Kind → ℕ
  | .strong => s.pastStrong.getD choice s.base.mem.strongRefs
  | .weak => s.pastWeak.getD choice s.base.mem.weakRefs

/-- The next state; the values of the counters become past. -/
def next (s : State) (base : IntrusivePtr.State) : State where
  base
  pastStrong := s.base.mem.strongRefs :: s.pastStrong
  pastWeak := s.base.mem.weakRefs :: s.pastWeak

end State

/-- What a load decides: the value, and for the target pointer whether it is the
one before the `exchange`. -/
structure Load where
  spurious : Bool := false
  choice : ℕ
  early : Bool := false
deriving DecidableEq, Repr

inductive Label where
  /-- an idle thread calls a member function -/
  | call (t : ℕ) (op : Op)
  /-- a thread takes its next step, or returns -/
  | run (t : ℕ) (load : Load)
  /-- an idle thread uses the target: `*x`, `x->`, or `x.use_count()`, which reads the
  control block too -/
  | use (t x : ℕ)
deriving DecidableEq, Repr

def Label.thread : Label → ℕ
  | .call t _ | .run t _ | .use t _ => t

/-- The attempt with the value that the load returned. -/
def reread (value : Kind → ℕ) : Instr → Instr
  | .incrementCas k _ d s => .incrementCas k (value k) d s
  | .tryRetainCas _ d w => .tryRetainCas (value .strong) d w
  | i => i

/-- One instruction; loads return `value`. -/
def exec (value : Kind → ℕ) (load : Load) (m : Memory) (r : Regs) :
    Instr → Memory × Regs × List Instr
  | .lockTargetLoad d => (m.touchControl, r.set d (.handle .strong (m.target || load.early)), [])
  | .expiredLoad _ => (m.touchControl, r.reply (value .strong == 0), [])
  | i =>
      let e := IntrusivePtr.exec load.spurious m r i
      (e.1, e.2.1, e.2.2.map (reread value))

def step (s : State) (l : Label) : Option State :=
  if s.base.mem.terminated then none
  else match l with
    | .call t op =>
        match s.base.threads[t]?, checkOut s.base.pool op with
        | some none, some (regs, pool) =>
            some (s.next ((s.base.withPool pool).put t (some ⟨op.self, op.other, regs, op.body⟩)))
        | _, _ => none
    | .run t load =>
        match s.base.threads[t]? with
        | some (some f) =>
            match f.code with
            | [] => some (s.next ((s.base.withPool (checkIn f s.base.pool)).put t none))
            | i :: rest =>
                let e := exec (s.read load.choice) load s.base.mem f.regs i
                some (s.next ((s.base.withMem e.1).put t (some (f.proceed e.2.1 (e.2.2 ++ rest)))))
        | _ => none
    | .use t x =>
        match s.base.threads[t]?, pick x s.base.pool with
        | some none, some (.handle .strong true, _) =>
            some (s.next (s.base.withMem s.base.mem.touchTarget.touchControl))
        | _, _ => none

def machine : Machine State Label where
  Init s := ∃ threads storage, s = { base := makeIntrusive threads storage }
  step := step

/-- All a step can do. -/
theorem step_cases {s s' : State} {l : Label} (h : step s l = some s') :
    s.base.mem.terminated = false ∧ (
    (∃ t op regs pool, l = .call t op ∧ s.base.threads[t]? = some none ∧
      checkOut s.base.pool op = some (regs, pool) ∧
      s' = s.next ((s.base.withPool pool).put t (some ⟨op.self, op.other, regs, op.body⟩))) ∨
    (∃ t load f, l = .run t load ∧ s.base.threads[t]? = some (some f) ∧ f.code = [] ∧
      s' = s.next ((s.base.withPool (checkIn f s.base.pool)).put t none)) ∨
    (∃ t load f i rest, l = .run t load ∧ s.base.threads[t]? = some (some f) ∧
      f.code = i :: rest ∧
      s' = s.next ((s.base.withMem (exec (s.read load.choice) load s.base.mem f.regs i).1).put t
        (some (f.proceed (exec (s.read load.choice) load s.base.mem f.regs i).2.1
          ((exec (s.read load.choice) load s.base.mem f.regs i).2.2 ++ rest))))) ∨
    ∃ t x pool, l = .use t x ∧ s.base.threads[t]? = some none ∧
      pick x s.base.pool = some (.handle .strong true, pool) ∧
      s' = s.next (s.base.withMem s.base.mem.touchTarget.touchControl)) := by
  unfold step at h
  split at h
  · cases h
  rename_i hterm
  refine ⟨by simpa using hterm, ?_⟩
  cases l with
  | call t op =>
      simp only at h
      split at h
      · next regs pool ht hout =>
          exact .inl ⟨t, op, regs, pool, rfl, ht, hout, (Option.some.inj h).symm⟩
      · cases h
  | run t load =>
      simp only at h
      split at h
      · next f ht =>
          split at h
          · next hcode => exact .inr (.inl ⟨t, load, f, rfl, ht, hcode, (Option.some.inj h).symm⟩)
          · next i rest hcode =>
              exact .inr (.inr (.inl ⟨t, load, f, i, rest, rfl, ht, hcode,
                (Option.some.inj h).symm⟩))
      · cases h
  | use t x =>
      simp only at h
      split at h
      · next pool ht hx =>
          exact .inr (.inr (.inr ⟨t, x, pool, rfl, ht, hx, (Option.some.inj h).symm⟩))
      · cases h

/-! ## Memory orders -/

inductive Order where
  | relaxed
  | acqRel
deriving DecidableEq, Repr

/-- What steps hand over: a counter, the target pointer, or a handle object, which
the threads pass on by means of their own. -/
inductive Resource where
  | counter (k : Kind)
  | target
  | handle (x : ℕ)
deriving DecidableEq, Repr

/-- The atomic that an instruction reads and writes in one step, and the order that
the source gives it. -/
def updates (spurious : Bool) (m : Memory) : Instr → Option (Resource × Order)
  | .incrementCas k current _ _ =>
      if current ≠ sizeMax ∧ m.refs k = current ∧ spurious = false then
        some (.counter k, .relaxed)
      else none
  | .tryRetainCas count _ _ =>
      if count ≠ 0 ∧ m.strongRefs = count ∧ spurious = false then some (.counter .strong, .acqRel)
      else none
  | .releaseFetchSub k => some (.counter k, .acqRel)
  | .baseDestructor => some (.counter .weak, .acqRel)
  | .targetExchange => some (.target, .acqRel)
  | _ => none

/-- Thread `t` is about to execute the instruction. -/
def State.At (s : State) (t : ℕ) (f : Frame) (i : Instr) : Prop :=
  s.base.threads[t]? = some (some f) ∧ f.code.head? = some i

/-- The calls on one handle object come one after the other, and every update that
acquires comes after the updates of the same atomic that release, whatever updates
stand between them. -/
def ordering : Ordering State Label Resource where
  thread := Label.thread
  acquires s l x :=
    match l with
    | .call _ op => x = .handle op.self ∨ ∃ o, op.other = some o ∧ x = .handle o
    | .run t load => ∃ f i, s.At t f i ∧ updates load.spurious s.base.mem i = some (x, .acqRel)
    | .use _ y => x = .handle y
  releases s l x :=
    match l with
    | .call _ _ => False
    | .run t load =>
        (∃ f i, s.At t f i ∧ updates load.spurious s.base.mem i = some (x, .acqRel)) ∨
        ∃ f, s.base.threads[t]? = some (some f) ∧ f.code = [] ∧
          (x = .handle f.selfName ∨ ∃ o, f.otherName = some o ∧ x = .handle o)
    | .use _ y => x = .handle y

/-! ## Stale values -/

theorem reread_weight (value : Kind → ℕ) (τ : Token) (i : Instr) :
    (reread value i).weight τ = i.weight τ := by
  cases i with
  | incrementCas k current d s => cases τ <;> rfl
  | tryRetainCas count d w => cases τ <;> rfl
  | _ => rfl

theorem tally_reread (value : Kind → ℕ) (τ : Token) (code : List Instr) :
    tally (Instr.weight τ) (code.map (reread value)) = tally (Instr.weight τ) code := by
  induction code with
  | nil => rfl
  | cons i code ih => rw [List.map_cons, tally_cons, tally_cons, reread_weight, ih]

theorem reread_pre (value : Kind → ℕ) (i : Instr) (r : Regs) : (reread value i).Pre r ↔ i.Pre r := by
  cases i <;> exact Iff.rfl

theorem reread_post (value : Kind → ℕ) (i : Instr) (r r' : Regs) :
    (reread value i).Post r r' ↔ i.Post r r' := by
  cases i <;> exact Iff.rfl

/-- No precondition looks at the value that a load returned. -/
theorem ready_reread (value : Kind → ℕ) {solo : Bool} {code rest : List Instr} {r : Regs}
    (h : Ready solo (code ++ rest) r) : Ready solo (code.map (reread value) ++ rest) r := by
  induction code generalizing r with
  | nil => exact h
  | cons i code ih =>
      obtain ⟨hpre, hpost⟩ := h
      refine ⟨(reread_pre value i r).mpr hpre, fun r' hr' => ih (hpost r' ?_)⟩
      exact (reread_post value i r r').mp hr'

theorem pre_reply (i : Instr) (r : Regs) (answer : Bool) : i.Pre (r.reply answer) ↔ i.Pre r := by
  cases i <;> simp only [Instr.Pre, Regs.get_reply]

theorem post_reply {i : Instr} {r r' : Regs} {answer : Bool} (h : i.Post (r.reply answer) r') :
    ∃ r'' answer', i.Post r r'' ∧ r' = r''.reply answer' := by
  cases i with
  | weakFromStrong d s =>
      obtain ⟨v, hs, rfl⟩ := h
      rw [Regs.get_reply] at hs
      exact ⟨_, answer, ⟨v, hs, rfl⟩, Regs.reply_set ..⟩
  | lock | tryRetainLoad | tryRetainCas | lockTargetLoad =>
      obtain ⟨b, rfl⟩ := h
      exact ⟨_, answer, ⟨b, rfl⟩, Regs.reply_set ..⟩
  | expired | expiredLoad =>
      obtain ⟨answer', rfl⟩ := h
      exact ⟨_, answer', ⟨answer', rfl⟩, rfl⟩
  | _ =>
      simp only [Instr.Post, Regs.get_reply, Regs.reply_set] at h
      exact ⟨_, answer, rfl, h⟩

/-- No precondition looks at the answer of `expired`. -/
theorem ready_reply {solo : Bool} {code : List Instr} {r : Regs} {answer : Bool}
    (h : Ready solo code r) : Ready solo code (r.reply answer) := by
  induction code generalizing r answer with
  | nil => exact h
  | cons i code ih =>
      obtain ⟨hpre, hpost⟩ := h
      refine ⟨(pre_reply i r answer).mpr hpre, fun r' hr' => ?_⟩
      obtain ⟨r'', answer', hr'', rfl⟩ := post_reply hr'
      exact ih (hpost r'' hr'')

/-- `lock` reads the target pointer while it holds a reference, so the pointer is
still set, and there is only one value to read. Of the registers only the answer of
`expired` can differ. -/
theorem exec_eq (value : Kind → ℕ) (load : Load) {m : Memory} {T : Token → ℕ} {r : Regs} {i : Instr}
    (h : Counted m T) (hle : ∀ τ, i.weight τ + r.weight τ ≤ T τ) :
    ∃ answer, exec value load m r i =
      ((IntrusivePtr.exec load.spurious m r i).1,
        (IntrusivePtr.exec load.spurious m r i).2.1.reply answer,
        (IntrusivePtr.exec load.spurious m r i).2.2.map (reread value)) := by
  cases i with
  | lockTargetLoad d =>
      have htarget := h.target_of_lockTargetLoad (hle (.ref .strong))
      refine ⟨r.answer, ?_⟩
      simp only [exec, IntrusivePtr.exec, htarget, Bool.true_or, List.map_nil]
      cases d <;> rfl
  | expiredLoad w => exact ⟨value .strong == 0, rfl⟩
  | _ => exact ⟨_, rfl⟩

/-! ## The invariant -/

variable {s s' : State} {l : Label}

theorem next_base (s : State) (base : IntrusivePtr.State) : (s.next base).base = base := rfl

theorem mem_init {s : State} (h : machine.Init s) : Inv s.base := by
  obtain ⟨threads, storage, rfl⟩ := h
  exact init_inv _ ⟨threads, storage, rfl⟩

/-- The references of one kind of a handle in the pool. -/
theorem pool_weight {base : IntrusivePtr.State} {x : ℕ} {v : Slot} (h : (x, v) ∈ base.pool)
    (τ : Token) : v.weight τ ≤ base.tally τ := by
  have := le_tally (fun e : ℕ × Slot => e.2.weight τ) h
  rw [State.tally]
  exact Nat.le_trans this (Nat.le_add_right _ _)

/-- Under a strong reference the target and the control block are there. -/
theorem touch_of_strong {base : IntrusivePtr.State} (hinv : Inv base)
    (hpos : 0 < base.tally (.ref .strong)) : base.mem.touchTarget.touchControl = base.mem := by
  rw [hinv.counted.touchTarget_of_strong hpos, hinv.counted.touchControl_of_strong hpos]

/-- Every step keeps the counting equations, stale values or not. -/
theorem step_inv (hbound : s.base.held .strong < sizeMax) (hstep : step s l = some s')
    (hinv : Inv s.base) : Inv s'.base := by
  obtain ⟨hterm, hcases⟩ := step_cases hstep
  rcases hcases with ⟨t, op, regs, pool, -, ht, hout, rfl⟩ | ⟨t, load, f, -, ht, hcode, rfl⟩ |
    ⟨t, load, f, i, rest, -, ht, hcode, rfl⟩ | ⟨t, x, pool, -, ht, hx, rfl⟩
  · -- a call, as in the machine with the latest values
    refine IntrusivePtr.step_inv s.base (.call t op) _ (hinv.not_wraps hbound _) ?_ hinv
    simp only [IntrusivePtr.machine, IntrusivePtr.step, hterm, ht, hout, Bool.false_eq_true,
      if_false, next_base]
  · -- a return
    refine IntrusivePtr.step_inv s.base (.run t false) _ (hinv.not_wraps hbound _) ?_ hinv
    simp only [IntrusivePtr.machine, IntrusivePtr.step, hterm, ht, hcode, Bool.false_eq_true,
      if_false, next_base]
  · -- an instruction: the values it leaves in the code are not counted
    have hready := hinv.ready f (List.mem_of_getElem? ht)
    rw [hcode] at hready
    have hle := State.weight_le ht hcode
    have hattempt : ¬ i.Wraps load.spurious s.base.mem := fun hi =>
      hinv.not_wraps hbound (.run t load.spurious) ⟨t, load.spurious, f, i, rest, rfl, ht, hcode, hi⟩
    obtain ⟨answer, heq⟩ := exec_eq (s.read load.choice) load (r := f.regs) hinv.counted hle
    rw [heq]
    constructor
    · refine exec_counted (b := load.spurious) hinv.counted hready.1 hle hattempt fun τ => ?_
      have h₂ := State.tally_put τ
        (s := s.base.withMem (IntrusivePtr.exec load.spurious s.base.mem f.regs i).1)
        (some (f.proceed ((IntrusivePtr.exec load.spurious s.base.mem f.regs i).2.1.reply answer)
          ((IntrusivePtr.exec load.spurious s.base.mem f.regs i).2.2.map
            (reread (s.read load.choice)) ++ rest))) ht
      simp only [threadWeight, Frame.weight, Frame.proceed, hcode, tally_cons, tally_append,
        tally_reread, Regs.weight_reply, State.tally, IntrusivePtr.State.withMem, next_base] at h₂ ⊢
      omega
    · intro g hg
      rcases State.mem_put hg with hg | hg
      · cases hg
        exact ready_reply (ready_reread _ (exec_ready hready))
      · exact hinv.ready g hg
  · -- a use of the target, which a handle keeps alive
    have hpos : 0 < s.base.tally (.ref .strong) := by
      have := pool_weight (mem_of_pick hx) (.ref .strong)
      exact Nat.lt_of_lt_of_le (by decide) this
    rw [next_base, touch_of_strong hinv hpos]
    exact hinv

/-- Under the bound on the strong references, the counters count, whatever values
the loads return. -/
theorem run_inv (r : Run machine) (k : ℕ)
    (hbound : ∀ i < k, (r.state i).base.held .strong < sizeMax) : Inv (r.state k).base :=
  r.invariant_under (fun s _ => s.base.held .strong < sizeMax) (fun s => Inv s.base)
    (fun _ => mem_init) (fun _ _ _ hs hstep hinv => step_inv hs hstep hinv) k
    fun i _ hi _ => hbound i hi

theorem init_twoThreads : machine.Init { base := makeIntrusive 2 2 } := ⟨2, 2, rfl⟩

end Gradyx.IntrusivePtr.Relaxed
