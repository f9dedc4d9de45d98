import Gradyx.Core.IntrusivePtr.Counted

/-!
# IntrusivePtr — safety of every interleaving

The invariant of the machine is `Counted` for the tokens of the whole state,
and `Ready` for every function in progress. It is preserved by every step but
the one attempt that wraps the strong counter (`State.Wraps`), which needs
`SIZE_MAX` strong references, so it holds in every state a run reaches with
fewer.
-/

namespace Gradyx.IntrusivePtr

open Gradyx.Lib

/-- The invariant of the machine. -/
structure Inv (s : State) : Prop where
  counted : Counted s.mem fun τ => s.tally τ
  ready : ∀ f, some f ∈ s.threads → Ready f.otherName.isNone f.code f.regs

namespace State

@[simp] theorem put_mem (s : State) (t : ℕ) (f : Option Frame) : (s.put t f).mem = s.mem := rfl

@[simp] theorem put_pool (s : State) (t : ℕ) (f : Option Frame) : (s.put t f).pool = s.pool := rfl

@[simp] theorem withPool_mem (s : State) (p : List (ℕ × Slot)) : (s.withPool p).mem = s.mem := rfl

@[simp] theorem withMem_mem (s : State) (m : Memory) : (s.withMem m).mem = m := rfl

@[simp] theorem withMem_pool (s : State) (m : Memory) : (s.withMem m).pool = s.pool := rfl

@[simp] theorem withPool_threads (s : State) (p : List (ℕ × Slot)) :
    (s.withPool p).threads = s.threads := rfl

@[simp] theorem withMem_threads (s : State) (m : Memory) : (s.withMem m).threads = s.threads := rfl

/-- A frame after a `put` is the new frame or an old one. -/
theorem mem_put {s : State} {t : ℕ} {g : Option Frame} {f : Frame}
    (h : some f ∈ (s.put t g).threads) : g = some f ∨ some f ∈ s.threads := by
  rcases List.mem_or_eq_of_mem_set h with h | h
  · exact Or.inr h
  · exact Or.inl h.symm

theorem getElem?_put {s : State} {t : ℕ} {g : Option Frame} (f : Option Frame)
    (h : s.threads[t]? = some g) : (s.put t f).threads[t]? = some f := by
  obtain ⟨hlt, -⟩ := List.getElem?_eq_some_iff.mp h
  simp [State.put, hlt]

/-- Replacing the frame of a thread moves its tokens. -/
theorem tally_put (τ : Token) {s : State} {t : ℕ} {g : Option Frame} (f : Option Frame)
    (h : s.threads[t]? = some g) :
    (s.put t f).tally τ + threadWeight τ g = s.tally τ + threadWeight τ f := by
  have := tally_set (threadWeight τ) f h
  simp only [State.tally, State.put]
  omega

/-- What a function in progress holds is part of the whole. -/
theorem frame_weight_le {s : State} {t : ℕ} {f : Frame} (ht : s.threads[t]? = some (some f))
    (τ : Token) : f.weight τ ≤ s.tally τ := by
  have := le_tally (threadWeight τ) (List.mem_of_getElem? ht)
  exact Nat.le_trans this (Nat.le_add_left _ _)

/-- What a thread's next step and its objects hold is part of the whole. -/
theorem weight_le {s : State} {t : ℕ} {f : Frame} {i : Instr} {rest : List Instr}
    (ht : s.threads[t]? = some (some f)) (hcode : f.code = i :: rest) (τ : Token) :
    i.weight τ + f.regs.weight τ ≤ s.tally τ := by
  have := le_tally (threadWeight τ) (List.mem_of_getElem? ht)
  simp only [threadWeight, Frame.weight, hcode, tally_cons, State.tally] at this ⊢
  omega

end State

/-- What holds of every frame that a call makes, and is kept by every instruction, is kept
by every step. -/
theorem step_frames {P : Frame → Prop}
    (hcall : ∀ {pool pool' op regs}, checkOut pool op = some (regs, pool') →
      P ⟨op.self, op.other, regs, op.body⟩)
    (hexec : ∀ {b m f i rest}, P f → f.code = i :: rest →
      P (f.proceed (exec b m f.regs i).2.1 ((exec b m f.regs i).2.2 ++ rest)))
    {s s' : State} {l : Label} (hstep : step s l = some s') (h : ∀ f, some f ∈ s.threads → P f) :
    ∀ f, some f ∈ s'.threads → P f := by
  intro g hg
  obtain ⟨-, hcases⟩ := step_cases hstep
  rcases hcases with ⟨t, op, regs, pool, -, ht, hout, rfl⟩ | ⟨t, b, f, -, ht, hcode, rfl⟩ |
    ⟨t, b, f, i, rest, -, ht, hcode, rfl⟩ <;> rcases State.mem_put hg with hg | hg
  · cases hg
    exact hcall hout
  · exact h g hg
  · cases hg
  · exact h g hg
  · cases hg
    exact hexec (h f (List.mem_of_getElem? ht)) hcode
  · exact h g hg

/-- A call moves the tokens of its objects from the pool to its frame. -/
theorem tally_checkOut (τ : Token) {pool pool' : List (ℕ × Slot)} {op : Op} {r : Regs}
    (h : checkOut pool op = some (r, pool')) :
    tally (fun e => e.2.weight τ) pool = r.weight τ + tally (fun e => e.2.weight τ) pool' := by
  obtain ⟨v, pool₁, hself, -, h⟩ := checkOut_cases h
  have h₁ := tally_pick (Slot.weight τ) hself
  rcases h with ⟨-, rfl, rfl⟩ | ⟨o, w, -, hother, -, rfl⟩
  · simp only [Regs.weight, Slot.weight_raw]
    omega
  · have h₂ := tally_pick (Slot.weight τ) hother
    simp only [Regs.weight, Slot.weight_raw]
    omega

/-- A return moves the tokens of the frame's objects back. -/
theorem tally_checkIn (τ : Token) {f : Frame} (pool : List (ℕ × Slot))
    (hready : Ready f.otherName.isNone [] f.regs) :
    tally (fun e => e.2.weight τ) (checkIn f pool) =
      f.regs.weight τ + tally (fun e => e.2.weight τ) pool := by
  obtain ⟨hcopy, hother⟩ := hready
  unfold checkIn
  cases hname : f.otherName with
  | none =>
      have hraw : f.regs.other = .raw := hother (by rw [hname]; rfl)
      simp only [tally_cons, Regs.weight, hcopy, hraw, Slot.weight_raw]
      omega
  | some o =>
      simp only [tally_cons, Regs.weight, hcopy, Slot.weight_raw]
      omega

/-- A body holds no token but those of its objects: references and obligations
arise only when its steps run. -/
theorem weight_body (τ : Token) (op : Op) : tally (Instr.weight τ) op.body = 0 := by
  -- no body has a step that only another step can leave behind
  refine tally_eq_zero _ fun i hi => ?_
  cases op <;> simp only [Op.body] at hi <;> (try split at hi) <;>
    simp only [List.mem_cons, List.not_mem_nil, or_false] at hi <;>
    rcases hi with rfl | rfl | rfl | rfl <;> cases τ <;> rfl

theorem init_inv (s : State) (h : machine.Init s) : Inv s := by
  obtain ⟨threads, storage, rfl⟩ := h
  -- raw storage and idle threads hold nothing
  have hraw (τ : Token) : tally (fun e : ℕ × Slot => e.2.weight τ)
      ((List.range storage).map fun i => (i + 1, .raw)) = 0 := by
    refine tally_eq_zero _ fun e he => ?_
    obtain ⟨i, -, rfl⟩ := List.mem_map.mp he
    exact Slot.weight_raw τ
  have hidle (τ : Token) : tally (threadWeight τ) (List.replicate threads none) = 0 := by
    refine tally_eq_zero _ fun f hf => ?_
    rw [List.eq_of_mem_replicate hf]
    rfl
  have htally (τ : Token) : (makeIntrusive threads storage).tally τ =
      Slot.weight τ (.handle .strong true) := by
    simp only [State.tally, makeIntrusive, tally_cons, hraw, hidle]
    omega
  refine ⟨Counted.congr (T := fun τ => Slot.weight τ (.handle .strong true)) ?_ htally,
    fun f hf => ?_⟩
  · constructor <;> simp [makeIntrusive, Slot.weight, Life.implicitRef, sizeMax]
  · exact absurd (List.eq_of_mem_replicate hf) (Option.some_ne_none f)

/-- The step is the attempt that wraps. -/
def State.Wraps (s : State) (l : Label) : Prop :=
  ∃ t b f i rest, l = .run t b ∧ s.threads[t]? = some (some f) ∧ f.code = i :: rest ∧
    i.Wraps b s.mem

/-- It needs `SIZE_MAX` strong references. -/
theorem Inv.not_wraps {s : State} (h : Inv s) (hbound : s.held .strong < sizeMax) (l : Label) :
    ¬ s.Wraps l := by
  rintro ⟨t, b, f, i, rest, -, -, -, hi⟩
  have hstrong : s.mem.strongRefs = s.held .strong := h.counted.strong
  cases i with
  | tryRetainCas count d w =>
      have hmax : s.mem.strongRefs = sizeMax := hi.2.1
      omega
  | _ => exact hi

/-- The step lemma: every step but the attempt that wraps keeps the invariant. -/
theorem step_inv (s : State) (l : Label) (s' : State) (hwraps : ¬ s.Wraps l)
    (hstep : machine.step s l = some s') (hinv : Inv s) : Inv s' := by
  have hframes : ∀ f, some f ∈ s'.threads → Ready f.otherName.isNone f.code f.regs :=
    step_frames ready_of_checkOut (fun hready hcode => exec_ready (hcode ▸ hready)) hstep hinv.ready
  refine ⟨?_, hframes⟩
  obtain ⟨-, h⟩ := step_cases hstep
  rcases h with ⟨t, op, regs, pool, -, ht, hout, rfl⟩ | ⟨t, b, f, -, ht, hcode, rfl⟩ |
    ⟨t, b, f, i, rest, hl, ht, hcode, rfl⟩
  · -- a call: tokens move from the pool to the frame
    refine hinv.counted.congr fun τ => ?_
    have h₁ := tally_checkOut τ hout
    have h₂ := State.tally_put τ (s := s.withPool pool)
      (some ⟨op.self, op.other, regs, op.body⟩) ht
    have h₃ := weight_body τ op
    simp only [threadWeight, Frame.weight, State.tally, State.withPool] at h₂ ⊢
    omega
  · -- a return: tokens move back
    have hready := hinv.ready f (List.mem_of_getElem? ht)
    rw [hcode] at hready
    refine hinv.counted.congr fun τ => ?_
    have h₁ := tally_checkIn τ s.pool hready
    have h₂ := State.tally_put τ (s := s.withPool (checkIn f s.pool)) none ht
    simp only [threadWeight, Frame.weight, hcode, tally_nil, State.tally, State.withPool] at h₂ ⊢
    omega
  · -- an instruction: `exec_counted` on the tokens of the frame
    have hready := hinv.ready f (List.mem_of_getElem? ht)
    rw [hcode] at hready
    have hattempt : ¬ i.Wraps b s.mem := fun hi => hwraps ⟨t, b, f, i, rest, hl, ht, hcode, hi⟩
    refine exec_counted hinv.counted hready.1 (State.weight_le ht hcode) hattempt fun τ => ?_
    have h₂ := State.tally_put τ (s := s.withMem (exec b s.mem f.regs i).1)
      (some (f.proceed (exec b s.mem f.regs i).2.1 ((exec b s.mem f.regs i).2.2 ++ rest))) ht
    simp only [threadWeight, Frame.weight, Frame.proceed, hcode, tally_cons, tally_append,
      State.tally, State.withMem] at h₂ ⊢
    omega

/-- The run lemma. -/
theorem run_inv_of_not_wraps (r : Run machine) (k : ℕ)
    (hwraps : ∀ i l, i < k → r.label i = some l → ¬ (r.state i).Wraps l) : Inv (r.state k) :=
  r.invariant_under (fun s l => ¬ s.Wraps l) Inv init_inv step_inv k hwraps

/-- The same under the bound. -/
theorem run_inv (r : Run machine) (k : ℕ)
    (hbound : ∀ i < k, (r.state i).held .strong < sizeMax) : Inv (r.state k) :=
  r.invariant_under (fun s _ => s.held .strong < sizeMax) Inv init_inv
    (fun s l s' hs hstep hinv => step_inv s l s' (hinv.not_wraps hs l) hstep hinv) k
    fun i _ hi _ => hbound i hi

namespace Counted

variable {m : Memory} {T : Token → ℕ}

theorem targetDeletes_le (h : Counted m T) : m.targetDeletes ≤ 1 := by
  rw [h.targetDeletes]
  split <;> omega

/-- Once the target was deleted no strong reference is left. -/
theorem strong_of_targetDeletes (h : Counted m T) (hd : m.targetDeletes = 1) :
    T (.ref .strong) = 0 := by
  have hlife := h.targetDeletes
  have halive := h.alive
  have htarget := h.target
  rw [h.strong] at halive
  grind

theorem controlDeletes_le (h : Counted m T) : m.controlDeletes ≤ 1 := by
  rcases h.controlDeletes with hc | ⟨hc, -⟩ <;> omega

/-- Once the control block was deleted the implicit reference and every other
are gone, so the target was deleted before. -/
theorem gone_of_controlDeletes (h : Counted m T) (hd : m.controlDeletes = 1) :
    m.targetDeletes = 1 ∧ m.life.implicitRef = 0 ∧ T (.ref .strong) = 0 ∧ T (.ref .weak) = 0 := by
  have hweak : m.weakRefs = 0 := by
    rcases h.controlDeletes with hc | ⟨-, hc⟩
    · omega
    · exact hc
  have himplicit : m.life.implicitRef = 0 ∧ T (.ref .weak) = 0 := by
    have := h.weak
    omega
  -- an alive target still has its implicit reference
  have hlife : m.life ≠ .alive := by
    intro hl
    rw [hl] at himplicit
    exact absurd himplicit.1 (by decide)
  have htarget : m.targetDeletes = 1 := by
    rw [h.targetDeletes, if_neg hlife]
  exact ⟨htarget, himplicit.1, h.strong_of_targetDeletes htarget, himplicit.2⟩

/-- When no token is left, everything was given back. -/
theorem all_gone (h : Counted m T) (hT : ∀ τ, T τ = 0) :
    m.targetDeletes = 1 ∧ m.life = .freed ∧ m.controlDeletes = 1 := by
  -- every other stage would leave an obligation pending
  have hlife : m.life = .freed := by
    have h₁ := h.exchange
    have h₂ := h.delete
    have h₃ := h.base
    have h₄ := h.free
    have h₅ := h.strong
    simp only [hT] at h₁ h₂ h₃ h₄ h₅
    cases hl : m.life <;> grind
  have hweak : m.weakRefs = 0 := by
    rw [h.weak, hT, hlife]
    rfl
  refine ⟨?_, hlife, ?_⟩
  · rw [h.targetDeletes, hlife]
    rfl
  · have h₁ := h.control
    rw [hT] at h₁
    rcases h.controlDeletes with hc | ⟨hc, -⟩
    · simp [hweak, hc] at h₁
    · exact hc

end Counted

/-- When no function is in progress, only handles hold tokens, and those are
references. -/
theorem tally_of_idle {s : State} (hidle : ∀ f ∈ s.threads, f = none)
    (hs : s.held .strong = 0) (hw : s.held .weak = 0) (τ : Token) : s.tally τ = 0 := by
  have hthreads : tally (threadWeight τ) s.threads = 0 := by
    refine tally_eq_zero _ fun f hf => ?_
    rw [hidle f hf]
    rfl
  cases τ with
  | ref k =>
      cases k with
      | strong => exact hs
      | weak => exact hw
  | _ =>
      rw [State.tally, hthreads, Nat.add_zero]
      exact tally_eq_zero _ fun _ _ => rfl

/-- In every state reached by any interleaving, under the bound on the
outstanding strong references:

* both counters count the references held by handles and by operations in
  progress, the weak one also the base destructor's implicit reference;
* the target is deleted at most once, after the last strong reference is gone;
* the control block is deleted at most once, after the target's base
  destructor released the implicit reference and no reference of either kind
  is left;
* no step touched the control block or the target after its end;
* when nothing is in progress and no reference is left, both are deleted. -/
theorem counts_and_lifetimes (r : Run machine) (k : ℕ)
    (hbound : ∀ i < k, (r.state i).held .strong < sizeMax) :
    let s := r.state k
    s.mem.strongRefs = s.held .strong ∧
    s.mem.weakRefs = s.held .weak + s.mem.life.implicitRef ∧
    s.mem.targetDeletes ≤ 1 ∧
    (s.mem.targetDeletes = 1 → s.held .strong = 0) ∧
    s.mem.controlDeletes ≤ 1 ∧
    (s.mem.controlDeletes = 1 → s.mem.targetDeletes = 1 ∧ s.mem.life.implicitRef = 0 ∧
      s.held .strong = 0 ∧ s.held .weak = 0) ∧
    s.mem.fault = false ∧
    ((∀ f ∈ s.threads, f = none) → s.held .strong = 0 → s.held .weak = 0 →
      s.mem.targetDeletes = 1 ∧ s.mem.life = .freed ∧ s.mem.controlDeletes = 1) := by
  intro s
  have hinv : Counted s.mem fun τ => s.tally τ := (run_inv r k hbound).counted
  refine ⟨hinv.strong, hinv.weak, hinv.targetDeletes_le, hinv.strong_of_targetDeletes,
    hinv.controlDeletes_le, hinv.gone_of_controlDeletes, hinv.fault, ?_⟩
  intro hidle hs hw
  exact hinv.all_gone (tally_of_idle hidle hs hw)

/-- Two threads: one drops the last strong handle while the other, through a
weak handle, calls `lock` (with one spurious CAS failure) and then drops both
handles it has. -/
def raceLabels : List Label :=
  [.call 0 (.weakFromStrong 1 0), .run 0 false, .run 0 false, .run 0 false, .run 0 false,
    .call 1 (.lock 1 2), .run 1 false, .run 1 false,
    .call 0 (.destroy .strong 0), .run 0 false,
    .run 1 true, .run 1 false, .run 0 false, .run 1 false, .run 0 false, .run 0 false,
    .run 1 false,
    .call 0 (.destroy .weak 1), .call 1 (.destroy .strong 2),
    .run 0 false, .run 1 false, .run 0 false, .run 1 false, .run 1 false, .run 1 false,
    .run 1 false, .run 1 false, .run 1 false, .run 1 false, .run 1 false,
    .run 0 false, .run 0 false]

theorem init_twoThreads : machine.Init (makeIntrusive 2 2) := ⟨2, 2, rfl⟩

def raceRun : Run machine :=
  Run.ofLabels machine (makeIntrusive 2 2) init_twoThreads raceLabels

theorem counts_and_lifetimes_race :
    (raceRun.state 32).mem.controlDeletes = 1 ∧ (raceRun.state 32).mem.targetDeletes = 1 ∧
      (raceRun.state 32).held .strong = 0 ∧ (raceRun.state 32).held .weak = 0 := by
  have hdel : (raceRun.state 32).mem.controlDeletes = 1 := by decide +kernel
  have h := (counts_and_lifetimes raceRun 32 (by decide +kernel)).2.2.2.2.2.1 hdel
  exact ⟨hdel, h.1, h.2.2⟩

end Gradyx.IntrusivePtr
