import Gradyx.Core.IntrusivePtr.Safety

/-!
# IntrusivePtr — the largest count

Two loops take references. `increment_ref_count` tests for the largest value and
terminates the process; `try_retain_strong_ref`, the loop of `lock`, does not.

* `Instr.takes` are the operations that take a reference, `Instr.taking` their steps.
* `exec_taking`: what one step does to the counters and to the operation.
* `NeverWraps`: an operation takes a reference and adds one to the counter, or does
  neither; no step makes a counter `0`.
* `neverWraps_iff`: a run has it as long as no `lock` swaps at the largest count.
-/

namespace Gradyx.IntrusivePtr

open Gradyx.Lib

namespace Memory

@[simp] theorem touchControl_refs (m : Memory) (k : Kind) : m.touchControl.refs k = m.refs k := by
  cases k <;> rfl

@[simp] theorem touchTarget_refs (m : Memory) (k : Kind) : m.touchTarget.refs k = m.refs k := by
  cases k <;> rfl

/-- A strong copy touches the target, a weak one does not. -/
@[simp] theorem touchTarget_ite_refs (m : Memory) (c : Prop) [Decidable c] (k : Kind) :
    (if c then m.touchTarget else m).refs k = m.refs k := by
  split
  · exact touchTarget_refs m k
  · rfl

theorem refs_setRefs (m : Memory) (k k' : Kind) (n : ℕ) :
    (m.setRefs k n).refs k' = if k' = k then n else m.refs k' := by
  cases k <;> cases k' <;> rfl

/-- An increment below the largest value adds one to its counter, and nothing to the other
one. -/
theorem refs_increment {m : Memory} {k : Kind} (hmax : m.refs k ≠ sizeMax) (k' : Kind) :
    (m.touchControl.setRefs k (sizeAdd (m.refs k))).refs k' =
      m.refs k' + if k' = k then 1 else 0 := by
  rw [refs_setRefs, touchControl_refs, sizeAdd, if_neg hmax]
  by_cases hk : k' = k
  · rw [if_pos hk, if_pos hk, hk]
  · rw [if_neg hk, if_neg hk, Nat.add_zero]

end Memory

/-! ## Operations that take a reference -/

/-- Copying a handle, making a weak handle from a strong one, and `lock`: the counter,
and the handle that is built. -/
def Instr.takes : Instr → Option (Kind × Reg)
  | .copyConstruct k d _ => some (k, d)
  | .weakFromStrong d _ => some (.weak, d)
  | .lock d _ => some (.strong, d)
  | _ => none

/-- The steps of such an operation. -/
def Instr.taking : Instr → Option (Kind × Reg)
  | .incrementLoad k d _ | .incrementCas k _ d _ => some (k, d)
  | .tryRetainLoad d _ | .tryRetainCas _ d _ | .lockTargetLoad d => some (.strong, d)
  | i => i.takes

/-- The reference is taken, and waits for its handle. -/
def Instr.taken : Instr → Bool
  | .lockTargetLoad _ => true
  | _ => false

theorem Instr.taking_of_takes {i : Instr} {p : Kind × Reg} (h : i.takes = some p) :
    i.taking = some p ∧ i.taken = false := by
  cases i <;> first | exact ⟨h, rfl⟩ | cases h

/-- A step of an operation adds one to its counter or leaves the counters as they are;
then there is a next step, or the handle is built, with a pointer if a reference was
taken. -/
theorem exec_taking {b : Bool} {m : Memory} {T : Token → ℕ} {r : Regs} {i : Instr} {k : Kind}
    {d : Reg} (h : Counted m T) (hle : ∀ τ, i.weight τ ≤ T τ) (hwraps : ¬ i.Wraps b m)
    (hi : i.taking = some (k, d)) :
    ∃ grows : Bool, (grows = true → i.taken = false) ∧
      (∀ k', (exec b m r i).1.refs k' = m.refs k' + if grows = true ∧ k' = k then 1 else 0) ∧
      ((∃ y, (exec b m r i).2.2 = [y] ∧ y.taking = some (k, d) ∧ y.taken = (i.taken || grows)) ∨
        (exec b m r i).2.2 = [] ∧
          (exec b m r i).2.1.get d = .handle k (i.taken || grows)) := by
  cases i with
  -- without a pointer the operation ends, with one it goes on to its loop
  | copyConstruct | weakFromStrong | lock =>
      cases hi
      refine ⟨false, fun _ => rfl, fun k' => ?_, ?_⟩ <;> simp only [exec] <;> split
      · simp
      · simp
      · exact .inl ⟨_, rfl, rfl, rfl⟩
      · exact .inr ⟨rfl, Regs.get_set _ _ _⟩
  | incrementLoad | tryRetainLoad =>
      cases hi
      exact ⟨false, fun _ => rfl, fun k' => by simp [exec], .inl ⟨_, rfl, rfl, rfl⟩⟩
  | incrementCas k' current d' s =>
      cases hi
      by_cases hmax : current = sizeMax
      · -- `std::terminate`
        simp only [exec, if_pos hmax]
        refine ⟨false, fun _ => rfl, fun k' => ?_, .inl ⟨_, rfl, rfl, rfl⟩⟩
        cases k' <;> rfl
      · simp only [exec, if_neg hmax]
        by_cases hcas : m.refs k = current ∧ b = false
        · -- the handle has the reference at once
          rw [if_pos hcas]
          obtain ⟨rfl, -⟩ := hcas
          exact ⟨true, fun _ => rfl, fun k' => by simpa using Memory.refs_increment hmax k',
            .inr ⟨rfl, Regs.get_set _ _ _⟩⟩
        · rw [if_neg hcas]
          exact ⟨false, fun _ => rfl, fun k' => by simp, .inl ⟨_, rfl, rfl, rfl⟩⟩
  | tryRetainCas count d' w =>
      cases hi
      by_cases hzero : count = 0
      · simp only [exec, if_pos hzero]
        exact ⟨false, fun _ => rfl, fun k' => by simp, .inr ⟨trivial, Regs.get_set _ _ _⟩⟩
      · simp only [exec, if_neg hzero]
        by_cases hcas : m.strongRefs = count ∧ b = false
        · -- the swap is not the one that wraps
          have hmax : count ≠ sizeMax := fun hmax => hwraps ⟨hmax, hcas.1.trans hmax, hcas.2⟩
          rw [if_pos hcas]
          obtain ⟨rfl, -⟩ := hcas
          have hrefs : ∀ k', (m.touchControl.setRefs .strong (sizeAdd m.strongRefs)).refs k' =
              m.refs k' + if k' = .strong then 1 else 0 := Memory.refs_increment hmax
          exact ⟨true, fun _ => rfl, fun k' => by simpa using hrefs k', .inl ⟨_, rfl, rfl, rfl⟩⟩
        · rw [if_neg hcas]
          exact ⟨false, fun _ => rfl, fun k' => by simp, .inl ⟨_, rfl, rfl, rfl⟩⟩
  | lockTargetLoad d' =>
      cases hi
      -- the reference keeps the target in place
      have htarget := h.target_of_lockTargetLoad (d := d) (n := 0) (hle (.ref .strong))
      refine ⟨false, fun hf => absurd hf Bool.false_ne_true, fun k' => by simp [exec],
        .inr ⟨rfl, ?_⟩⟩
      simp only [exec, Regs.get_set, htarget]
      rfl
  | _ => cases hi

/-! ## Operations in a run -/

/-- At position `m` thread `t` takes a step. -/
def Moves (r : Run machine) (t m : ℕ) : Prop := ∃ b, r.label m = some (.run t b)

/-- At position `m` thread `t` is at the step `x`, in front of `rest`. -/
def At (r : Run machine) (t m : ℕ) (x : Instr) (rest : List Instr) : Prop :=
  ∃ f, (r.state m).threads[t]? = some (some f) ∧ f.code = x :: rest

/-- The operation that thread `t` began at position `i`, in front of `rest`, has not ended
before position `j`. -/
def Unfinished (r : Run machine) (t i j : ℕ) (rest : List Instr) : Prop :=
  ∀ m, i < m → m < j → ∃ x, At r t m x rest

/-- What the steps of thread `t` from position `i` on did to the counters before position
`j`: the one at `grown` added one to the counter of the kind, the others left both as they
were. -/
def Gains (r : Run machine) (t : ℕ) (k : Kind) (i j : ℕ) (grown : Option ℕ) : Prop :=
  (∀ m, grown = some m → i ≤ m ∧ m < j ∧ Moves r t m) ∧
  ∀ m k', i ≤ m → m < j → Moves r t m → (r.state (m + 1)).mem.refs k' =
    (r.state m).mem.refs k' + if grown = some m ∧ k' = k then 1 else 0

/-- A handle with a pointer, at rest or in the hands of a function. -/
def State.HandleExists (s : State) : Prop :=
  (∃ e ∈ s.pool, ∃ k, e.2 = .handle k true) ∨
    ∃ f, some f ∈ s.threads ∧ ∃ x k, f.regs.get x = .handle k true

/-- The counters hold `std::size_t` values. An operation that takes a reference has added
one to its counter and builds a handle with a pointer, or it has left the counters as they
were and builds a null handle, if it ends at all: it does not when the process terminates.
None of its steps makes a counter `0`. -/
structure NeverWraps (r : Run machine) : Prop where
  fits : ∀ n k, (r.state n).mem.refs k ≤ sizeMax
  takes : ∀ t i j x rest k d, Moves r t i → At r t i x rest → x.takes = some (k, d) → i < j →
    Unfinished r t i j rest →
    ∃ grown, Gains r t k i j grown ∧ ((∃ y, At r t j y rest) ∨
      ∃ f, (r.state j).threads[t]? = some (some f) ∧ f.code = rest ∧
        f.regs.get d = .handle k grown.isSome)
  nonzero : ∀ t n x rest k, Moves r t n → At r t n x rest → x.taking.isSome = true →
    (r.state n).HandleExists → (r.state n).mem.refs k ≠ 0 → (r.state (n + 1)).mem.refs k ≠ 0

namespace Gains

variable {r : Run machine} {t i j : ℕ} {k : Kind} {grown : Option ℕ}

/-- The thread did not move. -/
theorem idle (h : Gains r t k i j grown) (hidle : ¬ Moves r t j) : Gains r t k i (j + 1) grown := by
  obtain ⟨hat, hsteps⟩ := h
  refine ⟨fun m hm => ?_, fun m k' him hmj hmoves => ?_⟩
  · obtain ⟨him, hmj, hmoves⟩ := hat m hm
    exact ⟨him, Nat.lt_succ_of_lt hmj, hmoves⟩
  · have hne : m ≠ j := fun hm => hidle (hm ▸ hmoves)
    exact hsteps m k' him (by omega) hmoves

/-- The thread moved, and did not take the reference twice. -/
theorem move {grows : Bool} (h : Gains r t k i j grown) (hij : i ≤ j) (hmoves : Moves r t j)
    (honce : grows = true → grown.isSome = false)
    (hstep : ∀ k', (r.state (j + 1)).mem.refs k' =
      (r.state j).mem.refs k' + if grows = true ∧ k' = k then 1 else 0) :
    Gains r t k i (j + 1) (if grows then some j else grown) := by
  obtain ⟨hat, hsteps⟩ := h
  have hbefore (m : ℕ) (hm : grown = some m) : m < j := (hat m hm).2.1
  refine ⟨fun m hm => ?_, fun m k' him hmj hm => ?_⟩
  · cases grows with
    | true =>
        cases hm
        exact ⟨hij, Nat.lt_succ_self _, hmoves⟩
    | false =>
        obtain ⟨him, hmj, hm⟩ := hat m hm
        exact ⟨him, Nat.lt_succ_of_lt hmj, hm⟩
  · rcases Nat.lt_succ_iff_lt_or_eq.mp hmj with hmj | rfl
    · rw [hsteps m k' him hmj hm]
      cases grows with
      | true =>
          have hnone : grown = none := by simpa using honce rfl
          have hne : ¬ j = m := by omega
          simp [hnone, hne]
      | false => rfl
    · rw [hstep k']
      cases grows with
      | true => simp
      | false =>
          have hne : grown ≠ some m := fun hm => Nat.lt_irrefl _ (hbefore m hm)
          simp [hne]

end Gains

/-! ## Runs in which no `lock` swaps at the largest count -/

/-- How far the operation in front of `rest` is: at a step of its own, or ended with the
handle. -/
def Progress (r : Run machine) (t : ℕ) (k : Kind) (d : Reg) (rest : List Instr) (taken : Bool)
    (j : ℕ) : Prop :=
  ∃ f, (r.state j).threads[t]? = some (some f) ∧
    ((∃ y, f.code = y :: rest ∧ y.taking = some (k, d) ∧ y.taken = taken) ∨
      f.code = rest ∧ f.regs.get d = .handle k taken)

/-- A position at which the thread does not move leaves its operation where it is. -/
theorem Progress.idle {r : Run machine} {t j : ℕ} {k : Kind} {d : Reg} {rest : List Instr}
    {taken : Bool} (h : Progress r t k d rest taken j) (hidle : ¬ Moves r t j) :
    Progress r t k d rest taken (j + 1) := by
  obtain ⟨f, hf, hdone⟩ := h
  refine ⟨f, ?_, hdone⟩
  cases hl : r.label j with
  | none => rwa [r.stutter_of_none hl]
  | some l =>
      rw [step_other (r.step_of_label hl), hf]
      rintro rfl
      cases l with
      | run t b => exact hidle ⟨b, hl⟩
      | call t op =>
          -- a thread in a function calls no other one
          obtain ⟨-, h⟩ := step_cases (r.step_of_label hl)
          rcases h with ⟨t', op', regs, pool, heq, hnone, -⟩ | ⟨t', b, g, heq, -⟩ |
            ⟨t', b, g, x, tail, heq, -⟩
          · cases heq
            cases hf.symm.trans hnone
          · cases heq
          · cases heq

section

variable {r : Run machine} (hwraps : ∀ n l, r.label n = some l → ¬ (r.state n).Wraps l)

include hwraps

theorem inv_at (n : ℕ) : Inv (r.state n) := run_inv_of_not_wraps r n fun i l _ => hwraps i l

/-- One step of an operation in a run. -/
theorem moves_taking {t m : ℕ} {x : Instr} {rest : List Instr} {k : Kind} {d : Reg}
    (hmoves : Moves r t m) (hat : At r t m x rest) (hx : x.taking = some (k, d)) :
    ∃ grows : Bool, (grows = true → x.taken = false) ∧
      (∀ k', (r.state (m + 1)).mem.refs k' =
        (r.state m).mem.refs k' + if grows = true ∧ k' = k then 1 else 0) ∧
      Progress r t k d rest (x.taken || grows) (m + 1) := by
  obtain ⟨b, hl⟩ := hmoves
  obtain ⟨f, hf, hcode⟩ := hat
  have hattempt : ¬ x.Wraps b (r.state m).mem := fun hx =>
    hwraps m _ hl ⟨t, b, f, x, rest, rfl, hf, hcode, hx⟩
  have hle : ∀ τ, x.weight τ ≤ (r.state m).tally τ := fun τ => by
    have := State.weight_le hf hcode τ
    omega
  have hstate := step_run_eq (r.step_of_label hl) hf hcode
  obtain ⟨grows, honce, hrefs, hnext⟩ :=
    exec_taking (b := b) (r := f.regs) (inv_at hwraps m).counted hle hattempt hx
  refine ⟨grows, honce, fun k' => ?_, ?_⟩
  · rw [hstate]
    exact hrefs k'
  · refine ⟨f.proceed (exec b (r.state m).mem f.regs x).2.1
      ((exec b (r.state m).mem f.regs x).2.2 ++ rest), ?_, ?_⟩
    · rw [hstate]
      exact State.getElem?_put (s := (r.state m).withMem _) _ hf
    · rcases hnext with ⟨y, hnew, hy⟩ | ⟨hnew, hd⟩
      · exact .inl ⟨y, by rw [Frame.proceed, hnew]; rfl, hy⟩
      · exact .inr ⟨by rw [Frame.proceed, hnew]; rfl, hd⟩

/-- The operation, from its first step to any later position. By induction on the position. -/
theorem takes_progress {t i : ℕ} {x : Instr} {rest : List Instr} {k : Kind} {d : Reg}
    (hmoves : Moves r t i) (hat : At r t i x rest) (hx : x.takes = some (k, d)) (n : ℕ)
    (hrest : Unfinished r t i (i + 1 + n) rest) :
    ∃ grown, Gains r t k i (i + 1 + n) grown ∧
      Progress r t k d rest grown.isSome (i + 1 + n) := by
  induction n with
  | zero =>
      obtain ⟨htaking, htaken⟩ := Instr.taking_of_takes hx
      obtain ⟨grows, -, hrefs, hprogress⟩ := moves_taking hwraps hmoves hat htaking
      have hnothing : Gains r t k i i none :=
        ⟨fun m hm => absurd hm.symm (Option.some_ne_none m),
          fun m k' him hmi => absurd hmi (Nat.not_lt.mpr him)⟩
      refine ⟨_, hnothing.move (Nat.le_refl i) hmoves (fun _ => rfl) hrefs, ?_⟩
      rw [htaken, Bool.false_or] at hprogress
      cases grows <;> exact hprogress
  | succ n ih =>
      obtain ⟨grown, hgains, hprogress⟩ := ih fun m him hmj => hrest m him (by omega)
      by_cases hstep : Moves r t (i + 1 + n)
      · -- the operation is at a step of its own
        obtain ⟨y, hy⟩ := hrest (i + 1 + n) (by omega) (by omega)
        obtain ⟨f, hf, ⟨z, hcode, hz, htaken⟩ | ⟨hcode, -⟩⟩ := hprogress
        · obtain ⟨grows, honce, hrefs, hnext⟩ :=
            moves_taking hwraps hstep ⟨f, hf, hcode⟩ hz
          rw [htaken] at honce hnext
          refine ⟨_, hgains.move (by omega) hstep honce hrefs, ?_⟩
          cases grows with
          | true => rwa [honce rfl] at hnext
          | false => rwa [Bool.or_false] at hnext
        · obtain ⟨g, hg, hcons⟩ := hy
          cases hf.symm.trans hg
          rw [hcode] at hcons
          exact absurd hcons.symm (List.cons_ne_self y rest)
      · exact ⟨grown, hgains.idle hstep, hprogress.idle hstep⟩

end

/-- The step that wraps is a step of a `lock`, and makes the counter `0`. -/
theorem wraps_makes_zero {r : Run machine} {n : ℕ} {l : Label} (hl : r.label n = some l)
    (hwraps : (r.state n).Wraps l) :
    (∃ t x rest, Moves r t n ∧ At r t n x rest ∧ x.taking.isSome = true) ∧
      (r.state n).mem.strongRefs = sizeMax ∧ (r.state (n + 1)).mem.strongRefs = 0 := by
  obtain ⟨t, b, f, x, rest, rfl, hf, hcode, hx⟩ := hwraps
  cases x with
  | tryRetainCas count d w =>
      obtain ⟨rfl, hmax, rfl⟩ := hx
      refine ⟨⟨t, _, rest, ⟨false, hl⟩, ⟨f, hf, hcode⟩, rfl⟩, hmax, ?_⟩
      rw [step_run_eq (r.step_of_label hl) hf hcode]
      have hne : sizeMax ≠ 0 := by decide
      simp only [State.put_mem, State.withMem_mem, exec, if_neg hne, hmax, true_and, if_true,
        sizeAdd, Memory.setRefs_strong]
  | _ => exact hx.elim

/-- The `lock` runs on a weak handle. -/
theorem handle_of_wraps {s : State} {l : Label} (hinv : Inv s) (hwraps : s.Wraps l) :
    s.HandleExists := by
  obtain ⟨t, b, f, x, rest, -, hf, hcode, hx⟩ := hwraps
  cases x with
  | tryRetainCas count d w =>
      have hready := hinv.ready f (List.mem_of_getElem? hf)
      rw [hcode] at hready
      exact .inr ⟨f, List.mem_of_getElem? hf, w, .weak, hready.1.2.2⟩
  | _ => exact hx.elim

/-- Making the counter `0` breaks the law. -/
theorem not_neverWraps {r : Run machine} {n : ℕ} {l : Label} (hl : r.label n = some l)
    (hwraps : (r.state n).Wraps l) (hexists : (r.state n).HandleExists) : ¬ NeverWraps r := by
  obtain ⟨⟨t, x, rest, hmoves, hat, hx⟩, hmax, hzero⟩ := wraps_makes_zero hl hwraps
  have hne : (r.state n).mem.refs .strong ≠ 0 := by
    rw [Memory.refs, hmax]
    decide
  exact fun h => h.nonzero t n x rest .strong hmoves hat hx hexists hne hzero

/-- No counter wraps in a run exactly when no `lock` in it swaps in the successor of the
largest value. -/
theorem neverWraps_iff (r : Run machine) :
    NeverWraps r ↔ ∀ n l, r.label n = some l → ¬ (r.state n).Wraps l := by
  constructor
  · intro h n
    -- before the first step that wraps the invariant holds
    induction n using Nat.strong_induction_on with
    | _ n ih =>
        intro l hl hwraps
        have hinv : Inv (r.state n) := run_inv_of_not_wraps r n fun i l hi => ih i hi l
        exact not_neverWraps hl hwraps (handle_of_wraps hinv hwraps) h
  · intro hwraps
    refine ⟨fun n k => ?_, ?_, ?_⟩
    · have hcounted := (inv_at hwraps n).counted
      cases k with
      | strong => exact hcounted.strong_le
      | weak => exact hcounted.weak_le
    · intro t i j x rest k d hmoves hat hx hij hrest
      obtain ⟨n, rfl⟩ := Nat.exists_eq_add_of_le (Nat.succ_le_of_lt hij)
      obtain ⟨grown, hgains, f, hf, ⟨y, hcode, -⟩ | hdone⟩ :=
        takes_progress hwraps hmoves hat hx n hrest
      · exact ⟨grown, hgains, .inl ⟨y, f, hf, hcode⟩⟩
      · exact ⟨grown, hgains, .inr ⟨f, hf, hdone⟩⟩
    · intro t n x rest k hmoves hat hx _ hne
      obtain ⟨⟨k', d⟩, htaking⟩ := Option.isSome_iff_exists.mp hx
      obtain ⟨grows, -, hrefs, -⟩ := moves_taking hwraps hmoves hat htaking
      rw [hrefs k]
      exact Nat.ne_of_gt (Nat.lt_of_lt_of_le (Nat.pos_of_ne_zero hne) (Nat.le_add_right _ _))

/-! ## A `lock` at the largest count -/

/-- Strong handles with the names below `n`, the last name first. -/
def strongHandles : ℕ → List (ℕ × Slot)
  | 0 => []
  | n + 1 => (n, .handle .strong true) :: strongHandles n

/-- Storage with the names from `n` on. -/
def rawStorage (n count : ℕ) : List (ℕ × Slot) := (List.range count).map fun i => (i + n, .raw)

theorem rawStorage_succ (n count : ℕ) :
    rawStorage n (count + 1) = (n, .raw) :: rawStorage (n + 1) count := by
  simp only [rawStorage, List.range_succ_eq_map, List.map_cons, List.map_map, Nat.zero_add,
    List.cons.injEq, true_and]
  exact List.map_congr_left fun i _ => Prod.ext (Nat.succ_add_eq_add_succ i n) rfl

theorem strongHandles_name {n : ℕ} {e : ℕ × Slot} (h : e ∈ strongHandles n) : e.1 < n := by
  induction n with
  | zero => cases h
  | succ n ih =>
      rcases List.mem_cons.mp h with rfl | h
      · exact Nat.lt_succ_self n
      · exact Nat.lt_succ_of_lt (ih h)

/-- One thread at rest, and `n` copies of the first handle. -/
def crowd (n storage : ℕ) : State where
  mem := ⟨n + 1, 1, true, .alive, 0, 0, false, false⟩
  pool := strongHandles (n + 1) ++ rawStorage (n + 1) storage
  threads := [none]

/-- The thread copies the handle `n`. -/
def copyLabels (n : ℕ) : List Label :=
  [.call 0 (.copyConstruct .strong (n + 1) n), .run 0 false, .run 0 false, .run 0 false,
    .run 0 false]

/-- The storage behind the handles. -/
theorem pick_storage {n i : ℕ} (h : n ≤ i) (count : ℕ) :
    pick i (strongHandles n ++ rawStorage i (count + 1)) =
      some (.raw, strongHandles n ++ rawStorage (i + 1) count) := by
  rw [rawStorage_succ]
  exact pick_append fun e he => Nat.ne_of_lt (Nat.lt_of_lt_of_le (strongHandles_name he) h)

/-- The last handle. -/
theorem pick_handle (n : ℕ) (rest : List (ℕ × Slot)) :
    pick n (strongHandles (n + 1) ++ rest) =
      some (.handle .strong true, strongHandles n ++ rest) := pick_cons _ _ _

theorem after_copyLabels (n storage : ℕ) (hmax : n + 1 ≠ sizeMax) :
    machine.after (crowd n (storage + 1)) (copyLabels n) 5 = crowd (n + 1) storage := by
  have hout : checkOut (crowd n (storage + 1)).pool (.copyConstruct .strong (n + 1) n) =
      some (⟨.raw, .handle .strong true, .raw, false⟩,
        strongHandles n ++ rawStorage (n + 2) storage) := by
    simp [checkOut, Op.self, Op.other, Op.selfKind, Op.otherKind, Slot.Fits, crowd,
      pick_storage (Nat.le_refl (n + 1)), pick_handle]
  simp only [copyLabels, Machine.after, machine, step, hout]
  simp [crowd, State.put, State.withPool, State.withMem, Op.body, Op.self, Op.other, exec,
    Memory.touchTarget, Memory.touchControl, Memory.refs, Memory.setRefs, sizeAdd, hmax,
    Frame.proceed, Regs.get, Regs.set, checkIn, strongHandles]

/-- `n` copies. -/
def copies : ℕ → List Label
  | 0 => []
  | n + 1 => copies n ++ copyLabels n

theorem after_copies (n storage : ℕ) (hmax : n < sizeMax) :
    machine.after (makeIntrusive 1 (n + storage)) (copies n) (copies n).length =
      crowd n storage := by
  induction n generalizing storage with
  | zero =>
      rw [Nat.zero_add]
      rfl
  | succ n ih =>
      have hbefore := ih (storage + 1) (Nat.lt_of_succ_lt hmax)
      have hlength : (copies (n + 1)).length = (copies n).length + 5 := List.length_append
      rw [hlength, copies, Machine.after_append, Nat.succ_add_eq_add_succ, hbefore]
      exact after_copyLabels n storage (Nat.ne_of_lt hmax)

/-- Make a weak handle, call `lock` on it, and come to its attempt. -/
def lockLabels (n : ℕ) : List Label :=
  [.call 0 (.weakFromStrong (n + 1) n), .run 0 false, .run 0 false, .run 0 false, .run 0 false,
    .call 0 (.lock (n + 1) (n + 2)), .run 0 false, .run 0 false]

/-- The `lock` in front of its attempt. -/
def attempt (n : ℕ) : State where
  mem := ⟨n + 1, 2, true, .alive, 0, 0, false, false⟩
  pool := strongHandles (n + 1)
  threads := [some ⟨n + 1, some (n + 2), ⟨.handle .weak true, .raw, .raw, false⟩,
    [.tryRetainCas (n + 1) .other .self]⟩]

theorem after_lockLabels (n : ℕ) : machine.after (crowd n 2) (lockLabels n) 8 = attempt n := by
  have hout : checkOut (crowd n 2).pool (.weakFromStrong (n + 1) n) =
      some (⟨.raw, .handle .strong true, .raw, false⟩,
        strongHandles n ++ rawStorage (n + 2) 1) := by
    simp [checkOut, Op.self, Op.other, Op.selfKind, Op.otherKind, Slot.Fits, crowd,
      pick_storage (Nat.le_refl (n + 1)), pick_handle]
  have hstorage : pick (n + 2) (strongHandles (n + 1) ++ rawStorage (n + 2) 1) =
      some (.raw, strongHandles (n + 1)) := by
    rw [pick_storage (Nat.le_succ (n + 1)), rawStorage, List.range_zero, List.map_nil,
      List.append_nil]
  have hlock : checkOut ((n + 1, .handle .weak true) :: (n, .handle .strong true) ::
      (strongHandles n ++ rawStorage (n + 2) 1)) (.lock (n + 1) (n + 2)) =
      some (⟨.handle .weak true, .raw, .raw, false⟩, strongHandles (n + 1)) := by
    rw [strongHandles, List.cons_append] at hstorage
    simp [checkOut, Op.self, Op.other, Op.selfKind, Op.otherKind, Slot.Fits, hstorage,
      strongHandles]
  have hone : 1 ≠ sizeMax := by decide
  simp only [lockLabels, Machine.after, machine, step, hout]
  simp [crowd, attempt, State.put, State.withPool, State.withMem, Op.body, Op.self, Op.other, exec,
    Memory.touchTarget, Memory.touchControl, Memory.refs, Memory.setRefs, sizeAdd, hone,
    Frame.proceed, Regs.get, Regs.set, checkIn, hlock, strongHandles]

theorem init_oneThread (storage : ℕ) : machine.Init (makeIntrusive 1 storage) := ⟨1, storage, rfl⟩

/-- `n` copies, then a `lock` that makes one more handle. -/
def crowdRun (n : ℕ) : Run machine :=
  Run.ofLabels machine (makeIntrusive 1 (n + 2)) (init_oneThread (n + 2))
    (copies n ++ (lockLabels n ++ List.replicate 3 (.run 0 false)))

/-- The position of the attempt. -/
def attemptAt (n : ℕ) : ℕ := (copies n).length + 8

theorem crowdRun_attempt (n : ℕ) (hmax : n < sizeMax) :
    (crowdRun n).state (attemptAt n) = attempt n ∧
      (crowdRun n).label (attemptAt n) = some (.run 0 false) := by
  have hcrowd := after_copies n 2 hmax
  have hlock := after_lockLabels n
  have hlength : (lockLabels n).length = 8 := rfl
  constructor
  · change machine.after _ (copies n ++ _) ((copies n).length + 8) = _
    rw [Machine.after_append, hcrowd]
    exact (Machine.after_append machine (crowd n 2) (lockLabels n) _ 0).trans (by
      rw [hlength, hlock, Machine.after_zero])
  · change machine.fired _ (copies n ++ _) ((copies n).length + 8) = _
    rw [Machine.fired_append, hcrowd]
    refine (Machine.fired_append machine (crowd n 2) (lockLabels n) _ 0).trans ?_
    rw [hlength, hlock]
    rfl

/-- The attempt at the largest count. -/
theorem attempt_wraps (n : ℕ) (hmax : n + 1 = sizeMax) : (attempt n).Wraps (.run 0 false) :=
  ⟨0, false, _, _, [], rfl, rfl, rfl, hmax, hmax, rfl⟩

theorem attempt_handle (n : ℕ) : (attempt n).HandleExists :=
  .inl ⟨_, List.mem_cons_self, .strong, rfl⟩

/-- After `2 ^ 64 - 2` copies the strong counter is at the largest value, and `lock` makes
it `0`. -/
theorem lock_at_sizeMax : ∃ n,
    ((crowdRun (sizeMax - 1)).state n).mem.strongRefs = sizeMax ∧
    ((crowdRun (sizeMax - 1)).state n).HandleExists ∧
    ((crowdRun (sizeMax - 1)).state (n + 1)).mem.strongRefs = 0 ∧
    ¬ NeverWraps (crowdRun (sizeMax - 1)) := by
  have hmax : sizeMax - 1 + 1 = sizeMax := by decide
  obtain ⟨hstate, hlabel⟩ := crowdRun_attempt (sizeMax - 1) (by decide)
  have hwraps := attempt_wraps (sizeMax - 1) hmax
  have hexists := attempt_handle (sizeMax - 1)
  rw [← hstate] at hwraps hexists
  obtain ⟨-, hfull, hzero⟩ := wraps_makes_zero hlabel hwraps
  exact ⟨_, hfull, hexists, hzero, not_neverWraps hlabel hwraps hexists⟩

end Gradyx.IntrusivePtr
