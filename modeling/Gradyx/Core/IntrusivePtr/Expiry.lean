import Gradyx.Core.IntrusivePtr.Safety

/-!
# IntrusivePtr — expiry is permanent

`lock` reads the strong counter in its first load and in every CAS attempt,
and decides on what the last of these reads saw, while other threads copy
handles, drop the last one and run the destructor in between. `LockAt` follows
a call from its beginning to its return and ties what it carries to the
position of that read; `strong_zero_stable` says that a counter at `0` stays
there. Together they give the law of weak handles (`expiry_permanent`).
-/

namespace Gradyx.IntrusivePtr

open Gradyx.Lib

/-! ## A counter at zero stays there -/

/-- No step takes a reference when none is left: a copy needs a source that
holds one, and `try_retain_strong_ref` only swaps in a successor of a non-zero
count. -/
theorem exec_strong_zero {b : Bool} {m : Memory} {T : Token → ℕ} {r : Regs} {i : Instr}
    (h : Counted m T) (hpre : i.Pre r) (hle : ∀ τ, i.weight τ + r.weight τ ≤ T τ)
    (hzero : m.strongRefs = 0) : (exec b m r i).1.strongRefs = 0 := by
  have hnone : T (.ref .strong) = 0 := by rw [← h.strong]; exact hzero
  -- no register holds a strong reference
  have hsrc : ∀ x, r.get x ≠ .handle .strong true := by
    intro x hx
    have h₁ := Regs.ref_of_get hx
    have h₂ := hle (.ref .strong)
    omega
  cases i with
  | copyConstruct k d s =>
      simp only [exec]
      split
      · split <;> simpa using hzero
      · exact hzero
  | weakFromStrong d s =>
      simp only [exec]
      split <;> simpa using hzero
  | reset k x =>
      simp only [exec]
      split
      · split <;> simpa using hzero
      · exact hzero
  | lock d w =>
      simp only [exec]
      split <;> exact hzero
  | expired w =>
      simp only [exec]
      split <;> exact hzero
  | incrementCas k current d s =>
      obtain ⟨-, -, hs | ⟨rfl, hs⟩⟩ := hpre
      · exact absurd hs (hsrc s)
      · simp only [exec]
        split
        · exact hzero
        · split <;> simpa using hzero
  | tryRetainCas count d w =>
      simp only [exec]
      split
      · exact hzero
      · -- the loop has a count that is not `0`, so the CAS fails
        rename_i hcount
        have hcas : ¬ (m.strongRefs = count ∧ b = false) := by
          rintro ⟨rfl, -⟩
          exact hcount hzero
        rw [if_neg hcas]
        simpa using hzero
  | releaseFetchSub k =>
      cases k with
      | strong =>
          -- a pending release would be a reference
          have := hle (.ref .strong)
          simp only [Instr.weight, if_true] at this
          omega
      | weak => simpa [exec, releaseWeakRef] using hzero
  | baseDestructor => simpa [exec, releaseWeakRef] using hzero
  | deleteTarget t => cases t <;> simpa [exec] using hzero
  | _ => simpa [exec] using hzero

theorem step_strong_zero (s : State) (l : Label) (s' : State) (hinv : Inv s)
    (hstep : machine.step s l = some s') (hzero : s.mem.strongRefs = 0) :
    s'.mem.strongRefs = 0 := by
  obtain ⟨-, h⟩ := step_cases hstep
  rcases h with ⟨t, op, regs, pool, -, ht, hout, rfl⟩ | ⟨t, b, f, -, ht, hcode, rfl⟩ |
    ⟨t, b, f, i, rest, -, ht, hcode, rfl⟩
  · exact hzero
  · exact hzero
  · have hready := hinv.ready f (List.mem_of_getElem? ht)
    rw [hcode] at hready
    exact exec_strong_zero hinv.counted hready.1 (State.weight_le ht hcode) hzero

/-- Once `strong_refs` is `0` it is `0` in every later state of the run. -/
theorem strong_zero_stable (r : Run machine)
    (hbound : ∀ k, (r.state k).held .strong < sizeMax) {i j : ℕ} (hij : i ≤ j)
    (hi : (r.state i).mem.strongRefs = 0) : (r.state j).mem.strongRefs = 0 :=
  r.stable Inv (fun s => s.mem.strongRefs = 0) (fun k => run_inv r k fun i _ => hbound i)
    step_strong_zero hij hi

/-! ## Calls -/

/-- Thread `t` calls `op` at position `i`, on the objects in `regs`, and the call returns at
position `j`, from the frame `f`: the thread begins no other call in between, and at `j` no
step of the function is left. -/
structure Returns (r : Run machine) (t i j : ℕ) (op : Op) (regs : Regs) (f : Frame) : Prop where
  lt : i < j
  call : r.label i = some (.call t op)
  objects : ∃ pool, checkOut (r.state i).pool op = some (regs, pool)
  during : ∀ m, i < m → m < j → ∀ op', r.label m ≠ some (.call t op')
  frame : (r.state j).threads[t]? = some (some f)
  done : f.code = []
  ret : ∃ b, r.label j = some (.run t b)

/-- The `lock` that thread `t` calls at `i` on a weak handle with a control block returns at
`j`; `full` says whether the handle it returns has a target. -/
def LockReturns (r : Run machine) (t i j : ℕ) (full : Bool) : Prop :=
  ∃ w d regs f, Returns r t i j (.lock w d) regs f ∧ regs.self = .handle .weak true ∧
    f.regs.other = .handle .strong full

/-- The `expired` that thread `t` calls at `i` on a weak handle with a control block returns
`answer` at `j`. -/
def ExpiredReturns (r : Run machine) (t i j : ℕ) (answer : Bool) : Prop :=
  ∃ w regs f, Returns r t i j (.expired w) regs f ∧ regs.self = .handle .weak true ∧
    f.regs.answer = answer

/-- Where a function in progress comes from, unless the step called it: the thread did not
move, or executed the next instruction of the function. -/
theorem frame_back {s s' : State} {l : Label} {t : ℕ} {g : Frame} (h : step s l = some s')
    (hg : s'.threads[t]? = some (some g)) (hcall : ∀ op, l ≠ .call t op) :
    ∃ f, s.threads[t]? = some (some f) ∧ (l.thread ≠ t ∧ g = f ∨
      ∃ b i rest, l = .run t b ∧ f.code = i :: rest ∧
        g = f.proceed (exec b s.mem f.regs i).2.1 ((exec b s.mem f.regs i).2.2 ++ rest)) := by
  by_cases hthread : l.thread = t
  · obtain ⟨-, hcases⟩ := step_cases h
    rcases hcases with ⟨t', op, regs, pool, rfl, -, -, -⟩ | ⟨t', b, f, rfl, ht, -, rfl⟩ |
      ⟨t', b, f, i, rest, rfl, ht, hcode, rfl⟩
    · obtain rfl : t' = t := hthread
      exact absurd rfl (hcall op)
    · -- a return leaves the thread idle
      obtain rfl : t' = t := hthread
      rw [State.getElem?_put (s := s.withPool (checkIn f s.pool)) _ ht] at hg
      cases hg
    · obtain rfl : t' = t := hthread
      rw [State.getElem?_put (s := s.withMem (exec b _ _ i).1) _ ht] at hg
      cases hg
      exact ⟨f, ht, .inr ⟨b, i, rest, rfl, hcode, rfl⟩⟩
  · rw [step_other h hthread] at hg
    exact ⟨g, hg, .inl ⟨hthread, rfl⟩⟩

/-- The frame of a call that was just begun. -/
theorem frame_of_call {s s' : State} {t : ℕ} {op : Op} {regs : Regs} {pool : List (ℕ × Slot)}
    (h : step s (.call t op) = some s') (hout : checkOut s.pool op = some (regs, pool)) :
    s'.threads[t]? = some (some ⟨op.self, op.other, regs, op.body⟩) := by
  obtain ⟨-, hcases⟩ := step_cases h
  rcases hcases with ⟨t', op', regs', pool', hl, ht, hout', rfl⟩ | ⟨t', b, f, hl, -⟩ |
    ⟨t', b, f, i, rest, hl, -⟩
  · cases hl
    cases hout.symm.trans hout'
    exact State.getElem?_put (s := s.withPool pool) _ ht
  · cases hl
  · cases hl

/-- What a call knows when it returns: what it knows when it begins, and keeps through the
steps of other threads and through its own. -/
theorem Returns.induct {r : Run machine} {t i j : ℕ} {op : Op} {regs : Regs} {f : Frame}
    (h : Returns r t i j op regs f) (P : ℕ → Frame → Prop)
    (hbegin : P (i + 1) ⟨op.self, op.other, regs, op.body⟩)
    (hother : ∀ m g, i < m → (∀ l, r.label m = some l → l.thread ≠ t) → P m g → P (m + 1) g)
    (hown : ∀ m b (g : Frame) x rest, i < m → r.label m = some (.run t b) →
      (r.state m).threads[t]? = some (some g) → g.code = x :: rest → P m g →
      P (m + 1) (g.proceed (exec b (r.state m).mem g.regs x).2.1
        ((exec b (r.state m).mem g.regs x).2.2 ++ rest))) : P j f := by
  obtain ⟨pool, hout⟩ := h.objects
  refine r.stretch (fun s g => s.threads[t]? = some (some g)) P h.lt ?_ ?_ h.frame
  · intro g hg
    cases (frame_of_call (r.step_of_label h.call) hout).symm.trans hg
    exact hbegin
  · intro m him hmj g hg
    cases hl : r.label m with
    | none =>
        rw [r.stutter_of_none hl] at hg
        exact ⟨g, hg, hother m g him (by simp [hl])⟩
    | some l =>
        have hcall : ∀ op', l ≠ .call t op' := by
          rintro op' rfl
          exact h.during m him hmj op' hl
        obtain ⟨g', hg', ⟨hthread, rfl⟩ | ⟨b, x, rest, rfl, hcode, rfl⟩⟩ :=
          frame_back (r.step_of_label hl) hg hcall
        · refine ⟨g, hg', hother m g him ?_⟩
          rintro l' hl'
          cases hl.symm.trans hl'
          exact hthread
        · exact ⟨g', hg', hown m b g' x rest him hl hg' hcode⟩

/-- A return puts the objects of the call back, and changes nothing else. -/
theorem Returns.next {r : Run machine} {t i j : ℕ} {op : Op} {regs : Regs} {f : Frame}
    (h : Returns r t i j op regs f) :
    r.state (j + 1) = ((r.state j).withPool (checkIn f (r.state j).pool)).put t none := by
  obtain ⟨b, hl⟩ := h.ret
  obtain ⟨-, hcases⟩ := step_cases (r.step_of_label hl)
  rcases hcases with ⟨t', op', regs', pool, hcall, -⟩ | ⟨t', b', g, hrun, ht, -, hs⟩ |
    ⟨t', b', g, x, rest, hrun, ht, hcode, -⟩
  · cases hcall
  · cases hrun
    cases h.frame.symm.trans ht
    exact hs
  · cases hrun
    cases h.frame.symm.trans ht
    cases h.done.symm.trans hcode

/-- The argument of a call is put back under its name. -/
theorem Returns.mem_pool {r : Run machine} {t i j o : ℕ} {op : Op} {regs : Regs} {f : Frame}
    (h : Returns r t i j op regs f) (ho : op.other = some o) :
    (o, f.regs.other) ∈ (r.state (j + 1)).pool := by
  have hname : f.otherName = op.other :=
    h.induct (fun _ g => g.otherName = op.other) rfl (fun _ _ _ _ hg => hg)
      fun _ _ _ _ _ _ _ _ _ hg => hg
  rw [h.next]
  show (o, f.regs.other) ∈ checkIn f (r.state j).pool
  simp only [checkIn, hname, ho]
  exact List.mem_cons_of_mem _ List.mem_cons_self

/-! ## What a call has read -/

/-- At position `k` thread `t` is about to execute `i`, and does. -/
def Runs (r : Run machine) (t k : ℕ) (i : Instr) : Prop :=
  ∃ b f, r.label k = some (.run t b) ∧ (r.state k).threads[t]? = some (some f) ∧
    f.code.head? = some i

/-- At position `k` the `lock` that thread `t` runs reads the strong counter: in the first
load, or in a CAS attempt. -/
def LockReads (r : Run machine) (t k : ℕ) : Prop :=
  ∃ i d w, Runs r t k i ∧
    (i = .tryRetainLoad d w ∨ ∃ count, count ≠ 0 ∧ i = .tryRetainCas count d w)

/-- At position `k` the `expired` that thread `t` runs reads the strong counter. -/
def ExpiredReads (r : Run machine) (t k : ℕ) : Prop :=
  ∃ w, Runs r t k (.expiredLoad w)

/-- Position `k` is the last between `i` and `j` at which a `lock` of thread `t` read the
strong counter. -/
def LastRead (r : Run machine) (t i k j : ℕ) : Prop :=
  i < k ∧ k < j ∧ LockReads r t k ∧ ∀ m, k < m → m < j → ¬ LockReads r t m

theorem LockReads.last {r : Run machine} {t i k : ℕ} (h : LockReads r t k) (hik : i < k) :
    LastRead r t i k (k + 1) :=
  ⟨hik, Nat.lt_succ_self k, h, fun m h₁ h₂ => by omega⟩

theorem LastRead.extend {r : Run machine} {t i k j : ℕ} (h : LastRead r t i k j)
    (hread : ¬ LockReads r t j) : LastRead r t i k (j + 1) := by
  obtain ⟨hik, hkj, hk, hbetween⟩ := h
  refine ⟨hik, Nat.lt_succ_of_lt hkj, hk, fun m hkm hm => ?_⟩
  rcases Nat.lt_or_ge m j with hmj | hmj
  · exact hbetween m hkm hmj
  · obtain rfl : m = j := by omega
    exact hread

theorem not_reads_of_thread {r : Run machine} {t j : ℕ}
    (h : ∀ l, r.label j = some l → l.thread ≠ t) : ¬ LockReads r t j := by
  rintro ⟨i, d, w, ⟨b, f, hl, -⟩, -⟩
  exact h _ hl rfl

/-- A thread that is at another instruction does not read. -/
theorem not_reads_of_instr {r : Run machine} {t j : ℕ} {f : Frame} {i : Instr} {rest : List Instr}
    (ht : (r.state j).threads[t]? = some (some f)) (hcode : f.code = i :: rest)
    (hi : ∀ d w, i ≠ .tryRetainLoad d w ∧ ∀ count, count ≠ 0 → i ≠ .tryRetainCas count d w) :
    ¬ LockReads r t j := by
  rintro ⟨x, d, w, ⟨b, g, -, hg, hx⟩, hread⟩
  cases ht.symm.trans hg
  rw [hcode] at hx
  cases hx
  rcases hread with rfl | ⟨count, hcount, rfl⟩
  · exact (hi d w).1 rfl
  · exact (hi d w).2 count hcount rfl

/-- The points of a `lock` on a weak handle with a control block, called at `i`, and what its
last read saw: an attempt carries the value, and the adoption of a reference and the result
depend on whether it was `0`. -/
inductive LockAt (r : Run machine) (t i m : ℕ) : Regs → List Instr → Prop
  | called {regs : Regs} (h : regs.self = .handle .weak true) :
      LockAt r t i m regs [.lock .other .self]
  | load {regs : Regs} : LockAt r t i m regs [.tryRetainLoad .other .self]
  | attempt {regs : Regs} {k : ℕ} (h : LastRead r t i k m) :
      LockAt r t i m regs [.tryRetainCas (r.state k).mem.strongRefs .other .self]
  | taken {regs : Regs} {k : ℕ} (h : LastRead r t i k m) (hpos : (r.state k).mem.strongRefs ≠ 0) :
      LockAt r t i m regs [.lockTargetLoad .other]
  | done {regs : Regs} {k : ℕ} {full : Bool} (h : LastRead r t i k m)
      (hfull : full = false ↔ (r.state k).mem.strongRefs = 0)
      (hresult : regs.other = .handle .strong full) : LockAt r t i m regs []

theorem LockAt.extend {r : Run machine} {t i m : ℕ} {regs : Regs} {code : List Instr}
    (h : LockAt r t i m regs code) (hread : ¬ LockReads r t m) :
    LockAt r t i (m + 1) regs code := by
  cases h with
  | called hself => exact .called hself
  | load => exact .load
  | attempt h => exact .attempt (h.extend hread)
  | taken h hpos => exact .taken (h.extend hread) hpos
  | done h hfull hresult => exact .done (h.extend hread) hfull hresult

/-- A step of the `lock` itself. What it read is what the next point carries; the reference
that the attempt took keeps the target pointer set until the handle adopts it. -/
theorem LockAt.step {r : Run machine} {t i m : ℕ} {b : Bool} {f : Frame} {x : Instr}
    {rest : List Instr} (hinv : Inv (r.state m)) (him : i < m) (hl : r.label m = some (.run t b))
    (ht : (r.state m).threads[t]? = some (some f)) (hcode : f.code = x :: rest)
    (h : LockAt r t i m f.regs (x :: rest)) :
    LockAt r t i (m + 1) (exec b (r.state m).mem f.regs x).2.1
      ((exec b (r.state m).mem f.regs x).2.2 ++ rest) := by
  have hruns : Runs r t m x := ⟨b, f, hl, ht, by rw [hcode]; rfl⟩
  cases h with
  | called hself =>
      have hget : f.regs.get .self = .handle .weak true := hself
      simp only [exec, hget, List.append_nil]
      exact .load
  | load => exact .attempt (LockReads.last ⟨_, _, _, hruns, .inl rfl⟩ him)
  | attempt hlast =>
      simp only [exec]
      split
      · -- the loop ended on a count of `0`
        rename_i hzero
        refine .done (hlast.extend ?_) (by simp [hzero]) (Regs.get_set f.regs .other _)
        refine not_reads_of_instr ht hcode fun d w =>
          ⟨Instr.noConfusion, fun count hcount heq => ?_⟩
        exact hcount ((Instr.tryRetainCas.inj heq).1.symm.trans hzero)
      · rename_i hcount
        have hread : LastRead r t i m (m + 1) :=
          LockReads.last ⟨_, _, _, hruns, .inr ⟨_, hcount, rfl⟩⟩ him
        split
        · -- success: the count it read was not `0`
          rename_i hcas
          exact .taken hread (by rw [hcas.1]; exact hcount)
        · exact .attempt hread
  | taken hlast hpos =>
      have htarget := hinv.counted.target_of_lockTargetLoad (State.weight_le ht hcode (.ref .strong))
      refine .done (hlast.extend ?_) (iff_of_false Bool.true_eq_false_eq_False hpos) ?_
      · exact not_reads_of_instr ht hcode fun d w =>
          ⟨Instr.noConfusion, fun count _ => Instr.noConfusion⟩
      · show (f.regs.set .other (.handle .strong (r.state m).mem.target)).get .other = _
        rw [Regs.get_set, htarget]

/-- The points of an `expired` on a weak handle with a control block, and what its load
saw. -/
inductive ExpiredAt (r : Run machine) (t i m : ℕ) : Regs → List Instr → Prop
  | called {regs : Regs} (h : regs.self = .handle .weak true) :
      ExpiredAt r t i m regs [.expired .self]
  | load {regs : Regs} : ExpiredAt r t i m regs [.expiredLoad .self]
  | done {regs : Regs} {k : ℕ} (hik : i < k) (hkm : k < m) (hread : ExpiredReads r t k)
      (hanswer : regs.answer = true ↔ (r.state k).mem.strongRefs = 0) : ExpiredAt r t i m regs []

theorem ExpiredAt.extend {r : Run machine} {t i m : ℕ} {regs : Regs} {code : List Instr}
    (h : ExpiredAt r t i m regs code) : ExpiredAt r t i (m + 1) regs code := by
  cases h with
  | called hself => exact .called hself
  | load => exact .load
  | done hik hkm hread hanswer => exact .done hik (Nat.lt_succ_of_lt hkm) hread hanswer

theorem ExpiredAt.step {r : Run machine} {t i m : ℕ} {b : Bool} {f : Frame} {x : Instr}
    {rest : List Instr} (him : i < m) (hl : r.label m = some (.run t b))
    (ht : (r.state m).threads[t]? = some (some f)) (hcode : f.code = x :: rest)
    (h : ExpiredAt r t i m f.regs (x :: rest)) :
    ExpiredAt r t i (m + 1) (exec b (r.state m).mem f.regs x).2.1
      ((exec b (r.state m).mem f.regs x).2.2 ++ rest) := by
  cases h with
  | called hself =>
      have hget : f.regs.get .self = .handle .weak true := hself
      simp only [exec, hget, List.append_nil]
      exact .load
  | load =>
      refine .done him (Nat.lt_succ_self m) ⟨.self, b, f, hl, ht, by rw [hcode]; rfl⟩ ?_
      exact beq_iff_eq

/-! ## The law of weak handles -/

/-- What a returning `lock` saw, and returns. -/
theorem lock_result (r : Run machine) (hbound : ∀ k, (r.state k).held .strong < sizeMax)
    {t i j : ℕ} {w d : ℕ} {regs : Regs} {f : Frame} (h : Returns r t i j (.lock w d) regs f)
    (hself : regs.self = .handle .weak true) :
    ∃ full k, f.regs.other = .handle .strong full ∧ LastRead r t i k j ∧
      (full = false ↔ (r.state k).mem.strongRefs = 0) := by
  have hend : LockAt r t i j f.regs f.code := by
    refine h.induct (fun m g => LockAt r t i m g.regs g.code) (.called hself) ?_ ?_
    · intro m g _ hthread hat
      exact hat.extend (not_reads_of_thread hthread)
    · intro m b g x rest him hl ht hcode hat
      rw [hcode] at hat
      exact hat.step (run_inv r m fun i _ => hbound i) him hl ht hcode
  rw [h.done] at hend
  cases hend with
  | done hlast hfull hresult => exact ⟨_, _, hresult, hlast, hfull⟩

/-- What a returning `expired` saw, and answers. -/
theorem expired_result (r : Run machine) {t i j : ℕ} {w : ℕ} {regs : Regs} {f : Frame}
    (h : Returns r t i j (.expired w) regs f) (hself : regs.self = .handle .weak true) :
    ∃ k, i < k ∧ k < j ∧ ExpiredReads r t k ∧
      (f.regs.answer = true ↔ (r.state k).mem.strongRefs = 0) := by
  have hend : ExpiredAt r t i j f.regs f.code := by
    refine h.induct (fun m g => ExpiredAt r t i m g.regs g.code) (.called hself) ?_ ?_
    · intro m g _ _ hat
      exact hat.extend
    · intro m b g x rest him hl ht hcode hat
      rw [hcode] at hat
      exact hat.step him hl ht hcode
  rw [h.done] at hend
  cases hend with
  | done hik hkj hread hanswer => exact ⟨_, hik, hkj, hread, hanswer⟩

/-- A handle that a function in progress holds keeps its target alive. -/
theorem Inv.alive_of_get {s : State} (hinv : Inv s) {t : ℕ} {f : Frame}
    (ht : s.threads[t]? = some (some f)) {x : Reg} (hx : f.regs.get x = .handle .strong true) :
    s.mem.life = .alive := by
  have hframe : f.regs.weight (.ref .strong) ≤ s.tally (.ref .strong) :=
    Nat.le_trans (Nat.le_add_right _ _) (State.frame_weight_le ht _)
  exact hinv.counted.life_of_strong (Nat.lt_of_lt_of_le (Regs.ref_of_get hx) hframe)

/-- The handle that a `lock` returns keeps its target alive. -/
theorem Returns.alive {r : Run machine} {t i j : ℕ} {op : Op} {regs : Regs} {f : Frame}
    (h : Returns r t i j op regs f) (hinv : Inv (r.state j))
    (hfull : f.regs.other = .handle .strong true) :
    (r.state j).mem.life = .alive ∧ (r.state (j + 1)).mem.life = .alive := by
  have hlife := hinv.alive_of_get h.frame (x := .other) hfull
  refine ⟨hlife, ?_⟩
  rw [h.next]
  exact hlife

/-- Expiry is permanent and consistent, in every interleaving under the bound
on the outstanding strong references:

* a strong counter that has become `0` is `0` in every later state;
* every `lock` that returns, called on a weak handle with a control block, returns an empty
  handle exactly when the counter was `0` at its last read, and otherwise a handle to a
  target whose destructor has not started;
* every `expired` that returns, called on such a handle, answers whether the counter was `0`
  when it read it;
* after an `expired` on such a handle returned `true` or a `lock` on one returned an empty
  handle, every `lock` called later on such a handle returns an empty handle, and every
  `expired` called later returns `true`. -/
theorem expiry_permanent (r : Run machine) (hbound : ∀ k, (r.state k).held .strong < sizeMax) :
    (∀ i j, i ≤ j → (r.state i).mem.strongRefs = 0 → (r.state j).mem.strongRefs = 0) ∧
    (∀ t i j w d regs f, Returns r t i j (.lock w d) regs f → regs.self = .handle .weak true →
      ∃ full k, f.regs.other = .handle .strong full ∧
        (d, .handle .strong full) ∈ (r.state (j + 1)).pool ∧ LastRead r t i k j ∧
        (full = false ↔ (r.state k).mem.strongRefs = 0) ∧
        (full = true → (r.state j).mem.life = .alive ∧ (r.state (j + 1)).mem.life = .alive)) ∧
    (∀ t i j w regs f, Returns r t i j (.expired w) regs f → regs.self = .handle .weak true →
      ∃ k, i < k ∧ k < j ∧ ExpiredReads r t k ∧
        (f.regs.answer = true ↔ (r.state k).mem.strongRefs = 0)) ∧
    (∀ t i j, LockReturns r t i j false ∨ ExpiredReturns r t i j true →
      (∀ t' i' j' full, j < i' → LockReturns r t' i' j' full → full = false) ∧
      (∀ t' i' j' answer, j < i' → ExpiredReturns r t' i' j' answer → answer = true)) := by
  refine ⟨fun i j hij => strong_zero_stable r hbound hij, ?_, ?_, ?_⟩
  · intro t i j w d regs f h hself
    obtain ⟨full, k, hresult, hlast, hfull⟩ := lock_result r hbound h hself
    refine ⟨full, k, hresult, hresult ▸ h.mem_pool rfl, hlast, hfull, ?_⟩
    rintro rfl
    exact h.alive (run_inv r j fun i _ => hbound i) hresult
  · intro t i j w regs f h hself
    exact expired_result r h hself
  · intro t i j h
    -- the first answer was given on a counter that was `0` before `j`
    have hzero : (r.state j).mem.strongRefs = 0 := by
      rcases h with ⟨w, d, regs, f, hret, hself, hempty⟩ | ⟨w, regs, f, hret, hself, htrue⟩
      · obtain ⟨full, k, hresult, hlast, hfull⟩ := lock_result r hbound hret hself
        cases hempty.symm.trans hresult
        exact strong_zero_stable r hbound hlast.2.1.le (hfull.mp rfl)
      · obtain ⟨k, -, hkj, -, hanswer⟩ := expired_result r hret hself
        exact strong_zero_stable r hbound hkj.le (hanswer.mp htrue)
    -- what a later call reads, it reads after `j`
    constructor
    · rintro t' i' j' full hi' ⟨w, d, regs, f, hret, hself, hresult⟩
      obtain ⟨full', k, hresult', hlast, hfull⟩ := lock_result r hbound hret hself
      cases hresult.symm.trans hresult'
      have hik : i' < k := hlast.1
      exact hfull.mpr (strong_zero_stable r hbound (by omega) hzero)
    · rintro t' i' j' answer hi' ⟨w, regs, f, hret, hself, rfl⟩
      obtain ⟨k, hik, -, -, hanswer⟩ := expired_result r hret hself
      exact hanswer.mpr (strong_zero_stable r hbound (by omega) hzero)

/-- A `lock` that loads the counter while the last strong handle still counts,
and attempts its CAS after that handle's `fetch_sub`; it returns empty, and an `expired`
called after it returns `true`. -/
def lostRaceLabels : List Label :=
  [.call 0 (.weakFromStrong 1 0), .run 0 false, .run 0 false, .run 0 false, .run 0 false,
    .call 0 (.destroy .strong 0), .call 1 (.lock 1 2), .run 1 false, .run 0 false,
    .run 1 false, .run 0 false, .run 1 false, .run 1 false, .run 1 false,
    .call 1 (.expired 1), .run 1 false, .run 1 false, .run 1 false]

def lostRaceRun : Run machine :=
  Run.ofLabels machine (makeIntrusive 2 2) init_twoThreads lostRaceLabels

theorem expiry_permanent_lost_race :
    LockReturns lostRaceRun 1 6 13 false ∧
      (∀ answer, ExpiredReturns lostRaceRun 1 14 17 answer → answer = true) ∧
      ∀ j, 13 ≤ j → (lostRaceRun.state j).mem.strongRefs = 0 := by
  have h := expiry_permanent lostRaceRun
    (Run.forall_ofLabels (fun s : State => s.held .strong < sizeMax) _ lostRaceLabels
      (by decide +kernel))
  have hlock : LockReturns lostRaceRun 1 6 13 false := by
    refine ⟨1, 2, ⟨.handle .weak true, .raw, .raw, false⟩,
      ⟨1, some 2, ⟨.handle .weak true, .handle .strong false, .raw, false⟩, []⟩, ?_, rfl, rfl⟩
    have hquiet : ∀ m < 13, 6 < m → lostRaceRun.label m = some (.run 0 false) ∨
        lostRaceRun.label m = some (.run 1 false) := by decide +kernel
    refine ⟨by decide, by decide +kernel, ⟨_, rfl⟩, ?_, by decide +kernel, rfl, false,
      by decide +kernel⟩
    intro m h₁ h₂ op hl
    rcases hquiet m h₂ h₁ with hrun | hrun <;> cases hrun.symm.trans hl
  refine ⟨hlock, ?_, ?_⟩
  · intro answer hanswer
    exact (h.2.2.2 1 6 13 (.inl hlock)).2 1 14 17 answer (by decide) hanswer
  · intro j hj
    exact h.1 13 j hj (by decide +kernel)

end Gradyx.IntrusivePtr
