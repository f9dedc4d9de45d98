import Gradyx.Core.IntrusivePtr.RelaxedSteps

/-!
# IntrusivePtr — expiry under stale loads

`lock` and `expired` decide by a load of the strong counter, which may be stale. A
stale `0` is still true: a counter that was `0` is `0` for good, so an earlier `0`
means a `0` now (`Past`). The other answer of `lock` rests on the attempt, which
reads the latest value.
-/

namespace Gradyx.IntrusivePtr.Relaxed

open Gradyx.Lib

/-- Every `0` that a load returned or may return is the counter's latest value. -/
structure Past (s : State) : Prop where
  values : 0 ∈ s.pastStrong → s.base.mem.strongRefs = 0
  attempts : ∀ (t : ℕ) (f : Frame) d w, s.base.threads[t]? = some (some f) →
    .tryRetainCas 0 d w ∈ f.code → s.base.mem.strongRefs = 0

variable {s s' : State} {l : Label}

/-- A load that returns `0`. -/
theorem Past.read (h : Past s) {choice : ℕ} (hread : s.read choice .strong = 0) :
    s.base.mem.strongRefs = 0 := by
  unfold State.read at hread
  rw [List.getD_eq_getElem?_getD] at hread
  cases hget : s.pastStrong[choice]? with
  | none =>
      rw [hget] at hread
      exact hread
  | some v =>
      rw [hget] at hread
      have hv : v = 0 := hread
      exact h.values (hv ▸ List.mem_of_getElem? hget)

theorem pastStrong_next (h : step s l = some s') :
    s'.pastStrong = s.base.mem.strongRefs :: s.pastStrong := by
  obtain ⟨-, hcases⟩ := step_cases h
  rcases hcases with ⟨t, op, regs, pool, -, -, -, rfl⟩ | ⟨t, load, f, -, -, -, rfl⟩ |
    ⟨t, load, f, i, rest, -, -, -, rfl⟩ | ⟨t, x, pool, -, -, -, rfl⟩ <;> rfl

/-- An attempt in a function in progress comes from a load. -/
theorem read_of_reread {choice : ℕ} {y : Instr} {d w : Reg}
    (h : .tryRetainCas 0 d w = reread (s.read choice) y) : s.read choice .strong = 0 := by
  cases y with
  | tryRetainCas count d' w' => exact (Instr.tryRetainCas.inj h).1.symm
  | _ => cases h

theorem body_no_attempt (op : Op) (d w : Reg) : .tryRetainCas 0 d w ∉ op.body := by
  intro hi
  cases op <;> simp only [Op.body] at hi <;> (try split at hi) <;>
    simp only [List.mem_cons, List.not_mem_nil, or_false, reduceCtorEq] at hi

theorem step_past (hinv : Inv s.base) (hstep : step s l = some s') (h : Past s) : Past s' := by
  have hzero := strong_zero_next hinv hstep
  constructor
  · rw [pastStrong_next hstep]
    intro hmem
    rcases List.mem_cons.mp hmem with heq | hmem
    · exact hzero heq.symm
    · exact hzero (h.values hmem)
  · intro t g d w hg hi
    rcases code_back hinv hstep hg hi with ⟨f, hf, hif⟩ | ⟨op, hop⟩ |
      ⟨load, f, i, rfl, -, y, -, hread⟩
    · exact hzero (h.attempts t f d w hf hif)
    · exact absurd hop (body_no_attempt op d w)
    · exact hzero (h.read (read_of_reread hread))

theorem init_past (h : machine.Init s) : Past s := by
  obtain ⟨threads, storage, rfl⟩ := h
  constructor
  · intro hmem
    cases hmem
  · intro t f d w ht hi
    have hidle : (List.replicate threads (none : Option Frame))[t]? = some (some f) := ht
    have hmem := List.mem_of_getElem? hidle
    cases (List.mem_replicate.mp hmem).2

/-! ## Calls -/

/-- Thread `t` calls `op` at position `i`, on the objects in `regs`, and the call returns at
position `j`, from the frame `f`. -/
structure Returns (r : Run machine) (t i j : ℕ) (op : Op) (regs : Regs) (f : Frame) : Prop where
  lt : i < j
  call : r.label i = some (.call t op)
  objects : ∃ pool, checkOut (r.state i).base.pool op = some (regs, pool)
  during : ∀ m, i < m → m < j → ∀ op', r.label m ≠ some (.call t op')
  frame : (r.state j).base.threads[t]? = some (some f)
  done : f.code = []
  ret : ∃ load, r.label j = some (.run t load)

/-- Where a function in progress comes from, unless the step called it: it is as it was, or
the thread executed its next instruction. -/
theorem frame_back {t : ℕ} {g : Frame} (h : step s l = some s')
    (hg : s'.base.threads[t]? = some (some g)) (hcall : ∀ op, l ≠ .call t op) :
    s.base.threads[t]? = some (some g) ∨
      ∃ load f i rest, l = .run t load ∧ s.base.threads[t]? = some (some f) ∧ f.code = i :: rest ∧
        g = f.proceed (exec (s.read load.choice) load s.base.mem f.regs i).2.1
          ((exec (s.read load.choice) load s.base.mem f.regs i).2.2 ++ rest) := by
  obtain ⟨-, hcases⟩ := step_cases h
  rcases hcases with ⟨t', op, regs, pool, rfl, ht, -, rfl⟩ | ⟨t', load, f, rfl, ht, -, rfl⟩ |
    ⟨t', load, f, i, rest, rfl, ht, hcode, rfl⟩ | ⟨t', x, pool, rfl, ht, -, rfl⟩
  · replace hg := (getElem?_set ht t).symm.trans hg
    split at hg
    · next heq =>
        subst heq
        exact absurd rfl (hcall op)
    · exact .inl hg
  · replace hg := (getElem?_set ht t).symm.trans hg
    split at hg
    · cases hg
    · exact .inl hg
  · replace hg := (getElem?_set ht t).symm.trans hg
    split at hg
    · next heq =>
        subst heq
        cases hg
        exact .inr ⟨load, f, i, rest, rfl, ht, hcode, rfl⟩
    · exact .inl hg
  · exact .inl hg

/-- The frame of a call that was just begun. -/
theorem frame_of_call {t : ℕ} {op : Op} {regs : Regs} {pool : List (ℕ × Slot)}
    (h : step s (.call t op) = some s') (hout : checkOut s.base.pool op = some (regs, pool)) :
    s'.base.threads[t]? = some (some ⟨op.self, op.other, regs, op.body⟩) := by
  obtain ⟨-, hcases⟩ := step_cases h
  rcases hcases with ⟨t', op', regs', pool', hl, ht, hout', rfl⟩ | ⟨t', load, f, hl, -⟩ |
    ⟨t', load, f, i, rest, hl, -⟩ | ⟨t', x, pool', hl, -⟩
  · cases hl
    cases hout.symm.trans hout'
    exact (getElem?_set ht t).trans (if_pos rfl)
  · cases hl
  · cases hl
  · cases hl

/-- What a call knows when it returns: what it knows when it begins, and keeps at every step
that leaves its frame alone and at every step of its own. -/
theorem Returns.induct {r : Run machine} {t i j : ℕ} {op : Op} {regs : Regs} {f : Frame}
    (h : Returns r t i j op regs f) (P : ℕ → Frame → Prop)
    (hbegin : P (i + 1) ⟨op.self, op.other, regs, op.body⟩)
    (hother : ∀ m g, P m g → P (m + 1) g)
    (hown : ∀ m load (g : Frame) x rest, r.label m = some (.run t load) →
      (r.state m).base.threads[t]? = some (some g) → g.code = x :: rest → P m g →
      P (m + 1) (g.proceed
        (exec ((r.state m).read load.choice) load (r.state m).base.mem g.regs x).2.1
        ((exec ((r.state m).read load.choice) load (r.state m).base.mem g.regs x).2.2 ++ rest))) :
    P j f := by
  obtain ⟨pool, hout⟩ := h.objects
  refine r.stretch (fun s g => s.base.threads[t]? = some (some g)) P h.lt ?_ ?_ h.frame
  · intro g hg
    cases (frame_of_call (r.step_of_label h.call) hout).symm.trans hg
    exact hbegin
  · intro m him hmj g hg
    cases hl : r.label m with
    | none =>
        rw [r.stutter_of_none hl] at hg
        exact ⟨g, hg, hother m g⟩
    | some l =>
        have hcall : ∀ op', l ≠ .call t op' := by
          rintro op' rfl
          exact h.during m him hmj op' hl
        rcases frame_back (r.step_of_label hl) hg hcall with
          hg' | ⟨load, g', x, rest, rfl, hg', hcode, rfl⟩
        · exact ⟨g, hg', hother m g⟩
        · exact ⟨g', hg', hown m load g' x rest hl hg' hcode⟩

/-- A return puts the objects of the call back, and changes nothing else. -/
theorem Returns.next {r : Run machine} {t i j : ℕ} {op : Op} {regs : Regs} {f : Frame}
    (h : Returns r t i j op regs f) : (r.state (j + 1)).base =
      ((r.state j).base.withPool (checkIn f (r.state j).base.pool)).put t none := by
  obtain ⟨load, hl⟩ := h.ret
  obtain ⟨-, hcases⟩ := step_cases (r.step_of_label hl)
  rcases hcases with ⟨t', op', regs', pool, hcall, -⟩ | ⟨t', load', g, hrun, ht, -, hs⟩ |
    ⟨t', load', g, x, rest, hrun, ht, hcode, -⟩ | ⟨t', x, pool, huse, -⟩
  · cases hcall
  · cases hrun
    cases h.frame.symm.trans ht
    rw [hs]
    rfl
  · cases hrun
    cases h.frame.symm.trans ht
    cases h.done.symm.trans hcode
  · cases huse

/-- The argument of a call is put back under its name. -/
theorem Returns.mem_pool {r : Run machine} {t i j o : ℕ} {op : Op} {regs : Regs} {f : Frame}
    (h : Returns r t i j op regs f) (ho : op.other = some o) :
    (o, f.regs.other) ∈ (r.state (j + 1)).base.pool := by
  have hname : f.otherName = op.other :=
    h.induct (fun _ g => g.otherName = op.other) rfl (fun _ _ hg => hg) fun _ _ _ _ _ _ _ _ hg => hg
  rw [h.next]
  show (o, f.regs.other) ∈ checkIn f (r.state j).base.pool
  simp only [checkIn, hname, ho]
  exact List.mem_cons_of_mem _ List.mem_cons_self

/-- A handle that a call returns keeps its target alive. -/
theorem Returns.alive {r : Run machine} {t i j : ℕ} {op : Op} {regs : Regs} {f : Frame}
    (h : Returns r t i j op regs f) (hinv : Inv (r.state j).base)
    (hfull : f.regs.other = .handle .strong true) :
    (r.state j).base.mem.life = .alive ∧ (r.state (j + 1)).base.mem.life = .alive := by
  have hlife := hinv.alive_of_get h.frame (x := .other) hfull
  refine ⟨hlife, ?_⟩
  rw [h.next]
  exact hlife

/-- The points of a `lock` on a weak handle with a control block: if the handle it builds
is empty, no strong reference is left. -/
inductive LockAt (s : State) : Regs → List Instr → Prop
  | called {regs : Regs} (h : regs.self = .handle .weak true) : LockAt s regs [.lock .other .self]
  | load {regs : Regs} : LockAt s regs [.tryRetainLoad .other .self]
  | attempt {regs : Regs} {count : ℕ} : LockAt s regs [.tryRetainCas count .other .self]
  | taken {regs : Regs} : LockAt s regs [.lockTargetLoad .other]
  | done {regs : Regs} {full : Bool} (hempty : full = false → s.base.mem.strongRefs = 0)
      (hresult : regs.other = .handle .strong full) : LockAt s regs []

/-- The points of an `expired`: if its answer is `true`, no strong reference is left. -/
inductive ExpiredAt (s : State) : Regs → List Instr → Prop
  | called {regs : Regs} (h : regs.self = .handle .weak true) : ExpiredAt s regs [.expired .self]
  | load {regs : Regs} : ExpiredAt s regs [.expiredLoad .self]
  | done {regs : Regs} (h : regs.answer = true → s.base.mem.strongRefs = 0) : ExpiredAt s regs []

theorem LockAt.next {regs : Regs} {code : List Instr} (h : LockAt s regs code)
    (hzero : s.base.mem.strongRefs = 0 → s'.base.mem.strongRefs = 0) : LockAt s' regs code := by
  cases h with
  | called hself => exact .called hself
  | load => exact .load
  | attempt => exact .attempt
  | taken => exact .taken
  | done hempty hresult => exact .done (fun hfull => hzero (hempty hfull)) hresult

theorem ExpiredAt.next {regs : Regs} {code : List Instr} (h : ExpiredAt s regs code)
    (hzero : s.base.mem.strongRefs = 0 → s'.base.mem.strongRefs = 0) : ExpiredAt s' regs code := by
  cases h with
  | called hself => exact .called hself
  | load => exact .load
  | done hanswer => exact .done fun htrue => hzero (hanswer htrue)

/-- A step of the `lock` itself. It gives up on a load that returned `0`, which is the latest
value; the reference that an attempt took keeps the target pointer set. -/
theorem LockAt.step {t : ℕ} {load : Load} {f : Frame} {x : Instr} {rest : List Instr}
    (hinv : Inv s.base) (hpast : Past s)
    (hzero : s.base.mem.strongRefs = 0 → s'.base.mem.strongRefs = 0)
    (ht : s.base.threads[t]? = some (some f)) (hcode : f.code = x :: rest)
    (h : LockAt s f.regs (x :: rest)) :
    LockAt s' (exec (s.read load.choice) load s.base.mem f.regs x).2.1
      ((exec (s.read load.choice) load s.base.mem f.regs x).2.2 ++ rest) := by
  cases h with
  | called hself =>
      have hget : f.regs.get .self = .handle .weak true := hself
      simp only [exec, IntrusivePtr.exec, hget, List.append_nil]
      exact .load
  | load => exact .attempt
  | @attempt count =>
      simp only [exec, IntrusivePtr.exec]
      split
      · rename_i hcount
        refine .done (fun _ => hzero (hpast.attempts t f .other .self ht ?_))
          (Regs.get_set f.regs .other _)
        rw [hcode, hcount]
        exact List.mem_cons_self
      · split
        · exact .taken
        · exact .attempt
  | taken =>
      have htarget := hinv.counted.target_of_lockTargetLoad
        (IntrusivePtr.State.weight_le ht hcode (.ref .strong))
      refine .done (fun hfull : true = false => absurd hfull Bool.true_eq_false_eq_False) ?_
      show (f.regs.set .other (.handle .strong (s.base.mem.target || load.early))).get .other = _
      rw [Regs.get_set, htarget, Bool.true_or]

theorem ExpiredAt.step {load : Load} {f : Frame} {x : Instr} {rest : List Instr} (hpast : Past s)
    (hzero : s.base.mem.strongRefs = 0 → s'.base.mem.strongRefs = 0)
    (h : ExpiredAt s f.regs (x :: rest)) :
    ExpiredAt s' (exec (s.read load.choice) load s.base.mem f.regs x).2.1
      ((exec (s.read load.choice) load s.base.mem f.regs x).2.2 ++ rest) := by
  cases h with
  | called hself =>
      have hget : f.regs.get .self = .handle .weak true := hself
      simp only [exec, IntrusivePtr.exec, hget, List.append_nil]
      exact .load
  | load =>
      refine .done fun htrue => ?_
      have hread : s.read load.choice .strong = 0 := beq_iff_eq.mp htrue
      exact hzero (hpast.read hread)

/-- Whatever values the loads return: a `lock` on a weak handle with a control block returns
an empty handle, and an `expired` on one returns true, only when no strong reference is left,
and then none is left for good; and a handle that is not empty, when `lock` returns it, points
to a target that is alive. -/
theorem stale_expiry (r : Run machine) (hbound : ∀ n, (r.state n).base.held .strong < sizeMax)
    (t i j : ℕ) (regs : Regs) (f : Frame) (hself : regs.self = .handle .weak true) :
    (∀ w d, Returns r t i j (.lock w d) regs f →
      ∃ full, f.regs.other = .handle .strong full ∧
        (d, .handle .strong full) ∈ (r.state (j + 1)).base.pool ∧
        (full = false → ∀ m ≥ j, (r.state m).base.mem.strongRefs = 0) ∧
        (full = true → (r.state j).base.mem.life = .alive ∧
          (r.state (j + 1)).base.mem.life = .alive)) ∧
    ∀ w, Returns r t i j (.expired w) regs f → f.regs.answer = true →
      ∀ m ≥ j, (r.state m).base.mem.strongRefs = 0 := by
  have hinv : ∀ n, Inv (r.state n).base := fun n => run_inv r n fun i _ => hbound i
  have hpast : ∀ n, Past (r.state n) := fun n =>
    (r.invariant_under (fun s _ => s.base.held .strong < sizeMax) (fun s => Inv s.base ∧ Past s)
      (fun _ hs => ⟨mem_init hs, init_past hs⟩)
      (fun _ _ _ hs hstep h => ⟨step_inv hs hstep h.1, step_past h.1 hstep h.2⟩) n
      fun i _ _ _ => hbound i).2
  have hstable : ∀ {n m : ℕ}, n ≤ m → (r.state n).base.mem.strongRefs = 0 →
      (r.state m).base.mem.strongRefs = 0 := fun hnm hzero =>
    r.stable (fun s => Inv s.base) (fun s => s.base.mem.strongRefs = 0) hinv
      (fun _ _ _ hi hstep => strong_zero_next hi hstep) hnm hzero
  constructor
  · intro w d h
    have hend : LockAt (r.state j) f.regs f.code := by
      refine h.induct (fun m g => LockAt (r.state m) g.regs g.code) (.called hself) ?_ ?_
      · intro m g hat
        exact hat.next (hstable (Nat.le_succ m))
      · intro m load g x rest _ ht hcode hat
        rw [hcode] at hat
        exact hat.step (hinv m) (hpast m) (hstable (Nat.le_succ m)) ht hcode
    rw [h.done] at hend
    cases hend with
    | @done full hempty hresult =>
        refine ⟨full, hresult, hresult ▸ h.mem_pool rfl,
          fun hfull m hm => hstable hm (hempty hfull), ?_⟩
        rintro rfl
        exact h.alive (hinv j) hresult
  · intro w h htrue m hm
    have hend : ExpiredAt (r.state j) f.regs f.code := by
      refine h.induct (fun m g => ExpiredAt (r.state m) g.regs g.code) (.called hself) ?_ ?_
      · intro m g hat
        exact hat.next (hstable (Nat.le_succ m))
      · intro m load g x rest _ _ hcode hat
        rw [hcode] at hat
        exact hat.step (hpast m) (hstable (Nat.le_succ m))
    rw [h.done] at hend
    cases hend with
    | done hanswer => exact hstable hm (hanswer htrue)

/-- A `lock` after the target is gone whose first load still returns `1`; the attempt on
the stale value fails, and `lock` gives up at the next. -/
def staleLabels : List Label :=
  let step t := .run t { choice := 0 }
  [.call 0 (.weakFromStrong 1 0), step 0, step 0, step 0, step 0,
    .call 0 (.destroy .strong 0), step 0, step 0, step 0, step 0, step 0, step 0, step 0, step 0,
    .call 1 (.lock 1 2), step 1, .run 1 { choice := 15 }, step 1, step 1, step 1]

def staleRun : Run machine :=
  Run.ofLabels machine { base := makeIntrusive 2 2 } init_twoThreads staleLabels

theorem stale_expiry_lock :
    (∃ f, (staleRun.state 17).At 1 f (.tryRetainCas 1 .other .self)) ∧
      (∃ f, Returns staleRun 1 14 19 (.lock 1 2) ⟨.handle .weak true, .raw, .raw, false⟩ f ∧
        f.regs.other = .handle .strong false) ∧
      ∀ m ≥ 19, (staleRun.state m).base.mem.strongRefs = 0 := by
  have hbound := Run.forall_ofLabels (M := machine) (fun s => s.base.held .strong < sizeMax)
    init_twoThreads staleLabels (by decide +kernel)
  have hquiet : ∀ m < 19, 14 < m → staleRun.label m = some (.run 1 { choice := 0 }) ∨
      staleRun.label m = some (.run 1 { choice := 15 }) := by decide +kernel
  have hlock : Returns staleRun 1 14 19 (.lock 1 2) ⟨.handle .weak true, .raw, .raw, false⟩
      ⟨1, some 2, ⟨.handle .weak true, .handle .strong false, .raw, false⟩, []⟩ := by
    refine ⟨by decide, by decide +kernel, ⟨_, rfl⟩, ?_, by decide +kernel, rfl, { choice := 0 },
      by decide +kernel⟩
    intro m h₁ h₂ op hl
    rcases hquiet m h₂ h₁ with hrun | hrun <;> cases hrun.symm.trans hl
  obtain ⟨full, hresult, -, hempty, -⟩ := (stale_expiry staleRun hbound 1 14 19 _ _ rfl).1 1 2 hlock
  cases hresult
  exact ⟨⟨_, rfl, rfl⟩, ⟨_, hlock, rfl⟩, hempty rfl⟩

end Gradyx.IntrusivePtr.Relaxed
