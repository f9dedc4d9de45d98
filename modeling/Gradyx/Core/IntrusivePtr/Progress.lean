import Gradyx.Core.IntrusivePtr.Saturation
import Gradyx.Lib.Potential

/-!
# IntrusivePtr — no call waits for another

The retry loops of `increment_ref_count` and `try_retain_strong_ref` hold no lock.
A CAS attempt that does not fail spuriously fails only when another thread changed
the counter, and every member function changes a counter a few times at most.

* `Instr.cost` are the steps of an instruction and its helpers, and one step of each
  thread for every change of a counter that it makes; `Instr.stale` is the extra
  attempt of a thread whose counter was changed.
* `State.credit` pays for all calls in progress and for one call of each idle thread.
* `exec_cost`: what one instruction pays.
* `steps_amortised`: the steps of a run are paid by its returns.
* `returns_alone`: an interrupted call returns when its thread runs alone.
-/

namespace Gradyx.IntrusivePtr

open Gradyx.Lib

/-! ## Costs -/

/-- The steps of the instruction and of the helpers it calls, and `n` more for each
change of a counter. -/
def Instr.cost (n : ℕ) : Instr → ℕ
  | .nullConstruct .. | .moveConstruct .. | .exchangeInto .. | .swap .. | .endLifetime _ => 1
  | .deleteControl | .freeTarget | .deleteTarget false | .lockTargetLoad _ | .expiredLoad _ => 1
  | .expired _ => 2
  | .copyConstruct .. | .weakFromStrong .. => 3 + n
  | .incrementLoad .. => 2 + n
  | .incrementCas .. => 1 + n
  | .lock .. => 4 + n
  | .tryRetainLoad .. => 3 + n
  | .tryRetainCas .. => 2 + n
  | .reset .strong _ => 7 + 2 * n
  | .reset .weak _ => 3 + n
  | .releaseFetchSub .strong => 6 + 2 * n
  | .releaseFetchSub .weak => 2 + n
  | .targetExchange => 5 + n
  | .deleteTarget true => 4 + n
  | .baseDestructor => 3 + n

/-- A CAS attempt that will fail: the counter is not what the thread saw. -/
def Instr.stale (m : Memory) : Instr → ℕ
  | .incrementCas k current _ _ => if m.refs k = current then 0 else 1
  | .tryRetainCas count _ _ => if m.strongRefs = count then 0 else 1
  | _ => 0

/-- The instructions that try again. -/
def Instr.retries : Instr → Bool
  | .incrementCas .. | .tryRetainCas .. => true
  | _ => false

theorem Instr.stale_le (m : Memory) (i : Instr) : i.stale m ≤ 1 := by
  cases i <;> simp only [stale] <;> (try split) <;> omega

theorem Instr.stale_of_retries {i : Instr} (h : i.retries = false) (m : Memory) :
    i.stale m = 0 := by
  cases i <;> first | rfl | cases h

/-- Only a change of a counter makes an attempt stale. -/
theorem Instr.stale_congr {m m' : Memory} (h : ∀ k, m'.refs k = m.refs k) (i : Instr) :
    i.stale m' = i.stale m := by
  have hstrong : m'.strongRefs = m.strongRefs := h .strong
  cases i <;> simp only [stale, h, hstrong]

/-- The extra attempt of the steps that are left. -/
def retry (m : Memory) : List Instr → ℕ
  | [] => 0
  | i :: _ => i.stale m

theorem retry_le (m : Memory) (code : List Instr) : retry m code ≤ 1 := by
  cases code with
  | nil => exact Nat.zero_le 1
  | cons i code => exact i.stale_le m

theorem retry_congr {m m' : Memory} (h : ∀ k, m'.refs k = m.refs k) (code : List Instr) :
    retry m' code = retry m code := by
  cases code with
  | nil => rfl
  | cons i code => exact i.stale_congr h

/-- No attempt stands behind another step. -/
theorem retry_append (m : Memory) (code : List Instr) {rest : List Instr}
    (h : ∀ i ∈ rest, i.retries = false) : retry m (code ++ rest) = retry m code := by
  cases code with
  | cons i code => rfl
  | nil =>
      cases rest with
      | nil => rfl
      | cons i rest => exact Instr.stale_of_retries (h i List.mem_cons_self) m

/-- What is left to pay for the steps that an instruction pushed. -/
def leftover (n : ℕ) (m : Memory) (code : List Instr) : ℕ :=
  tally (Instr.cost n) code + retry m code

/-! ## One instruction -/

/-- A step that is paid for: the spurious failures are free. -/
def paid (spurious : Bool) (i : Instr) : ℕ := if spurious && i.retries then 0 else 1

theorem paid_le (b : Bool) (i : Instr) : paid b i ≤ 1 := by
  unfold paid
  split <;> omega

/-- An attempt that fails: the counter had changed, or the failure is spurious. -/
theorem failure_cost {count current : ℕ} {b : Bool} {i : Instr} (hi : i.retries = true)
    (h : ¬ (count = current ∧ b = false)) : paid b i ≤ if count = current then 0 else 1 := by
  by_cases hsame : count = current
  · have hb : b = true := by simpa [hsame] using h
    rw [hb, if_pos hsame, paid, hi]
    exact le_rfl
  · rw [if_neg hsame]
    exact paid_le b i

/-- An instruction that leaves the counters alone pays its step; one that changes a
counter pays for a retry of every thread as well. A spurious failure is free. -/
theorem exec_cost (n : ℕ) (b : Bool) (m : Memory) (r : Regs) (i : Instr)
    (hlive : (exec b m r i).1.terminated = false) :
    ((∀ k, (exec b m r i).1.refs k = m.refs k) ∧
      leftover n (exec b m r i).1 (exec b m r i).2.2 + paid b i ≤ i.cost n + i.stale m) ∨
    leftover n (exec b m r i).1 (exec b m r i).2.2 + paid b i + n ≤ i.cost n := by
  have hpaid := paid_le b i
  cases i with
  -- a CAS attempt: the change of the counter, or a failure
  | incrementCas k current d s =>
      simp only [exec] at hlive ⊢
      split
      · next hmax =>
          rw [if_pos hmax] at hlive
          cases hlive
      · split
        · right
          simp only [leftover, retry, tally_nil, Instr.cost]
          omega
        · next hcas =>
            left
            refine ⟨Memory.touchControl_refs m, ?_⟩
            have := failure_cost (i := .incrementCas k current d s) rfl hcas
            simp only [leftover, retry, tally_cons, tally_nil, Instr.cost, Instr.stale,
              Memory.touchControl_refs, if_true]
            omega
  | tryRetainCas count d w =>
      simp only [exec]
      split
      · left
        refine ⟨fun _ => rfl, ?_⟩
        simp only [leftover, retry, tally_nil, Instr.cost]
        omega
      · split
        · right
          simp only [leftover, retry, tally_cons, tally_nil, Instr.cost, Instr.stale]
          omega
        · next hcas =>
            left
            refine ⟨Memory.touchControl_refs m, ?_⟩
            have := failure_cost (i := .tryRetainCas count d w) rfl hcas
            simp only [leftover, retry, tally_cons, tally_nil, Instr.cost, Instr.stale,
              Memory.touchControl_strongRefs, if_true]
            omega
  -- a `fetch_sub`
  | releaseFetchSub k =>
      right
      cases k <;> simp only [exec, releaseStrongRef, releaseWeakRef] <;> split <;>
        simp only [leftover, retry, tally_cons, tally_nil, Instr.cost, Instr.stale] <;> omega
  | baseDestructor =>
      right
      simp only [exec, releaseWeakRef]
      split <;> simp only [leftover, retry, tally_cons, tally_nil, Instr.cost, Instr.stale,
        List.nil_append, List.cons_append] <;> omega
  -- the other instructions change no counter
  | copyConstruct k d s =>
      left
      simp only [exec]
      split
      · refine ⟨Memory.touchTarget_ite_refs m _, ?_⟩
        simp only [leftover, retry, tally_cons, tally_nil, Instr.cost, Instr.stale]
        omega
      · refine ⟨fun _ => rfl, ?_⟩
        simp only [leftover, retry, tally_nil, Instr.cost]
        omega
  | reset k x =>
      left
      simp only [exec]
      split
      · refine ⟨Memory.touchTarget_ite_refs m _, ?_⟩
        cases k <;> simp only [leftover, retry, tally_cons, tally_nil, Instr.cost, Instr.stale] <;>
          omega
      · refine ⟨fun _ => rfl, ?_⟩
        cases k <;> simp only [leftover, retry, tally_nil, Instr.cost] <;> omega
  | weakFromStrong d s =>
      left
      simp only [exec]
      split
      · refine ⟨Memory.touchTarget_refs m, ?_⟩
        simp only [leftover, retry, tally_cons, tally_nil, Instr.cost, Instr.stale]
        omega
      · refine ⟨fun _ => rfl, ?_⟩
        simp only [leftover, retry, tally_nil, Instr.cost]
        omega
  | lock d w | expired w =>
      left
      simp only [exec]
      split <;> refine ⟨fun _ => rfl, ?_⟩ <;>
        simp only [leftover, retry, tally_cons, tally_nil, Instr.cost, Instr.stale] <;> omega
  | incrementLoad k d s | tryRetainLoad d w =>
      left
      refine ⟨Memory.touchControl_refs m, ?_⟩
      -- the value just loaded is not stale
      simp only [exec, leftover, retry, tally_cons, tally_nil, Instr.cost, Instr.stale,
        Memory.touchControl_refs, Memory.touchControl_strongRefs, if_true]
      omega
  | deleteTarget target =>
      left
      refine ⟨fun k => by cases target <;> cases k <;> rfl, ?_⟩
      cases target <;> simp only [exec, leftover, retry, tally_cons, tally_nil, Instr.cost,
        Instr.stale] <;> omega
  | targetExchange =>
      left
      refine ⟨fun k => by cases k <;> rfl, ?_⟩
      simp only [exec]
      cases m.target <;> simp only [leftover, retry, tally_cons, tally_nil, Instr.cost,
        Instr.stale] <;> omega
  | _ =>
      left
      refine ⟨fun k => by cases k <;> rfl, ?_⟩
      simp only [exec, leftover, retry, tally_nil, Instr.cost]
      omega

/-! ## Calls in progress -/

/-- A call that starts, or that an idle thread may start: its steps and its return. -/
def callCost (n : ℕ) : ℕ := 13 + 3 * n

def Frame.cost (n : ℕ) (f : Frame) : ℕ := 1 + tally (Instr.cost n) f.code

theorem body_cost (n : ℕ) (op : Op) : 1 + tally (Instr.cost n) op.body ≤ callCost n := by
  have hreset : ∀ k x, (Instr.reset k x).cost n ≤ 7 + 2 * n := by
    intro k x
    cases k <;> simp only [Instr.cost] <;> omega
  cases op with
  | copyAssign k d s =>
      have := hreset k .copy
      simp only [Op.body]
      split <;> simp only [tally_cons, tally_nil, Instr.cost, callCost] at this ⊢ <;> omega
  | moveAssign k d s =>
      have := hreset k .self
      simp only [Op.body]
      split <;> simp only [tally_cons, tally_nil, Instr.cost, callCost] at this ⊢ <;> omega
  | swap k a b =>
      simp only [Op.body]
      split <;> simp only [tally_cons, tally_nil, Instr.cost, callCost] <;> omega
  | reset k x | destroy k x =>
      have := hreset k .self
      simp only [Op.body, tally_cons, tally_nil, Instr.cost, callCost] at this ⊢
      omega
  | _ =>
      simp only [Op.body, tally_cons, tally_nil, Instr.cost, callCost]
      omega

/-- Only the step a thread is at can be a CAS attempt. -/
def Frame.Calm (f : Frame) : Prop := ∀ i ∈ f.code.tail, i.retries = false

theorem body_calm (op : Op) : ∀ i ∈ op.body, i.retries = false := by
  intro i hi
  cases op <;> simp only [Op.body] at hi <;> (try split at hi) <;>
    simp only [List.mem_cons, List.not_mem_nil, or_false] at hi <;>
    rcases hi with rfl | rfl | rfl | rfl <;> rfl

/-- Behind the step that an instruction pushes there is at most the end of the target. -/
theorem exec_tail (b : Bool) (m : Memory) (r : Regs) (i : Instr) :
    ∀ x ∈ (exec b m r i).2.2.tail, x = .freeTarget := by
  cases i with
  | baseDestructor =>
      simp only [exec, releaseWeakRef]
      split <;> simp
  | releaseFetchSub k =>
      cases k <;> simp only [exec, releaseWeakRef, releaseStrongRef] <;> split <;> simp
  | deleteTarget target => cases target <;> simp [exec]
  | incrementCas | tryRetainCas => simp only [exec]; split <;> (try split) <;> simp
  | copyConstruct | weakFromStrong | reset | lock | expired => simp only [exec]; split <;> simp
  | _ => simp [exec]

theorem exec_calm {b : Bool} {m : Memory} {f : Frame} {i : Instr} {rest : List Instr}
    (h : f.Calm) (hcode : f.code = i :: rest) :
    (f.proceed (exec b m f.regs i).2.1 ((exec b m f.regs i).2.2 ++ rest)).Calm := by
  intro x hx
  have hnew := exec_tail b m f.regs i
  have hrest : ∀ y ∈ rest, y.retries = false := by
    intro y hy
    exact h y (by rw [hcode]; exact hy)
  simp only [Frame.proceed] at hx
  cases hc : (exec b m f.regs i).2.2 with
  | nil =>
      rw [hc] at hx
      exact hrest x (List.mem_of_mem_tail hx)
  | cons y ys =>
      rw [hc] at hx hnew
      rcases List.mem_append.mp hx with hx | hx
      · rw [hnew x hx]
        rfl
      · exact hrest x hx

/-- What an instruction pushes was part of its cost. -/
theorem exec_pushes_le (n : ℕ) (b : Bool) (m : Memory) (r : Regs) (i : Instr) :
    tally (Instr.cost n) (exec b m r i).2.2 ≤ i.cost n := by
  cases i with
  | baseDestructor =>
      simp only [exec, releaseWeakRef]
      split <;> simp only [tally_cons, tally_nil, Instr.cost, List.nil_append,
        List.cons_append] <;> omega
  | releaseFetchSub k =>
      cases k <;> simp only [exec, releaseWeakRef, releaseStrongRef] <;> split <;>
        simp only [tally_cons, tally_nil, Instr.cost] <;> omega
  | deleteTarget target =>
      cases target <;> simp only [exec, tally_cons, tally_nil, Instr.cost] <;> omega
  | targetExchange =>
      simp only [exec]
      cases m.target <;> simp only [tally_cons, tally_nil, Instr.cost] <;> omega
  | incrementCas | tryRetainCas =>
      simp only [exec]
      split <;> (try split) <;> simp only [tally_cons, tally_nil, Instr.cost] <;> omega
  | reset k x =>
      simp only [exec]
      split <;> cases k <;> simp only [tally_cons, tally_nil, Instr.cost] <;> omega
  | copyConstruct | weakFromStrong | lock | expired =>
      simp only [exec]
      split <;> simp only [tally_cons, tally_nil, Instr.cost] <;> omega
  | _ =>
      simp only [exec, tally_cons, tally_nil, Instr.cost]
      omega

/-- No call in progress costs more than one that starts. -/
theorem run_frames (r : Run machine) (k : ℕ) :
    ∀ f, some f ∈ (r.state k).threads → f.Calm ∧ ∀ n, f.cost n ≤ callCost n := by
  refine r.invariant (fun s => ∀ f, some f ∈ s.threads → f.Calm ∧ ∀ n, f.cost n ≤ callCost n) ?_
    (fun s l s' => step_frames ?_ ?_) k
  · rintro s ⟨threads, storage, rfl⟩ f hf
    exact absurd (List.eq_of_mem_replicate hf) (Option.some_ne_none f)
  · intro pool pool' op regs _
    exact ⟨fun i hi => body_calm op i (List.mem_of_mem_tail hi), fun n => body_cost n op⟩
  · rintro b m f i rest ⟨hcalm, hcost⟩ hcode
    refine ⟨exec_calm hcalm hcode, fun n => ?_⟩
    have hold := hcost n
    have hpushes := exec_pushes_le n b m f.regs i
    simp only [Frame.cost, Frame.proceed, hcode, tally_cons, tally_append] at hold ⊢
    omega

/-! ## The credit of a state -/

/-- An idle thread keeps what its next call costs. -/
def threadCredit (n : ℕ) (m : Memory) : Option Frame → ℕ
  | none => callCost n
  | some f => f.cost n + retry m f.code

def State.credit (s : State) : ℕ :=
  if s.mem.terminated then 0 else Lib.tally (threadCredit s.threads.length s.mem) s.threads

/-- A change of a counter costs each thread one retry. -/
theorem threadCredit_le (n : ℕ) (m m' : Memory) (f : Option Frame) :
    threadCredit n m' f ≤ threadCredit n m f + 1 := by
  cases f with
  | none => exact Nat.le_succ _
  | some f =>
      have := retry_le m' f.code
      simp only [threadCredit]
      omega

theorem threadCredit_congr (n : ℕ) {m m' : Memory} (h : ∀ k, m'.refs k = m.refs k) :
    threadCredit n m' = threadCredit n m := by
  funext f
  cases f with
  | none => rfl
  | some f => simp only [threadCredit, retry_congr h]

/-- An instruction is paid for by its thread; a retry of the others too, when it changes a
counter. -/
theorem frame_cost (n : ℕ) (b : Bool) (m : Memory) {f : Frame} {i : Instr} {rest : List Instr}
    (hcode : f.code = i :: rest) (hcalm : f.Calm)
    (hlive : (exec b m f.regs i).1.terminated = false) :
    let f' := f.proceed (exec b m f.regs i).2.1 ((exec b m f.regs i).2.2 ++ rest)
    ((∀ k, (exec b m f.regs i).1.refs k = m.refs k) ∧
      threadCredit n (exec b m f.regs i).1 (some f') + paid b i ≤ threadCredit n m (some f)) ∨
    threadCredit n (exec b m f.regs i).1 (some f') + paid b i + n ≤ f.cost n := by
  intro f'
  have hrest : ∀ x ∈ rest, x.retries = false := by
    intro x hx
    exact hcalm x (by rw [hcode]; exact hx)
  have hnew : threadCredit n (exec b m f.regs i).1 (some f') =
      leftover n (exec b m f.regs i).1 (exec b m f.regs i).2.2 + 1 +
        Lib.tally (Instr.cost n) rest := by
    simp only [f', threadCredit, Frame.cost, Frame.proceed, tally_append, retry_append _ _ hrest,
      leftover]
    omega
  have hold : threadCredit n m (some f) = f.cost n + i.stale m := by
    simp only [threadCredit, hcode, retry]
  have hcost : f.cost n = i.cost n + 1 + Lib.tally (Instr.cost n) rest := by
    simp only [Frame.cost, hcode, tally_cons]
    omega
  rcases exec_cost n b m f.regs i hlive with ⟨hrefs, h⟩ | h
  · exact .inl ⟨hrefs, by omega⟩
  · exact .inr (by omega)

/-- The step is one of a thread in a function, and no spurious failure. -/
def State.moving (s : State) : Label → Bool
  | .call .. => false
  | .run t spurious =>
      !(spurious && s.threads[t]?.join.any fun f => f.code.head?.any Instr.retries)

/-- The step is the return of a call. -/
def State.returning (s : State) : Label → Bool
  | .call .. => false
  | .run t _ => s.threads[t]?.join.any fun f => f.code.isEmpty

theorem paid_eq {s : State} {t : ℕ} {f : Frame} {i : Instr} {rest : List Instr} (b : Bool)
    (ht : s.threads[t]? = some (some f)) (hcode : f.code = i :: rest) :
    (if s.moving (.run t b) then 1 else 0) = paid b i := by
  simp only [State.moving, ht, hcode, paid, Option.join_some, Option.any_some, List.head?_cons]
  cases b <;> cases i.retries <;> rfl

theorem credit_live {s : State} (h : s.mem.terminated = false) :
    s.credit = Lib.tally (threadCredit s.threads.length s.mem) s.threads :=
  if_neg (Bool.eq_false_iff.mp h)

theorem length_put (s : State) (t : ℕ) (f : Option Frame) :
    (s.put t f).threads.length = s.threads.length := List.length_set

theorem credit_put {s : State} (h : s.mem.terminated = false) (t : ℕ) (f : Option Frame) :
    (s.put t f).credit = Lib.tally (threadCredit s.threads.length s.mem) (s.threads.set t f) := by
  rw [credit_live (s := s.put t f) h, length_put]
  rfl

theorem step_length {s s' : State} {l : Label} (h : machine.step s l = some s') :
    s'.threads.length = s.threads.length := by
  obtain ⟨-, h⟩ := step_cases h
  rcases h with ⟨t, op, regs, pool, -, -, -, rfl⟩ | ⟨t, b, f, -, -, -, rfl⟩ |
    ⟨t, b, f, i, rest, -, -, -, rfl⟩ <;> exact length_put _ _ _

/-- The step lemma: every step is paid for, and a return brings the credit of a call. -/
theorem step_credit {s s' : State} {l : Label} (hstep : machine.step s l = some s')
    (hcalm : ∀ f, some f ∈ s.threads → f.Calm) :
    (if s.moving l then 1 else 0) + s'.credit ≤
      s.credit + if s.returning l then callCost s.threads.length else 0 := by
  obtain ⟨hlive, hcases⟩ := step_cases hstep
  rw [credit_live hlive]
  rcases hcases with ⟨t, op, regs, pool, rfl, ht, -, rfl⟩ | ⟨t, b, f, rfl, ht, hcode, rfl⟩ |
    ⟨t, b, f, i, rest, rfl, ht, hcode, rfl⟩
  · -- a call spends the credit of the idle thread
    have hset := tally_set (threadCredit s.threads.length s.mem)
      (some ⟨op.self, op.other, regs, op.body⟩) ht
    have hbody := body_cost s.threads.length op
    have hretry : retry s.mem op.body = 0 := retry_append s.mem [] (body_calm op)
    rw [credit_put (s := s.withPool pool) hlive]
    simp only [threadCredit, Frame.cost, hretry] at hset
    simp only [State.moving, State.returning, State.withPool_mem, State.withPool_threads]
    simp
    omega
  · -- a return brings it back
    have hset := tally_set (threadCredit s.threads.length s.mem) none ht
    have hreturn : s.returning (.run t b) = true := by simp [State.returning, ht, hcode]
    have hmove : (if s.moving (.run t b) then 1 else 0) ≤ 1 := by split <;> omega
    rw [credit_put (s := s.withPool (checkIn f s.pool)) hlive, hreturn, if_pos rfl]
    simp only [threadCredit, Frame.cost, hcode, tally_nil, retry] at hset
    simp only [State.withPool_mem, State.withPool_threads]
    omega
  · have hpaid := paid_le b i
    rw [paid_eq b ht hcode]
    by_cases hdead : (exec b s.mem f.regs i).1.terminated = true
    · -- the process terminates: no step is left
      have hmem := le_tally (threadCredit s.threads.length s.mem) (List.mem_of_getElem? ht)
      simp only [threadCredit, Frame.cost] at hmem
      have hspent : ((s.withMem (exec b s.mem f.regs i).1).put t
          (some (f.proceed (exec b s.mem f.regs i).2.1
            ((exec b s.mem f.regs i).2.2 ++ rest)))).credit = 0 := if_pos hdead
      rw [hspent]
      omega
    · have hlive' := Bool.eq_false_iff.mpr hdead
      have hset := tally_set (threadCredit s.threads.length (exec b s.mem f.regs i).1)
        (some (f.proceed (exec b s.mem f.regs i).2.1 ((exec b s.mem f.regs i).2.2 ++ rest))) ht
      rw [credit_put (s := s.withMem (exec b s.mem f.regs i).1) hlive']
      simp only [State.withMem_mem, State.withMem_threads]
      rcases frame_cost s.threads.length b s.mem hcode (hcalm f (List.mem_of_getElem? ht)) hlive' with
        ⟨hrefs, hcost⟩ | hcost
      · rw [threadCredit_congr _ hrefs] at hset hcost ⊢
        omega
      · have hothers := tally_le_add (threadCredit s.threads.length s.mem) _ (l := s.threads)
          fun f' _ => threadCredit_le s.threads.length s.mem (exec b s.mem f.regs i).1 f'
        have hkeep : f.cost s.threads.length ≤
            threadCredit s.threads.length (exec b s.mem f.regs i).1 (some f) := Nat.le_add_right _ _
        omega

/-! ## Runs -/

/-- At position `k` a thread takes a step that is no spurious failure. -/
def moves (r : Run machine) (k : ℕ) : Bool := (r.label k).any (r.state k).moving

/-- At position `k` a call returns. -/
def returns (r : Run machine) (k : ℕ) : Bool := (r.label k).any (r.state k).returning

theorem run_length (r : Run machine) (k : ℕ) :
    (r.state k).threads.length = (r.state 0).threads.length :=
  (r.relate (fun _ => True) (fun s s' => s'.threads.length = s.threads.length) (fun _ => rfl)
    (fun _ _ _ h₁ h₂ => h₂.trans h₁) (fun _ => trivial) (fun _ _ _ _ => step_length)
    (Nat.zero_le k))

theorem run_credit (r : Run machine) (k : ℕ) :
    (if moves r k then 1 else 0) + (r.state (k + 1)).credit ≤
      (r.state k).credit + if returns r k then callCost (r.state 0).threads.length else 0 := by
  unfold moves returns
  cases hl : r.label k with
  | none =>
      rw [r.stutter_of_none hl]
      simp
  | some l =>
      have hstep := step_credit (r.step_of_label hl) fun f hf => (run_frames r k f hf).1
      rwa [run_length r k] at hstep

/-- The calls in progress cost no more than one call of each thread, and a retry. -/
theorem credit_le (r : Run machine) (k : ℕ) :
    (r.state k).credit ≤
      (callCost (r.state 0).threads.length + 1) * (r.state 0).threads.length := by
  rw [← run_length r k]
  unfold State.credit
  split
  · exact Nat.zero_le _
  · have hall := tally_le_add (fun _ => 0) (threadCredit (r.state k).threads.length (r.state k).mem)
      (c := callCost (r.state k).threads.length + 1) (l := (r.state k).threads) ?_
    · rwa [tally_eq_zero _ fun _ _ => rfl, Nat.zero_add] at hall
    · intro f hf
      cases f with
      | none => exact Nat.le_trans (Nat.le_succ _) (Nat.le_add_left _ _)
      | some f =>
          have hcost := (run_frames r k f hf).2 (r.state k).threads.length
          have hretry := retry_le (r.state k).mem f.code
          simp only [threadCredit]
          omega

/-- In any stretch of any run, whatever the schedule: the steps of all threads together,
spurious failures apart, are at most a constant for each call that returned and for each
thread. So the retries of one thread are paid by the returns of others. -/
theorem steps_amortised (r : Run machine) (i m : ℕ) :
    let n := (r.state 0).threads.length
    Nat.count (fun k => moves r (i + k)) m ≤
      (14 + 3 * n) * (n + Nat.count (fun k => returns r (i + k)) m) := by
  intro n
  have hwork := r.work_le State.credit (fun k => moves r k) (fun k => returns r k) (callCost n)
    (run_credit r) i m
  have hcredit : (r.state i).credit ≤ (callCost n + 1) * n := credit_le r i
  have hcost : callCost n + 1 = 14 + 3 * n := by
    unfold callCost
    omega
  rw [hcost] at hcredit
  have hgain : callCost n * Nat.count (fun k => returns r (i + k)) m ≤
      (14 + 3 * n) * Nat.count (fun k => returns r (i + k)) m :=
    Nat.mul_le_mul_right _ (by omega)
  rw [Nat.mul_add]
  omega

/-- A thread in the middle of a function. -/
def State.Busy (s : State) (t : ℕ) : Prop :=
  s.mem.terminated = false ∧ ∃ f, s.threads[t]? = some (some f) ∧ f.Calm

/-- The thread's function returned, or the process terminated. -/
def State.Done (s : State) (t : ℕ) : Prop :=
  s.threads[t]? = some none ∨ s.mem.terminated = true

/-- What the thread has to pay when no other one moves. -/
def State.debt (s : State) (t : ℕ) : ℕ := s.threads[t]?.elim 0 (threadCredit 0 s.mem)

/-- The next step of a thread that is in the middle of a function is always there, and it is
paid for. -/
theorem step_alone {s : State} {t : ℕ} (h : s.Busy t) :
    ∃ s', machine.step s (.run t false) = some s' ∧
      (s'.Done t ∨ s'.Busy t ∧ s'.debt t < s.debt t) := by
  obtain ⟨hlive, f, hf, hcalm⟩ := h
  cases hcode : f.code with
  | nil =>
      refine ⟨(s.withPool (checkIn f s.pool)).put t none, ?_, .inl (.inl ?_)⟩
      · simp [machine, step, hlive, hf, hcode]
      · exact State.getElem?_put (s := s.withPool _) none hf
  | cons i rest =>
      refine ⟨(s.withMem (exec false s.mem f.regs i).1).put t
        (some (f.proceed (exec false s.mem f.regs i).2.1
          ((exec false s.mem f.regs i).2.2 ++ rest))), ?_, ?_⟩
      · simp [machine, step, hlive, hf, hcode]
      · by_cases hdead : (exec false s.mem f.regs i).1.terminated = true
        · exact .inl (.inr hdead)
        · have hlive' := Bool.eq_false_iff.mpr hdead
          have hget := State.getElem?_put (s := s.withMem (exec false s.mem f.regs i).1)
            (some (f.proceed (exec false s.mem f.regs i).2.1
              ((exec false s.mem f.regs i).2.2 ++ rest))) hf
          refine .inr ⟨⟨hlive', _, hget, exec_calm hcalm hcode⟩, ?_⟩
          rw [State.debt, State.debt, hget, hf]
          simp only [Option.elim_some, State.put_mem, State.withMem_mem]
          have hkeep : f.cost 0 ≤ threadCredit 0 s.mem (some f) := Nat.le_add_right _ _
          have hpaid : paid false i = 1 := rfl
          rcases frame_cost 0 false s.mem hcode hcalm hlive' with ⟨-, hcost⟩ | hcost <;> omega

/-- A call that other threads interrupted anywhere returns when its thread runs alone and
no attempt fails spuriously, after 15 steps at most; or the process terminates. -/
theorem returns_alone (r : Run machine) (k t : ℕ) (f : Frame)
    (hf : (r.state k).threads[t]? = some (some f)) (hlive : (r.state k).mem.terminated = false) :
    ∃ m ≤ 15, (machine.after (r.state k) (List.replicate m (.run t false)) m).Done t := by
  have hframe := run_frames r k f (List.mem_of_getElem? hf)
  refine machine.exists_after (.run t false) (State.Busy · t) (State.Done · t) (State.debt · t)
    (fun s => step_alone) ⟨hlive, f, hf, hframe.1⟩ (c := 14) ?_
  have hcost := hframe.2 0
  have hretry := retry_le (r.state k).mem f.code
  simp only [State.debt, hf, Option.elim_some, threadCredit, callCost] at hcost ⊢
  omega

/-- A `lock` between its load and its first attempt. -/
theorem returns_alone_race :
    ∃ m ≤ 15, (machine.after (raceRun.state 10) (List.replicate m (.run 1 false)) m).Done 1 :=
  returns_alone raceRun 10 1 ⟨1, some 2, ⟨.handle .weak true, .raw, .raw, false⟩,
    [.tryRetainCas 1 .other .self]⟩ (by decide +kernel) (by decide +kernel)

end Gradyx.IntrusivePtr
