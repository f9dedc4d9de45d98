import Gradyx.Lib.Behavior

/-! # Objects with a lock

One object and any number of clients that call its member functions. The part
of a call before the lock checks the arguments; it ends the call, or it leaves
local variables for the part inside the lock, which is one step. All parts of
all calls interleave.

* `outside` and `inside` are the two parts; nothing else is known of the calls.
* `Rejected` and `Entered` say where in a run a call ends, and with what.
* The object changes only where a call enters (`next_object`), and a call that
  enters was admitted before (`admitted`); invariants and stability of the
  object follow from `inside` alone.
-/

namespace Gradyx.Lib

/-- An object of type `σ` with calls `κ` that return `ο`. The local variables of
a call are a `ν`; what the environment decides inside the lock is an `ε`. -/
structure Monitor (σ κ ν ε ο : Type) where
  init : σ
  /-- `none` when the call cannot be made; an error ends the call. -/
  outside : σ → κ → Option (Except ο ν)
  inside : σ → κ → ν → ε → σ × ο

namespace Monitor

variable {σ κ ν ε ο : Type}

/-- A client: between calls, with the result of its last one, or at the lock. -/
inductive Client (κ ν ο : Type) where
  | idle (last : Option ο)
  | atLock (call : κ) (locals : ν)
deriving DecidableEq, Repr

structure State (σ κ ν ο : Type) where
  object : σ
  clients : List (Client κ ν ο)
deriving DecidableEq, Repr

inductive Label (κ ε : Type) where
  | call (client : ℕ) (call : κ)
  | enter (client : ℕ) (choice : ε)
deriving DecidableEq, Repr

namespace State

/-- The next state of one client. -/
def setClient (s : State σ κ ν ο) (i : ℕ) (client : Client κ ν ο) : State σ κ ν ο :=
  { s with clients := s.clients.set i client }

theorem getElem?_setClient (s : State σ κ ν ο) {i : ℕ} (hi : i < s.clients.length)
    (client : Client κ ν ο) (j : ℕ) :
    (s.setClient i client).clients[j]? = if i = j then some client else s.clients[j]? := by
  by_cases h : i = j
  · subst h
    rw [if_pos rfl]
    exact List.getElem?_set_self hi
  · rw [if_neg h]
    exact List.getElem?_set_ne h

end State

variable (M : Monitor σ κ ν ε ο)

def step (s : State σ κ ν ο) : Label κ ε → Option (State σ κ ν ο)
  | .call i call =>
      match s.clients[i]?, M.outside s.object call with
      | some (.idle _), some (.error result) => some (s.setClient i (.idle (some result)))
      | some (.idle _), some (.ok locals) => some (s.setClient i (.atLock call locals))
      | _, _ => none
  | .enter i choice =>
      match s.clients[i]? with
      | some (.atLock call locals) =>
          let (object, result) := M.inside s.object call locals choice
          some ({ s with object }.setClient i (.idle (some result)))
      | _ => none

/-- Runs of any number of clients. -/
def machine : Machine (State σ κ ν ο) (Label κ ε) where
  Init s := s.object = M.init ∧ ∀ client ∈ s.clients, client = .idle none
  step := M.step

variable {M}

/-- What a step can do. -/
theorem step_cases {s s' : State σ κ ν ο} {l : Label κ ε} (h : M.step s l = some s') :
    (∃ i call result, l = .call i call ∧ M.outside s.object call = some (.error result) ∧
      i < s.clients.length ∧ s' = s.setClient i (.idle (some result))) ∨
    (∃ i call locals, l = .call i call ∧ M.outside s.object call = some (.ok locals) ∧
      i < s.clients.length ∧ s' = s.setClient i (.atLock call locals)) ∨
    ∃ i choice call locals, l = .enter i choice ∧
      s.clients[i]? = some (.atLock call locals) ∧ i < s.clients.length ∧
      s' = State.setClient ⟨(M.inside s.object call locals choice).1, s.clients⟩ i
        (.idle (some (M.inside s.object call locals choice).2)) := by
  cases l with
  | call i call =>
      simp only [step] at h
      split at h
      · next last result hi hout =>
          exact .inl ⟨i, call, result, rfl, hout, (List.getElem?_eq_some_iff.mp hi).1,
            (Option.some.inj h).symm⟩
      · next last locals hi hout =>
          exact .inr (.inl ⟨i, call, locals, rfl, hout, (List.getElem?_eq_some_iff.mp hi).1,
            (Option.some.inj h).symm⟩)
      · cases h
  | enter i choice =>
      simp only [step] at h
      split at h
      · next call locals hi =>
          exact .inr (.inr ⟨i, choice, call, locals, rfl, hi, (List.getElem?_eq_some_iff.mp hi).1,
            (Option.some.inj h).symm⟩)
      · cases h

variable (r : Run M.machine)

/-- The object at a position of the run. -/
def objectAt (k : ℕ) : σ := (r.state k).object

/-- The call was let through to the lock before position `k`. -/
def Admitted (k : ℕ) (call : κ) (locals : ν) : Prop :=
  ∃ j < k, M.outside (objectAt r j) call = some (.ok locals)

/-- At position `k` the client's call ends before the lock. -/
def Rejected (k i : ℕ) (call : κ) (result : ο) : Prop :=
  r.label k = some (.call i call) ∧ (r.state (k + 1)).clients[i]? = some (.idle (some result))

/-- At position `k` the client's call passes the lock, and ends. -/
def Entered (k i : ℕ) (call : κ) (result : ο) : Prop :=
  (∃ choice, r.label k = some (.enter i choice)) ∧
    (∃ locals, (r.state k).clients[i]? = some (.atLock call locals)) ∧
      (r.state (k + 1)).clients[i]? = some (.idle (some result))

def Returned (k i : ℕ) (call : κ) (result : ο) : Prop :=
  Rejected r k i call result ∨ Entered r k i call result

theorem objectAt_zero : objectAt r 0 = M.init := r.init.1

/-- A client at the lock was let through. -/
theorem admitted (k i : ℕ) {call : κ} {locals : ν}
    (h : (r.state k).clients[i]? = some (.atLock call locals)) : Admitted r k call locals := by
  induction k generalizing i with
  | zero =>
      have := r.init.2 _ (List.mem_of_getElem? h)
      cases this
  | succ k ih =>
      have hold : (r.state k).clients[i]? = some (.atLock call locals) →
          Admitted r (k + 1) call locals := by
        intro hi
        obtain ⟨j, hj, hout⟩ := ih i hi
        exact ⟨j, Nat.lt_succ_of_lt hj, hout⟩
      cases hl : r.label k with
      | none =>
          rw [r.stutter_of_none hl] at h
          exact hold h
      | some l =>
          rcases step_cases (r.step_of_label hl) with
            ⟨i', call', result, -, -, hlen, hs⟩ | ⟨i', call', locals', -, hout, hlen, hs⟩ |
              ⟨i', choice, call', locals', -, -, hlen, hs⟩
          · rw [hs, State.getElem?_setClient _ hlen] at h
            split at h
            · cases h
            · exact hold h
          · rw [hs, State.getElem?_setClient _ hlen] at h
            split at h
            · cases h
              exact ⟨k, Nat.lt_succ_self k, hout⟩
            · exact hold h
          · rw [hs, State.getElem?_setClient _ (by exact hlen)] at h
            split at h
            · cases h
            · exact hold h

/-- A rejected call leaves the object as it is. -/
theorem Rejected.spec {k i : ℕ} {call : κ} {result : ο} (h : Rejected r k i call result) :
    M.outside (objectAt r k) call = some (.error result) ∧
      objectAt r (k + 1) = objectAt r k := by
  obtain ⟨hl, hafter⟩ := h
  rcases step_cases (r.step_of_label hl) with
    ⟨i', call', result', hcall, hout, hlen, hs⟩ | ⟨i', call', locals', hcall, hout, hlen, hs⟩ |
      ⟨i', choice, call', locals', hcall, -, -, -⟩
  · cases hcall
    rw [hs, State.getElem?_setClient _ hlen, if_pos rfl] at hafter
    cases hafter
    exact ⟨hout, by rw [objectAt, hs]; rfl⟩
  · cases hcall
    rw [hs, State.getElem?_setClient _ hlen, if_pos rfl] at hafter
    cases hafter
  · cases hcall

/-- A call that passes the lock runs its part inside it on the object. -/
theorem Entered.spec {k i : ℕ} {call : κ} {result : ο} (h : Entered r k i call result) :
    ∃ locals choice, Admitted r k call locals ∧
      M.inside (objectAt r k) call locals choice = (objectAt r (k + 1), result) := by
  obtain ⟨⟨choice, hl⟩, ⟨locals, hbefore⟩, hafter⟩ := h
  rcases step_cases (r.step_of_label hl) with
    ⟨i', call', result', hcall, -, -, -⟩ | ⟨i', call', locals', hcall, -, -, -⟩ |
      ⟨i', choice', call', locals', hcall, hbefore', hlen, hs⟩
  · cases hcall
  · cases hcall
  · cases hcall
    cases hbefore.symm.trans hbefore'
    rw [hs, State.getElem?_setClient _ (by exact hlen), if_pos rfl] at hafter
    cases hafter
    refine ⟨locals, choice, admitted r k i hbefore, Prod.ext ?_ rfl⟩
    rw [objectAt, objectAt, hs]
    rfl

/-- The object changes only where a call passes the lock. -/
theorem next_object (k : ℕ) :
    objectAt r (k + 1) = objectAt r k ∨
      ∃ i call result, Entered r k i call result := by
  cases hl : r.label k with
  | none =>
      left
      rw [objectAt, r.stutter_of_none hl]
      rfl
  | some l =>
      rcases step_cases (r.step_of_label hl) with
        ⟨i, call, result, -, -, -, hs⟩ | ⟨i, call, locals, -, -, -, hs⟩ |
          ⟨i, choice, call, locals, rfl, hbefore, hlen, hs⟩
      · left
        rw [objectAt, hs]
        rfl
      · left
        rw [objectAt, hs]
        rfl
      · right
        refine ⟨i, call, (M.inside (r.state k).object call locals choice).2, ⟨choice, hl⟩,
          ⟨locals, hbefore⟩, ?_⟩
        rw [hs, State.getElem?_setClient _ (by exact hlen), if_pos rfl]

/-- Invariants of the object, with what the first part of a call says of its
local variables. -/
theorem object_invariant (Inv : σ → Prop) (Local : κ → ν → Prop) (hinit : Inv M.init)
    (hlocal : ∀ s call locals, M.outside s call = some (.ok locals) → Local call locals)
    (hinside : ∀ s call locals choice, Inv s → Local call locals →
      Inv (M.inside s call locals choice).1) (k : ℕ) : Inv (objectAt r k) := by
  induction k with
  | zero =>
      rw [objectAt_zero]
      exact hinit
  | succ k ih =>
      rcases next_object r k with heq | ⟨i, call, result, h⟩
      · rw [heq]
        exact ih
      · obtain ⟨locals, choice, ⟨j, -, hout⟩, hin⟩ := h.spec
        have := hinside _ call locals choice ih (hlocal _ call locals hout)
        rwa [hin] at this

/-- What no call undoes holds for ever once it holds. -/
theorem object_stable (P : σ → Prop)
    (hinside : ∀ s call locals choice, P s → P (M.inside s call locals choice).1) {i j : ℕ}
    (hij : i ≤ j) (hi : P (objectAt r i)) : P (objectAt r j) := by
  induction j, hij using Nat.le_induction with
  | base => exact hi
  | succ j _ ih =>
      rcases next_object r j with heq | ⟨client, call, result, h⟩
      · rw [heq]
        exact ih
      · obtain ⟨locals, choice, -, hin⟩ := h.spec
        have := hinside _ call locals choice ih
        rwa [hin] at this

/-- What does not hold at the start was established by a call. -/
theorem exists_entered (P : σ → Prop) (hinit : ¬ P M.init) {k : ℕ} (hk : P (objectAt r k)) :
    ∃ j < k, ¬ P (objectAt r j) ∧ P (objectAt r (j + 1)) ∧
      ∃ i call result, Entered r j i call result := by
  obtain ⟨j, hj, hbefore, hafter⟩ :=
    r.exists_established (fun s => P s.object) (by rwa [r.init.1]) hk
  refine ⟨j, hj, hbefore, hafter, ?_⟩
  rcases next_object r j with heq | h
  · rw [objectAt] at heq
    rw [heq] at hafter
    exact absurd hafter hbefore
  · exact h

end Monitor

end Gradyx.Lib
