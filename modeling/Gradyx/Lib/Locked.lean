import Gradyx.Lib.Behavior
import Gradyx.Lib.Tally

/-! # Objects behind a lock, access by access

One object, its lock, and one step for each access to the object. A section that
holds the lock is a tree of accesses, and sections of different clients
interleave as far as the lock lets them: it is owned by one client alone, or by
any number of clients that only read.

* `Race`: two clients inside, and the next access of one of them writes.
* `Safe` is the invariant. It leaves no race and no undefined behaviour, and no
  client waits for a lock that nobody gives back (`Safe.unblocked`).
-/

namespace Gradyx.Lib

variable {σ κ ν ε ο : Type}

/-- The accesses of one section. An access replaces the object, and what it saw
decides how the section goes on. -/
inductive Section (σ ο : Type) where
  | ret (result : ο)
  | undefined
  | access (effect : σ → σ) (next : σ → Section σ ο)

namespace Section

/-- The section with nothing in between, `none` if it is undefined. -/
def run : Section σ ο → σ → Option (σ × ο)
  | ret result, s => some (s, result)
  | undefined, _ => none
  | access effect next, s => (next s).run (effect s)

/-- No access writes. -/
def ReadOnly : Section σ ο → Prop
  | ret _ | undefined => True
  | access effect next => (∀ s, effect s = s) ∧ ∀ s, (next s).ReadOnly

/-- A section that only reads leaves the object as it is. -/
theorem ReadOnly.run_fst {rest : Section σ ο} (h : rest.ReadOnly) {s s' : σ} {result : ο}
    (hrun : rest.run s = some (s', result)) : s' = s := by
  induction rest generalizing s with
  | ret result' =>
      cases hrun
      rfl
  | undefined => cases hrun
  | access effect next ih =>
      rw [run, h.1 s] at hrun
      exact ih s (h.2 s) hrun

end Section

/-- An object with its lock. The two last fields are what the code must see to:
a section by itself is defined, and one that shares the lock only reads. -/
structure Locked (σ κ ν ε ο : Type) where
  init : σ
  outside : κ → Except ο ν
  exclusive : κ → ν → Bool
  body : κ → ν → ε → Section σ ο
  defined : ∀ call locals choice s, ((body call locals choice).run s).isSome
  shared : ∀ call locals choice, exclusive call locals = false → (body call locals choice).ReadOnly

namespace Locked

/-- A client: between calls, at the lock, or inside with the rest of its section. -/
inductive Client (σ κ ν ο : Type) where
  | idle (last : Option ο)
  | atLock (call : κ) (locals : ν)
  | inside (exclusive : Bool) (rest : Section σ ο)

/-- A client that shares the lock. -/
def Client.shares : Client σ κ ν ο → ℕ
  | .inside false _ => 1
  | _ => 0

structure State (σ κ ν ο : Type) where
  object : σ
  writer : Option ℕ := none
  readers : ℕ := 0
  clients : List (Client σ κ ν ο)

inductive Label (κ ε : Type) where
  | call (client : ℕ) (call : κ)
  | acquire (client : ℕ) (choice : ε)
  | access (client : ℕ)
  | release (client : ℕ)
deriving DecidableEq, Repr

namespace State

def setClient (s : State σ κ ν ο) (i : ℕ) (client : Client σ κ ν ο) : State σ κ ν ο :=
  { s with clients := s.clients.set i client }

/-- Client `i` is inside, with this rest of its section. -/
def Inside (s : State σ κ ν ο) (i : ℕ) (exclusive : Bool) (rest : Section σ ο) : Prop :=
  s.clients[i]? = some (.inside exclusive rest)

/-- `lock` or `lock_shared`, where it does not block. -/
def lock (s : State σ κ ν ο) (i : ℕ) (exclusive : Bool) : Option (State σ κ ν ο) :=
  if s.writer.isSome then none
  else if !exclusive then some { s with readers := s.readers + 1 }
  else if s.readers = 0 then some { s with writer := some i }
  else none

/-- `unlock` or `unlock_shared`. -/
def unlock (s : State σ κ ν ο) (exclusive : Bool) : State σ κ ν ο :=
  if exclusive then { s with writer := none } else { s with readers := s.readers - 1 }

end State

variable (M : Locked σ κ ν ε ο)

def step (s : State σ κ ν ο) : Label κ ε → Option (State σ κ ν ο)
  | .call i call =>
      match s.clients[i]?, M.outside call with
      | some (.idle _), .error result => some (s.setClient i (.idle (some result)))
      | some (.idle _), .ok locals => some (s.setClient i (.atLock call locals))
      | _, _ => none
  | .acquire i choice =>
      match s.clients[i]? with
      | some (.atLock call locals) => do
          let s ← s.lock i (M.exclusive call locals)
          return s.setClient i (.inside (M.exclusive call locals) (M.body call locals choice))
      | _ => none
  | .access i =>
      match s.clients[i]? with
      | some (.inside exclusive (.access effect next)) =>
          some ({ s with object := effect s.object }.setClient i
            (.inside exclusive (next s.object)))
      | _ => none
  | .release i =>
      match s.clients[i]? with
      | some (.inside exclusive (.ret result)) =>
          some ((s.unlock exclusive).setClient i (.idle (some result)))
      | _ => none

/-- Runs of any number of clients, access by access. -/
def machine : Machine (State σ κ ν ο) (Label κ ε) where
  Init s := s.object = M.init ∧ s.writer = none ∧ s.readers = 0 ∧
    ∀ client ∈ s.clients, client = .idle none
  step := M.step

/-- Two clients are inside, and the next access of one of them writes. -/
def Race (s : State σ κ ν ο) : Prop :=
  ∃ i j, i ≠ j ∧ (∃ e rest, s.Inside j e rest) ∧
    ∃ e effect next, s.Inside i e (.access effect next) ∧ ∃ object, effect object ≠ object

/-- A client inside has come to undefined behaviour. -/
def Undefined (s : State σ κ ν ο) : Prop :=
  ∃ i e, s.Inside i e .undefined

variable {M}

/-! ## What a step can do -/

theorem lock_cases {s s' : State σ κ ν ο} {i : ℕ} {e : Bool} (h : s.lock i e = some s') :
    s.writer = none ∧
      ((e = false ∧ s' = { s with readers := s.readers + 1 }) ∨
        (e = true ∧ s.readers = 0 ∧ s' = { s with writer := some i })) := by
  unfold State.lock at h
  split at h
  · cases h
  · next hwriter =>
      refine ⟨by simpa using hwriter, ?_⟩
      split at h
      · next he => exact .inl ⟨by simpa using he, (Option.some.inj h).symm⟩
      · next he =>
          split at h
          · next hreaders => exact .inr ⟨by simpa using he, hreaders, (Option.some.inj h).symm⟩
          · cases h

theorem step_cases {s s' : State σ κ ν ο} {l : Label κ ε} (h : M.step s l = some s') :
    (∃ i call last result, l = .call i call ∧ s.clients[i]? = some (.idle last) ∧
      M.outside call = .error result ∧ s' = s.setClient i (.idle (some result))) ∨
    (∃ i call last locals, l = .call i call ∧ s.clients[i]? = some (.idle last) ∧
      M.outside call = .ok locals ∧ s' = s.setClient i (.atLock call locals)) ∨
    (∃ i choice call locals s₁, l = .acquire i choice ∧
      s.clients[i]? = some (.atLock call locals) ∧ s.lock i (M.exclusive call locals) = some s₁ ∧
      s' = s₁.setClient i (.inside (M.exclusive call locals) (M.body call locals choice))) ∨
    (∃ i e effect next, l = .access i ∧ s.clients[i]? = some (.inside e (.access effect next)) ∧
      s' = { s with object := effect s.object }.setClient i (.inside e (next s.object))) ∨
    ∃ i e result, l = .release i ∧ s.clients[i]? = some (.inside e (.ret result)) ∧
      s' = (s.unlock e).setClient i (.idle (some result)) := by
  cases l with
  | call i call =>
      simp only [step] at h
      split at h
      · next last result hi hout =>
          exact .inl ⟨i, call, last, result, rfl, hi, hout, (Option.some.inj h).symm⟩
      · next last locals hi hout =>
          exact .inr (.inl ⟨i, call, last, locals, rfl, hi, hout, (Option.some.inj h).symm⟩)
      · cases h
  | acquire i choice =>
      simp only [step] at h
      split at h
      · next call locals hi =>
          simp only [Option.bind_eq_bind, Option.bind_eq_some_iff] at h
          obtain ⟨s₁, hlock, h⟩ := h
          exact .inr (.inr (.inl ⟨i, choice, call, locals, s₁, rfl, hi, hlock,
            (Option.some.inj h).symm⟩))
      · cases h
  | access i =>
      simp only [step] at h
      split at h
      · next e effect next hi =>
          exact .inr (.inr (.inr (.inl ⟨i, e, effect, next, rfl, hi, (Option.some.inj h).symm⟩)))
      · cases h
  | release i =>
      simp only [step] at h
      split at h
      · next e result hi =>
          exact .inr (.inr (.inr (.inr ⟨i, e, result, rfl, hi, (Option.some.inj h).symm⟩)))
      · cases h

/-! ## Safety -/

/-- Between any two steps: the lock knows who is inside, and who is inside has a
defined section to finish. -/
structure Safe (s : State σ κ ν ο) : Prop where
  writer : ∀ i, s.writer = some i ↔ ∃ rest, s.Inside i true rest
  readers : s.readers = tally Client.shares s.clients
  excluded : s.writer ≠ none → s.readers = 0
  defined : ∀ i e rest, s.Inside i e rest → (rest.run s.object).isSome
  shared : ∀ i rest, s.Inside i false rest → rest.ReadOnly

/-- An owner is inside alone. -/
theorem Safe.alone {s : State σ κ ν ο} (safe : Safe s) {i j : ℕ} {e : Bool} {rest rest' : Section σ ο}
    (hi : s.Inside i true rest) (hj : s.Inside j e rest') : j = i := by
  have hwriter : s.writer = some i := (safe.writer i).mpr ⟨rest, hi⟩
  cases e with
  | true =>
      have hj' : s.writer = some j := (safe.writer j).mpr ⟨rest', hj⟩
      rw [hwriter] at hj'
      exact (Option.some.inj hj').symm
  | false =>
      have hreaders : s.readers = 0 := safe.excluded (by rw [hwriter]; exact Option.some_ne_none i)
      have hshare : Client.shares (.inside false rest' : Client σ κ ν ο) ≤ s.readers := by
        rw [safe.readers]
        exact le_tally Client.shares (List.mem_of_getElem? hj)
      rw [hreaders] at hshare
      cases hshare

/-- While no client owns the lock alone, whoever is inside only reads. -/
theorem Safe.reads {s : State σ κ ν ο} (safe : Safe s) (hwriter : s.writer = none) {i : ℕ} {e : Bool}
    {rest : Section σ ο} (hi : s.Inside i e rest) : e = false := by
  cases e with
  | false => rfl
  | true =>
      have := (safe.writer i).mpr ⟨rest, hi⟩
      rw [hwriter] at this
      cases this

/-- A free lock has nobody inside. -/
theorem Safe.free {s : State σ κ ν ο} (safe : Safe s) (hwriter : s.writer = none)
    (hreaders : s.readers = 0) (i : ℕ) (e : Bool) (rest : Section σ ο) :
    ¬ s.Inside i e rest := by
  intro hi
  obtain rfl := safe.reads hwriter hi
  have hshare : Client.shares (.inside false rest : Client σ κ ν ο) ≤ s.readers := by
    rw [safe.readers]
    exact le_tally Client.shares (List.mem_of_getElem? hi)
  rw [hreaders] at hshare
  cases hshare

/-- Safety leaves no race. -/
theorem Safe.not_race {s : State σ κ ν ο} (safe : Safe s) : ¬ Race s := by
  rintro ⟨i, j, hij, ⟨e, rest, hj⟩, e', effect, next, hi, object, hwrite⟩
  cases e' with
  | true => exact hij (safe.alone hi hj).symm
  | false => exact hwrite ((safe.shared i _ hi).1 object)

/-- Safety leaves no undefined behaviour. -/
theorem Safe.not_undefined {s : State σ κ ν ο} (safe : Safe s) : ¬ Undefined s := by
  rintro ⟨i, e, hi⟩
  cases safe.defined i e _ hi

/-! ## Each step keeps the safety -/

theorem inside_set {s : State σ κ ν ο} {i : ℕ} {old : Client σ κ ν ο} (hi : s.clients[i]? = some old)
    (client : Client σ κ ν ο) (j : ℕ) (e : Bool) (rest : Section σ ο) :
    (s.setClient i client).Inside j e rest ↔
      if i = j then client = .inside e rest else s.Inside j e rest := by
  have hlen : i < s.clients.length := (List.getElem?_eq_some_iff.mp hi).1
  by_cases h : i = j
  · subst h
    rw [if_pos rfl, State.Inside, State.setClient, List.getElem?_set_self hlen, Option.some.injEq]
  · rw [if_neg h, State.Inside, State.setClient, List.getElem?_set_ne h, State.Inside]

/-- A client that is not inside. -/
def Client.Outside (client : Client σ κ ν ο) : Prop := ∀ e rest, client ≠ .inside e rest

theorem outside_idle (last : Option ο) : (Client.idle last : Client σ κ ν ο).Outside := by
  intro e rest h
  cases h

theorem outside_atLock (call : κ) (locals : ν) : (Client.atLock call locals : Client σ κ ν ο).Outside := by
  intro e rest h
  cases h

theorem Client.Outside.shares {client : Client σ κ ν ο} (h : client.Outside) : client.shares = 0 := by
  cases client with
  | idle last => rfl
  | atLock call locals => rfl
  | inside e rest => exact absurd rfl (h e rest)

/-- A step outside the lock leaves who is inside. -/
theorem inside_set_outside {s : State σ κ ν ο} {i : ℕ} {old client : Client σ κ ν ο}
    (hi : s.clients[i]? = some old) (hold : old.Outside) (hclient : client.Outside) (j : ℕ)
    (e : Bool) (rest : Section σ ο) : (s.setClient i client).Inside j e rest ↔ s.Inside j e rest := by
  rw [inside_set hi]
  split
  · next hij =>
      subst hij
      constructor
      · intro h
        exact absurd h (hclient e rest)
      · intro h
        rw [State.Inside, hi] at h
        exact absurd (Option.some.inj h) (hold e rest)
  · exact Iff.rfl

theorem Safe.outside {s : State σ κ ν ο} (safe : Safe s) {i : ℕ} {old client : Client σ κ ν ο}
    (hi : s.clients[i]? = some old) (hold : old.Outside) (hclient : client.Outside) :
    Safe (s.setClient i client) := by
  have hinside := inside_set_outside hi hold hclient
  have hshares := tally_set Client.shares client hi
  rw [hold.shares, hclient.shares] at hshares
  constructor
  · intro j
    simp only [hinside]
    exact safe.writer j
  · show s.readers = tally Client.shares (s.clients.set i client)
    rw [safe.readers]
    omega
  · exact safe.excluded
  · intro j e rest h
    exact safe.defined j e rest ((hinside j e rest).mp h)
  · intro j rest h
    exact safe.shared j rest ((hinside j false rest).mp h)

/-- A client comes to own the lock, alone or with others. -/
theorem Safe.acquire {s s' : State σ κ ν ο} (safe : Safe s) {i : ℕ} {call : κ} {locals : ν}
    {choice : ε} (hi : s.clients[i]? = some (.atLock call locals))
    (hlock : s.lock i (M.exclusive call locals) = some s') :
    Safe (s'.setClient i (.inside (M.exclusive call locals) (M.body call locals choice))) := by
  have hnew : ∀ j e rest, (s.setClient i (.inside (M.exclusive call locals)
      (M.body call locals choice))).Inside j e rest →
        (j = i ∧ e = M.exclusive call locals ∧ rest = M.body call locals choice) ∨ s.Inside j e rest := by
    intro j e rest h
    rw [inside_set hi] at h
    split at h
    · next hij =>
        cases h
        exact .inl ⟨hij.symm, rfl, rfl⟩
    · exact .inr h
  have hshares := tally_set Client.shares (.inside (M.exclusive call locals) (M.body call locals choice)) hi
  have hzero : Client.shares (.atLock call locals : Client σ κ ν ο) = 0 := rfl
  have hdefined := M.defined call locals choice s.object
  obtain ⟨hwriter, ⟨he, rfl⟩ | ⟨he, hreaders, rfl⟩⟩ := lock_cases hlock
  · have hshared := M.shared call locals choice he
    rw [he] at hnew hshares ⊢
    have hone : Client.shares (.inside false (M.body call locals choice) : Client σ κ ν ο) = 1 := rfl
    constructor
    · intro j
      constructor
      · intro h
        rw [State.setClient] at h
        rw [hwriter] at h
        cases h
      · rintro ⟨rest, h⟩
        rcases hnew j true rest h with ⟨-, hfalse, -⟩ | h
        · cases hfalse
        · cases safe.reads hwriter h
    · show s.readers + 1 = tally Client.shares (s.clients.set i _)
      rw [safe.readers]
      omega
    · intro h
      exact absurd hwriter h
    · intro j e rest h
      rcases hnew j e rest h with ⟨-, -, rfl⟩ | h
      · exact hdefined
      · exact safe.defined j e rest h
    · intro j rest h
      rcases hnew j false rest h with ⟨-, -, rfl⟩ | h
      · exact hshared
      · exact safe.shared j rest h
  · have hfree := safe.free hwriter hreaders
    rw [he] at hnew hshares ⊢
    have hnone : Client.shares (.inside true (M.body call locals choice) : Client σ κ ν ο) = 0 := rfl
    constructor
    · intro j
      constructor
      · intro h
        cases h
        exact ⟨M.body call locals choice, (inside_set hi _ i true _).mpr (by rw [if_pos rfl])⟩
      · rintro ⟨rest, h⟩
        rcases hnew j true rest h with ⟨rfl, -, -⟩ | h
        · rfl
        · exact absurd h (hfree j true rest)
    · show s.readers = tally Client.shares (s.clients.set i _)
      rw [safe.readers]
      omega
    · intro _
      exact hreaders
    · intro j e rest h
      rcases hnew j e rest h with ⟨-, -, rfl⟩ | h
      · exact hdefined
      · exact absurd h (hfree j e rest)
    · intro j rest h
      rcases hnew j false rest h with ⟨-, hfalse, -⟩ | h
      · cases hfalse
      · exact absurd h (hfree j false rest)

/-- One access. It writes only where its client is inside alone. -/
theorem Safe.access {s : State σ κ ν ο} (safe : Safe s) {i : ℕ} {e : Bool} {effect : σ → σ}
    {next : σ → Section σ ο} (hi : s.Inside i e (.access effect next)) :
    Safe ({ s with object := effect s.object }.setClient i (.inside e (next s.object))) := by
  have hinside : ∀ j e' rest, (s.setClient i (.inside e (next s.object))).Inside j e' rest ↔
      if i = j then Client.inside e (next s.object) = (.inside e' rest : Client σ κ ν ο)
      else s.Inside j e' rest := inside_set hi (.inside e (next s.object))
  have hshares := tally_set Client.shares (.inside e (next s.object)) hi
  have hsame : Client.shares (.inside e (next s.object) : Client σ κ ν ο) =
      Client.shares (.inside e (.access effect next) : Client σ κ ν ο) := by
    cases e <;> rfl
  -- Where the client is not alone the object stays.
  have hother : ∀ j e' rest, i ≠ j → s.Inside j e' rest → effect s.object = s.object := by
    intro j e' rest hij hj
    cases e with
    | true => exact absurd (safe.alone hi hj).symm hij
    | false => exact (safe.shared i _ hi).1 s.object
  constructor
  · intro j
    refine (safe.writer j).trans ?_
    constructor
    · rintro ⟨rest, hj⟩
      by_cases hij : i = j
      · subst hij
        rw [State.Inside, hi] at hj
        cases hj
        exact ⟨next s.object, (hinside i true _).mpr (by rw [if_pos rfl])⟩
      · exact ⟨rest, (hinside j true rest).mpr (by rwa [if_neg hij])⟩
    · rintro ⟨rest, hj⟩
      have := (hinside j true rest).mp hj
      split at this
      · next hij =>
          subst hij
          cases this
          exact ⟨_, hi⟩
      · exact ⟨rest, this⟩
  · show s.readers = tally Client.shares (s.clients.set i _)
    rw [safe.readers]
    omega
  · exact safe.excluded
  · intro j e' rest hj
    have := (hinside j e' rest).mp hj
    split at this
    · cases this
      exact safe.defined i e _ hi
    · next hij =>
        show (rest.run (effect s.object)).isSome
        rw [hother j e' rest hij this]
        exact safe.defined j e' rest this
  · intro j rest hj
    have := (hinside j false rest).mp hj
    split at this
    · cases this
      exact (safe.shared i _ hi).2 s.object
    · exact safe.shared j rest this

/-- A client gives its share of the lock back. -/
theorem Safe.release {s : State σ κ ν ο} (safe : Safe s) {i : ℕ} {e : Bool} {result : ο}
    (hi : s.Inside i e (.ret result)) :
    Safe ((s.unlock e).setClient i (.idle (some result))) := by
  have hold : ∀ j e' rest, (s.setClient i (.idle (some result))).Inside j e' rest ↔
      i ≠ j ∧ s.Inside j e' rest := by
    intro j e' rest
    rw [inside_set hi]
    split
    · next hij =>
        constructor
        · intro h
          cases h
        · intro h
          exact absurd hij h.1
    · next hij => exact ⟨fun h => ⟨hij, h⟩, fun h => h.2⟩
  have hshares := tally_set Client.shares (.idle (some result)) hi
  have hzero : Client.shares (.idle (some result) : Client σ κ ν ο) = 0 := rfl
  cases e with
  | true =>
      have hnone : Client.shares (.inside true (.ret result) : Client σ κ ν ο) = 0 := rfl
      constructor
      · intro j
        constructor
        · intro h
          cases h
        · rintro ⟨rest, h⟩
          have := (hold j true rest).mp h
          exact absurd (safe.alone hi this.2).symm this.1
      · show s.readers = tally Client.shares (s.clients.set i _)
        rw [safe.readers]
        omega
      · intro h
        exact absurd rfl h
      · intro j e' rest h
        exact safe.defined j e' rest ((hold j e' rest).mp h).2
      · intro j rest h
        exact safe.shared j rest ((hold j false rest).mp h).2
  | false =>
      have hone : Client.shares (.inside false (.ret result) : Client σ κ ν ο) = 1 := rfl
      constructor
      · intro j
        refine (safe.writer j).trans ?_
        constructor
        · rintro ⟨rest, h⟩
          refine ⟨rest, (hold j true rest).mpr ⟨?_, h⟩⟩
          rintro rfl
          rw [State.Inside, hi] at h
          cases h
        · rintro ⟨rest, h⟩
          exact ⟨rest, ((hold j true rest).mp h).2⟩
      · show s.readers - 1 = tally Client.shares (s.clients.set i _)
        rw [safe.readers]
        omega
      · intro h
        show s.readers - 1 = 0
        rw [safe.excluded h]
      · intro j e' rest h
        exact safe.defined j e' rest ((hold j e' rest).mp h).2
      · intro j rest h
        exact safe.shared j rest ((hold j false rest).mp h).2

theorem init_safe {s : State σ κ ν ο} (h : M.machine.Init s) : Safe s := by
  obtain ⟨-, hwriter, hreaders, hidle⟩ := h
  have hnone : ∀ i e rest, ¬ s.Inside i e rest := by
    intro i e rest hi
    cases hidle _ (List.mem_of_getElem? hi)
  constructor
  · intro i
    rw [hwriter]
    constructor
    · intro h
      cases h
    · rintro ⟨rest, hi⟩
      exact absurd hi (hnone i true rest)
  · rw [hreaders, tally_eq_zero]
    intro client hmem
    rw [hidle client hmem]
    rfl
  · intro h
    exact hreaders
  · intro i e rest hi
    exact absurd hi (hnone i e rest)
  · intro i rest hi
    exact absurd hi (hnone i false rest)

theorem step_safe {s s' : State σ κ ν ο} {l : Label κ ε} (h : M.step s l = some s') (safe : Safe s) :
    Safe s' := by
  rcases step_cases h with ⟨i, call, last, result, -, hi, -, rfl⟩ |
    ⟨i, call, last, locals, -, hi, -, rfl⟩ | ⟨i, choice, call, locals, s₁, -, hi, hlock, rfl⟩ |
      ⟨i, e, effect, next, -, hi, rfl⟩ | ⟨i, e, result, -, hi, rfl⟩
  · exact safe.outside hi (outside_idle last) (outside_idle (some result))
  · exact safe.outside hi (outside_idle last) (outside_atLock call locals)
  · exact safe.acquire hi hlock
  · exact safe.access hi
  · exact safe.release hi

/-- The lock is never lost: while a client is at the lock or inside, a client can
go on. -/
theorem Safe.unblocked {s : State σ κ ν ο} (safe : Safe s) (choice : ε)
    (h : ∃ client ∈ s.clients, ∀ last, client ≠ .idle last) :
    ∃ l, (∀ i call, l ≠ .call i call) ∧ (M.step s l).isSome := by
  by_cases hinside : ∃ i e rest, s.Inside i e rest
  · obtain ⟨i, e, rest, hi⟩ := hinside
    cases rest with
    | ret result =>
        refine ⟨.release i, ?_, ?_⟩
        · intro j call hl
          cases hl
        · rw [State.Inside] at hi
          simp only [step, hi, Option.isSome_some]
    | undefined => cases safe.defined i e _ hi
    | access effect next =>
        refine ⟨.access i, ?_, ?_⟩
        · intro j call hl
          cases hl
        · rw [State.Inside] at hi
          simp only [step, hi, Option.isSome_some]
  · have hnone : ∀ i e rest, ¬ s.Inside i e rest := by
      intro i e rest hi
      exact hinside ⟨i, e, rest, hi⟩
    have hwriter : s.writer = none := by
      cases hwriter : s.writer with
      | none => rfl
      | some i =>
          obtain ⟨rest, hi⟩ := (safe.writer i).mp hwriter
          exact absurd hi (hnone i true rest)
    have hreaders : s.readers = 0 := by
      rw [safe.readers]
      refine tally_eq_zero _ fun client hmem => ?_
      obtain ⟨i, hi⟩ := List.getElem?_of_mem hmem
      exact Client.Outside.shares fun e rest heq => hnone i e rest (hi.trans (congrArg some heq))
    obtain ⟨client, hmem, hbusy⟩ := h
    obtain ⟨i, hi⟩ := List.getElem?_of_mem hmem
    cases client with
    | idle last => exact absurd rfl (hbusy last)
    | inside e rest => exact absurd hi (hnone i e rest)
    | atLock call locals =>
        refine ⟨.acquire i choice, ?_, ?_⟩
        · intro j call hl
          cases hl
        · have hlock : (s.lock i (M.exclusive call locals)).isSome := by
            unfold State.lock
            rw [hwriter, hreaders]
            cases M.exclusive call locals <;> rfl
          obtain ⟨s₁, hs₁⟩ := Option.isSome_iff_exists.mp hlock
          simp only [step, hi, hs₁]
          rfl

end Locked

end Gradyx.Lib
