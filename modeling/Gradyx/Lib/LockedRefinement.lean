import Gradyx.Lib.Locked
import Gradyx.Lib.Monitor
import Gradyx.Lib.Simulation

/-! # What a lock makes atomic

The machine of `Gradyx.Lib.Locked` refines the one of `Gradyx.Lib.Monitor`,
where a section is one step: a section counts as done where its client comes to
own the lock.

* `refines` is the simulation; `step_settled` and `inside_back` are what it says
  of the object and of a client inside.
* `Session.spec`: what a call returns was settled where it came to own the lock.
-/

namespace Gradyx.Lib

variable {σ κ ν ε ο : Type}

namespace Locked

variable (M : Locked σ κ ν ε ο)

/-- The same object with sections that are one step. -/
def atomic : Monitor σ κ ν ε ο where
  init := M.init
  outside _ call := some (M.outside call)
  inside s call locals choice :=
    ((M.body call locals choice).run s).get (M.defined call locals choice s)

variable {M}

/-- A client inside has its result already. -/
def Client.atomic (object : σ) : Client σ κ ν ο → Monitor.Client κ ν ο
  | .idle last => .idle last
  | .atLock call locals => .atLock call locals
  | .inside _ rest => .idle ((rest.run object).map Prod.snd)

/-- The object when the client that owns the lock has finished its section. -/
def State.settled (s : State σ κ ν ο) : σ :=
  match s.writer.bind (s.clients[·]?) with
  | some (.inside _ rest) => ((rest.run s.object).map Prod.fst).getD s.object
  | _ => s.object

/-- A section counts as done where its client comes to own the lock. -/
def State.atomic (s : State σ κ ν ο) : Monitor.State σ κ ν ο :=
  ⟨s.settled, s.clients.map (Client.atomic s.object)⟩

theorem settled_none {s : State σ κ ν ο} (h : s.writer = none) : s.settled = s.object := by
  rw [State.settled, h]
  rfl

theorem settled_some {s : State σ κ ν ο} {i : ℕ} {e : Bool} {rest : Section σ ο}
    (h : s.writer = some i) (hi : s.Inside i e rest) :
    s.settled = ((rest.run s.object).map Prod.fst).getD s.object := by
  rw [State.Inside] at hi
  rw [State.settled, h, Option.bind_some, hi]

theorem Safe.settled_reader {s : State σ κ ν ο} (safe : Safe s) {i : ℕ} {rest : Section σ ο}
    (hi : s.Inside i false rest) : s.writer = none := by
  cases hwriter : s.writer with
  | none => rfl
  | some k =>
      obtain ⟨rest', hk⟩ := (safe.writer k).mp hwriter
      obtain rfl := safe.alone hk hi
      rw [State.Inside, hk] at hi
      cases hi

/-- A step outside the lock leaves the settled object. -/
theorem Safe.settled_outside {s : State σ κ ν ο} (safe : Safe s) {i : ℕ} {old client : Client σ κ ν ο}
    (hi : s.clients[i]? = some old) (hold : old.Outside) (hclient : client.Outside) :
    (s.setClient i client).settled = s.settled := by
  cases hwriter : s.writer with
  | none =>
      have hwriter' : (s.setClient i client).writer = none := hwriter
      rw [settled_none hwriter, settled_none hwriter']
      rfl
  | some k =>
      obtain ⟨rest, hk⟩ := (safe.writer k).mp hwriter
      have hwriter' : (s.setClient i client).writer = some k := hwriter
      have hk' := (inside_set_outside hi hold hclient k true rest).mpr hk
      rw [settled_some hwriter hk, settled_some hwriter' hk']
      rfl

theorem atomic_getElem? {s : State σ κ ν ο} {i : ℕ} {client : Client σ κ ν ο}
    (hi : s.clients[i]? = some client) : s.atomic.clients[i]? = some (client.atomic s.object) := by
  rw [State.atomic, List.getElem?_map, hi]
  rfl

/-- A call outside the lock is the same call of the atomic object. -/
theorem atomic_outside {s : State σ κ ν ο} (safe : Safe s) {i : ℕ} {old client : Client σ κ ν ο}
    (hi : s.clients[i]? = some old) (hold : old.Outside) (hclient : client.Outside) :
    (s.setClient i client).atomic = s.atomic.setClient i (client.atomic s.object) := by
  have hmap : (s.clients.set i client).map (Client.atomic s.object) =
      (s.clients.map (Client.atomic s.object)).set i (client.atomic s.object) := List.map_set
  rw [State.atomic, safe.settled_outside hi hold hclient]
  show Monitor.State.mk _ ((s.clients.set i client).map (Client.atomic s.object)) = _
  rw [hmap]
  rfl

/-- A client that comes to own the lock does its whole section. -/
theorem atomic_acquire {s s' : State σ κ ν ο} {i : ℕ} {call : κ} {locals : ν} {choice : ε}
    (hi : s.clients[i]? = some (.atLock call locals))
    (hlock : s.lock i (M.exclusive call locals) = some s') {object : σ} {result : ο}
    (hrun : (M.body call locals choice).run s.object = some (object, result)) :
    (s'.setClient i (.inside (M.exclusive call locals) (M.body call locals choice))).atomic =
      Monitor.State.setClient ⟨object, s.atomic.clients⟩ i (.idle (some result)) := by
  have hclient : Client.atomic s.object (.inside (M.exclusive call locals) (M.body call locals choice)) =
      (.idle (some result) : Monitor.Client κ ν ο) := by
    rw [Client.atomic, hrun]
    rfl
  have hmap : (s.clients.set i (.inside (M.exclusive call locals) (M.body call locals choice))).map
      (Client.atomic s.object) = s.atomic.clients.set i (.idle (some result)) := by
    rw [List.map_set, hclient]
    rfl
  obtain ⟨hwriter, ⟨he, rfl⟩ | ⟨he, -, rfl⟩⟩ := lock_cases hlock
  · have hobject : object = s.object := (M.shared call locals choice he).run_fst hrun
    rw [State.atomic, settled_none (by exact hwriter)]
    show Monitor.State.mk s.object ((s.clients.set i _).map (Client.atomic s.object)) = _
    rw [hmap, hobject]
    rfl
  · have hinside : ({ s with writer := some i }.setClient i
        (.inside (M.exclusive call locals) (M.body call locals choice))).Inside i (M.exclusive call locals)
          (M.body call locals choice) := (inside_set hi _ i _ _).mpr (by rw [if_pos rfl])
    rw [State.atomic, settled_some rfl hinside]
    show Monitor.State.mk ((((M.body call locals choice).run s.object).map Prod.fst).getD s.object)
      ((s.clients.set i _).map (Client.atomic s.object)) = _
    rw [hmap, hrun]
    rfl

/-- An access is no step of the atomic object. -/
theorem atomic_access {s : State σ κ ν ο} (safe : Safe s) {i : ℕ} {e : Bool} {effect : σ → σ}
    {next : σ → Section σ ο} (hi : s.Inside i e (.access effect next)) :
    ({ s with object := effect s.object }.setClient i (.inside e (next s.object))).atomic =
      s.atomic := by
  have hlen : i < s.clients.length := (List.getElem?_eq_some_iff.mp hi).1
  have hinside : ({ s with object := effect s.object }.setClient i
      (.inside e (next s.object))).Inside i e (next s.object) :=
    (inside_set hi _ i e _).mpr (by rw [if_pos rfl])
  cases e with
  | false =>
      -- Clients that share the lock see the object they saw before.
      have hobject : effect s.object = s.object := (safe.shared i _ hi).1 s.object
      have hwriter := safe.settled_reader hi
      rw [State.atomic, State.atomic, settled_none hwriter, settled_none (by exact hwriter)]
      show Monitor.State.mk (effect s.object)
        ((s.clients.set i _).map (Client.atomic (effect s.object))) = _
      rw [hobject]
      congr 1
      apply List.ext_getElem?
      intro j
      rw [List.getElem?_map, List.getElem?_map]
      by_cases hij : i = j
      · subst hij
        rw [List.getElem?_set_self hlen, hi]
        simp only [Option.map_some, Client.atomic, Section.run, hobject]
      · rw [List.getElem?_set_ne hij]
  | true =>
      have hwriter := (safe.writer i).mpr ⟨_, hi⟩
      obtain ⟨⟨object, result⟩, hrun⟩ := Option.isSome_iff_exists.mp (safe.defined i true _ hi)
      have hrest : (next s.object).run (effect s.object) = some (object, result) := hrun
      rw [State.atomic, State.atomic, settled_some hwriter hi, settled_some (by exact hwriter) hinside]
      show Monitor.State.mk ((((next s.object).run (effect s.object)).map Prod.fst).getD
        (effect s.object)) ((s.clients.set i _).map (Client.atomic (effect s.object))) = _
      rw [hrest, hrun]
      congr 1
      apply List.ext_getElem?
      intro j
      rw [List.getElem?_map, List.getElem?_map]
      by_cases hij : i = j
      · subst hij
        rw [List.getElem?_set_self hlen, hi]
        simp only [Option.map_some, Client.atomic, hrest, hrun]
      · rw [List.getElem?_set_ne hij]
        cases hj : s.clients[j]? with
        | none => rfl
        | some client =>
            cases client with
            | idle last => rfl
            | atLock call locals => rfl
            | inside e' rest => exact absurd (safe.alone hi hj).symm hij

/-- Nor is giving the lock back. -/
theorem atomic_release {s : State σ κ ν ο} (safe : Safe s) {i : ℕ} {e : Bool} {result : ο}
    (hi : s.Inside i e (.ret result)) :
    ((s.unlock e).setClient i (.idle (some result))).atomic = s.atomic := by
  have hlen : i < s.clients.length := (List.getElem?_eq_some_iff.mp hi).1
  have hclients : (s.clients.set i (.idle (some result))).map (Client.atomic s.object) =
      s.clients.map (Client.atomic s.object) := by
    apply List.ext_getElem?
    intro j
    rw [List.getElem?_map, List.getElem?_map]
    by_cases hij : i = j
    · subst hij
      rw [List.getElem?_set_self hlen, hi]
      rfl
    · rw [List.getElem?_set_ne hij]
  cases e with
  | false =>
      have hwriter := safe.settled_reader hi
      rw [State.atomic, State.atomic, settled_none hwriter, settled_none (by exact hwriter)]
      show Monitor.State.mk s.object ((s.clients.set i _).map (Client.atomic s.object)) = _
      rw [hclients]
  | true =>
      have hwriter := (safe.writer i).mpr ⟨_, hi⟩
      rw [State.atomic, State.atomic, settled_some hwriter hi, settled_none (by rfl)]
      show Monitor.State.mk s.object ((s.clients.set i _).map (Client.atomic s.object)) = _
      rw [hclients]
      rfl

variable (M)

/-- Access by access, a locked object does what the atomic one does. -/
theorem refines : Simulation M.machine M.atomic.machine State.atomic (fun _ _ => True) Safe where
  init s hs := by
    have hidle := hs.2.2.2
    refine ⟨?_, ?_⟩
    · show s.settled = M.init
      rw [settled_none hs.2.1, hs.1]
    · intro client hmem
      obtain ⟨client', hmem', rfl⟩ := List.mem_map.mp hmem
      rw [hidle client' hmem']
      rfl
  init_inv s hs := init_safe hs
  step_inv s l s' _ h safe := step_safe h safe
  step s l s' _ h safe := by
    rcases step_cases h with ⟨i, call, last, result, -, hi, hout, rfl⟩ |
      ⟨i, call, last, locals, -, hi, hout, rfl⟩ | ⟨i, choice, call, locals, s₁, -, hi, hlock, rfl⟩ |
        ⟨i, e, effect, next, -, hi, rfl⟩ | ⟨i, e, result, -, hi, rfl⟩
    · refine ⟨some (.call i call), ?_⟩
      have hclient := atomic_getElem? hi
      have hout' : M.atomic.outside s.atomic.object call = some (.error result) :=
        congrArg some hout
      show M.atomic.step s.atomic (.call i call) = _
      rw [atomic_outside safe hi (outside_idle last) (outside_idle (some result))]
      simp only [Monitor.step, hclient, hout', Client.atomic]
    · refine ⟨some (.call i call), ?_⟩
      have hclient := atomic_getElem? hi
      have hout' : M.atomic.outside s.atomic.object call = some (.ok locals) :=
        congrArg some hout
      show M.atomic.step s.atomic (.call i call) = _
      rw [atomic_outside safe hi (outside_idle last) (outside_atLock call locals)]
      simp only [Monitor.step, hclient, hout', Client.atomic]
    · refine ⟨some (.enter i choice), ?_⟩
      have hclient := atomic_getElem? hi
      obtain ⟨⟨object, result⟩, hrun⟩ :=
        Option.isSome_iff_exists.mp (M.defined call locals choice s.object)
      have hsettled : s.atomic.object = s.object := settled_none (lock_cases hlock).1
      have hin : M.atomic.inside s.atomic.object call locals choice = (object, result) := by
        rw [hsettled]
        exact Option.get_of_eq_some _ hrun
      show M.atomic.step s.atomic (.enter i choice) = _
      rw [atomic_acquire hi hlock hrun]
      simp only [Monitor.step, hclient, Client.atomic, hin]
    · refine ⟨none, ?_⟩
      exact atomic_access safe hi
    · refine ⟨none, ?_⟩
      exact atomic_release safe hi

variable {M}

theorem inside_eq {s : State σ κ ν ο} (hwriter : s.writer = none) {call : κ} {locals : ν} {choice : ε}
    {result : σ × ο} (hrun : (M.body call locals choice).run s.object = some result) :
    M.atomic.inside s.settled call locals choice = result := by
  rw [settled_none hwriter]
  exact Option.get_of_eq_some _ hrun

/-- The settled object changes only where a client comes to own the lock. -/
theorem step_settled {s s' : State σ κ ν ο} {l : Label κ ε} (h : M.step s l = some s')
    (safe : Safe s) :
    (s'.settled = s.settled ∧ ∀ i choice, l ≠ .acquire i choice) ∨
    ∃ i choice call locals, l = .acquire i choice ∧ s.clients[i]? = some (.atLock call locals) ∧
      s'.settled = (M.atomic.inside s.settled call locals choice).1 := by
  rcases step_cases h with ⟨i, call, last, result, rfl, hi, -, rfl⟩ |
    ⟨i, call, last, locals, rfl, hi, -, rfl⟩ | ⟨i, choice, call, locals, s₁, rfl, hi, hlock, rfl⟩ |
      ⟨i, e, effect, next, rfl, hi, rfl⟩ | ⟨i, e, result, rfl, hi, rfl⟩
  · refine .inl ⟨safe.settled_outside hi (outside_idle last) (outside_idle (some result)), ?_⟩
    intro j choice hl
    cases hl
  · refine .inl ⟨safe.settled_outside hi (outside_idle last) (outside_atLock call locals), ?_⟩
    intro j choice hl
    cases hl
  · refine .inr ⟨i, choice, call, locals, rfl, hi, ?_⟩
    obtain ⟨⟨object, result⟩, hrun⟩ :=
      Option.isSome_iff_exists.mp (M.defined call locals choice s.object)
    rw [inside_eq (lock_cases hlock).1 hrun]
    exact congrArg Monitor.State.object (atomic_acquire hi hlock hrun)
  · refine .inl ⟨congrArg Monitor.State.object (atomic_access safe hi), ?_⟩
    intro j choice hl
    cases hl
  · refine .inl ⟨congrArg Monitor.State.object (atomic_release safe hi), ?_⟩
    intro j choice hl
    cases hl

/-- Where a client inside was before the step. What is left of its section comes
to the same result. -/
theorem inside_back {s s' : State σ κ ν ο} {l : Label κ ε} (h : M.step s l = some s')
    (safe : Safe s) {i : ℕ} {e : Bool} {rest : Section σ ο} (hi' : s'.Inside i e rest) :
    (∃ choice call locals, l = .acquire i choice ∧ s.clients[i]? = some (.atLock call locals) ∧
      rest.run s'.object = some (M.atomic.inside s.settled call locals choice)) ∨
    ∃ before, s.Inside i e before ∧ before.run s.object = rest.run s'.object := by
  rcases step_cases h with ⟨j, call, last, result, rfl, hj, -, rfl⟩ |
    ⟨j, call, last, locals, rfl, hj, -, rfl⟩ | ⟨j, choice, call, locals, s₁, rfl, hj, hlock, rfl⟩ |
      ⟨j, e', effect, next, rfl, hj, rfl⟩ | ⟨j, e', result, rfl, hj, rfl⟩
  · have hi := (inside_set_outside hj (outside_idle last) (outside_idle (some result)) i e rest).mp hi'
    exact .inr ⟨rest, hi, rfl⟩
  · have hi := (inside_set_outside hj (outside_idle last) (outside_atLock call locals) i e rest).mp hi'
    exact .inr ⟨rest, hi, rfl⟩
  · have hs₁ : s₁.clients = s.clients ∧ s₁.object = s.object := by
      obtain ⟨-, ⟨-, rfl⟩ | ⟨-, -, rfl⟩⟩ := lock_cases hlock
      · exact ⟨rfl, rfl⟩
      · exact ⟨rfl, rfl⟩
    have hobject : (s₁.setClient j (.inside (M.exclusive call locals)
        (M.body call locals choice))).object = s.object := hs₁.2
    rw [inside_set (by rw [hs₁.1]; exact hj)] at hi'
    rw [hobject]
    split at hi'
    · next hij =>
        subst hij
        cases hi'
        obtain ⟨result, hrun⟩ := Option.isSome_iff_exists.mp (M.defined call locals choice s.object)
        refine .inl ⟨choice, call, locals, rfl, hj, ?_⟩
        rw [inside_eq (lock_cases hlock).1 hrun]
        exact hrun
    · have hi : s.Inside i e rest := by
        rw [State.Inside, hs₁.1] at hi'
        exact hi'
      exact .inr ⟨rest, hi, rfl⟩
  · have hcase := (inside_set (s := s) hj (.inside e' (next s.object)) i e rest).mp hi'
    split at hcase
    · next hij =>
        subst hij
        cases hcase
        exact .inr ⟨.access effect next, hj, rfl⟩
    · next hij =>
        refine .inr ⟨rest, hcase, ?_⟩
        have hobject : effect s.object = s.object := by
          cases e' with
          | true => exact absurd (safe.alone hj hcase).symm hij
          | false => exact (safe.shared j _ hj).1 s.object
        exact congrArg rest.run hobject.symm
  · have hobject : ((s.unlock e').setClient j (.idle (some result))).object = s.object := by
      cases e' <;> rfl
    have hcase : (s.setClient j (.idle (some result))).Inside i e rest := by
      cases e' <;> exact hi'
    rw [inside_set hj] at hcase
    split at hcase
    · cases hcase
    · exact .inr ⟨rest, hcase, by rw [hobject]⟩

/-! ## Runs -/

variable (r : Run M.machine)

theorem run_safe (k : ℕ) : Safe (r.state k) :=
  M.refines.inv r (fun _ _ _ => trivial) k

/-- The call of client `i` owns the lock from position `j` to position `k`. -/
structure Session (i j k : ℕ) (call : κ) (outcome : ο) : Prop where
  lt : j < k
  acquired : ∃ choice, r.label j = some (.acquire i choice)
  call : ∃ locals, (r.state j).clients[i]? = some (.atLock call locals)
  inside : ∀ m, j < m → m ≤ k → ∃ e rest, (r.state m).Inside i e rest
  released : r.label k = some (.release i)
  outcome : (r.state (k + 1)).clients[i]? = some (.idle (some outcome))

/-- Whoever is inside came to own the lock some time before, and its result was
settled then. -/
theorem inside_since (k i : ℕ) {e : Bool} {rest : Section σ ο} (h : (r.state k).Inside i e rest) :
    ∃ j < k, ∃ choice call locals, r.label j = some (.acquire i choice) ∧
      (r.state j).clients[i]? = some (.atLock call locals) ∧
      (∀ m, j < m → m ≤ k → ∃ e rest, (r.state m).Inside i e rest) ∧
      (rest.run (r.state k).object).map Prod.snd =
        some (M.atomic.inside (r.state j).settled call locals choice).2 := by
  induction k generalizing e rest with
  | zero =>
      cases r.init.2.2.2 _ (List.mem_of_getElem? h)
  | succ k ih =>
      have hold : ∀ before : Section σ ο, (r.state k).Inside i e before →
          before.run (r.state k).object = rest.run (r.state (k + 1)).object →
          ∃ j < k + 1, ∃ choice call locals, r.label j = some (.acquire i choice) ∧
            (r.state j).clients[i]? = some (.atLock call locals) ∧
            (∀ m, j < m → m ≤ k + 1 → ∃ e rest, (r.state m).Inside i e rest) ∧
            (rest.run (r.state (k + 1)).object).map Prod.snd =
              some (M.atomic.inside (r.state j).settled call locals choice).2 := by
        intro before hbefore hrun
        obtain ⟨j, hj, choice, call, locals, hl, hi, hm, hresult⟩ := ih hbefore
        refine ⟨j, Nat.lt_succ_of_lt hj, choice, call, locals, hl, hi, ?_, ?_⟩
        · intro m hjm hmk
          rcases Nat.lt_or_ge k m with hlt | hle
          · obtain rfl : m = k + 1 := by omega
            exact ⟨e, rest, h⟩
          · exact hm m hjm hle
        · rw [← hrun]
          exact hresult
      cases hl : r.label k with
      | none =>
          have hs := r.stutter_of_none hl
          refine hold rest ?_ (by rw [hs])
          rw [hs] at h
          exact h
      | some l =>
          rcases inside_back (r.step_of_label hl) (run_safe r k) h with
            ⟨choice, call, locals, rfl, hi, hrun⟩ | ⟨before, hbefore, hrun⟩
          · refine ⟨k, Nat.lt_succ_self k, choice, call, locals, hl, hi, ?_, ?_⟩
            · intro m hkm hmk
              obtain rfl : m = k + 1 := by omega
              exact ⟨e, rest, h⟩
            · rw [hrun]
              rfl
          · exact hold before hbefore hrun

/-- A call that gives the lock back has had a session. -/
theorem exists_session {k i : ℕ} {outcome : ο} (hl : r.label k = some (.release i))
    (h : (r.state (k + 1)).clients[i]? = some (.idle (some outcome))) :
    ∃ j < k, ∃ call, Session r i j k call outcome := by
  rcases step_cases (r.step_of_label hl) with ⟨_, _, _, _, hcall, -⟩ | ⟨_, _, _, _, hcall, -⟩ |
    ⟨_, _, _, _, _, hcall, -⟩ | ⟨_, _, _, _, hcall, -⟩ | ⟨i', e, result, hcall, hi, hs⟩
  · cases hcall
  · cases hcall
  · cases hcall
  · cases hcall
  · cases hcall
    obtain ⟨j, hj, choice, call, locals, hacquire, hcall, hinside, -⟩ := inside_since r k i hi
    exact ⟨j, hj, call, hj, ⟨choice, hacquire⟩, ⟨locals, hcall⟩, hinside, hl, h⟩

variable {r}

/-- A session is one step of the atomic object, at the position where it begins. -/
theorem Session.spec {i j k : ℕ} {call : κ} {outcome : ο} (h : Session r i j k call outcome) :
    ∃ locals choice, M.atomic.inside (r.state j).settled call locals choice =
      ((r.state (j + 1)).settled, outcome) := by
  obtain ⟨locals, hcall⟩ := h.call
  rcases step_cases (r.step_of_label h.released) with ⟨_, _, _, _, hl, -⟩ | ⟨_, _, _, _, hl, -⟩ |
    ⟨_, _, _, _, _, hl, -⟩ | ⟨_, _, _, _, hl, -⟩ | ⟨i', e, result, hl, hi, hs⟩
  · cases hl
  · cases hl
  · cases hl
  · cases hl
  · cases hl
    have hlen : i < (r.state k).clients.length := (List.getElem?_eq_some_iff.mp hi).1
    have hresult : result = outcome := by
      have hlast := h.outcome
      rw [hs] at hlast
      have hset : ((r.state k).clients.set i (.idle (some result)))[i]? =
          some (.idle (some outcome)) := by
        cases e <;> exact hlast
      rw [List.getElem?_set_self hlen] at hset
      cases hset
      rfl
    obtain ⟨j', hj', choice, call', locals', hacquire, hcall', hinside, hrun⟩ :=
      inside_since r k i hi
    -- The client is at the lock at both positions, and inside after either.
    have hjj : j' = j := by
      rcases Nat.lt_trichotomy j' j with hlt | heq | hlt
      · obtain ⟨e', rest, hin⟩ := hinside j hlt (Nat.le_of_lt h.lt)
        rw [State.Inside, hcall] at hin
        cases hin
      · exact heq
      · obtain ⟨e', rest, hin⟩ := h.inside j' hlt (Nat.le_of_lt hj')
        rw [State.Inside, hcall'] at hin
        cases hin
    subst hjj
    rw [hcall] at hcall'
    cases hcall'
    refine ⟨locals, choice, Prod.ext ?_ ?_⟩
    · rcases step_settled (r.step_of_label hacquire) (run_safe r j') with
        ⟨-, hnot⟩ | ⟨i', choice', call', locals', hl, hcall', hsettled⟩
      · exact absurd rfl (hnot i choice)
      · cases hl
        rw [hcall] at hcall'
        cases hcall'
        exact hsettled.symm
    · have := Option.some.inj hrun
      rw [← this]
      exact hresult

end Locked

end Gradyx.Lib
