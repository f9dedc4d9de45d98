import Gradyx.Core.DataPtr

/-!
# DataPtr — deleters that use DataPtr objects

`reset` calls the deleter before it clears its fields, so a deleter that reaches
the pointer through its context finds the allocation still there.

* `Body` is what a deleter does: member functions, each with the body of the
  deleter that it calls itself, to any depth.
* `stepCalling` runs a member function with such a deleter, `stepEmptied` the same
  call on a pointer that is emptied first.
* `Shadow` relates the two runs: they differ in the one object that holds the
  value being released.
* `Body.Spares`: no operation of the body releases the object that owns the data
  in the state before it runs.
* `releasesOnce_iff` says of which bodies the release is one.
-/

namespace Gradyx

namespace DataPtr

/-- What a deleter does. An operation comes with what the deleter does that it
calls, if it calls one. -/
inductive Body where
  | done
  | cons (op : Op) (nested rest : Body)
deriving DecidableEq, Repr

namespace State

/-! ## The member functions -/

/-- The call of the deleter, which runs `body`. -/
def calling (s : State) (p : DataPtr) (body : State → Option State) : Option State :=
  match p.due with
  | none => some s
  | some c => body (s.call [c])

/-- `reset`, with a deleter that runs `body`. -/
def resetCalling (s : State) (i : ℕ) (body : State → Option State) : Option State := do
  let p ← s.get i
  -- the deleter finds the fields as they were
  let s ← s.calling p body
  let _ ← s.get i
  return s.put i p.reset.2

/-- A member function, with a deleter that runs `body`. -/
def stepCalling (s : State) (body : State → Option State) : Op → Option State
  | .construct allocation context deleter => s.step (.construct allocation context deleter)
  | .constructDefault => s.step .constructDefault
  | .moveConstruct other => s.step (.moveConstruct other)
  | .moveAssign self other => do
      let _ ← s.get self
      let _ ← s.get other
      if self = other then return s
      let s ← s.resetCalling self body
      -- the source is read after the reset
      let q ← s.get other
      return (s.put other q.exchange.2).put self q.exchange.1
  | .swap self other => s.step (.swap self other)
  | .reset self => s.resetCalling self body
  | .destroy self => do
      let s ← s.resetCalling self body
      return s.drop self

/-- `reset` of a pointer that is emptied before the deleter runs. -/
def resetEmptied (s : State) (i : ℕ) (body : State → Option State) : Option State := do
  let p ← s.get i
  (s.put i p.reset.2).calling p body

/-- A member function that releases, with the pointer emptied first. -/
def stepEmptied (s : State) (body : State → Option State) : Op → Option State
  | .moveAssign self other => do
      let _ ← s.get other
      if self = other then return s
      let s ← s.resetEmptied self body
      let q ← s.get other
      let _ ← s.get self
      return (s.put other q.exchange.2).put self q.exchange.1
  | .reset self => s.resetEmptied self body
  | .destroy self => do
      let s ← s.resetEmptied self body
      return s.drop self
  | _ => none

end State

/-- The body, from the state at the call. -/
def Body.run : Body → State → Option State
  | .done, s => some s
  | .cons op nested rest, s => do
      let s ← s.stepCalling nested.run op
      rest.run s

/-- The operation hands the data to a constructor. -/
def Op.Makes (d : Addr) : Op → Prop
  | .construct allocation _ _ => allocation.data = some d
  | _ => False

/-- Nowhere in the body the data is handed to a constructor. -/
def Body.MakesNo (d : Addr) : Body → Prop
  | .done => True
  | .cons op nested rest => ¬ op.Makes d ∧ nested.MakesNo d ∧ rest.MakesNo d

/-- The call releases the object: a reset, a destruction, or an assignment to it. -/
def Op.Releases (i : ℕ) : Op → Prop
  | .moveAssign self other => self = i ∧ self ≠ other
  | .reset self => self = i
  | .destroy self => self = i
  | _ => False

/-- A release of the object at `i` spares the data: the object does not own it, and neither
does an object that the deleter releases, which keeps to `S`. -/
def State.Spares (s : State) (d : Addr) (S : State → Prop) (i : ℕ) : Prop :=
  ¬ s.Owns i d ∧ ∀ p c, s.get i = some p → p.due = some c → S (s.call [c])

/-- The operation, in the state before it runs, spares the data. -/
def Op.Spares (op : Op) (d : Addr) (S : State → Prop) (s : State) : Prop :=
  ∀ i, op.Releases i → s.Spares d S i

/-- No operation of the body, at any depth, releases the object that owns the data in the
state before the operation runs. -/
def Body.Spares (d : Addr) : Body → State → Prop
  | .done, _ => True
  | .cons op nested rest, s =>
      op.Spares d (nested.Spares d) s ∧
        ∀ s₁, s.stepCalling nested.run op = some s₁ → rest.Spares d s₁

variable {s s' a a' b : State} {f : State → Option State} {S : State → Prop} {i j : ℕ}
  {p q v : DataPtr} {c : Call} {l : Option ℕ}

/-! ## What a call did -/

theorem resetCalling_eq : s.resetCalling i f = some s' ↔ ∃ p s₁ p₁, s.get i = some p ∧
    s.calling p f = some s₁ ∧ s₁.get i = some p₁ ∧ s' = s₁.put i {} := by
  simp only [State.resetCalling, Option.bind_eq_bind, Option.pure_def, Option.bind_eq_some_iff,
    Option.some.injEq]
  constructor
  · rintro ⟨p, hp, s₁, hs₁, p₁, hp₁, rfl⟩
    exact ⟨p, s₁, p₁, hp, hs₁, hp₁, rfl⟩
  · rintro ⟨p, s₁, p₁, hp, hs₁, hp₁, rfl⟩
    exact ⟨p, hp, s₁, hs₁, p₁, hp₁, rfl⟩

theorem moveAssignCalling_eq (hij : i ≠ j) : s.stepCalling f (.moveAssign i j) = some s' ↔
    (∃ q, s.get j = some q) ∧ ∃ s₁ q, s.resetCalling i f = some s₁ ∧ s₁.get j = some q ∧
      s' = (s₁.put j {}).put i q := by
  simp only [State.stepCalling, Option.bind_eq_bind, Option.pure_def, Option.bind_eq_some_iff,
    Option.some.injEq, if_neg hij]
  constructor
  · rintro ⟨p, -, q, hq, s₁, hs₁, q₁, hq₁, rfl⟩
    exact ⟨⟨q, hq⟩, s₁, q₁, hs₁, hq₁, rfl⟩
  · rintro ⟨⟨q, hq⟩, s₁, q₁, hs₁, hq₁, rfl⟩
    obtain ⟨p, _, _, hp, -⟩ := resetCalling_eq.mp hs₁
    exact ⟨p, hp, q, hq, s₁, hs₁, q₁, hq₁, rfl⟩

theorem destroyCalling_eq : s.stepCalling f (.destroy i) = some s' ↔
    ∃ s₁, s.resetCalling i f = some s₁ ∧ s' = s₁.drop i := by
  simp only [State.stepCalling, Option.bind_eq_bind, Option.pure_def, Option.bind_eq_some_iff,
    Option.some.injEq]
  exact exists_congr fun s₁ => and_congr_right fun _ => eq_comm

/-- With deleters that do nothing, the member functions are those of `step`. -/
theorem stepCalling_some (s : State) (op : Op) : s.stepCalling some op = s.step op := by
  have hreset : ∀ i p, s.get i = some p → s.resetCalling i some = some (s.resetAt i p) := by
    intro i p hp
    refine resetCalling_eq.mpr ⟨p, s.call p.due.toList, p, hp, ?_, hp, rfl⟩
    cases hdue : p.due <;> simp only [State.calling, hdue] <;> rfl
  cases op with
  | construct | constructDefault | moveConstruct | swap => rfl
  | moveAssign self other =>
      simp only [State.stepCalling, State.step, Option.bind_eq_bind]
      cases hp : s.get self with
      | none => rfl
      | some p =>
          cases hq : s.get other with
          | none => rfl
          | some q =>
              by_cases heq : self = other
              · simp [heq]
              · have hother : (s.resetAt self p).get other = some q := by
                  rw [Counted.get_resetAt hp, if_neg (Ne.symm heq), hq]
                simp [heq, hreset _ _ hp, hother]
  | reset self =>
      simp only [State.stepCalling, State.step]
      cases hp : s.get self with
      | none => simp [State.resetCalling, hp]
      | some p => simp [hreset _ _ hp]
  | destroy self =>
      simp only [State.stepCalling, State.step]
      cases hp : s.get self with
      | none => simp [State.resetCalling, hp]
      | some p => simp [hreset _ _ hp]

/-! ## Two runs, with and without the value -/

theorem get_add (s : State) (p : DataPtr) (j : ℕ) :
    (s.add p).get j = if j = s.ptrs.length then some p else s.get j := by
  simp only [State.get, State.add, List.getElem?_append]
  grind

theorem get_drop (hp : s.get i = some p) (j : ℕ) :
    (s.drop i).get j = if j = i then none else s.get j := by
  have hlen : i < s.ptrs.length :=
    (List.getElem?_eq_some_iff.mp (Option.join_eq_some_iff.mp hp)).1
  simp only [State.get, State.drop, List.getElem?_set]
  grind

theorem lt_length_of_get (hp : s.get i = some p) : i < s.ptrs.length :=
  (List.getElem?_eq_some_iff.mp (Option.join_eq_some_iff.mp hp)).1

theorem put_comm (hij : i ≠ j) (p q : DataPtr) :
    (s.put i p).put j q = (s.put j q).put i p := by
  simp only [State.put]
  rw [List.set_comm _ _ hij]

/-- The state `b` is `a` with the value `v` taken out of the object at `l`, the
only one that holds its data; without such an object they hold the same. -/
structure Shadow (c : Call) (v : DataPtr) (l : Option ℕ) (a b : State) : Prop where
  calls : b.calls = a.calls
  length : b.ptrs.length = a.ptrs.length
  get : ∀ j, b.get j = if l = some j then some {} else a.get j
  token : ∀ j, l = some j → a.get j = some v
  alone : ∀ j, a.Owns j c.data → l = some j

namespace Shadow

theorem isSome_get (h : Shadow c v l a b) (hq : a.get i = some q) : ∃ r, b.get i = some r := by
  rw [h.get]
  split
  · exact ⟨_, rfl⟩
  · exact ⟨q, hq⟩

theorem data_ne (h : Shadow c v l a b) (hi : l ≠ some i) (hq : a.get i = some q) :
    q.data ≠ some c.data := fun hd => hi (h.alone i ⟨q, hq, hd⟩)

/-- The same value stored over an object. -/
theorem put {x : DataPtr} (h : Shadow c v l a b) (hq : a.get i = some q)
    (hx : x.data ≠ some c.data) :
    Shadow c v (if l = some i then none else l) (a.put i x) (b.put i x) := by
  obtain ⟨r, hr⟩ := h.isSome_get hq
  refine ⟨h.calls, ?_, fun j => ?_, fun j hj => ?_, ?_⟩
  · simp only [State.put, List.length_set, h.length]
  · rw [Counted.get_put hr, Counted.get_put hq, h.get]
    grind
  · rw [Counted.get_put hq]
    have := h.token j
    grind
  · rintro j ⟨y, hy, hyd⟩
    rw [Counted.get_put hq] at hy
    split at hy
    · cases hy
      exact absurd hyd hx
    · next hne =>
        have := h.alone j ⟨y, hy, hyd⟩
        grind

/-- The value put back, into another object. -/
theorem putToken (h : Shadow c v none a b) (hq : a.get i = some q) :
    Shadow c v (some i) (a.put i v) (b.put i {}) := by
  obtain ⟨r, hr⟩ := h.isSome_get hq
  refine ⟨h.calls, ?_, fun j => ?_, fun j hj => ?_, ?_⟩
  · simp only [State.put, List.length_set, h.length]
  · rw [Counted.get_put hr, Counted.get_put hq, h.get]
    grind
  · rw [Counted.get_put hq]
    grind
  · rintro j ⟨y, hy, hyd⟩
    rw [Counted.get_put hq] at hy
    split at hy
    · next heq => rw [heq]
    · cases h.alone j ⟨y, hy, hyd⟩

theorem add {x : DataPtr} (h : Shadow c v l a b) (hx : x.data ≠ some c.data) :
    Shadow c v l (a.add x) (b.add x) := by
  have hold : ∀ j, l = some j → j ≠ a.ptrs.length := fun j hj =>
    (lt_length_of_get (h.token j hj)).ne
  refine ⟨h.calls, ?_, fun j => ?_, fun j hj => ?_, ?_⟩
  · simp only [State.add, List.length_append, h.length]
  · rw [get_add, get_add, h.length, h.get]
    have := hold j
    grind
  · rw [get_add, if_neg (hold j hj), h.token j hj]
  · rintro j ⟨y, hy, hyd⟩
    rw [get_add] at hy
    split at hy
    · cases hy
      exact absurd hyd hx
    · exact h.alone j ⟨y, hy, hyd⟩

theorem addToken (h : Shadow c v none a b) :
    Shadow c v (some a.ptrs.length) (a.add v) (b.add {}) := by
  refine ⟨h.calls, ?_, fun j => ?_, fun j hj => ?_, ?_⟩
  · simp only [State.add, List.length_append, List.length_singleton, h.length]
  · rw [get_add, get_add, h.length, h.get]
    grind
  · rw [get_add]
    grind
  · rintro j ⟨y, hy, hyd⟩
    rw [get_add] at hy
    split at hy
    · next heq => rw [heq]
    · cases h.alone j ⟨y, hy, hyd⟩

theorem drop (h : Shadow c v l a b) (hi : l ≠ some i) (hq : a.get i = some q) :
    Shadow c v l (a.drop i) (b.drop i) := by
  obtain ⟨r, hr⟩ := h.isSome_get hq
  refine ⟨h.calls, ?_, fun j => ?_, fun j hj => ?_, ?_⟩
  · simp only [State.drop, List.length_set, h.length]
  · rw [get_drop hr, get_drop hq, h.get]
    grind
  · rw [get_drop hq]
    have := h.token j hj
    grind
  · rintro j ⟨y, hy, hyd⟩
    rw [get_drop hq] at hy
    split at hy
    · cases hy
    · exact h.alone j ⟨y, hy, hyd⟩

theorem hand (h : Shadow c v l a b) (x : DataPtr) : Shadow c v l (a.hand x) (b.hand x) :=
  ⟨h.calls, h.length, h.get, h.token, h.alone⟩

theorem call (h : Shadow c v l a b) (cs : List Call) : Shadow c v l (a.call cs) (b.call cs) :=
  ⟨by rw [State.call, State.call, h.calls], h.length, h.get, h.token, h.alone⟩

/-- A value moved from an object to another one. -/
theorem move (h : Shadow c v l a b) (hij : i ≠ j) (hp : a.get i = some p)
    (hq : a.get j = some q) : ∃ r l', b.get j = some r ∧
      Shadow c v l' ((a.put j {}).put i q) ((b.put j {}).put i r) := by
  have hp' : (a.put j {}).get i = some p := by rw [Counted.get_put hq, if_neg hij, hp]
  have hempty := h.put hq (x := {}) (Option.some_ne_none _).symm
  by_cases hj : l = some j
  · cases hq.symm.trans (h.token j hj)
    rw [if_pos hj] at hempty
    exact ⟨{}, some i, by rw [h.get, if_pos hj], hempty.putToken hp'⟩
  · rw [if_neg hj] at hempty
    exact ⟨q, _, by rw [h.get, if_neg hj, hq], hempty.put hp' (h.data_ne hj hq)⟩

/-- Two objects exchange their values. -/
theorem swap (h : Shadow c v l a b) (hp : a.get i = some p) (hq : a.get j = some q) :
    ∃ r r' l', b.get i = some r ∧ b.get j = some r' ∧
      Shadow c v l' ((a.put i q).put j p) ((b.put i r').put j r) := by
  by_cases hij : i = j
  · subst hij
    cases hp.symm.trans hq
    obtain ⟨r, hr⟩ := h.isSome_get hp
    refine ⟨r, r, l, hr, hr, ?_⟩
    rwa [Counted.put_self hp, Counted.put_self hp, Counted.put_self hr, Counted.put_self hr]
  · by_cases hi : l = some i
    · -- the value goes from `i` to `j`
      cases hp.symm.trans (h.token i hi)
      have hj : l ≠ some j := fun hj => hij (Option.some.inj (hi.symm.trans hj))
      have hput := h.put hp (h.data_ne hj hq)
      rw [if_pos hi] at hput
      have hq' : (a.put i q).get j = some q := by rw [Counted.get_put hp, if_neg (Ne.symm hij), hq]
      exact ⟨{}, q, some j, by rw [h.get, if_pos hi], by rw [h.get, if_neg hj, hq],
        hput.putToken hq'⟩
    · have hpb : b.get i = some p := by rw [h.get, if_neg hi, hp]
      have hput := h.put hq (h.data_ne hi hp)
      have hp' : (a.put j p).get i = some p := by rw [Counted.get_put hq, if_neg hij, hp]
      by_cases hj : l = some j
      · -- the value goes from `j` to `i`
        rw [if_pos hj] at hput
        refine ⟨p, {}, some i, hpb, by rw [h.get, if_pos hj], ?_⟩
        rw [put_comm hij q p, put_comm hij {} p, Option.some.inj (hq.symm.trans (h.token j hj))]
        exact hput.putToken hp'
      · rw [if_neg hj] at hput
        have hput' := hput.put hp' (h.data_ne hj hq)
        rw [← put_comm hij q p, ← put_comm hij q p] at hput'
        exact ⟨p, q, _, hpb, by rw [h.get, if_neg hj, hq], hput'⟩

end Shadow

/-! ## Calls are never taken back -/

/-- Running `f` only adds calls. -/
def Grows (c : Call) (f : State → Option State) : Prop :=
  ∀ s s', f s = some s' → s.calls.count c ≤ s'.calls.count c

theorem calling_grows (hf : Grows c f) (hs : s.calling p f = some s') :
    s.calls.count c ≤ s'.calls.count c := by
  unfold State.calling at hs
  split at hs
  · cases hs
    exact le_rfl
  · next c' hdue =>
      refine le_trans ?_ (hf _ _ hs)
      simp only [State.call, List.count_append]
      omega

theorem resetCalling_grows (hf : Grows c f) (hs : s.resetCalling i f = some s') :
    s.calls.count c ≤ s'.calls.count c := by
  obtain ⟨p, s₁, p₁, -, hs₁, -, rfl⟩ := resetCalling_eq.mp hs
  have hle := calling_grows hf hs₁
  exact hle

theorem stepCalling_grows (op : Op) (hf : Grows c f) : Grows c (State.stepCalling · f op) := by
  intro s s' hs
  dsimp only at hs
  cases op with
  | construct =>
      cases hs
      exact le_rfl
  | constructDefault =>
      cases hs
      exact le_rfl
  | moveConstruct other =>
      simp only [State.stepCalling, State.step, Option.bind_eq_bind, Option.pure_def,
        Option.bind_eq_some_iff, Option.some.injEq] at hs
      obtain ⟨q, -, rfl⟩ := hs
      exact le_rfl
  | swap self other =>
      simp only [State.stepCalling, State.step, Option.bind_eq_bind, Option.pure_def,
        Option.bind_eq_some_iff, Option.some.injEq] at hs
      obtain ⟨p, -, q, -, rfl⟩ := hs
      exact le_rfl
  | reset self => exact resetCalling_grows hf hs
  | destroy self =>
      obtain ⟨s₁, hs₁, rfl⟩ := destroyCalling_eq.mp hs
      have hle := resetCalling_grows hf hs₁
      exact hle
  | moveAssign self other =>
      by_cases heq : self = other
      · subst heq
        simp only [State.stepCalling, if_true, Option.bind_eq_bind, Option.pure_def,
          Option.bind_eq_some_iff, Option.some.injEq] at hs
        obtain ⟨_, -, _, -, rfl⟩ := hs
        exact le_rfl
      · obtain ⟨-, s₁, q, hs₁, -, rfl⟩ := (moveAssignCalling_eq heq).mp hs
        have hle := resetCalling_grows hf hs₁
        exact hle

theorem run_grows (c : Call) (body : Body) : Grows c body.run := by
  induction body with
  | done =>
      intro s s' hs
      cases hs
      exact le_rfl
  | cons op nested rest ihn ihr =>
      intro s s' hs
      simp only [Body.run, Option.bind_eq_bind, Option.bind_eq_some_iff] at hs
      obtain ⟨s₁, hs₁, hs⟩ := hs
      exact (stepCalling_grows op ihn s s₁ hs₁).trans (ihr s₁ s' hs)

/-! ## The simulation -/

/-- From the shadow of a state, `f` does what it does from the state if `S` holds there; if
not, it makes the call again. -/
def Simulates (c : Call) (v : DataPtr) (f : State → Option State) (S : State → Prop) : Prop :=
  ∀ l a b a', Shadow c v l a b → f a = some a' → ¬ S a ∧ a.calls.count c < a'.calls.count c ∨
    S a ∧ a'.calls.count c = a.calls.count c ∧ ∃ b' l', f b = some b' ∧ Shadow c v l' a' b'

/-- A reset that does not spare the data makes the call again; one that does clears the
object in both runs. -/
theorem resetCalling_simulates (hv : v.due = some c) (hf : Simulates c v f S) (hg : Grows c f)
    (h : Shadow c v l a b) (ha : a.resetCalling i f = some a') :
    ¬ a.Spares c.data S i ∧ a.calls.count c < a'.calls.count c ∨
      a.Spares c.data S i ∧ a'.calls.count c = a.calls.count c ∧
        ∃ b' l', b.resetCalling i f = some b' ∧ Shadow c v l' a' b' ∧ l' ≠ some i := by
  obtain ⟨p, a₁, p₁, hp, ha₁, hp₁, rfl⟩ := resetCalling_eq.mp ha
  by_cases hi : l = some i
  · -- the object holds the value
    left
    have hv' := h.token i hi
    refine ⟨fun hspares => hspares.1 ⟨v, hv', data_of_due hv⟩, ?_⟩
    cases hp.symm.trans hv'
    simp only [State.calling, hv] at ha₁
    have hle := hg _ _ ha₁
    simp only [State.call, List.count_append, List.count_singleton_self] at hle
    change _ < a₁.calls.count c
    omega
  · have hpb : b.get i = some p := by rw [h.get, if_neg hi, hp]
    have hdue : p.due ≠ some c := fun hd => h.data_ne hi hp (data_of_due hd)
    have howns : ¬ a.Owns i c.data := fun hown => hi (h.alone i hown)
    -- the deleter of the object, if it has one
    obtain ⟨hS, hlt⟩ | ⟨hS, heq, b₁, l₁, hb₁, h₁⟩ :
        ¬ a.Spares c.data S i ∧ a.calls.count c < a₁.calls.count c ∨
          a.Spares c.data S i ∧ a₁.calls.count c = a.calls.count c ∧
            ∃ b₁ l₁, b.calling p f = some b₁ ∧ Shadow c v l₁ a₁ b₁ := by
      cases hpd : p.due with
      | none =>
          simp only [State.calling, hpd] at ha₁ ⊢
          cases ha₁
          refine .inr ⟨⟨howns, fun p' c' hp' hc' => ?_⟩, rfl, b, l, rfl, h⟩
          cases hp.symm.trans hp'
          cases hpd.symm.trans hc'
      | some c' =>
          simp only [State.calling, hpd] at ha₁ ⊢
          have hcount : (a.call [c']).calls.count c = a.calls.count c := by
            have hne : c' ≠ c := fun heq => hdue (heq ▸ hpd)
            rw [State.call, List.count_append, List.count_singleton, if_neg (by simpa using hne),
              Nat.zero_add]
          rw [← hcount]
          refine (hf _ _ _ _ (h.call [c']) ha₁).imp ?_ ?_
          · rintro ⟨hS, hlt⟩
            exact ⟨fun hspares => hS (hspares.2 p c' hp hpd), hlt⟩
          · rintro ⟨hS, hsim⟩
            refine ⟨⟨howns, fun p' c'' hp' hc'' => ?_⟩, hsim⟩
            cases hp.symm.trans hp'
            cases hpd.symm.trans hc''
            exact hS
    · exact .inl ⟨hS, hlt⟩
    · refine .inr ⟨hS, heq, ?_⟩
      obtain ⟨r₁, hr₁⟩ := h₁.isSome_get hp₁
      refine ⟨b₁.put i {}, _, resetCalling_eq.mpr ⟨p, b₁, r₁, hpb, hb₁, hr₁, rfl⟩,
        h₁.put hp₁ (Option.some_ne_none _).symm, ?_⟩
      grind

/-- An operation that releases one object spares what the release spares. -/
theorem Op.spares_iff {op : Op} {d : Addr} (hop : ∀ j, op.Releases j ↔ i = j) :
    op.Spares d S s ↔ s.Spares d S i := by
  constructor
  · intro h
    exact h i ((hop i).mpr rfl)
  · intro h j hj
    cases (hop j).mp hj
    exact h

theorem get_of_resetCalling (hs : s.resetCalling i f = some s') : s'.get i = some {} := by
  obtain ⟨p, s₁, p₁, -, -, hp₁, rfl⟩ := resetCalling_eq.mp hs
  rw [Counted.get_put hp₁, if_pos rfl]

/-- Every member function simulates itself on shadows. -/
theorem stepCalling_simulates {op : Op} (hv : v.due = some c) (hop : ¬ op.Makes c.data)
    (hf : Simulates c v f S) (hg : Grows c f) :
    Simulates c v (State.stepCalling · f op) (op.Spares c.data S) := by
  intro l a b a' h ha
  dsimp only at ha
  cases op with
  | construct allocation context deleter =>
      cases ha
      exact .inr ⟨fun i hi => hi.elim, rfl, _, l, rfl, (h.hand _).add hop⟩
  | constructDefault =>
      cases ha
      exact .inr ⟨fun i hi => hi.elim, rfl, _, l, rfl, h.add (Option.some_ne_none _).symm⟩
  | moveConstruct other =>
      simp only [State.stepCalling, State.step, Option.bind_eq_bind, Option.pure_def,
        Option.bind_eq_some_iff, Option.some.injEq] at ha ⊢
      obtain ⟨q, hq, rfl⟩ := ha
      have hempty := h.put hq (x := {}) (Option.some_ne_none _).symm
      refine .inr ⟨fun i hi => hi.elim, rfl, ?_⟩
      by_cases hl : l = some other
      · cases hq.symm.trans (h.token other hl)
        rw [if_pos hl] at hempty
        exact ⟨_, _, ⟨{}, by rw [h.get, if_pos hl], rfl⟩, hempty.addToken⟩
      · exact ⟨_, _, ⟨q, by rw [h.get, if_neg hl, hq], rfl⟩, hempty.add (h.data_ne hl hq)⟩
  | swap self other =>
      simp only [State.stepCalling, State.step, Option.bind_eq_bind, Option.pure_def,
        Option.bind_eq_some_iff, Option.some.injEq] at ha ⊢
      obtain ⟨p, hp, q, hq, rfl⟩ := ha
      obtain ⟨r, r', l', hr, hr', hswap⟩ := h.swap hp hq
      exact .inr ⟨fun i hi => hi.elim, rfl, _, l', ⟨r, hr, r', hr', rfl⟩, hswap⟩
  | reset self =>
      rw [Op.spares_iff (i := self) fun _ => Iff.rfl]
      refine (resetCalling_simulates hv hf hg h ha).imp id ?_
      rintro ⟨hS, heq, b', l', hb', h', -⟩
      exact ⟨hS, heq, b', l', hb', h'⟩
  | destroy self =>
      rw [Op.spares_iff (i := self) fun _ => Iff.rfl]
      obtain ⟨a₁, ha₁, rfl⟩ := destroyCalling_eq.mp ha
      refine (resetCalling_simulates hv hf hg h ha₁).imp id ?_
      rintro ⟨hS, heq, b₁, l', hb₁, h₁, hl'⟩
      exact ⟨hS, heq, _, l', destroyCalling_eq.mpr ⟨b₁, hb₁, rfl⟩,
        h₁.drop hl' (get_of_resetCalling ha₁)⟩
  | moveAssign self other =>
      by_cases hne : self = other
      · subst hne
        simp only [State.stepCalling, if_true, Option.bind_eq_bind, Option.pure_def,
          Option.bind_eq_some_iff, Option.some.injEq] at ha ⊢
        obtain ⟨p, hp, q, hq, rfl⟩ := ha
        obtain ⟨r, hr⟩ := h.isSome_get hp
        exact .inr ⟨fun i hi => absurd rfl hi.2, rfl, b, l, ⟨r, hr, r, hr, rfl⟩, h⟩
      · have hspares : (Op.moveAssign self other).Spares c.data S a ↔ a.Spares c.data S self :=
          Op.spares_iff fun _ => and_iff_left hne
        rw [hspares]
        obtain ⟨⟨q₀, hq₀⟩, a₁, q, ha₁, hq, rfl⟩ := (moveAssignCalling_eq hne).mp ha
        refine (resetCalling_simulates hv hf hg h ha₁).imp id ?_
        rintro ⟨hS, heq, b₁, l', hb₁, h₁, -⟩
        obtain ⟨r, l'', hr, hmove⟩ := h₁.move hne (get_of_resetCalling ha₁) hq
        exact ⟨hS, heq, _, l'', (moveAssignCalling_eq hne).mpr
          ⟨h.isSome_get hq₀, b₁, r, hb₁, hr, rfl⟩, hmove⟩

/-- Every body simulates itself on shadows. -/
theorem run_simulates {body : Body} (hv : v.due = some c) (hbody : body.MakesNo c.data) :
    Simulates c v body.run (body.Spares c.data) := by
  induction body with
  | done =>
      intro l a b a' h ha
      cases ha
      exact .inr ⟨trivial, rfl, b, l, rfl, h⟩
  | cons op nested rest ihn ihr =>
      intro l a b a' h ha
      obtain ⟨hop, hnested, hrest⟩ := hbody
      simp only [Body.run, Option.bind_eq_bind, Option.bind_eq_some_iff] at ha ⊢
      obtain ⟨a₁, ha₁, ha⟩ := ha
      rcases stepCalling_simulates hv hop (ihn hnested) (run_grows c nested) l a b a₁ h ha₁ with
        ⟨hS, hlt⟩ | ⟨hS, heq, b₁, l₁, hb₁, h₁⟩
      · exact .inl ⟨fun hspares => hS hspares.1,
          lt_of_lt_of_le hlt (run_grows c rest a₁ a' ha)⟩
      · rcases ihr hrest l₁ a₁ b₁ a' h₁ ha with ⟨hS', hlt⟩ | ⟨hS', heq', b', l', hb', h'⟩
        · exact .inl ⟨fun hspares => hS' (hspares.2 a₁ ha₁), heq ▸ hlt⟩
        · refine .inr ⟨⟨hS, fun a₂ ha₂ => ?_⟩, heq'.trans heq, b', l', ⟨b₁, hb₁, hb'⟩, h'⟩
          cases ha₁.symm.trans ha₂
          exact hS'

/-! ## One release -/

/-- The call makes the deleter call once, and leaves the pointer as the same call
leaves an emptied one. -/
def CallsOnce (s : State) (op : Op) (i : ℕ) (c : Call) (body : Body) : Prop :=
  ∃ s' s'', s.stepCalling body.run op = some s' ∧ s.stepEmptied body.run op = some s'' ∧
    s'.calls.count c = s.calls.count c + 1 ∧ s'.get i = s''.get i

/-- Nor is an object left that would make the call again later. -/
def ReleasesOnce (s : State) (op : Op) (i : ℕ) (c : Call) (body : Body) : Prop :=
  CallsOnce s op i c body ∧
    ∀ s', s.stepCalling body.run op = some s' → ∀ j, ¬ s'.Owns j c.data

/-- What the rest of the call needs of the state that the deleter leaves. -/
def Op.Finishes (v : DataPtr) (a : State) : Op → Prop
  | .moveAssign self other =>
      (∃ p, a.get self = some p) ∧ ∃ q, a.get other = some q ∧ q.data ≠ v.data
  | .reset self => a.get self = some v ∨ a.get self = some {}
  | .destroy self => ∃ p, a.get self = some p
  | _ => False

/-- The body, run while the pointer still holds the value, returns; no operation of it, at
any depth, releases the object that then owns the data, and the rest of the call finds what
it needs. -/
def Body.Harmless (body : Body) (s : State) (op : Op) (v : DataPtr) (c : Call) : Prop :=
  body.Spares c.data (s.call [c]) ∧ ∃ a, body.run (s.call [c]) = some a ∧ op.Finishes v a

/-- The body leaves the data with no object but the pointer. -/
def Body.LeavesAlone (body : Body) (s : State) (i : ℕ) (c : Call) : Prop :=
  ∀ a, body.run (s.call [c]) = some a → ∀ j, a.Owns j c.data → j = i

theorem get_drop_self (s : State) (i : ℕ) : (s.drop i).get i = none := by
  simp only [State.get, State.drop, List.getElem?_set]
  grind

theorem owns_put_iff {d : Addr} (hp : s.get i = some p) :
    (s.put i q).Owns j d ↔ if j = i then q.data = some d else s.Owns j d := by
  simp only [State.Owns, Counted.get_put hp]
  split
  · exact ⟨fun ⟨r, hr, hd⟩ => Option.some.inj hr ▸ hd, fun hd => ⟨q, rfl, hd⟩⟩
  · exact Iff.rfl

theorem owns_put_empty {d : Addr} (hp : s.get i = some p) :
    (s.put i {}).Owns j d ↔ j ≠ i ∧ s.Owns j d := by
  rw [owns_put_iff hp]
  split
  · next heq => exact iff_of_false (Option.some_ne_none _).symm fun h => h.1 heq
  · next hne => exact (and_iff_right hne).symm

theorem owns_drop {d : Addr} (hp : s.get i = some p) :
    (s.drop i).Owns j d ↔ j ≠ i ∧ s.Owns j d := by
  simp only [State.Owns, get_drop hp]
  split
  · next heq =>
      refine iff_of_false ?_ fun h => h.1 heq
      rintro ⟨q, hq, -⟩
      cases hq
  · next hne => exact (and_iff_right hne).symm

/-- What an assignment from `j` to `i` owns after the reset of `i`. -/
theorem owns_moveAssign {d : Addr} {k : ℕ} (hij : i ≠ j) (hp : s.get i = some p)
    (hq : s.get j = some q) (hd : q.data ≠ some d) :
    (((s.put i {}).put j {}).put i q).Owns k d ↔ k ≠ i ∧ s.Owns k d := by
  have hj₁ : (s.put i {}).get j = some q := by rw [Counted.get_put hp, if_neg hij.symm, hq]
  have hi₂ : ((s.put i {}).put j {}).get i = some {} := by
    rw [Counted.get_put hj₁, if_neg hij, Counted.get_put hp, if_pos rfl]
  rw [owns_put_iff hi₂, owns_put_empty hj₁, owns_put_empty hp]
  split
  · next heq => exact iff_of_false hd fun h => h.1 heq
  · refine and_iff_right_of_imp ?_
    -- the source holds other data
    rintro ⟨-, r, hr, hrd⟩ rfl
    cases hq.symm.trans hr
    exact hd hrd

theorem get_moveAssign (hij : i ≠ j) (hp : s.get i = some p) (hq : s.get j = some q) :
    ((s.put j {}).put i q).get i = some q := by
  have hi₁ : (s.put j {}).get i = some p := by rw [Counted.get_put hq, if_neg hij, hp]
  rw [Counted.get_put hi₁, if_pos rfl]

section Release

variable {op : Op} {body : Body} (hp : s.get i = some v) (hdue : v.due = some c)
  (hown : ∀ j, s.Owns j c.data → j = i) (hbody : body.MakesNo c.data)

include hp hdue

theorem resetCalling_due : s.resetCalling i f = some s' ↔
    ∃ a, f (s.call [c]) = some a ∧ (∃ p, a.get i = some p) ∧ s' = a.put i {} := by
  rw [resetCalling_eq]
  constructor
  · rintro ⟨p, a, p₁, hp', ha, hp₁, rfl⟩
    cases hp.symm.trans hp'
    simp only [State.calling, hdue] at ha
    exact ⟨a, ha, ⟨p₁, hp₁⟩, rfl⟩
  · rintro ⟨a, ha, ⟨p₁, hp₁⟩, rfl⟩
    exact ⟨v, a, p₁, hp, by simpa only [State.calling, hdue] using ha, hp₁, rfl⟩

theorem resetEmptied_due : s.resetEmptied i f = f ((s.put i {}).call [c]) := by
  simp only [State.resetEmptied, hp, Option.bind_eq_bind, Option.bind_some, State.calling, hdue]
  rfl

theorem moveAssignEmptied_due (hij : i ≠ j) (hj : ∃ q, s.get j = some q) {s'' : State} :
    s.stepEmptied f (.moveAssign i j) = some s'' ↔
      ∃ b q p, f ((s.put i {}).call [c]) = some b ∧ b.get j = some q ∧ b.get i = some p ∧
        s'' = (b.put j {}).put i q := by
  obtain ⟨q₀, hq₀⟩ := hj
  simp only [State.stepEmptied, resetEmptied_due hp hdue, hq₀, if_neg hij, Option.bind_eq_bind,
    Option.bind_some, Option.pure_def, Option.bind_eq_some_iff, Option.some.injEq]
  constructor
  · rintro ⟨b, hb, q, hq, p, hp', rfl⟩
    exact ⟨b, q, p, hb, hq, hp', rfl⟩
  · rintro ⟨b, q, p, hb, hq, hp', rfl⟩
    exact ⟨b, hb, q, hq, p, hp', rfl⟩

/-- The call takes the data from the pointer, and from no other object. -/
theorem owns_of_finishes (hop : op.Releases i) (hs' : s.stepCalling f op = some s')
    (ha : f (s.call [c]) = some a) (hfinish : op.Finishes v a) (k : ℕ) :
    s'.Owns k c.data ↔ k ≠ i ∧ a.Owns k c.data := by
  cases op with
  | construct | constructDefault | moveConstruct | swap => cases hop
  | reset self =>
      cases hop
      obtain ⟨a', ha', ⟨p₁, hp₁⟩, rfl⟩ := (resetCalling_due hp hdue).mp hs'
      cases ha.symm.trans ha'
      exact owns_put_empty hp₁
  | destroy self =>
      cases hop
      obtain ⟨s₁, hs₁, rfl⟩ := destroyCalling_eq.mp hs'
      obtain ⟨a', ha', ⟨p₁, hp₁⟩, rfl⟩ := (resetCalling_due hp hdue).mp hs₁
      cases ha.symm.trans ha'
      have hput : (a.put i {}).get i = some {} := by rw [Counted.get_put hp₁, if_pos rfl]
      rw [owns_drop hput, owns_put_empty hp₁, ← and_assoc, and_self]
  | moveAssign self other =>
      obtain ⟨rfl, hne⟩ := hop
      obtain ⟨⟨p₁, hp₁⟩, q, hq, hd⟩ := hfinish
      obtain ⟨-, s₁, q', hs₁, hq', rfl⟩ := (moveAssignCalling_eq hne).mp hs'
      obtain ⟨a', ha', -, rfl⟩ := (resetCalling_due hp hdue).mp hs₁
      cases ha.symm.trans ha'
      rw [Counted.get_put hp₁, if_neg hne.symm] at hq'
      cases hq.symm.trans hq'
      exact owns_moveAssign hne hp₁ hq (data_of_due hdue ▸ hd)

include hown hbody

/-- The body makes the call again, or spares the data and does the same on the emptied
pointer. -/
theorem body_cases (ha : body.run (s.call [c]) = some a) :
    ¬ body.Spares c.data (s.call [c]) ∧ s.calls.count c + 1 < a.calls.count c ∨
      body.Spares c.data (s.call [c]) ∧ a.calls.count c = s.calls.count c + 1 ∧
      ∃ b l, body.run ((s.put i {}).call [c]) = some b ∧ Shadow c v l a b := by
  have hshadow : Shadow c v (some i) (s.call [c]) ((s.put i {}).call [c]) := by
    refine ⟨rfl, ?_, fun j => ?_, fun j hj => ?_, fun j hj => ?_⟩
    · simp only [State.call, State.put, List.length_set]
    · change (s.put i {}).get j = if some i = some j then some {} else s.get j
      rw [Counted.get_put hp]
      grind
    · cases hj
      exact hp
    · rw [hown j hj]
  have hcount : (s.call [c]).calls.count c = s.calls.count c + 1 := by
    rw [State.call, List.count_append, List.count_singleton_self, Nat.add_comm]
  rw [← hcount]
  exact run_simulates hdue hbody _ _ _ _ hshadow ha

/-- The body spares the data exactly when the call stays the only one. -/
theorem body_spares_iff (ha : body.run (s.call [c]) = some a) :
    body.Spares c.data (s.call [c]) ↔ a.calls.count c = s.calls.count c + 1 := by
  rcases body_cases hp hdue hown hbody ha with ⟨hnot, hlt⟩ | ⟨hspares, hcount, -⟩
  · exact iff_of_false hnot hlt.ne'
  · exact iff_of_true hspares hcount

/-- A body that spares the data does the same on the emptied pointer. -/
theorem body_simulates (ha : body.run (s.call [c]) = some a)
    (hspares : body.Spares c.data (s.call [c])) :
    ∃ b l, body.run ((s.put i {}).call [c]) = some b ∧ Shadow c v l a b := by
  rcases body_cases hp hdue hown hbody ha with ⟨hnot, -⟩ | ⟨-, -, hsim⟩
  · exact absurd hspares hnot
  · exact hsim

/-- Of which bodies a reset of the pointer is one call. -/
theorem reset_callsOnce_iff :
    CallsOnce s (.reset i) i c body ↔ body.Harmless s (.reset i) v c := by
  constructor
  · rintro ⟨s', s'', hs', hs'', hcount, hget⟩
    obtain ⟨a, ha, ⟨p₁, hp₁⟩, rfl⟩ := (resetCalling_due hp hdue).mp hs'
    have hb : body.run ((s.put i {}).call [c]) = some s'' :=
      (resetEmptied_due hp hdue).symm.trans hs''
    have hspares := (body_spares_iff hp hdue hown hbody ha).mpr hcount
    obtain ⟨b, l, hb', h⟩ := body_simulates hp hdue hown hbody ha hspares
    refine ⟨hspares, a, ha, ?_⟩
    cases hb.symm.trans hb'
    rw [Counted.get_put hp₁, if_pos rfl, h.get] at hget
    split at hget
    · next hl => exact .inl (h.token i hl)
    · exact .inr hget.symm
  · rintro ⟨hspares, a, ha, hfinish⟩
    obtain ⟨p₁, hp₁⟩ : ∃ p, a.get i = some p := hfinish.elim (⟨v, ·⟩) (⟨{}, ·⟩)
    have hcount := (body_spares_iff hp hdue hown hbody ha).mp hspares
    obtain ⟨b, l, hb, h⟩ := body_simulates hp hdue hown hbody ha hspares
    refine ⟨a.put i {}, b, (resetCalling_due hp hdue).mpr ⟨a, ha, ⟨p₁, hp₁⟩, rfl⟩,
      (resetEmptied_due hp hdue).trans hb, hcount, ?_⟩
    rw [Counted.get_put hp₁, if_pos rfl, h.get]
    rcases hfinish with hv | hempty
    · rw [if_pos (h.alone i ⟨v, hv, data_of_due hdue⟩)]
    · rw [hempty]
      split <;> rfl

/-- Of which bodies a destruction of the pointer is one call. -/
theorem destroy_callsOnce_iff :
    CallsOnce s (.destroy i) i c body ↔ body.Harmless s (.destroy i) v c := by
  constructor
  · rintro ⟨s', s'', hs', hs'', hcount, hget⟩
    obtain ⟨s₁, hs₁, rfl⟩ := destroyCalling_eq.mp hs'
    obtain ⟨a, ha, hp₁, rfl⟩ := (resetCalling_due hp hdue).mp hs₁
    exact ⟨(body_spares_iff hp hdue hown hbody ha).mpr hcount, a, ha, hp₁⟩
  · rintro ⟨hspares, a, ha, p₁, hp₁⟩
    have hcount := (body_spares_iff hp hdue hown hbody ha).mp hspares
    obtain ⟨b, -, hb, -⟩ := body_simulates hp hdue hown hbody ha hspares
    have hs₁ := (resetCalling_due hp hdue).mpr ⟨a, ha, ⟨p₁, hp₁⟩, rfl⟩
    refine ⟨_, b.drop i, destroyCalling_eq.mpr ⟨_, hs₁, rfl⟩, ?_, hcount, ?_⟩
    · simp only [State.stepEmptied, resetEmptied_due hp hdue, hb, Option.bind_eq_bind,
        Option.bind_some, Option.pure_def]
    · rw [get_drop_self, get_drop_self]

/-- Of which bodies an assignment to the pointer is one call. -/
theorem moveAssign_callsOnce_iff (hij : i ≠ j) (hj : ∃ q, s.get j = some q) :
    CallsOnce s (.moveAssign i j) i c body ↔ body.Harmless s (.moveAssign i j) v c := by
  constructor
  · rintro ⟨s', s'', hs', hs'', hcount, hget⟩
    obtain ⟨-, s₁, q, hs₁, hq, rfl⟩ := (moveAssignCalling_eq hij).mp hs'
    obtain ⟨a, ha, ⟨p₁, hp₁⟩, rfl⟩ := (resetCalling_due hp hdue).mp hs₁
    obtain ⟨b, r, p₂, hb, hr, hp₂, rfl⟩ := (moveAssignEmptied_due hp hdue hij hj).mp hs''
    have hq₀ : a.get j = some q := by rwa [Counted.get_put hp₁, if_neg hij.symm] at hq
    have hspares := (body_spares_iff hp hdue hown hbody ha).mpr hcount
    obtain ⟨b', l, hb', h⟩ := body_simulates hp hdue hown hbody ha hspares
    have hi₁ : (a.put i {}).get i = some {} := by rw [Counted.get_put hp₁, if_pos rfl]
    rw [get_moveAssign hij hi₁ hq, get_moveAssign hij hp₂ hr] at hget
    refine ⟨hspares, a, ha, ⟨p₁, hp₁⟩, q, hq₀, fun hd => ?_⟩
    cases hb.symm.trans hb'
    -- a source that holds the value holds nothing in the emptied run
    rw [h.get, if_pos (h.alone j ⟨q, hq₀, hd.trans (data_of_due hdue)⟩)] at hr
    cases hr
    cases hget
    exact absurd (hd.trans (data_of_due hdue)) (Option.some_ne_none _).symm
  · rintro ⟨hspares, a, ha, ⟨p₁, hp₁⟩, q, hq, hd⟩
    have hcount := (body_spares_iff hp hdue hown hbody ha).mp hspares
    obtain ⟨b, l, hb, h⟩ := body_simulates hp hdue hown hbody ha hspares
    have hs₁ := (resetCalling_due hp hdue).mpr ⟨a, ha, ⟨p₁, hp₁⟩, rfl⟩
    have hq₁ : (a.put i {}).get j = some q := by rw [Counted.get_put hp₁, if_neg hij.symm, hq]
    have hl : l ≠ some j := fun hl => by
      cases hq.symm.trans (h.token j hl)
      exact hd rfl
    have hqb : b.get j = some q := by rw [h.get, if_neg hl, hq]
    obtain ⟨r, hr⟩ := h.isSome_get hp₁
    refine ⟨_, _, (moveAssignCalling_eq hij).mpr ⟨hj, _, q, hs₁, hq₁, rfl⟩,
      (moveAssignEmptied_due hp hdue hij hj).mpr ⟨b, q, r, hb, hqb, hr, rfl⟩, hcount, ?_⟩
    have hi₁ : (a.put i {}).get i = some {} := by rw [Counted.get_put hp₁, if_pos rfl]
    rw [get_moveAssign hij hi₁ hq₁, get_moveAssign hij hr hqb]

/-- Of which bodies a release of the pointer is one call. -/
theorem callsOnce_iff (hop : op.Releases i) (hpossible : (s.step op).isSome = true) :
    CallsOnce s op i c body ↔ body.Harmless s op v c := by
  cases op with
  | construct | constructDefault | moveConstruct | swap => cases hop
  | reset self =>
      cases hop
      exact reset_callsOnce_iff hp hdue hown hbody
  | destroy self =>
      cases hop
      exact destroy_callsOnce_iff hp hdue hown hbody
  | moveAssign self other =>
      obtain ⟨rfl, hne⟩ := hop
      refine moveAssign_callsOnce_iff hp hdue hown hbody hne ?_
      cases hq : s.get other with
      | none => simp [State.step, hq] at hpossible
      | some q => exact ⟨q, rfl⟩

end Release

/-- A release of a pointer that owns an allocation makes one call and leaves the
pointer as if it had been emptied first, exactly when the deleter's body is
harmless while the pointer is still full. The call stays the only one exactly
when the body also leaves the data with no other object. -/
theorem releasesOnce_iff (s : State) (op : Op) (i : ℕ) (v : DataPtr) (c : Call) (body : Body)
    (hp : s.get i = some v) (hdue : v.due = some c) (hown : ∀ j, s.Owns j c.data → j = i)
    (hop : op.Releases i) (hpossible : (s.step op).isSome = true) (hbody : body.MakesNo c.data) :
    (CallsOnce s op i c body ↔ body.Harmless s op v c) ∧
    (ReleasesOnce s op i c body ↔ body.Harmless s op v c ∧ body.LeavesAlone s i c) := by
  have hcalls := callsOnce_iff hp hdue hown hbody hop hpossible
  refine ⟨hcalls, ?_⟩
  rw [ReleasesOnce, hcalls]
  refine and_congr_right fun hharmless => ?_
  obtain ⟨s', s'', hs', -⟩ := hcalls.mpr hharmless
  obtain ⟨-, a, ha, hfinish⟩ := hharmless
  have howns := owns_of_finishes hp hdue hop hs' ha hfinish
  constructor
  · intro hno a' ha' j hj
    cases ha.symm.trans ha'
    by_contra hne
    exact hno s' hs' j ((howns j).mpr ⟨hne, hj⟩)
  · intro halone s₁ hs₁ j hj
    cases hs'.symm.trans hs₁
    obtain ⟨hne, hj'⟩ := (howns j).mp hj
    exact hne (halone a ha j hj')

/-- An owner of the allocation `10`, and an empty object. -/
def ownerAndEmpty : List Op :=
  [.construct { data := some 10, bytes := 64 } (some 1) (some 2), .constructDefault]

/-- The deleter swaps the pointer with the empty object, and back. -/
def swapBack : Body := .cons (.swap 0 1) .done (.cons (.swap 0 1) .done .done)

/-- The deleter resets the pointer. -/
def resetAgain : Body := .cons (.reset 0) .done .done

theorem releasesOnce_swapBack :
    ReleasesOnce (machine.after ⟨[], [], []⟩ ownerAndEmpty 2) (.reset 0) 0 ⟨2, 10, some 1⟩
      swapBack := by
  have hstate : machine.after ⟨[], [], []⟩ ownerAndEmpty 2 =
      ⟨[some ⟨⟨some 10, 64, .cpu⟩, some 1, some 2⟩, some {}], [],
        [⟨⟨some 10, 64, .cpu⟩, some 1, some 2⟩]⟩ := by decide +kernel
  have hown : ∀ calls made j,
      State.Owns ⟨[some ⟨⟨some 10, 64, .cpu⟩, some 1, some 2⟩, some {}], calls, made⟩ j 10 →
        j = 0 := by
    rintro calls made j ⟨p, hp, hd⟩
    match j with
    | 0 => rfl
    | 1 =>
        cases hp
        cases hd
    | _ + 2 => cases hp
  rw [hstate]
  refine (releasesOnce_iff _ (.reset 0) 0 ⟨⟨some 10, 64, .cpu⟩, some 1, some 2⟩ _ swapBack rfl rfl
    (hown _ _) rfl rfl ⟨id, trivial, id, trivial, trivial⟩).2.mpr ⟨⟨?_, _, rfl, .inl rfl⟩, ?_⟩
  · exact ⟨fun i hi => hi.elim, fun _ _ => ⟨fun i hi => hi.elim, fun _ _ => trivial⟩⟩
  intro a ha
  cases ha
  exact hown _ _

/-- A deleter that resets the pointer is called again. -/
theorem releasesOnce_resetAgain_fails :
    (∃ s', (machine.after ⟨[], [], []⟩ ownerAndEmpty 2).stepCalling resetAgain.run (.reset 0) =
        some s' ∧ s'.calls = [⟨2, 10, some 1⟩, ⟨2, 10, some 1⟩]) ∧
    ¬ CallsOnce (machine.after ⟨[], [], []⟩ ownerAndEmpty 2) (.reset 0) 0 ⟨2, 10, some 1⟩
      resetAgain := by
  have hrun : (machine.after ⟨[], [], []⟩ ownerAndEmpty 2).stepCalling resetAgain.run (.reset 0) =
      some ⟨[some {}, some {}], [⟨2, 10, some 1⟩, ⟨2, 10, some 1⟩],
        [⟨⟨some 10, 64, .cpu⟩, some 1, some 2⟩]⟩ := by decide +kernel
  refine ⟨⟨_, hrun, rfl⟩, ?_⟩
  rintro ⟨s', s'', hs', -, hcount, -⟩
  cases hrun.symm.trans hs'
  exact absurd hcount (by decide)

end DataPtr

end Gradyx
