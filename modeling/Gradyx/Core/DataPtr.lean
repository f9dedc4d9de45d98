import Gradyx.Core.Device
import Gradyx.Lib.Behavior
import Gradyx.Lib.Tally
import Mathlib.Data.List.Nodup

/-!
# DataPtr — the owning pointer of an allocation

`include/gradyx/core/data_ptr.h`. Any number of `DataPtr` objects, run through
any sequence of their member functions, with deleters that touch no `DataPtr`.

* A `DataPtr` is its five fields; each member function moves them one by one,
  as the source does.
* `calls` is the history of deleter calls, `made` that of constructor calls.
* `Counted`: for every deleter call that a constructed object owes, the objects
  that owe it and the calls already made add up to the constructions.

A pointer names the storage it came from, so an address that the allocator
hands out again is a new pointer.
-/

namespace Gradyx

open Lib

namespace DataPtr

/-- A non-null `void*`, and a non-null function pointer. -/
abbrev Addr := ℕ

structure Allocation where
  data : Option Addr := none
  bytes : ℕ := 0
  device : Device := .cpu
deriving DecidableEq, Repr

end DataPtr

structure DataPtr where
  allocation : DataPtr.Allocation := {}
  context : Option DataPtr.Addr := none
  deleter : Option DataPtr.Addr := none
deriving DecidableEq, Repr

namespace DataPtr

/-- One call of a deleter. -/
structure Call where
  deleter : Addr
  data : Addr
  context : Option Addr
deriving DecidableEq, Repr

/-! ## Member functions -/

/-- `DataPtr(Allocation, void*, Deleter)`. -/
def construct (allocation : Allocation) (context deleter : Option Addr) : DataPtr :=
  { allocation, context, deleter }

def data (p : DataPtr) : Option Addr := p.allocation.data

/-- The deleter call that is due: none without data or without a deleter. -/
def due (p : DataPtr) : Option Call :=
  match p.data, p.deleter with
  | some data, some deleter => some ⟨deleter, data, p.context⟩
  | _, _ => none

/-- `reset`: what it calls and what it leaves. -/
def reset (p : DataPtr) : List Call × DataPtr :=
  (p.due.toList, { allocation := {}, context := none, deleter := none })

/-- What the three `std::exchange` calls of a move take from `other`, and what
they leave there. -/
def exchange (other : DataPtr) : DataPtr × DataPtr :=
  ({ allocation := other.allocation, context := other.context, deleter := other.deleter },
    { allocation := {}, context := none, deleter := none })

/-- `swap`, field by field. -/
def swap (self other : DataPtr) : DataPtr × DataPtr :=
  ({ allocation :=
        { data := other.allocation.data
          bytes := other.allocation.bytes
          device := other.allocation.device }
     context := other.context
     deleter := other.deleter },
    { allocation :=
        { data := self.allocation.data
          bytes := self.allocation.bytes
          device := self.allocation.device }
      context := self.context
      deleter := self.deleter })

theorem swap_eq (self other : DataPtr) : swap self other = (other, self) := rfl

theorem exchange_eq (other : DataPtr) : exchange other = (other, {}) := rfl

/-! ## Runs over many objects -/

/-- The `DataPtr` objects in order of construction, `none` once destroyed; the
deleter calls made so far, and the values handed to the allocating
constructor. -/
structure State where
  ptrs : List (Option DataPtr)
  calls : List Call
  made : List DataPtr
deriving DecidableEq, Repr

inductive Op where
  | construct (allocation : Allocation) (context deleter : Option Addr)
  | constructDefault
  | moveConstruct (other : ℕ)
  | moveAssign (self other : ℕ)
  | swap (self other : ℕ)
  | reset (self : ℕ)
  | destroy (self : ℕ)
deriving DecidableEq, Repr

namespace State

def get (s : State) (i : ℕ) : Option DataPtr := s.ptrs[i]?.join

def put (s : State) (i : ℕ) (p : DataPtr) : State := { s with ptrs := s.ptrs.set i (some p) }

def drop (s : State) (i : ℕ) : State := { s with ptrs := s.ptrs.set i none }

def add (s : State) (p : DataPtr) : State := { s with ptrs := s.ptrs ++ [some p] }

def call (s : State) (c : List Call) : State := { s with calls := c ++ s.calls }

def hand (s : State) (p : DataPtr) : State := { s with made := p :: s.made }

/-- `reset` of the object at `i`. -/
def resetAt (s : State) (i : ℕ) (p : DataPtr) : State := (s.call p.reset.1).put i p.reset.2

/-- The call, if the objects it needs are there. -/
def step (s : State) : Op → Option State
  | .construct allocation context deleter =>
      let p := DataPtr.construct allocation context deleter
      some ((s.hand p).add p)
  | .constructDefault => some (s.add {})
  | .moveConstruct other => do
      let q ← s.get other
      return (s.put other q.exchange.2).add q.exchange.1
  | .moveAssign self other => do
      let p ← s.get self
      let q ← s.get other
      if self = other then return s
      return ((s.resetAt self p).put other q.exchange.2).put self q.exchange.1
  | .swap self other => do
      let p ← s.get self
      let q ← s.get other
      return (s.put self (p.swap q).1).put other (p.swap q).2
  | .reset self => do
      let p ← s.get self
      return s.resetAt self p
  | .destroy self => do
      let p ← s.get self
      return (s.resetAt self p).drop self

end State

/-- Runs that start with no object. -/
def machine : Machine State Op where
  Init s := s = ⟨[], [], []⟩
  step := State.step

/-! ## The accounting -/

/-- Whether the object owes the call. -/
def owes (c : Call) (p : Option DataPtr) : ℕ := if p.bind due = some c then 1 else 0

/-- Objects whose data came from no constructor do not exist. `held` are the
values in the hands of the running member function. -/
structure Counted (s : State) (held : List DataPtr) : Prop where
  balance : ∀ c, tally (owes c) s.ptrs + tally (fun p => owes c (some p)) held +
    s.calls.count c = tally (fun p => owes c (some p)) s.made
  known : ∀ i p, s.get i = some p → p.data ≠ none → p ∈ s.made
  known_held : ∀ p ∈ held, p.data ≠ none → p ∈ s.made

namespace Counted

variable {s : State} {held : List DataPtr}

theorem owes_empty (c : Call) : owes c (some {}) = 0 := rfl

/-- The empty value owes nothing. -/
theorem empty_iff : Counted s ({} :: held) ↔ Counted s held := by
  constructor
  · intro h
    refine ⟨fun c => ?_, h.known, fun p hp => h.known_held p (List.mem_cons_of_mem _ hp)⟩
    have := h.balance c
    rwa [tally_cons, owes_empty, Nat.zero_add] at this
  · intro h
    refine ⟨fun c => ?_, h.known, fun p hp => ?_⟩
    · rw [tally_cons, owes_empty, Nat.zero_add]
      exact h.balance c
    · rcases List.mem_cons.mp hp with rfl | hp
      · intro hd
        exact absurd rfl hd
      · exact h.known_held p hp

theorem get_put {i : ℕ} {p q : DataPtr} (hq : s.get i = some q) (j : ℕ) :
    (s.put i p).get j = if j = i then some p else s.get j := by
  have hlen : i < s.ptrs.length := by
    have := Option.join_eq_some_iff.mp hq
    exact (List.getElem?_eq_some_iff.mp this).1
  by_cases hj : j = i
  · subst hj
    simp [State.get, State.put, hlen]
  · simp [State.get, State.put, hj, List.getElem?_set_ne (Ne.symm hj)]

/-- Exchanging the value of an object for one in hand. -/
theorem put {i : ℕ} {p q : DataPtr} (h : Counted s (p :: held)) (hq : s.get i = some q) :
    Counted (s.put i p) (q :: held) := by
  refine ⟨fun c => ?_, fun j r hr hd => ?_, fun r hr hd => ?_⟩
  · have hb := h.balance c
    have hset := tally_set (owes c) (some p) (Option.join_eq_some_iff.mp hq)
    simp only [tally_cons, State.put] at hb ⊢
    omega
  · rw [get_put hq] at hr
    split at hr
    · cases hr
      exact h.known_held _ List.mem_cons_self hd
    · exact h.known j r hr hd
  · rcases List.mem_cons.mp hr with rfl | hr
    · exact h.known i r hq hd
    · exact h.known_held r (List.mem_cons_of_mem _ hr) hd

/-- The value in hand goes to a new object. -/
theorem add {p : DataPtr} (h : Counted s (p :: held)) : Counted (s.add p) held := by
  refine ⟨fun c => ?_, fun j r hr hd => ?_, fun r hr => h.known_held r (List.mem_cons_of_mem _ hr)⟩
  · have hb := h.balance c
    simp only [tally_cons] at hb
    simp only [State.add, tally_append, tally_cons, tally_nil]
    omega
  · simp only [State.get, State.add, List.getElem?_append] at hr
    split at hr
    · exact h.known j r hr hd
    · obtain ⟨_, hrp⟩ := List.getElem?_eq_some_iff.mp (Option.join_eq_some_iff.mp hr)
      simp only [List.getElem_singleton, Option.some.injEq] at hrp
      subst hrp
      exact h.known_held _ List.mem_cons_self hd

theorem count_toList (c : Call) (d : Option Call) :
    d.toList.count c = if d = some c then 1 else 0 := by
  cases d with
  | none => rfl
  | some d => simp [List.count_cons]

/-- The value in hand is released: its deleter runs. -/
theorem release {p : DataPtr} (h : Counted s (p :: held)) : Counted (s.call p.due.toList) held := by
  refine ⟨fun c => ?_, h.known, fun r hr => h.known_held r (List.mem_cons_of_mem _ hr)⟩
  have hb := h.balance c
  have hdue : p.due.toList.count c = owes c (some p) := count_toList c p.due
  simp only [tally_cons] at hb
  simp only [State.call, List.count_append, hdue]
  omega

/-- A constructor call hands out a new value. -/
theorem hand (p : DataPtr) (h : Counted s held) : Counted (s.hand p) (p :: held) := by
  refine ⟨fun c => ?_, fun j r hr hd => List.mem_cons_of_mem _ (h.known j r hr hd),
    fun r hr hd => ?_⟩
  · have hb := h.balance c
    simp only [State.hand, tally_cons]
    omega
  · rcases List.mem_cons.mp hr with rfl | hr
    · exact List.mem_cons_self
    · exact List.mem_cons_of_mem _ (h.known_held r hr hd)

theorem get_resetAt {i : ℕ} {p : DataPtr} (hp : s.get i = some p) (j : ℕ) :
    (s.resetAt i p).get j = if j = i then some {} else s.get j :=
  get_put (s := s.call p.reset.1) hp j

theorem resetAt {i : ℕ} {p : DataPtr} (h : Counted s held) (hp : s.get i = some p) :
    Counted (s.resetAt i p) held := by
  have hput : Counted (s.put i {}) (p :: held) := (empty_iff.mpr h).put hp
  exact hput.release

/-- The storage of an empty object goes. -/
theorem drop {i : ℕ} (h : Counted s held) (hi : s.get i = some {}) : Counted (s.drop i) held := by
  refine ⟨fun c => ?_, fun j r hr hd => ?_, h.known_held⟩
  · have hb := h.balance c
    have hset := tally_set (owes c) none (Option.join_eq_some_iff.mp hi)
    rw [owes_empty, Nat.add_zero, show owes c none = 0 from rfl, Nat.add_zero] at hset
    simp only [State.drop, hset]
    exact hb
  · have hj : j ≠ i := by
      rintro rfl
      simp [State.get, State.drop, List.getElem?_set] at hr
      split at hr <;> simp_all
    refine h.known j r ?_ hd
    simpa [State.get, State.drop, List.getElem?_set_ne (Ne.symm hj)] using hr

theorem put_self {i : ℕ} {p : DataPtr} (hp : s.get i = some p) : s.put i p = s := by
  obtain ⟨_, hget⟩ := List.getElem?_eq_some_iff.mp (Option.join_eq_some_iff.mp hp)
  simp only [State.put]
  rw [← hget, List.set_getElem_self]

/-- Two objects exchange their values. -/
theorem swap {i j : ℕ} {p q : DataPtr} (h : Counted s held) (hp : s.get i = some p)
    (hq : s.get j = some q) : Counted ((s.put i q).put j p) held := by
  by_cases hij : i = j
  · subst hij
    cases hp.symm.trans hq
    rwa [put_self hp, put_self hp]
  · -- the pointers travel through the hands of the call
    have h₁ : Counted (s.put i {}) (p :: held) := (empty_iff.mpr h).put hp
    have hq₁ : (s.put i {}).get j = some q := by rw [get_put hp, if_neg (Ne.symm hij), hq]
    have h₂ : Counted ((s.put i {}).put j p) (q :: held) := h₁.put hq₁
    have hi₂ : ((s.put i {}).put j p).get i = some {} := by
      rw [get_put hq₁, if_neg hij, get_put hp, if_pos rfl]
    have h₃ := empty_iff.mp (h₂.put hi₂)
    have hsame : ((s.put i {}).put j p).put i q = (s.put i q).put j p := by
      simp only [State.put]
      rw [List.set_comm _ _ (Ne.symm hij), List.set_set]
    rwa [hsame] at h₃

end Counted

/-- Every member function keeps the accounts. -/
theorem step_counted {s s' : State} {op : Op} (h : Counted s []) (hs : s.step op = some s') :
    Counted s' [] := by
  cases op with
  | construct allocation context deleter =>
      cases hs
      exact (h.hand _).add
  | constructDefault =>
      cases hs
      exact (Counted.empty_iff.mpr h).add
  | moveConstruct other =>
      simp only [State.step, Option.bind_eq_bind, Option.pure_def, Option.bind_eq_some_iff,
        Option.some.injEq] at hs
      obtain ⟨q, hq, rfl⟩ := hs
      exact ((Counted.empty_iff.mpr h).put hq).add
  | moveAssign self other =>
      simp only [State.step, Option.bind_eq_bind, Option.pure_def, Option.bind_eq_some_iff] at hs
      obtain ⟨p, hp, q, hq, hs⟩ := hs
      split at hs
      · cases hs
        exact h
      · next hne =>
          cases hs
          have h₁ : Counted (s.resetAt self p) [] := h.resetAt hp
          have hself : (s.resetAt self p).get self = some {} := by
            rw [Counted.get_resetAt hp, if_pos rfl]
          have hother : (s.resetAt self p).get other = some q := by
            rw [Counted.get_resetAt hp, if_neg (Ne.symm hne), hq]
          have h₂ := (Counted.empty_iff.mpr h₁).put hother
          have hself' : ((s.resetAt self p).put other {}).get self = some {} := by
            rw [Counted.get_put hother, if_neg hne, hself]
          exact Counted.empty_iff.mp (h₂.put hself')
  | swap self other =>
      simp only [State.step, Option.bind_eq_bind, Option.pure_def, Option.bind_eq_some_iff,
        Option.some.injEq] at hs
      obtain ⟨p, hp, q, hq, rfl⟩ := hs
      exact h.swap hp hq
  | reset self =>
      simp only [State.step, Option.bind_eq_bind, Option.pure_def, Option.bind_eq_some_iff,
        Option.some.injEq] at hs
      obtain ⟨p, hp, rfl⟩ := hs
      exact h.resetAt hp
  | destroy self =>
      simp only [State.step, Option.bind_eq_bind, Option.pure_def, Option.bind_eq_some_iff,
        Option.some.injEq] at hs
      obtain ⟨p, hp, rfl⟩ := hs
      refine (h.resetAt hp).drop ?_
      rw [Counted.get_resetAt hp, if_pos rfl]

theorem run_counted (r : Run machine) (k : ℕ) : Counted (r.state k) [] :=
  r.invariant (Counted · []) (fun s hs => by
    cases hs
    exact ⟨fun _ => rfl, by simp [State.get], by simp⟩) (fun _ _ _ hs h => step_counted h hs) k

/-! ## The law -/

namespace State

/-- The object at `i` is alive and holds the data. -/
def Owns (s : State) (i : ℕ) (data : Addr) : Prop :=
  ∃ p, s.get i = some p ∧ p.data = some data

/-- The deleter calls on the data. -/
def callsOn (s : State) (data : Addr) : List Call := s.calls.filter (·.data = data)

/-- Every non-null allocation was handed to one constructor call. -/
def Fresh (s : State) : Prop := (s.made.filterMap data).Nodup

instance (s : State) : Decidable s.Fresh := inferInstanceAs (Decidable (List.Nodup _))

end State

theorem data_of_due {p : DataPtr} {c : Call} (h : p.due = some c) :
    p.data = some c.data := by
  unfold due at h
  split at h
  · next d f hd _ =>
      cases h
      exact hd
  · cases h

theorem due_of_owes {p : Option DataPtr} {c : Call} (h : 0 < owes c p) :
    ∃ q, p = some q ∧ q.due = some c := by
  have hp : p.bind due = some c := by
    by_contra hne
    rw [owes, if_neg hne] at h
    exact lt_irrefl _ h
  exact Option.bind_eq_some_iff.mp hp

theorem owes_of_due {p : DataPtr} {c : Call} (h : p.due = some c) : owes c (some p) = 1 :=
  if_pos h

theorem mem_data {l : List DataPtr} {p : DataPtr} {d : Addr} (hp : p ∈ l)
    (hd : p.data = some d) : d ∈ l.filterMap data :=
  List.mem_filterMap.mpr ⟨p, hp, hd⟩

theorem not_mem_data {l : List DataPtr} {x : DataPtr} {d : Addr}
    (hl : ((x :: l).filterMap data).Nodup) (hx : x.data = some d) : d ∉ l.filterMap data := by
  rw [List.filterMap_cons_some hx, List.nodup_cons] at hl
  exact hl.1

/-- Constructions with the same data are the same one. -/
theorem eq_of_data {l : List DataPtr} (hl : (l.filterMap data).Nodup)
    {p q : DataPtr} {d : Addr} (hp : p ∈ l) (hq : q ∈ l) (hpd : p.data = some d)
    (hqd : q.data = some d) : p = q := by
  induction l with
  | nil => cases hp
  | cons x l ih =>
      have hrest : (l.filterMap data).Nodup :=
        hl.sublist ((List.sublist_cons_self x l).filterMap _)
      have hx : x.data = some d → d ∉ l.filterMap data := not_mem_data hl
      rcases List.mem_cons.mp hp with rfl | hp' <;> rcases List.mem_cons.mp hq with rfl | hq'
      · rfl
      · exact absurd (mem_data hq' hqd) (hx hpd)
      · exact absurd (mem_data hp' hpd) (hx hqd)
      · exact ih hrest hp' hq'

/-- One construction owes each call. -/
theorem tally_made {l : List DataPtr} (hl : (l.filterMap data).Nodup)
    {v : DataPtr} {c : Call} (hv : v ∈ l) (hdue : v.due = some c) :
    tally (fun p => owes c (some p)) l = 1 := by
  induction l with
  | nil => cases hv
  | cons x l ih =>
      have hrest : (l.filterMap data).Nodup :=
        hl.sublist ((List.sublist_cons_self x l).filterMap _)
      have hx : x.due = some c → ∀ p ∈ l, owes c (some p) = 0 := by
        intro hxc p hp
        by_contra hne
        obtain ⟨q, hpq, hq⟩ := due_of_owes (Nat.pos_of_ne_zero hne)
        cases hpq
        exact not_mem_data hl (data_of_due hxc) (mem_data hp (data_of_due hq))
      rw [tally_cons]
      by_cases hxc : x.due = some c
      · rw [owes_of_due hxc, tally_eq_zero _ (hx hxc)]
      · have hxz : owes c (some x) = 0 := if_neg hxc
        rcases List.mem_cons.mp hv with rfl | hv
        · exact absurd hdue hxc
        · rw [hxz, ih hrest hv]

namespace Counted

variable {s : State}

/-- Every deleter call on the data is the one its construction owes. -/
theorem callsOn_eq (h : Counted s []) (hf : s.Fresh) {v : DataPtr} {c : Call} (hv : v ∈ s.made)
    (hdue : v.due = some c) : s.callsOn c.data = List.replicate (s.calls.count c) c := by
  rw [← List.filter_eq, State.callsOn]
  refine List.filter_congr fun c' hc' => ?_
  rw [decide_eq_decide]
  constructor
  · intro hdata
    have hpos := List.count_pos_iff.mpr hc'
    have hb := h.balance c'
    obtain ⟨p, hp, hpo⟩ := exists_of_tally_pos _ (Nat.lt_of_lt_of_le hpos (hb ▸ Nat.le_add_left _ _))
    obtain ⟨q, hpq, hq⟩ := due_of_owes hpo
    cases hpq
    have : p = v := eq_of_data hf hp hv (data_of_due hq) (hdata ▸ data_of_due hdue)
    rw [this, hdue] at hq
    exact (Option.some.inj hq).symm
  · rintro rfl
    rfl

/-- An object that holds the data is the value constructed with it. -/
theorem eq_made (h : Counted s []) (hf : s.Fresh) {v p : DataPtr} {i : ℕ} {d : Addr}
    (hv : v ∈ s.made) (hvd : v.data = some d) (hp : s.get i = some p)
    (hpd : p.data = some d) : p = v :=
  eq_of_data hf (h.known i p hp (by rw [hpd]; exact Option.some_ne_none d)) hv hpd hvd

end Counted

/-- The object is left empty by the call. -/
def Op.Empties : Op → ℕ → Prop
  | .moveConstruct other, i => i = other
  | .moveAssign self other, i => self ≠ other ∧ i = other
  | .reset self, i => i = self
  | _, _ => False

/-- In every run, at every point: an allocation with data and deleter is held
by one object, with everything it was constructed with, and was not released;
or no object holds it, and its own deleter was called once, with its own data
and context, and no other deleter was called on the data. -/
theorem owned_or_released (r : Run machine) (k : ℕ) (hf : (r.state k).Fresh) {v : DataPtr}
    {d f : Addr} (hv : v ∈ (r.state k).made) (hd : v.data = some d)
    (hdel : v.deleter = some f) :
    ((∃ i, (r.state k).get i = some v ∧ ∀ j, (r.state k).Owns j d → j = i) ∧
      (r.state k).callsOn d = []) ∨
    ((∀ i, ¬ (r.state k).Owns i d) ∧ (r.state k).callsOn d = [⟨f, d, v.context⟩]) := by
  have h := run_counted r k
  have hdue : v.due = some ⟨f, d, v.context⟩ := by simp only [due, hd, hdel]
  have hcalls := h.callsOn_eq hf hv hdue
  have hb := h.balance ⟨f, d, v.context⟩
  rw [tally_made hf hv hdue, tally_nil, Nat.add_zero] at hb
  -- an object that holds the data owes the call
  have howes : ∀ i, (r.state k).Owns i d → (r.state k).ptrs[i]? = some (some v) := by
    rintro i ⟨p, hp, hpd⟩
    rw [h.eq_made hf hv hd hp hpd] at hp
    exact Option.join_eq_some_iff.mp hp
  rcases Nat.eq_zero_or_pos ((r.state k).calls.count ⟨f, d, v.context⟩) with hz | hpos
  · left
    rw [hz] at hcalls hb
    have hheld : 0 < tally (owes ⟨f, d, v.context⟩) (r.state k).ptrs := by omega
    obtain ⟨x, hx, hxo⟩ := exists_of_tally_pos _ hheld
    obtain ⟨q, rfl, hq⟩ := due_of_owes hxo
    obtain ⟨i, hi⟩ := List.getElem?_of_mem hx
    have hiv := howes i ⟨q, Option.join_eq_some_iff.mpr hi, data_of_due hq⟩
    refine ⟨⟨i, Option.join_eq_some_iff.mpr hiv, fun j hj => ?_⟩, hcalls⟩
    by_contra hne
    have := add_le_tally (owes ⟨f, d, v.context⟩) hne (howes j hj) hiv
    rw [owes_of_due hdue] at this
    omega
  · right
    have hone : (r.state k).calls.count ⟨f, d, v.context⟩ = 1 := by omega
    refine ⟨fun i hi => ?_, by rw [hcalls, hone]; rfl⟩
    have := le_tally (owes ⟨f, d, v.context⟩) (List.mem_of_getElem? (howes i hi))
    rw [owes_of_due hdue] at this
    omega

/-- What an emptying call leaves. -/
theorem step_empties {s s' : State} {op : Op} {i : ℕ} (hs : s.step op = some s')
    (hop : op.Empties i) : s'.get i = some {} := by
  cases op with
  | construct | constructDefault | swap | destroy => cases hop
  | moveConstruct other =>
      simp only [State.step, Option.bind_eq_bind, Option.pure_def, Option.bind_eq_some_iff,
        Option.some.injEq] at hs
      obtain ⟨q, hq, rfl⟩ := hs
      cases hop
      have hput : (s.put i {}).get i = some {} := by rw [Counted.get_put hq, if_pos rfl]
      have hlen := (List.getElem?_eq_some_iff.mp (Option.join_eq_some_iff.mp hput)).1
      rw [exchange_eq]
      simpa [State.get, State.add, List.getElem?_append_left hlen] using hput
  | moveAssign self other =>
      obtain ⟨hne, rfl⟩ := hop
      simp only [State.step, Option.bind_eq_bind, Option.pure_def, Option.bind_eq_some_iff,
        if_neg hne, Option.some.injEq] at hs
      obtain ⟨p, hp, q, hq, rfl⟩ := hs
      have hself : (s.resetAt self p).get self = some {} := by
        rw [Counted.get_resetAt hp, if_pos rfl]
      have hi : (s.resetAt self p).get i = some q := by
        rw [Counted.get_resetAt hp, if_neg (Ne.symm hne), hq]
      have hself' : ((s.resetAt self p).put i {}).get self = some {} := by
        rw [Counted.get_put hi, if_neg hne, hself]
      rw [exchange_eq, Counted.get_put hself', if_neg (Ne.symm hne), Counted.get_put hi, if_pos rfl]
  | reset self =>
      simp only [State.step, Option.bind_eq_bind, Option.pure_def, Option.bind_eq_some_iff,
        Option.some.injEq] at hs
      obtain ⟨p, hp, rfl⟩ := hs
      cases hop
      rw [Counted.get_resetAt hp, if_pos rfl]

/-- Self-assignment and self-swap change nothing. -/
theorem step_self {s s' : State} {i : ℕ}
    (hs : s.step (.moveAssign i i) = some s' ∨ s.step (.swap i i) = some s') : s' = s := by
  rcases hs with hs | hs
  · simp only [State.step, Option.bind_eq_bind, Option.pure_def, Option.bind_eq_some_iff,
      if_true, Option.some.injEq] at hs
    obtain ⟨p, -, q, -, rfl⟩ := hs
    rfl
  · simp only [State.step, Option.bind_eq_bind, Option.pure_def, Option.bind_eq_some_iff,
      Option.some.injEq] at hs
    obtain ⟨p, hp, q, hq, rfl⟩ := hs
    cases hp.symm.trans hq
    rw [swap_eq, Counted.put_self hp, Counted.put_self hp]

/-- The laws of ownership, at every point of every run in which each non-null
allocation is handed to one constructor call. -/
theorem allocations_released_once (r : Run machine) (k : ℕ) (hf : (r.state k).Fresh) :
    (∀ v ∈ (r.state k).made, ∀ d f, v.data = some d → v.deleter = some f →
      ((∃ i, (r.state k).get i = some v ∧ ∀ j, (r.state k).Owns j d → j = i) ∧
        (r.state k).callsOn d = []) ∨
      ((∀ i, ¬ (r.state k).Owns i d) ∧ (r.state k).callsOn d = [⟨f, d, v.context⟩])) ∧
    ((∀ i, (r.state k).get i = none) →
      ∀ v ∈ (r.state k).made, ∀ d f, v.data = some d → v.deleter = some f →
        (r.state k).callsOn d = [⟨f, d, v.context⟩]) ∧
    (∀ op i, r.label k = some op → op.Empties i → (r.state (k + 1)).get i =
      some { allocation := { data := none, bytes := 0, device := .cpu },
             context := none, deleter := none }) ∧
    ∀ i, r.label k = some (.moveAssign i i) ∨ r.label k = some (.swap i i) →
      r.state (k + 1) = r.state k := by
  refine ⟨fun v hv d f hd hdel => owned_or_released r k hf hv hd hdel, ?_, ?_, ?_⟩
  · intro hgone v hv d f hd hdel
    rcases owned_or_released r k hf hv hd hdel with ⟨⟨i, hi, -⟩, -⟩ | ⟨-, hcalls⟩
    · rw [hgone i] at hi
      cases hi
    · exact hcalls
  · intro op i hl hop
    exact step_empties (r.step_of_label hl) hop
  · intro i hl
    exact step_self (hl.imp r.step_of_label r.step_of_label)

/-- Construction, moves in a circle, and the end of all objects. -/
def tour : List Op :=
  [.construct { data := some 10, bytes := 64 } (some 1) (some 2), .constructDefault,
    .moveConstruct 0, .moveAssign 1 2, .swap 0 1, .moveAssign 0 0, .reset 2, .destroy 0,
    .destroy 1, .destroy 2]

theorem tour_releases_once : (machine.after ⟨[], [], []⟩ tour 10).callsOn 10 = [⟨2, 10, some 1⟩] :=
  (allocations_released_once (.ofLabels machine _ rfl tour) 10 (by decide)).2.1
    (fun i => by
      change (machine.after ⟨[], [], []⟩ tour 10).get i = none
      match i with
      | 0 | 1 | 2 => rfl
      | _ + 3 => rfl)
    { allocation := { data := some 10, bytes := 64 }, context := some 1, deleter := some 2 }
    (by decide) 10 2 rfl rfl

end DataPtr

end Gradyx
