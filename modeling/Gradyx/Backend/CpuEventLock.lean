import Gradyx.Lib.LockedRefinement
import Gradyx.Backend.CpuRuntime

/-!
# CpuEvent, access by access

The `CpuEvent` of `backend/cpu/runtime.cc` with its mutex and one step for each
access to a flag. `record` writes `recorded_` and `completed_` one after the
other, `query` reads them one after the other. The device of an event never
changes, so the stream checks stand before the lock and look at nothing that is
written.

* `settled_cases`: at every position the settled event is new, or recorded and
  complete.
* `half_recorded_unseen`: so every answer given under the mutex is one of the
  answers of a flag that the first `record` sets.
-/

namespace Gradyx

open Lib Locked

namespace CpuEvent

inductive Call where
  | record (stream : Stream)
  | query
  | synchronize
  | wait (stream : Stream)
deriving DecidableEq, Repr

inductive Outcome where
  | status (status : Status)
  | query (result : Except Status Bool)
deriving DecidableEq

/-- The checks before the lock. -/
def check (device : Device) : Call → Except Outcome Unit
  | .record stream =>
      if foreign { device } stream then
        .error (.status (.invalidArgument
          "cannot record a CPU event on a stream from another device"))
      else .ok ()
  | .wait stream =>
      if foreign { device } stream then
        .error (.status (.invalidArgument
          "cannot wait for a CPU event on a stream from another device"))
      else .ok ()
  | .query | .synchronize => .ok ()

/-- The part of a call inside the lock, flag by flag. -/
def accesses : Call → Section CpuEvent Outcome
  | .record _ =>
      .access (fun self => { self with recorded := true }) fun _ =>
        .access (fun self => { self with completed := true }) fun _ => .ret (.status okStatus)
  | .query =>
      .access id fun self =>
        if !self.recorded then
          .ret (.query (.error
            (.error .kFailedPrecondition "cannot query an event before it is recorded")))
        else .access id fun self => .ret (.query (.ok self.completed))
  | .synchronize => .access id fun self => .ret (.status self.synchronize)
  | .wait _ => .access id fun self => .ret (.status self.wait)

/-- The part of a call inside the lock, in one step. -/
def inside (self : CpuEvent) : Call → CpuEvent × Outcome
  | .record _ => (self.record, .status okStatus)
  | .query => (self, .query self.query)
  | .synchronize => (self, .status self.synchronize)
  | .wait _ => (self, .status self.wait)

theorem run_accesses (call : Call) (self : CpuEvent) :
    (accesses call).run self = some (self.inside call) := by
  cases call with
  | query =>
      simp only [accesses, inside, query, Section.run, id_eq]
      split
      · rfl
      · rfl
  | record stream | wait stream => rfl
  | synchronize => rfl

/-- The event with its mutex, which every call owns alone. -/
def locked (device : Device) : Locked CpuEvent Call Unit Unit Outcome where
  init := { device }
  outside := check device
  exclusive _ _ := true
  body call _ _ := accesses call
  defined call _ _ self := by
    rw [run_accesses]
    rfl
  shared _ _ _ h := by cases h

variable {device : Device}

theorem atomic_inside (self : CpuEvent) (call : Call) :
    (locked device).atomic.inside self call () () = self.inside call :=
  Option.get_of_eq_some _ (run_accesses call self)

/-! ## What the users of an event see -/

/-- What a call answers when all there is to an event is whether it is recorded. -/
def Call.answer : Call → Bool → Outcome
  | .record _, _ => .status okStatus
  | .query, true => .query (.ok true)
  | .query, false =>
      .query (.error (.error .kFailedPrecondition "cannot query an event before it is recorded"))
  | .synchronize, true | .wait _, true => .status okStatus
  | .synchronize, false =>
      .status (.error .kFailedPrecondition "cannot synchronize an event before it is recorded")
  | .wait _, false =>
      .status (.error .kFailedPrecondition "cannot wait for an event before it is recorded")

theorem inside_recorded (device : Device) (call : Call) :
    (({ device } : CpuEvent).record.inside call).2 = call.answer true := by
  cases call <;> rfl

theorem inside_new (device : Device) (call : Call) :
    (({ device } : CpuEvent).inside call).2 = call.answer false := by
  cases call <;> rfl

variable (run : Run (locked device).machine)

/-- At position `j` a `record` comes to own the mutex. -/
def RecordsAt (j : ℕ) : Prop :=
  ∃ i stream, run.label j = some (.acquire i ()) ∧
    (run.state j).clients[i]? = some (.atLock (.record stream) ())

def RecordedBefore (j : ℕ) : Prop := ∃ k < j, RecordsAt run k

theorem recordedBefore_succ {k : ℕ} :
    RecordedBefore run (k + 1) ↔ RecordedBefore run k ∨ RecordsAt run k := by
  constructor
  · rintro ⟨j, hj, h⟩
    rcases Nat.lt_or_eq_of_le (Nat.le_of_lt_succ hj) with hlt | rfl
    · exact .inl ⟨j, hlt, h⟩
    · exact .inr h
  · rintro (⟨j, hj, h⟩ | h)
    · exact ⟨j, Nat.lt_succ_of_lt hj, h⟩
    · exact ⟨k, Nat.lt_succ_self k, h⟩

/-- The settled event has both flags or none, at every position. -/
theorem settled_cases (k : ℕ) :
    (RecordedBefore run k ∧ (run.state k).settled = ({ device } : CpuEvent).record) ∨
      (¬ RecordedBefore run k ∧ (run.state k).settled = { device }) := by
  induction k with
  | zero =>
      right
      constructor
      · rintro ⟨j, hj, -⟩
        exact absurd hj (Nat.not_lt_zero j)
      · rw [settled_none run.init.2.1, run.init.1]
        rfl
  | succ k ih =>
      -- no `record` at position `k`, so nothing happens to the settled event
      have hkeep : ¬ RecordsAt run k → (run.state (k + 1)).settled = (run.state k).settled →
          (RecordedBefore run (k + 1) ∧
              (run.state (k + 1)).settled = ({ device } : CpuEvent).record) ∨
            (¬ RecordedBefore run (k + 1) ∧ (run.state (k + 1)).settled = { device }) := by
        intro hnot hsettled
        rw [hsettled, recordedBefore_succ, or_iff_left hnot]
        exact ih
      cases hl : run.label k with
      | none =>
          refine hkeep ?_ (by rw [run.stutter_of_none hl])
          rintro ⟨i, stream, hl', -⟩
          rw [hl] at hl'
          cases hl'
      | some l =>
          rcases step_settled (run.step_of_label hl) (run_safe run k) with
            ⟨hsettled, hnot⟩ | ⟨i, choice, call, locals, rfl, hi, hsettled⟩
          · refine hkeep ?_ hsettled
            rintro ⟨i, stream, hl', -⟩
            rw [hl] at hl'
            exact hnot i () (Option.some.inj hl')
          · rw [atomic_inside] at hsettled
            cases call with
            | record stream =>
                refine .inl ⟨(recordedBefore_succ run).mpr (.inr ⟨i, stream, hl, hi⟩), ?_⟩
                rw [hsettled]
                rcases ih with ⟨-, hs⟩ | ⟨-, hs⟩
                · rw [hs]
                  rfl
                · rw [hs]
                  rfl
            | query | synchronize | wait stream =>
                refine hkeep ?_ hsettled
                rintro ⟨i', stream', hl', hi'⟩
                rw [hl] at hl'
                cases hl'
                rw [hi] at hi'
                cases hi'

/-- Any number of clients on one event, access by access: each call that comes to own
the mutex answers by whether a `record` came to own it before, so nobody sees an event
that is recorded and not complete. A call that is refused before the lock answers
`kInvalidArgument` and reads no flag. No access meets a write by another client, and
the mutex is never lost. -/
theorem half_recorded_unseen (device : Device) (run : Run (locked device).machine) :
    (∀ i j k call outcome, Session run i j k call outcome → ∃ recorded : Bool,
      (recorded = true ↔ RecordedBefore run j) ∧ outcome = call.answer recorded) ∧
    (∀ i k outcome, run.label k = some (.release i) →
      (run.state (k + 1)).clients[i]? = some (.idle (some outcome)) →
      ∃ j < k, ∃ call, Session run i j k call outcome) ∧
    ∀ k, ¬ Race (run.state k) ∧
      ((∃ client ∈ (run.state k).clients, ∀ last, client ≠ .idle last) →
        ∃ l, (∀ i call, l ≠ .call i call) ∧ ((locked device).step (run.state k) l).isSome) := by
  refine ⟨?_, ?_, ?_⟩
  · intro i j k call outcome h
    obtain ⟨locals, choice, hspec⟩ := h.spec
    rw [atomic_inside] at hspec
    have houtcome : outcome = ((run.state j).settled.inside call).2 :=
      (congrArg Prod.snd hspec).symm
    rcases settled_cases run j with ⟨hrecorded, hs⟩ | ⟨hnew, hs⟩
    · refine ⟨true, ⟨fun _ => hrecorded, fun _ => rfl⟩, ?_⟩
      rw [houtcome, hs, inside_recorded]
    · have hfalse : false = true → RecordedBefore run j := by
        intro h
        cases h
      refine ⟨false, ⟨hfalse, fun h => absurd h hnew⟩, ?_⟩
      rw [houtcome, hs, inside_new]
  · intro i k outcome hl hk
    exact exists_session run hl hk
  · intro k
    have safe := run_safe run k
    exact ⟨safe.not_race, safe.unblocked ()⟩

end CpuEvent

end Gradyx
