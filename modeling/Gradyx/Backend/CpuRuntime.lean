import Gradyx.Core.Device
import Gradyx.Lib.Monitor
import Mathlib.Data.Nat.Count

/-!
# CpuRuntime — streams and events

`include/gradyx/runtime/stream.h`, `include/gradyx/runtime/event.h`,
`include/gradyx/backend/cpu/runtime.h`, `backend/cpu/runtime.cc`. Any number of
clients make streams and events of one `CpuRuntime` and call the member functions
of the events. Device and stream checks stand before the lock; the `fetch_add` on
the next id and the access to an event's flags stand inside it.

* A stream argument is default-constructed or a copy of a stream that the runtime
  returned, so `issued` keeps the streams that it returned.
* `Sound`: what holds of the object between the calls.
* The id of a stream is the number of streams created before it, plus one
  (`nextStreamId_eq`); an event is recorded when a `record` on it succeeded
  (`recorded_iff`).
-/

namespace Gradyx

open Lib Monitor

structure Stream where
  device : Device := .cpu
  id : UInt64 := 0
  isDefault : Bool := false
  valid : Bool := false
deriving DecidableEq, Repr

namespace Stream

/-- The private constructor. -/
def make (device : Device) (id : UInt64) (isDefault : Bool) : Stream :=
  { device, id, isDefault, valid := true }

end Stream

structure CpuEvent where
  device : Device
  recorded : Bool := false
  completed : Bool := false
deriving DecidableEq, Repr

namespace CpuEvent

/-- `!stream || stream.device() != device_`. -/
def foreign (self : CpuEvent) (stream : Stream) : Bool :=
  !stream.valid || stream.device != self.device

/-- `record`, inside the lock. -/
def record (self : CpuEvent) : CpuEvent := { self with recorded := true, completed := true }

def query (self : CpuEvent) : Except Status Bool :=
  if !self.recorded then
    .error (.error .kFailedPrecondition "cannot query an event before it is recorded")
  else .ok self.completed

def synchronize (self : CpuEvent) : Status :=
  if !self.recorded then
    .error .kFailedPrecondition "cannot synchronize an event before it is recorded"
  else okStatus

/-- `wait`, inside the lock. -/
def wait (self : CpuEvent) : Status :=
  if !self.recorded then
    .error .kFailedPrecondition "cannot wait for an event before it is recorded"
  else okStatus

end CpuEvent

/-- The runtime, the events it made, and the streams it returned, in order. -/
structure CpuRuntime where
  nextStreamId : UInt64 := 1
  events : List CpuEvent := []
  issued : List Stream := []
deriving DecidableEq, Repr

namespace CpuRuntime

/-- Where a client has a stream value from. -/
inductive StreamArg where
  | fresh
  | issued (n : ℕ)
deriving DecidableEq, Repr

def StreamArg.FromRuntime (arg : StreamArg) : Prop := ∃ n, arg = .issued n

theorem StreamArg.fromRuntime_iff {arg : StreamArg} : arg.FromRuntime ↔ arg ≠ .fresh := by
  cases arg <;> simp [StreamArg.FromRuntime]

inductive Call where
  | defaultStream (device : Device)
  | createStream (device : Device)
  | createEvent (device : Device)
  | record (event : ℕ) (stream : StreamArg)
  | query (event : ℕ)
  | synchronize (event : ℕ)
  | wait (event : ℕ) (stream : StreamArg)
deriving DecidableEq, Repr

/-- What a call returns, or the exception of `make_unique`. -/
inductive Outcome where
  | stream (result : Except Status Stream)
  | event (result : Except Status ℕ)
  | status (status : Status)
  | query (result : Except Status Bool)
  | badAlloc
deriving DecidableEq

/-- `code()` of the status of a result. -/
def codeOf {α : Type} : Except Status α → ErrorCode
  | .ok _ => .kOk
  | .error status => status.code

def Outcome.code : Outcome → Option ErrorCode
  | .stream result => some (codeOf result)
  | .event result => some (codeOf result)
  | .status s => some s.code
  | .query result => some (codeOf result)
  | .badAlloc => none

def validateDevice (device : Device) : Status :=
  if device ≠ .cpu then .invalidArgument "CPU runtime only accepts cpu:0" else okStatus

/-- The value of a stream argument. -/
def stream (s : CpuRuntime) : StreamArg → Option Stream
  | .fresh => some {}
  | .issued n => s.issued[n]?

/-- The event at an index. An index that no event has is never used. -/
def event (s : CpuRuntime) (e : ℕ) : CpuEvent := s.events.getD e { device := .cpu }

/-- The checks before the lock. -/
def check (s : CpuRuntime) : Call → Option (Except Outcome Unit)
  | .defaultStream device | .createStream device =>
      let status := validateDevice device
      if !status.ok then some (.error (.stream (.error status))) else some (.ok ())
  | .createEvent device =>
      let status := validateDevice device
      if !status.ok then some (.error (.event (.error status))) else some (.ok ())
  | .record e arg => do
      let event ← s.events[e]?
      let stream ← s.stream arg
      if event.foreign stream then
        return .error (.status (.invalidArgument
          "cannot record a CPU event on a stream from another device"))
      else return .ok ()
  | .wait e arg => do
      let event ← s.events[e]?
      let stream ← s.stream arg
      if event.foreign stream then
        return .error (.status (.invalidArgument
          "cannot wait for a CPU event on a stream from another device"))
      else return .ok ()
  | .query e | .synchronize e => do
      let _ ← s.events[e]?
      return .ok ()

def issue (s : CpuRuntime) (stream : Stream) : CpuRuntime × Outcome :=
  ({ s with issued := s.issued ++ [stream] }, .stream (.ok stream))

/-- The part of a call inside the lock. -/
def locked (s : CpuRuntime) (memory : Bool) : Call → CpuRuntime × Outcome
  | .defaultStream device => s.issue (.make device 0 true)
  | .createStream device =>
      { s with nextStreamId := s.nextStreamId + 1 }.issue (.make device s.nextStreamId false)
  | .createEvent device =>
      if memory then ({ s with events := s.events ++ [{ device }] }, .event (.ok s.events.length))
      else (s, .badAlloc)
  | .record e _ => ({ s with events := s.events.modify e CpuEvent.record }, .status okStatus)
  | .query e => (s, .query (s.event e).query)
  | .synchronize e => (s, .status (s.event e).synchronize)
  | .wait e _ => (s, .status (s.event e).wait)

/-- Inside the lock the environment decides whether there is memory. -/
def monitor : Monitor CpuRuntime Call Unit Bool Outcome where
  init := {}
  outside := check
  inside s call _ memory := s.locked memory call

/-! ## One call -/

theorem validateDevice_ok {device : Device} : (validateDevice device).ok = true ↔ device = .cpu := by
  unfold validateDevice
  split
  · next hne =>
      constructor
      · intro h
        cases h
      · intro h
        exact absurd h hne
  · next heq => exact ⟨fun _ => not_not.mp heq, fun _ => rfl⟩

/-- What the checks have found when a call comes to the lock. -/
def Admissible (s : CpuRuntime) : Call → Prop
  | .defaultStream device | .createStream device | .createEvent device => device = .cpu
  | .record e arg | .wait e arg =>
      e < s.events.length ∧ ∃ stream, s.stream arg = some stream ∧ (s.event e).foreign stream = false
  | .query e | .synchronize e => e < s.events.length

/-- What the checks have found when they end a call. -/
def Refused (s : CpuRuntime) : Call → Prop
  | .defaultStream device | .createStream device | .createEvent device => device ≠ .cpu
  | .record e arg | .wait e arg =>
      e < s.events.length ∧ ∃ stream, s.stream arg = some stream ∧ (s.event e).foreign stream = true
  | .query _ | .synchronize _ => False

theorem event_eq {s : CpuRuntime} {e : ℕ} {event : CpuEvent} (h : s.events[e]? = some event) :
    e < s.events.length ∧ s.event e = event := by
  refine ⟨(List.getElem?_eq_some_iff.mp h).1, ?_⟩
  rw [CpuRuntime.event, List.getD_eq_getElem?_getD, h]
  rfl

/-- The outcome of the checks, for every call. -/
theorem check_spec {s : CpuRuntime} {call : Call} {result : Except Outcome Unit}
    (h : s.check call = some result) :
    (result = .ok () ∧ s.Admissible call) ∨
      ∃ outcome, result = .error outcome ∧ outcome.code = some .kInvalidArgument ∧
        s.Refused call := by
  have hstatus : ∀ device, device ≠ Device.cpu → (validateDevice device).code = .kInvalidArgument := by
    intro device hne
    rw [validateDevice, if_pos hne]
    rfl
  cases call with
  | defaultStream device | createStream device | createEvent device =>
      simp only [check] at h
      split at h
      · next hbad =>
          cases h
          have hne : device ≠ .cpu := by
            rw [Ne, ← validateDevice_ok]
            simpa using hbad
          exact .inr ⟨_, rfl, congrArg some (hstatus device hne), hne⟩
      · next hgood =>
          cases h
          exact .inl ⟨rfl, validateDevice_ok.mp (by simpa using hgood)⟩
  | record e arg | wait e arg =>
      simp only [check, Option.bind_eq_bind, Option.bind_eq_some_iff] at h
      obtain ⟨event, hevent, stream, hstream, h⟩ := h
      obtain ⟨hlen, rfl⟩ := event_eq hevent
      split at h
      · next hforeign =>
          cases h
          exact .inr ⟨_, rfl, rfl, hlen, stream, hstream, hforeign⟩
      · next hforeign =>
          cases h
          exact .inl ⟨rfl, hlen, stream, hstream, by simpa using hforeign⟩
  | query e | synchronize e =>
      simp only [check, Option.bind_eq_bind, Option.bind_eq_some_iff] at h
      obtain ⟨event, hevent, h⟩ := h
      cases h
      exact .inl ⟨rfl, (event_eq hevent).1⟩

/-- Every stream and every event is on `cpu:0`, and a recorded event is
complete. -/
structure Sound (s : CpuRuntime) : Prop where
  issued : ∀ stream ∈ s.issued, stream.valid = true ∧ stream.device = .cpu
  events : ∀ event ∈ s.events, event.device = .cpu ∧ event.completed = event.recorded

namespace Sound

variable {s : CpuRuntime}

theorem event (h : Sound s) (e : ℕ) :
    (s.event e).device = .cpu ∧ (s.event e).completed = (s.event e).recorded := by
  rw [CpuRuntime.event, List.getD_eq_getElem?_getD]
  cases hget : s.events[e]? with
  | none => exact ⟨rfl, rfl⟩
  | some event => exact h.events event (List.mem_of_getElem? hget)

/-- The check of a stream tells where the stream is from. -/
theorem foreign_iff (h : Sound s) (e : ℕ) {arg : StreamArg} {stream : Stream}
    (harg : s.stream arg = some stream) : (s.event e).foreign stream = true ↔ arg = .fresh := by
  cases arg with
  | fresh =>
      cases harg
      exact ⟨fun _ => rfl, fun _ => rfl⟩
  | issued n =>
      obtain ⟨hvalid, hdevice⟩ := h.issued stream (List.mem_of_getElem? harg)
      rw [CpuEvent.foreign, hvalid, hdevice, (h.event e).1]
      simp

theorem issue (h : Sound s) {stream : Stream} (hstream : stream.valid = true ∧ stream.device = .cpu) :
    Sound (s.issue stream).1 := by
  refine ⟨fun stream' hmem => ?_, h.events⟩
  rcases List.mem_append.mp hmem with hmem | hmem
  · exact h.issued stream' hmem
  · rw [List.mem_singleton.mp hmem]
    exact hstream

theorem locked (h : Sound s) (memory : Bool) {call : Call}
    (hdevice : ∀ device, call = .defaultStream device ∨ call = .createStream device ∨
      call = .createEvent device → device = .cpu) : Sound (s.locked memory call).1 := by
  cases call with
  | defaultStream device => exact h.issue ⟨rfl, hdevice device (.inl rfl)⟩
  | createStream device =>
      have hnext : Sound { s with nextStreamId := s.nextStreamId + 1 } := ⟨h.issued, h.events⟩
      exact hnext.issue ⟨rfl, hdevice device (.inr (.inl rfl))⟩
  | createEvent device =>
      cases memory with
      | false => exact h
      | true =>
          refine ⟨h.issued, fun event hmem => ?_⟩
          rcases List.mem_append.mp hmem with hmem | hmem
          · exact h.events event hmem
          · rw [List.mem_singleton.mp hmem]
            exact ⟨hdevice device (.inr (.inr rfl)), rfl⟩
  | record e arg =>
      refine ⟨h.issued, fun event hmem => ?_⟩
      obtain ⟨i, hi⟩ := List.mem_iff_getElem?.mp hmem
      change (s.events.modify e CpuEvent.record)[i]? = some event at hi
      rw [List.getElem?_modify, Option.map_eq_map, Option.map_eq_some_iff] at hi
      obtain ⟨event', hget, rfl⟩ := hi
      have := h.events event' (List.mem_of_getElem? hget)
      split
      · exact ⟨this.1, rfl⟩
      · exact this
  | query e | synchronize e | wait e arg => exact h

end Sound

/-! ## Flags and ids through one call -/

/-- Only `record` sets a flag. -/
theorem recorded_locked (s : CpuRuntime) (memory : Bool) (call : Call) (e : ℕ) :
    ((s.locked memory call).1.event e).recorded = true ↔
      (s.event e).recorded = true ∨ (e < s.events.length ∧ ∃ arg, call = .record e arg) := by
  cases call with
  | defaultStream device | createStream device | query e' | synchronize e' | wait e' arg =>
      change (s.event e).recorded = true ↔ _
      simp
  | createEvent device =>
      cases memory with
      | false =>
          change (s.event e).recorded = true ↔ _
          simp
      | true =>
          have hsame : ((s.locked true (.createEvent device)).1.event e).recorded =
              (s.event e).recorded := by
            simp only [CpuRuntime.locked, if_true, CpuRuntime.event, List.getD_eq_getElem?_getD,
              List.getElem?_append]
            split
            · rfl
            · next hlen =>
                rw [List.getElem?_eq_none (not_lt.mp hlen)]
                cases hi : e - s.events.length <;> rfl
          rw [hsame]
          simp
  | record e' arg =>
      simp only [CpuRuntime.locked, CpuRuntime.event, List.getD_eq_getElem?_getD,
        List.getElem?_modify]
      by_cases hlen : e < s.events.length
      · rw [List.getElem?_eq_getElem hlen]
        by_cases he : e' = e
        · simp [he, hlen, CpuEvent.record]
        · simp [he, hlen]
      · rw [List.getElem?_eq_none (not_lt.mp hlen)]
        simp [hlen]

/-- No event goes away. -/
theorem length_locked (s : CpuRuntime) (memory : Bool) (call : Call) :
    s.events.length ≤ (s.locked memory call).1.events.length := by
  cases call with
  | createEvent device => cases memory <;> simp [CpuRuntime.locked]
  | record e arg => simp [CpuRuntime.locked]
  | _ => exact le_rfl

/-! ## Runs -/

variable (run : Run monitor.machine)

theorem rejected {k client : ℕ} {call : Call} {outcome : Outcome}
    (h : Rejected run k client call outcome) :
    outcome.code = some .kInvalidArgument ∧ (objectAt run k).Refused call ∧
      objectAt run (k + 1) = objectAt run k := by
  obtain ⟨hout, hobject⟩ := h.spec
  rcases check_spec hout with ⟨hok, -⟩ | ⟨outcome', heq, hcode, hrefused⟩
  · cases hok
  · cases heq
    exact ⟨hcode, hrefused, hobject⟩

theorem entered {k client : ℕ} {call : Call} {outcome : Outcome}
    (h : Entered run k client call outcome) :
    (∃ memory, objectAt run (k + 1) = ((objectAt run k).locked memory call).1 ∧
      outcome = ((objectAt run k).locked memory call).2) ∧
      ∃ j < k, (objectAt run j).Admissible call := by
  obtain ⟨_, memory, ⟨j, hj, hout⟩, hin⟩ := h.spec
  refine ⟨⟨memory, (congrArg Prod.fst hin).symm, (congrArg Prod.snd hin).symm⟩, j, hj, ?_⟩
  rcases check_spec hout with ⟨-, hadmissible⟩ | ⟨outcome', heq, -⟩
  · exact hadmissible
  · cases heq

theorem sound_at (k : ℕ) : (objectAt run k).Sound := by
  refine object_invariant run Sound
    (fun call _ => ∀ device, call = .defaultStream device ∨ call = .createStream device ∨
      call = .createEvent device → device = .cpu)
    ⟨by simp [monitor], by simp [monitor]⟩ ?_ (fun s call _ memory h hdevice => h.locked memory hdevice) k
  intro s call _ hout device hcall
  rcases check_spec hout with ⟨-, hadmissible⟩ | ⟨outcome, heq, -⟩
  · rcases hcall with rfl | rfl | rfl <;> exact hadmissible
  · cases heq

/-- An event on which a call came to the lock is still there. -/
theorem exists_event {j k e : ℕ} (hjk : j < k) (h : e < (objectAt run j).events.length) :
    e < (objectAt run k).events.length :=
  object_stable run (fun s => e < s.events.length)
    (fun s call _ memory hlen => hlen.trans_le (length_locked s memory call)) hjk.le h

/-! ## Streams -/

theorem returned_stream {k client : ℕ} {device : Device} {call : Call} {outcome : Outcome}
    (hcall : call = .defaultStream device ∨ call = .createStream device)
    (h : Returned run k client call outcome) : outcome.code = some .kOk ↔ device = .cpu := by
  rcases h with hrejected | hentered
  · obtain ⟨hcode, hrefused, -⟩ := rejected run hrejected
    have hne : device ≠ .cpu := by rcases hcall with rfl | rfl <;> exact hrefused
    rw [hcode]
    simp [hne]
  · obtain ⟨⟨memory, -, rfl⟩, j, -, hadmissible⟩ := entered run hentered
    have hcpu : device = .cpu := by rcases hcall with rfl | rfl <;> exact hadmissible
    have hcode : ((objectAt run k).locked memory call).2.code = some .kOk := by
      rcases hcall with rfl | rfl <;> rfl
    exact ⟨fun _ => hcpu, fun _ => hcode⟩

theorem returned_defaultStream {k client : ℕ} {device : Device} {stream : Stream}
    (h : Returned run k client (.defaultStream device) (.stream (.ok stream))) :
    stream = .make device 0 true := by
  rcases h with hrejected | hentered
  · cases (rejected run hrejected).1
  · obtain ⟨⟨memory, -, hout⟩, -⟩ := entered run hentered
    cases hout
    rfl

/-- A created stream has the next id. -/
theorem returned_createStream {k client : ℕ} {device : Device} {stream : Stream}
    (h : Returned run k client (.createStream device) (.stream (.ok stream))) :
    stream = .make device (objectAt run k).nextStreamId false ∧
      (objectAt run (k + 1)).nextStreamId = (objectAt run k).nextStreamId + 1 := by
  rcases h with hrejected | hentered
  · cases (rejected run hrejected).1
  · obtain ⟨⟨memory, hobject, hout⟩, -⟩ := entered run hentered
    rw [hobject]
    cases hout
    exact ⟨rfl, rfl⟩

/-- At position `k` a stream is created. -/
def Creates (k : ℕ) : Prop :=
  ∃ client device stream, Returned run k client (.createStream device) (.stream (.ok stream))

open scoped Classical in
/-- How many streams were created before position `k`. -/
noncomputable def creations (k : ℕ) : ℕ := Nat.count (Creates run) k

/-- Only a creation moves the next id. -/
theorem nextStreamId_of_not_creates {k : ℕ} (h : ¬ Creates run k) :
    (objectAt run (k + 1)).nextStreamId = (objectAt run k).nextStreamId := by
  rcases next_object run k with heq | ⟨client, call, outcome, hentered⟩
  · rw [heq]
  · obtain ⟨⟨memory, hobject, hout⟩, -⟩ := entered run hentered
    rw [hobject]
    cases call with
    | createStream device =>
        subst hout
        exact absurd ⟨client, device, _, .inr hentered⟩ h
    | createEvent device => cases memory <;> rfl
    | _ => rfl

/-- The next id counts the streams created, in `uint64`. -/
theorem nextStreamId_eq (k : ℕ) :
    (objectAt run k).nextStreamId = UInt64.ofNat (creations run k + 1) := by
  induction k with
  | zero =>
      rw [objectAt_zero, creations, Nat.count_zero]
      rfl
  | succ k ih =>
      rw [creations, Nat.count_succ]
      split
      · next h =>
          obtain ⟨client, device, stream, hreturned⟩ := h
          rw [(returned_createStream run hreturned).2, ih, ← UInt64.ofNat_one, ← UInt64.ofNat_add]
          rfl
      · next h =>
          rw [nextStreamId_of_not_creates run h, ih]
          rfl

/-- Two of the first `2^64 - 1` created streams differ. -/
theorem created_ne {j k c d : ℕ} {device device' : Device} {stream stream' : Stream} (hjk : j < k)
    (hj : Returned run j c (.createStream device) (.stream (.ok stream)))
    (hk : Returned run k d (.createStream device') (.stream (.ok stream')))
    (hcount : creations run k < 2 ^ 64 - 1) : stream ≠ stream' := by
  intro heq
  have hlt : creations run j < creations run k := by
    classical
    exact Nat.count_strict_mono ⟨c, device, stream, hj⟩ hjk
  rw [(returned_createStream run hj).1, (returned_createStream run hk).1, nextStreamId_eq,
    nextStreamId_eq] at heq
  have hid := congrArg (fun st : Stream => st.id.toNat) heq
  simp only [Stream.make] at hid
  rw [UInt64.toNat_ofNat_of_lt' (by simp [UInt64.size]; omega),
    UInt64.toNat_ofNat_of_lt' (by simp [UInt64.size]; omega)] at hid
  omega

/-! ## Events -/

/-- A `record` on the event succeeded before position `k`. -/
def RecordedBefore (k e : ℕ) : Prop :=
  ∃ i < k, ∃ client arg outcome, Returned run i client (.record e arg) outcome ∧
    outcome.code = some .kOk

/-- An event is recorded exactly when a `record` on it succeeded. -/
theorem recorded_iff {k e : ℕ} :
    ((objectAt run k).event e).recorded = true ↔ RecordedBefore run k e := by
  constructor
  · intro h
    obtain ⟨i, hi, hbefore, hafter, client, call, outcome, hentered⟩ :=
      exists_entered run (fun s => (s.event e).recorded = true) (by simp [monitor, event]) h
    obtain ⟨⟨memory, hobject, hout⟩, -⟩ := entered run hentered
    rw [hobject, recorded_locked] at hafter
    rcases hafter with hold | ⟨-, arg, rfl⟩
    · exact absurd hold hbefore
    · refine ⟨i, hi, client, arg, outcome, .inr hentered, ?_⟩
      rw [hout]
      rfl
  · rintro ⟨i, hi, client, arg, outcome, hreturned, hcode⟩
    refine object_stable run (fun s => (s.event e).recorded = true)
      (fun s call _ memory hold => (recorded_locked s memory call e).mpr (.inl hold)) hi ?_
    rcases hreturned with hrejected | hentered
    · rw [(rejected run hrejected).1] at hcode
      cases hcode
    · obtain ⟨⟨memory, hobject, -⟩, j, hj, hlen, -⟩ := entered run hentered
      rw [Nat.succ_eq_add_one, hobject, recorded_locked]
      exact .inr ⟨exists_event run hj hlen, arg, rfl⟩

/-- The stream check lets through the streams of the runtime, and only them. -/
theorem rejected_arg {k client e : ℕ} {arg : StreamArg} {call : Call} {outcome : Outcome}
    (hcall : call = .record e arg ∨ call = .wait e arg)
    (h : Rejected run k client call outcome) : arg = .fresh := by
  obtain ⟨-, hrefused, -⟩ := rejected run h
  have hforeign : ∃ stream, (objectAt run k).stream arg = some stream ∧
      ((objectAt run k).event e).foreign stream = true := by
    rcases hcall with rfl | rfl <;> exact hrefused.2
  obtain ⟨stream, harg, hforeign⟩ := hforeign
  exact ((sound_at run k).foreign_iff e harg).mp hforeign

theorem entered_arg {k client e : ℕ} {arg : StreamArg} {call : Call} {outcome : Outcome}
    (hcall : call = .record e arg ∨ call = .wait e arg)
    (h : Entered run k client call outcome) : arg ≠ .fresh := by
  obtain ⟨-, j, -, hadmissible⟩ := entered run h
  have hforeign : ∃ stream, (objectAt run j).stream arg = some stream ∧
      ((objectAt run j).event e).foreign stream = false := by
    rcases hcall with rfl | rfl <;> exact hadmissible.2
  obtain ⟨stream, harg, hforeign⟩ := hforeign
  intro hfresh
  rw [((sound_at run j).foreign_iff e harg).mpr hfresh] at hforeign
  cases hforeign

theorem returned_record {k client e : ℕ} {arg : StreamArg} {outcome : Outcome}
    (h : Returned run k client (.record e arg) outcome) :
    outcome.code = some .kOk ↔ arg.FromRuntime := by
  rw [StreamArg.fromRuntime_iff]
  rcases h with hrejected | hentered
  · rw [(rejected run hrejected).1, rejected_arg run (.inl rfl) hrejected]
    simp
  · obtain ⟨⟨memory, -, rfl⟩, -⟩ := entered run hentered
    exact ⟨fun _ => entered_arg run (.inl rfl) hentered, fun _ => rfl⟩

theorem returned_fresh {k client e : ℕ} {call : Call} {outcome : Outcome}
    (hcall : call = .record e .fresh ∨ call = .wait e .fresh)
    (h : Returned run k client call outcome) : outcome.code = some .kInvalidArgument := by
  rcases h with hrejected | hentered
  · exact (rejected run hrejected).1
  · exact absurd rfl (entered_arg run hcall hentered)

/-- A call that needs the event recorded. -/
def Needs (e : ℕ) (call : Call) : Prop :=
  call = .query e ∨ call = .synchronize e ∨ ∃ n, call = .wait e (.issued n)

theorem entered_of_needs {k client e : ℕ} {call : Call} {outcome : Outcome} (hcall : Needs e call)
    (h : Returned run k client call outcome) : Entered run k client call outcome := by
  rcases h with hrejected | hentered
  · rcases hcall with rfl | rfl | ⟨n, rfl⟩
    · exact (rejected run hrejected).2.1.elim
    · exact (rejected run hrejected).2.1.elim
    · cases rejected_arg run (.inr rfl) hrejected
  · exact hentered

/-- Inside the lock the flag decides. -/
theorem code_locked (s : CpuRuntime) (memory : Bool) {e : ℕ} {call : Call} (hcall : Needs e call) :
    (s.locked memory call).2.code =
      if (s.event e).recorded then some .kOk else some .kFailedPrecondition := by
  rcases hcall with rfl | rfl | ⟨n, rfl⟩ <;>
    simp only [CpuRuntime.locked, CpuEvent.query, CpuEvent.synchronize, CpuEvent.wait] <;>
    cases (s.event e).recorded <;> rfl

theorem returned_needs {k client e : ℕ} {call : Call} {outcome : Outcome} (hcall : Needs e call)
    (h : Returned run k client call outcome) :
    (outcome.code = some .kOk ↔ RecordedBefore run k e) ∧
      (¬ RecordedBefore run k e → outcome.code = some .kFailedPrecondition) := by
  obtain ⟨⟨memory, -, rfl⟩, -⟩ := entered run (entered_of_needs run hcall h)
  rw [code_locked _ _ hcall, ← recorded_iff]
  cases ((objectAt run k).event e).recorded <;> simp

/-- A query that succeeds says that the event is complete. -/
theorem query_true {k client e : ℕ} {completed : Bool}
    (h : Returned run k client (.query e) (.query (.ok completed))) : completed = true := by
  obtain ⟨⟨memory, -, hout⟩, -⟩ := entered run (entered_of_needs run (.inl rfl) h)
  have hquery : .ok completed = ((objectAt run k).event e).query := Outcome.query.inj hout
  unfold CpuEvent.query at hquery
  split at hquery
  · cases hquery
  · next hrecorded =>
      rw [Except.ok.inj hquery, ((sound_at run k).event e).2]
      simpa using hrecorded

/-! ## The history law -/

/-- What a call of the runtime or of an event returns is decided by the calls
before it and by where its stream is from. -/
theorem stream_and_event_history (run : Run monitor.machine) :
    -- streams
    (∀ k c device call outcome, call = .defaultStream device ∨ call = .createStream device →
      Returned run k c call outcome → (outcome.code = some .kOk ↔ device = .cpu)) ∧
    (∀ k arg stream, (objectAt run k).stream arg = some stream → stream.valid = true →
      stream.device = .cpu) ∧
    -- ids
    (∀ j k c d device device' stream stream', j < k →
      Returned run j c (.createStream device) (.stream (.ok stream)) →
      Returned run k d (.createStream device') (.stream (.ok stream')) →
      creations run k < 2 ^ 64 - 1 → stream ≠ stream') ∧
    (∀ j k c d device device' stream stream',
      Returned run j c (.defaultStream device) (.stream (.ok stream)) →
      Returned run k d (.createStream device') (.stream (.ok stream')) → stream ≠ stream') ∧
    (∀ k c device outcome, Returned run k c (.createStream device) outcome →
      outcome.code ≠ some .kOk → objectAt run (k + 1) = objectAt run k) ∧
    -- events
    (∀ k c e arg outcome, Returned run k c (.record e arg) outcome →
      (outcome.code = some .kOk ↔ arg.FromRuntime)) ∧
    (∀ k c e call outcome, call = .record e .fresh ∨ call = .wait e .fresh →
      Returned run k c call outcome → outcome.code = some .kInvalidArgument) ∧
    (∀ k c e call outcome, Needs e call → Returned run k c call outcome →
      (outcome.code = some .kOk ↔ RecordedBefore run k e) ∧
        (¬ RecordedBefore run k e → outcome.code = some .kFailedPrecondition)) ∧
    ∀ k c e completed, Returned run k c (.query e) (.query (.ok completed)) →
      completed = true := by
  refine ⟨?_, ?_, ?_, ?_, ?_, ?_, ?_, ?_, ?_⟩
  · intro k c device call outcome hcall h
    exact returned_stream run hcall h
  · intro k arg stream harg hvalid
    cases arg with
    | fresh => cases harg; rfl
    | issued n => exact ((sound_at run k).issued stream (List.mem_of_getElem? harg)).2
  · intro j k c d device device' stream stream' hjk hj hk hcount
    exact created_ne run hjk hj hk hcount
  · intro j k c d device device' stream stream' hj hk heq
    rw [returned_defaultStream run hj, (returned_createStream run hk).1] at heq
    cases congrArg Stream.isDefault heq
  · intro k c device outcome h hfail
    rcases h with hrejected | hentered
    · exact (rejected run hrejected).2.2
    · obtain ⟨⟨memory, -, rfl⟩, -⟩ := entered run hentered
      exact absurd rfl hfail
  · intro k c e arg outcome h
    exact returned_record run h
  · intro k c e call outcome hcall h
    exact returned_fresh run hcall h
  · intro k c e call outcome hcall h
    exact returned_needs run hcall h
  · intro k c e completed h
    exact query_true run h

/-- One client makes an event and queries it; another one records it with the
default stream, and the first one queries again. -/
def recordRun : Run monitor.machine :=
  Run.ofLabels _ ⟨{}, [.idle none, .idle none]⟩ ⟨rfl, by decide⟩
    [.call 0 (.createEvent .cpu), .enter 0 true, .call 0 (.query 0), .enter 0 true,
      .call 1 (.defaultStream .cpu), .enter 1 true, .call 1 (.record 0 (.issued 0)),
      .enter 1 true, .call 0 (.query 0), .enter 0 true]

theorem stream_and_event_history_record :
    RecordedBefore recordRun 9 0 ∧ ¬ RecordedBefore recordRun 3 0 := by
  have hlaw := (stream_and_event_history recordRun).2.2.2.2.2.2.2.1
  have hearly : Entered recordRun 3 0 (.query 0)
      (.query (.error (.error .kFailedPrecondition "cannot query an event before it is recorded"))) :=
    ⟨⟨true, by decide⟩, ⟨(), by decide⟩, by decide⟩
  have hlate : Entered recordRun 9 0 (.query 0) (.query (.ok true)) :=
    ⟨⟨true, by decide⟩, ⟨(), by decide⟩, by decide⟩
  refine ⟨(hlaw 9 0 0 (.query 0) _ (.inl rfl) (.inr hlate)).1.mp rfl, fun h => ?_⟩
  cases (hlaw 3 0 0 (.query 0) _ (.inl rfl) (.inr hearly)).1.mpr h

end CpuRuntime

end Gradyx
