import Gradyx.Backend.CpuAllocator
import Mathlib.Data.List.Pairwise

/-!
# CpuMemory — the memory behind the allocator

`CpuAllocator::allocate` over a heap that gives and takes blocks
(`backend/cpu/runtime.cc`): `posix_memalign` answers with any block that no live one
overlaps, and the storage that `std::free` takes back may be handed out again. The
blocks are owned by `DataPtr` objects (`include/gradyx/core/data_ptr.h`), on which any
sequence of member functions runs.

* `free_cpu_memory` has no name outside its file, so no other code makes a `DataPtr`
  with it; owners of other memory may be among the objects.
* `Owned`: at each address the live blocks and the calls of `free_cpu_memory` add up
  to the allocations, and each owner has its own block.
* `memory_owned`: no block is freed twice or lost, though addresses come back.
-/

namespace Gradyx.CpuMemory

open Gradyx.Lib
open Gradyx.DataPtr (Addr Call)

/-- A block that was handed out and not yet freed. -/
structure Block where
  data : Addr
  size : ℕ
deriving DecidableEq, Repr

/-- `fault`: something was freed that is no live block. -/
structure Heap where
  blocks : List Block := []
  fault : Bool := false
deriving DecidableEq, Repr

variable (P : Platform)

/-- The storage of the two blocks does not overlap. -/
def Apart (b c : Block) : Prop :=
  P.address b.data + b.size ≤ P.address c.data ∨ P.address c.data + c.size ≤ P.address b.data

instance (b c : Block) : Decidable (Apart P b c) := inferInstanceAs (Decidable (_ ∨ _))

namespace Heap

/-- Whether `posix_memalign` may return the block. -/
def admits (h : Heap) (alignment : ℕ) (b : Block) : Prop :=
  alignment ∣ P.address b.data ∧ ∀ c ∈ h.blocks, Apart P b c

instance (h : Heap) (alignment : ℕ) (b : Block) : Decidable (h.admits P alignment b) :=
  inferInstanceAs (Decidable (_ ∧ _))

/-- `posix_memalign` with the answer; `none` for one that it may not give. -/
def memalign (h : Heap) (alignment size : UInt64) : Except Errno Addr → Option Heap
  | .error _ => some h
  | .ok data =>
      if h.admits P alignment.toNat ⟨data, size.toNat⟩ then
        some { h with blocks := ⟨data, size.toNat⟩ :: h.blocks }
      else none

/-- `std::free`. -/
def free (h : Heap) (data : Addr) : Heap :=
  if h.blocks.any (·.data = data) then { h with blocks := h.blocks.filter (·.data ≠ data) }
  else { h with fault := true }

/-- The call of a deleter. -/
def deliver (h : Heap) (c : Call) : Heap := (P.freed c).elim h h.free

end Heap

/-- The `DataPtr` objects and the heap. -/
structure State where
  objects : DataPtr.State
  heap : Heap
deriving DecidableEq, Repr

inductive Op where
  | allocate (bytes alignment : UInt64) (device : Device) (answer : Except Errno Addr)
  | object (op : DataPtr.Op)

/-- `free_cpu_memory` is not used outside its file. -/
def foreign : DataPtr.Op → Bool
  | .construct _ _ deleter => deleter != some P.freeCpuMemory
  | _ => true

namespace State

/-- `CpuAllocator::allocate`, and a `DataPtr` for its result. -/
def allocate (s : State) (bytes alignment : UInt64) (device : Device)
    (answer : Except Errno Addr) : Option State := do
  let heap ← match CpuAllocator.request P bytes alignment device with
    | .error _ => some s.heap
    | .ok (actualAlignment, size) => s.heap.memalign P actualAlignment size answer
  match CpuAllocator.allocate { P with posixMemalign := fun _ _ => answer } bytes alignment device with
  | .error _ => return { s with heap }
  | .ok p => return ⟨(s.objects.hand p).add p, heap⟩

/-- A member function of a `DataPtr`, with the deleter it calls. -/
def object (s : State) (op : DataPtr.Op) : Option State := do
  guard (foreign P op)
  let objects ← s.objects.step op
  let calls := objects.calls.take (objects.calls.length - s.objects.calls.length)
  return ⟨objects, calls.foldr (fun c h => h.deliver P c) s.heap⟩

def step (s : State) : Op → Option State
  | .allocate bytes alignment device answer => s.allocate P bytes alignment device answer
  | .object op => s.object P op

end State

/-- Runs that start with no object and no block. -/
def machine : Machine State Op where
  Init s := s = ⟨⟨[], [], []⟩, {}⟩
  step := State.step P

/-! ## The member functions of a `DataPtr` -/

section Objects

variable {s s' : DataPtr.State} {op : DataPtr.Op} {i j : ℕ} {p q : DataPtr}

/-- What a member function adds to the history, and where the values come from. -/
structure Acts (s : DataPtr.State) (op : DataPtr.Op) (s' : DataPtr.State) (made : List DataPtr)
    (calls : Option Call) : Prop where
  made_eq : s'.made = made ++ s.made
  calls_eq : s'.calls = calls.toList ++ s.calls
  due : ∀ c, calls = some c → ∃ i p, s.get i = some p ∧ p.due = some c
  values : ∀ i p, s'.get i = some p → p.data ≠ none → p ∈ made ∨ ∃ j, s.get j = some p
  constructed : ∀ p ∈ made, ∃ allocation context deleter,
    op = .construct allocation context deleter ∧ p.deleter = deleter

theorem get_add (h : (s.add q).get i = some p) : s.get i = some p ∨ p = q := by
  simp only [DataPtr.State.get, DataPtr.State.add, List.getElem?_append] at h
  split at h
  · exact .inl h
  · obtain ⟨_, hp⟩ := List.getElem?_eq_some_iff.mp (Option.join_eq_some_iff.mp h)
    rw [List.getElem_singleton, Option.some.injEq] at hp
    exact .inr hp.symm

theorem get_drop (h : (s.drop j).get i = some p) : s.get i = some p := by
  simp only [DataPtr.State.get, DataPtr.State.drop, List.getElem?_set] at h
  split at h
  · split at h <;> cases h
  · exact h

theorem get_put (h : (s.put j q).get i = some p) : p = q ∨ s.get i = some p := by
  simp only [DataPtr.State.get, DataPtr.State.put, List.getElem?_set] at h
  split at h
  · split at h
    · exact .inl (Option.some.inj h).symm
    · cases h
  · exact .inr h

theorem get_resetAt (h : (s.resetAt j q).get i = some p) : p = {} ∨ s.get i = some p :=
  get_put h

/-- Nothing is constructed from outside. -/
theorem Acts.of_values {calls : Option Call} (hm : s'.made = s.made)
    (hc : s'.calls = calls.toList ++ s.calls)
    (hdue : ∀ c, calls = some c → ∃ i p, s.get i = some p ∧ p.due = some c)
    (hv : ∀ i p, s'.get i = some p → p.data ≠ none → ∃ j, s.get j = some p) :
    Acts s op s' [] calls := by
  refine ⟨hm, hc, hdue, fun i p hp hd => .inr (hv i p hp hd), ?_⟩
  intro p hp
  cases hp

theorem exists_acts (hs : s.step op = some s') : ∃ made calls, Acts s op s' made calls := by
  have hempty : ({} : DataPtr).data = none := rfl
  cases op with
  | construct allocation context deleter =>
      cases hs
      refine ⟨[.construct allocation context deleter], none, rfl, rfl, ?_, ?_, ?_⟩
      · intro c hc
        cases hc
      · intro i p hp _
        rcases get_add hp with hp | rfl
        · exact .inr ⟨i, hp⟩
        · exact .inl List.mem_cons_self
      · intro p hp
        cases List.mem_singleton.mp hp
        exact ⟨allocation, context, deleter, rfl, rfl⟩
  | constructDefault =>
      cases hs
      refine ⟨[], none, .of_values rfl rfl (fun c hc => by cases hc) ?_⟩
      intro i p hp hdata
      rcases get_add hp with hp | rfl
      · exact ⟨i, hp⟩
      · exact absurd hempty hdata
  | moveConstruct other =>
      simp only [DataPtr.State.step, Option.bind_eq_bind, Option.pure_def, Option.bind_eq_some_iff,
        Option.some.injEq] at hs
      obtain ⟨q, hq, rfl⟩ := hs
      refine ⟨[], none, .of_values rfl rfl (fun c hc => by cases hc) ?_⟩
      intro i p hp hdata
      rcases get_add hp with hp | rfl
      · rcases get_put hp with rfl | hp
        · exact absurd hempty hdata
        · exact ⟨i, hp⟩
      · exact ⟨other, hq⟩
  | moveAssign self other =>
      simp only [DataPtr.State.step, Option.bind_eq_bind, Option.pure_def,
        Option.bind_eq_some_iff] at hs
      obtain ⟨p, hp, q, hq, hs⟩ := hs
      split at hs
      · cases hs
        exact ⟨[], none, .of_values rfl rfl (fun c hc => by cases hc) fun i r hr _ => ⟨i, hr⟩⟩
      · cases hs
        refine ⟨[], p.due, .of_values rfl rfl (fun c hc => ⟨self, p, hp, hc⟩) ?_⟩
        intro i r hr hdata
        rcases get_put hr with rfl | hr
        · exact ⟨other, hq⟩
        · rcases get_put hr with rfl | hr
          · exact absurd hempty hdata
          · rcases get_resetAt hr with rfl | hr
            · exact absurd hempty hdata
            · exact ⟨i, hr⟩
  | swap self other =>
      simp only [DataPtr.State.step, Option.bind_eq_bind, Option.pure_def, Option.bind_eq_some_iff,
        Option.some.injEq] at hs
      obtain ⟨p, hp, q, hq, rfl⟩ := hs
      refine ⟨[], none, .of_values rfl rfl (fun c hc => by cases hc) ?_⟩
      intro i r hr _
      rcases get_put hr with rfl | hr
      · exact ⟨self, hp⟩
      · rcases get_put hr with rfl | hr
        · exact ⟨other, hq⟩
        · exact ⟨i, hr⟩
  | reset self =>
      simp only [DataPtr.State.step, Option.bind_eq_bind, Option.pure_def, Option.bind_eq_some_iff,
        Option.some.injEq] at hs
      obtain ⟨p, hp, rfl⟩ := hs
      refine ⟨[], p.due, .of_values rfl rfl (fun c hc => ⟨self, p, hp, hc⟩) ?_⟩
      intro i r hr hdata
      rcases get_resetAt hr with rfl | hr
      · exact absurd hempty hdata
      · exact ⟨i, hr⟩
  | destroy self =>
      simp only [DataPtr.State.step, Option.bind_eq_bind, Option.pure_def, Option.bind_eq_some_iff,
        Option.some.injEq] at hs
      obtain ⟨p, hp, rfl⟩ := hs
      refine ⟨[], p.due, .of_values rfl rfl (fun c hc => ⟨self, p, hp, hc⟩) ?_⟩
      intro i r hr hdata
      rcases get_resetAt (get_drop hr) with rfl | hr
      · exact absurd hempty hdata
      · exact ⟨i, hr⟩

end Objects

/-! ## Blocks and their owners -/

/-- The call of `free_cpu_memory` that gives the block back. -/
def release (data : Addr) : Call := ⟨P.freeCpuMemory, data, none⟩

/-- How many live blocks start here. -/
def Heap.blocksAt (h : Heap) (data : Addr) : ℕ := h.blocks.countP (·.data = data)

/-- The invariant. -/
structure Owned (s : State) : Prop where
  counted : DataPtr.Counted s.objects []
  allocated : ∀ p ∈ s.objects.made, p.deleter = some P.freeCpuMemory →
    p.context = none ∧ p.allocation.device = .cpu
  balance : ∀ data, s.heap.blocksAt data + s.objects.calls.count (release P data) =
    tally (fun p => DataPtr.owes (release P data) (some p)) s.objects.made
  held : ∀ i p data, s.objects.get i = some p → p.due = some (release P data) →
    ⟨data, p.allocation.bytes⟩ ∈ s.heap.blocks
  apart : s.heap.blocks.Pairwise (Apart P)
  sized : ∀ b ∈ s.heap.blocks, 0 < b.size ∧ P.maxAlign.toNat ∣ P.address b.data
  fault : s.heap.fault = false

theorem deleter_of_due {p : DataPtr} {c : Call} (h : p.due = some c) :
    p.deleter = some c.deleter := by
  unfold DataPtr.due at h
  split at h
  · next hd =>
      cases h
      exact hd
  · cases h

namespace Owned

variable {P} {s s' : State}

/-- Whoever owes a release has a block: the balance of the state says so. -/
theorem blocksAt_pos_of_balance {objects : DataPtr.State} {heap : Heap}
    (hcounted : DataPtr.Counted objects [])
    (hbalance : ∀ data, heap.blocksAt data + objects.calls.count (release P data) =
      tally (fun p => DataPtr.owes (release P data) (some p)) objects.made)
    {i : ℕ} {p : DataPtr} {data : Addr} (hp : objects.get i = some p)
    (hdue : p.due = some (release P data)) : 0 < heap.blocksAt data := by
  have hmem := List.mem_of_getElem? (Option.join_eq_some_iff.mp hp)
  have howes := le_tally (DataPtr.owes (release P data)) hmem
  rw [DataPtr.owes_of_due hdue] at howes
  have h₁ := hbalance data
  have h₂ := hcounted.balance (release P data)
  rw [tally_nil] at h₂
  omega

theorem blocksAt_pos (h : Owned P s) {i : ℕ} {p : DataPtr} {data : Addr}
    (hp : s.objects.get i = some p) (hdue : p.due = some (release P data)) :
    0 < s.heap.blocksAt data :=
  blocksAt_pos_of_balance h.counted h.balance hp hdue

/-- Blocks apart from each other start at different addresses. -/
theorem countP_le {blocks : List Block} (hapart : blocks.Pairwise (Apart P))
    (hsized : ∀ b ∈ blocks, 0 < b.size) (data : Addr) : blocks.countP (·.data = data) ≤ 1 := by
  induction blocks with
  | nil => exact Nat.zero_le _
  | cons b blocks ih =>
      obtain ⟨hb, hrest⟩ := List.pairwise_cons.mp hapart
      have ih := ih hrest fun c hc => hsized c (List.mem_cons_of_mem b hc)
      by_cases hbd : b.data = data
      · have hzero : blocks.countP (·.data = data) = 0 := by
          rw [List.countP_eq_zero]
          intro c hc hcd
          have hcd : c.data = data := by simpa using hcd
          have hbs := hsized b List.mem_cons_self
          have hcs := hsized c (List.mem_cons_of_mem b hc)
          rcases hb c hc with hle | hle <;> rw [hbd, hcd] at hle <;> omega
        rw [List.countP_cons, hzero]
        split <;> omega
      · rwa [List.countP_cons_of_neg (by simpa using hbd)]

theorem blocksAt_le (h : Owned P s) (data : Addr) : s.heap.blocksAt data ≤ 1 :=
  countP_le h.apart (fun b hb => (h.sized b hb).1) data

/-- An object with `free_cpu_memory` owes the release of its data. -/
theorem due_eq (h : Owned P s) {i : ℕ} {p : DataPtr} {data : Addr}
    (hp : s.objects.get i = some p) (hdata : p.data = some data)
    (hfree : p.deleter = some P.freeCpuMemory) : p.due = some (release P data) := by
  have hmade := h.counted.known i p hp (by rw [hdata]; exact Option.some_ne_none data)
  simp only [DataPtr.due, hdata, hfree, (h.allocated p hmade hfree).1]
  rfl

/-- A deleter call that an object owes gives its block back, or is none of
`free_cpu_memory`. -/
theorem deliver_eq (h : Owned P s) {i : ℕ} {p : DataPtr} {c : Call}
    (hp : s.objects.get i = some p) (hc : p.due = some c) :
    (∃ data, c = release P data ∧ 0 < s.heap.blocksAt data ∧ s.heap.deliver P c =
      { s.heap with blocks := s.heap.blocks.filter (·.data ≠ data) }) ∨
    (∀ data, c ≠ release P data) ∧ s.heap.deliver P c = s.heap := by
  by_cases hfree : c.deleter = P.freeCpuMemory
  · have hdata := DataPtr.data_of_due hc
    have hdeleter : p.deleter = some P.freeCpuMemory := by rw [deleter_of_due hc, hfree]
    have hdue := h.due_eq hp hdata hdeleter
    have hpos := h.blocksAt_pos hp hdue
    refine .inl ⟨c.data, Option.some.inj (hc.symm.trans hdue), hpos, ?_⟩
    have hany : s.heap.blocks.any (·.data = c.data) = true := by
      obtain ⟨b, hb, hbd⟩ := List.countP_pos_iff.mp hpos
      exact List.any_eq_true.mpr ⟨b, hb, hbd⟩
    rw [Heap.deliver, Platform.freed, if_pos hfree, Option.elim_some, Heap.free, if_pos hany]
  · refine .inr ⟨?_, ?_⟩
    · rintro data rfl
      exact hfree rfl
    · rw [Heap.deliver, Platform.freed, if_neg hfree]
      rfl

theorem blocksAt_filter (blocks : List Block) (fault fault' : Bool) (data data' : Addr) :
    (⟨blocks.filter (·.data ≠ data), fault⟩ : Heap).blocksAt data' =
      if data' = data then 0 else (⟨blocks, fault'⟩ : Heap).blocksAt data' := by
  unfold Heap.blocksAt
  rw [List.countP_filter]
  split
  · next heq =>
      subst heq
      rw [List.countP_eq_zero]
      intro b _
      simp
  · next hne =>
      refine List.countP_congr fun b _ => ?_
      constructor
      · intro hb
        simp_all
      · intro hb
        simp_all

/-- The objects after a member function: no new value owes a release, and every owner
comes from an object that had the block before. -/
structure Keeps (P : Platform) (s : State) (objects : DataPtr.State) (calls : Option Call) :
    Prop where
  counted : DataPtr.Counted objects []
  allocated : ∀ p ∈ objects.made, p.deleter = some P.freeCpuMemory →
    p.context = none ∧ p.allocation.device = .cpu
  owed : ∀ data, tally (fun p => DataPtr.owes (release P data) (some p)) objects.made =
    tally (fun p => DataPtr.owes (release P data) (some p)) s.objects.made
  calls_eq : objects.calls = calls.toList ++ s.objects.calls
  due : ∀ c, calls = some c → ∃ i p, s.objects.get i = some p ∧ p.due = some c
  held : ∀ i p data, objects.get i = some p → p.due = some (release P data) →
    ⟨data, p.allocation.bytes⟩ ∈ s.heap.blocks

/-- A member function that cannot name `free_cpu_memory`. -/
theorem exists_keeps {op : DataPtr.Op} {objects : DataPtr.State} (h : Owned P s)
    (hforeign : foreign P op = true) (hop : s.objects.step op = some objects) :
    ∃ calls, Keeps P s objects calls := by
  obtain ⟨made, calls, hmade, hcalls, hdue, hvalues, hconstructed⟩ := exists_acts hop
  have hnew : ∀ p ∈ made, p.deleter ≠ some P.freeCpuMemory := by
    intro p hp
    obtain ⟨allocation, context, deleter, rfl, hdeleter⟩ := hconstructed p hp
    rw [hdeleter]
    exact bne_iff_ne.mp hforeign
  refine ⟨calls, DataPtr.step_counted h.counted hop, ?_, ?_, hcalls, hdue, ?_⟩
  · intro p hp hfree
    rw [hmade, List.mem_append] at hp
    exact h.allocated p (hp.resolve_left fun hp => hnew p hp hfree) hfree
  · intro data
    have howes : tally (fun p => DataPtr.owes (release P data) (some p)) made = 0 :=
      tally_eq_zero _ fun p hp => if_neg fun hdue => hnew p hp (deleter_of_due hdue)
    rw [hmade, tally_append, howes, Nat.zero_add]
  · intro i p data hp hdue
    have hdata : p.data ≠ none := by
      rw [DataPtr.data_of_due hdue]
      exact Option.some_ne_none _
    rcases hvalues i p hp hdata with hnewp | ⟨j, hj⟩
    · exact absurd (deleter_of_due hdue) (hnew p hnewp)
    · exact h.held j p data hj hdue

variable {objects : DataPtr.State}

/-- No block is given back. -/
theorem Keeps.unchanged {calls : Option Call} (hk : Keeps P s objects calls) (h : Owned P s)
    (hother : ∀ data, calls ≠ some (release P data)) : Owned P { s with objects } := by
  refine ⟨hk.counted, hk.allocated, fun data => ?_, hk.held, h.apart, h.sized, h.fault⟩
  have hcount : calls.toList.count (release P data) = 0 := by
    rw [List.count_eq_zero, Option.mem_toList]
    exact hother data
  have hb := h.balance data
  rw [← hk.owed data] at hb
  rw [hk.calls_eq, List.count_append, hcount, Nat.zero_add]
  exact hb

/-- The block at the address is given back. -/
theorem Keeps.freed {d : Addr} (hk : Keeps P s objects (some (release P d))) (h : Owned P s)
    (hpos : 0 < s.heap.blocksAt d) :
    Owned P ⟨objects, { s.heap with blocks := s.heap.blocks.filter (·.data ≠ d) }⟩ := by
  have hbalance : ∀ data,
      Heap.blocksAt ⟨s.heap.blocks.filter (·.data ≠ d), s.heap.fault⟩ data +
        objects.calls.count (release P data) =
      tally (fun p => DataPtr.owes (release P data) (some p)) objects.made := by
    intro data
    rw [blocksAt_filter _ _ s.heap.fault, hk.owed data, ← h.balance data, hk.calls_eq,
      List.count_append, Option.toList_some, List.count_singleton]
    have hle := h.blocksAt_le d
    by_cases hdd : data = d
    · subst hdd
      simp
      omega
    · have hne : (release P d == release P data) = false := by
        rw [beq_eq_false_iff_ne]
        intro heq
        exact hdd (congrArg Call.data heq).symm
      rw [if_neg hdd, hne]
      simp
  refine ⟨hk.counted, hk.allocated, hbalance, ?_, ?_, ?_, h.fault⟩
  · intro i p data hp hdue
    have hpos' := blocksAt_pos_of_balance hk.counted hbalance hp hdue
    rw [blocksAt_filter _ _ s.heap.fault] at hpos'
    have hne : data ≠ d := by
      intro heq
      rw [if_pos heq] at hpos'
      exact lt_irrefl _ hpos'
    exact List.mem_filter.mpr ⟨hk.held i p data hp hdue, by simpa using hne⟩
  · exact h.apart.sublist List.filter_sublist
  · intro b hb
    exact h.sized b (List.mem_of_mem_filter hb)

/-- A member function keeps the blocks with their owners. -/
theorem object {op : DataPtr.Op} (h : Owned P s) (hs : s.object P op = some s') : Owned P s' := by
  simp only [State.object, guard, Option.bind_eq_bind, Option.pure_def] at hs
  split at hs
  · next hforeign =>
      simp only [Option.bind_some, Option.bind_eq_some_iff, Option.some.injEq] at hs
      obtain ⟨objects, hop, rfl⟩ := hs
      obtain ⟨calls, hk⟩ := h.exists_keeps hforeign hop
      have htake : objects.calls.take (objects.calls.length - s.objects.calls.length) =
          calls.toList := by
        rw [hk.calls_eq, List.length_append, Nat.add_sub_cancel, List.take_left]
      rw [htake]
      cases calls with
      | none => exact hk.unchanged h fun data heq => by cases heq
      | some c =>
          obtain ⟨j, q, hq, hqc⟩ := hk.due c rfl
          have hfold : ([c].foldr (fun c h => Heap.deliver P h c) s.heap) = s.heap.deliver P c := rfl
          rw [Option.toList_some, hfold]
          rcases h.deliver_eq hq hqc with ⟨d, rfl, hpos, hheap⟩ | ⟨hother, hheap⟩
          · rw [hheap]
            exact hk.freed h hpos
          · rw [hheap]
            exact hk.unchanged h fun data heq => hother data (Option.some.inj heq)
  · simp at hs

/-- A value that owes no release, for a new object. -/
theorem addOther (h : Owned P s) {p : DataPtr} (hp : p.deleter ≠ some P.freeCpuMemory) :
    Owned P { s with objects := (s.objects.hand p).add p } := by
  refine ⟨(h.counted.hand p).add, ?_, fun data => ?_, ?_, h.apart, h.sized, h.fault⟩
  · intro q hq hfree
    rcases List.mem_cons.mp hq with rfl | hq
    · exact absurd hfree hp
    · exact h.allocated q hq hfree
  · have howes : DataPtr.owes (release P data) (some p) = 0 :=
      if_neg fun hdue => hp (deleter_of_due hdue)
    have hb := h.balance data
    change s.heap.blocksAt data + s.objects.calls.count (release P data) =
      tally _ (p :: s.objects.made)
    rw [tally_cons, howes, Nat.zero_add]
    exact hb
  · intro i q data hq hdue
    rcases get_add hq with hq | rfl
    · exact h.held i q data hq hdue
    · exact absurd (deleter_of_due hdue) hp

/-- A block that overlaps no live one, and its owner. -/
theorem addOwner (h : Owned P s) {data : Addr} {bytes : ℕ} (hpos : 0 < bytes)
    (hdvd : P.maxAlign.toNat ∣ P.address data)
    (hapart : ∀ c ∈ s.heap.blocks, Apart P ⟨data, bytes⟩ c) :
    Owned P ⟨(s.objects.hand (DataPtr.construct ⟨some data, bytes, .cpu⟩ none
        (some P.freeCpuMemory))).add (DataPtr.construct ⟨some data, bytes, .cpu⟩ none
        (some P.freeCpuMemory)), { s.heap with blocks := ⟨data, bytes⟩ :: s.heap.blocks }⟩ := by
  refine ⟨(h.counted.hand _).add, ?_, fun data' => ?_, ?_, ?_, ?_, h.fault⟩
  · intro q hq hfree
    rcases List.mem_cons.mp hq with rfl | hq
    · exact ⟨rfl, rfl⟩
    · exact h.allocated q hq hfree
  · have hb := h.balance data'
    change Heap.blocksAt ⟨⟨data, bytes⟩ :: s.heap.blocks, s.heap.fault⟩ data' +
      s.objects.calls.count (release P data') = tally _ (_ :: s.objects.made)
    rw [tally_cons, ← hb]
    simp only [Heap.blocksAt, List.countP_cons, DataPtr.owes, DataPtr.construct, DataPtr.due,
      DataPtr.data, Option.bind_some, release, Option.some.injEq, Call.mk.injEq, true_and, and_true,
      decide_eq_true_eq]
    omega
  · intro i q data' hq hdue
    rcases get_add hq with hq | rfl
    · exact List.mem_cons_of_mem _ (h.held i q data' hq hdue)
    · have hdata := DataPtr.data_of_due hdue
      obtain rfl : data = data' := Option.some.inj hdata
      exact List.mem_cons_self
  · exact List.pairwise_cons.mpr ⟨hapart, h.apart⟩
  · intro b hb
    rcases List.mem_cons.mp hb with rfl | hb
    · exact ⟨hpos, hdvd⟩
    · exact h.sized b hb

theorem allocate {bytes alignment : UInt64} {device : Device} {answer : Except Errno Addr}
    (hP : P.Conforms) (h : Owned P s) (hs : s.allocate P bytes alignment device answer = some s') :
    Owned P s' := by
  have hcases := CpuAllocator.request_cases bytes alignment device hP
  have hsame : CpuAllocator.request { P with posixMemalign := fun _ _ => answer } bytes alignment
      device = CpuAllocator.request P bytes alignment device := rfl
  simp only [State.allocate, CpuAllocator.allocate, hsame, Option.bind_eq_bind,
    Option.pure_def] at hs
  cases hreq : CpuAllocator.request P bytes alignment device with
  | error result =>
      simp only [hreq, Option.bind_some] at hs
      cases result with
      | error status =>
          cases hs
          exact h
      | ok p =>
          -- the empty `DataPtr` of a request for no bytes
          have hp : p.deleter = none := by
            rw [hreq] at hcases
            rcases hcases with ⟨-, heq⟩ | ⟨-, -, heq⟩ | ⟨-, -, ⟨-, heq⟩ | ⟨-, -, heq⟩ | ⟨-, -, heq⟩⟩ <;>
              cases heq
            rfl
          cases hs
          refine h.addOther ?_
          rw [hp]
          nofun
  | ok call =>
      obtain ⟨a, n⟩ := call
      have hdevice : device = .cpu := by
        rw [hreq] at hcases
        rcases hcases with ⟨-, heq⟩ | ⟨-, -, heq⟩ | ⟨hdevice, -⟩
        · cases heq
        · cases heq
        · exact hdevice
      obtain ⟨-, -, hmax, rfl, hpos, -⟩ := CpuAllocator.request_ok hP hreq
      simp only [hreq] at hs
      cases answer with
      | error errno =>
          simp only [Heap.memalign, Option.bind_some] at hs
          cases hs
          exact h
      | ok data =>
          simp only [Heap.memalign] at hs
          split at hs
          · next hadmits =>
              rw [Option.bind_some] at hs
              cases hs
              subst hdevice
              exact h.addOwner hpos (Nat.dvd_trans hmax hadmits.1) hadmits.2
          · cases hs

end Owned

theorem step_owned (hP : P.Conforms) {s s' : State} {op : Op} (h : Owned P s)
    (hs : s.step P op = some s') : Owned P s' := by
  cases op with
  | allocate bytes alignment device answer => exact Owned.allocate hP h hs
  | object op => exact h.object hs

theorem run_owned (hP : P.Conforms) (r : Run (machine P)) (k : ℕ) : Owned P (r.state k) := by
  refine r.invariant (Owned P) ?_ (fun _ _ _ hs h => step_owned P hP h hs) k
  intro s hs
  cases hs
  refine ⟨⟨fun _ => rfl, ?_, ?_⟩, ?_, fun _ => rfl, ?_, .nil, ?_, rfl⟩ <;>
    simp [DataPtr.State.get]

/-! ## Memory safety -/

/-- The object at `i` owns memory of the allocator: where it starts and how long it is. -/
def State.Owns (s : State) (i : ℕ) (data : Addr) (bytes : ℕ) : Prop :=
  ∃ p, s.objects.get i = some p ∧ p.data = some data ∧ p.deleter = some P.freeCpuMemory ∧
    p.allocation.bytes = bytes

namespace Owned

variable {P} {s : State} {i j : ℕ} {data : Addr} {m n : ℕ}

theorem block (h : Owned P s) (ho : s.Owns P i data n) : ⟨data, n⟩ ∈ s.heap.blocks := by
  obtain ⟨p, hp, hdata, hfree, rfl⟩ := ho
  exact h.held i p data hp (h.due_eq hp hdata hfree)

theorem owner_unique (h : Owned P s) (hi : s.Owns P i data m) (hj : s.Owns P j data n) :
    i = j := by
  obtain ⟨p, hp, hpd, hpf, -⟩ := hi
  obtain ⟨q, hq, hqd, hqf, -⟩ := hj
  by_contra hne
  have htwo := add_le_tally (DataPtr.owes (release P data)) hne (Option.join_eq_some_iff.mp hp)
    (Option.join_eq_some_iff.mp hq)
  rw [DataPtr.owes_of_due (h.due_eq hp hpd hpf), DataPtr.owes_of_due (h.due_eq hq hqd hqf)] at htwo
  have hbalance := h.balance data
  have hcounted := h.counted.balance (release P data)
  have hle := h.blocksAt_le data
  rw [tally_nil] at hcounted
  omega

/-- Two blocks do not share storage. -/
theorem apart_of_ne (h : Owned P s) {b c : Block} (hb : b ∈ s.heap.blocks)
    (hc : c ∈ s.heap.blocks) (hne : b ≠ c) : Apart P b c :=
  have : Std.Symm (Apart P) := ⟨fun _ _ hbc => hbc.symm⟩
  h.apart.forall hb hc hne

theorem exists_owner (h : Owned P s) {b : Block} (hb : b ∈ s.heap.blocks) :
    ∃ i, s.Owns P i b.data b.size := by
  have hpos : 0 < s.heap.blocksAt b.data := List.countP_pos_iff.mpr ⟨b, hb, by simp⟩
  have hbalance := h.balance b.data
  have hcounted := h.counted.balance (release P b.data)
  rw [tally_nil] at hcounted
  have htally : 0 < tally (DataPtr.owes (release P b.data)) s.objects.ptrs := by omega
  obtain ⟨o, ho, howes⟩ := exists_of_tally_pos _ htally
  obtain ⟨p, rfl, hdue⟩ := DataPtr.due_of_owes howes
  obtain ⟨i, hi⟩ := List.getElem?_of_mem ho
  have hp : s.objects.get i = some p := Option.join_eq_some_iff.mpr hi
  refine ⟨i, p, hp, DataPtr.data_of_due hdue, deleter_of_due hdue, ?_⟩
  -- the owner's block is at the same address, so it is this one
  have hblock := h.held i p b.data hp hdue
  by_contra hne
  have hapart := h.apart_of_ne hblock hb fun heq => hne (congrArg Block.size heq)
  have h₁ := (h.sized _ hblock).1
  have h₂ := (h.sized b hb).1
  rcases hapart with hle | hle <;> simp only at hle h₁ <;> omega

end Owned

/-- In every state of every run, whatever addresses come back: nothing is freed that is
no live block, the live blocks are those of the objects that own them, one object each,
and the memory of two owners does not overlap. -/
theorem memory_owned (P : Platform) (hP : P.Conforms) (r : Run (machine P)) (k : ℕ) :
    (r.state k).heap.fault = false ∧
    (∀ b, b ∈ (r.state k).heap.blocks ↔ ∃ i, (r.state k).Owns P i b.data b.size) ∧
    (∀ i j data m n, (r.state k).Owns P i data m → (r.state k).Owns P j data n → i = j) ∧
    (∀ i j b c, i ≠ j → (r.state k).Owns P i b.data b.size → (r.state k).Owns P j c.data c.size →
      Apart P b c) ∧
    ∀ b ∈ (r.state k).heap.blocks, 0 < b.size ∧ P.maxAlign.toNat ∣ P.address b.data := by
  have h := run_owned P hP r k
  refine ⟨h.fault, fun b => ⟨h.exists_owner, fun ⟨i, hi⟩ => h.block hi⟩,
    fun i j data m n => h.owner_unique, ?_, h.sized⟩
  intro i j b c hij hb hc
  refine h.apart_of_ne (h.block hb) (h.block hc) fun heq => hij ?_
  subst heq
  exact h.owner_unique hb hc

/-- A block that is freed by a move assignment and handed out again. -/
def reuse : List Op :=
  [.allocate 256 64 .cpu (.ok 64), .allocate 128 64 .cpu (.ok 320), .object (.moveConstruct 0),
    .object (.moveAssign 2 1), .allocate 192 64 .cpu (.ok 64),
    -- an answer inside the block at `64` is none that `posix_memalign` gives: the machine
    -- refuses it, and the run stutters here
    .allocate 64 64 .cpu (.ok 128),
    .object (.swap 3 2), .object (.destroy 2)]

def reuseRun : Run (machine CpuAllocator.smallPlatform) :=
  .ofLabels _ ⟨⟨[], [], []⟩, {}⟩ rfl reuse

theorem memory_owned_reuse :
    (¬ ∃ i, (reuseRun.state 4).Owns CpuAllocator.smallPlatform i 64 256) ∧
    ∃ i, (reuseRun.state 5).Owns CpuAllocator.smallPlatform i 64 192 := by
  have hP := CpuAllocator.smallPlatform_conforms
  obtain ⟨-, hfreed, -⟩ := memory_owned _ hP reuseRun 4
  obtain ⟨-, hreused, -⟩ := memory_owned _ hP reuseRun 5
  constructor
  · intro howner
    have hmem := (hfreed ⟨64, 256⟩).mpr howner
    exact absurd hmem (by decide +kernel)
  · exact (hreused ⟨64, 192⟩).mp (by decide +kernel)

end Gradyx.CpuMemory
