import Gradyx.Core.IntrusivePtr.WeakRuns

/-!
# IntrusivePtr — lifetimes with weak handles

* `weak_handles_unseen`: without its weak handles, a run is a run of the strong heap.
* `control_blocks_freed_once`: both counters are exact, an object lives as long as its
  strong handles and its control block as long as its handles of both kinds.
* `lock_iff_held`: what is not destroyed is what a root or a cycle holds, cycles of
  strong handles included, and `lock` and `expired` tell which it is.

All three are about runs of the operations of `Op`: without the strong
`operator=(IntrusivePtr&&)`, and with no `lock` that meets a counter at its largest value
(`Countable`).
-/

namespace Gradyx.WeakHeap

open Gradyx.Lib
open Gradyx.IntrusivePtr (Kind sizeMax)
open Gradyx.IntrusiveHeap (Place)

namespace Heap

variable {h : Heap} {o : ℕ} {t : Target} {other : Place}

/-! ## Between two operations -/

theorem Settled.storage_iff (hs : h.Settled) (ht : h.objs[o]? = some t) :
    t.storage = true ↔ 0 < t.strongRefs := by
  have hobj := strongPart_obj ht
  have htarget : t.target = true ↔ 0 < t.strongRefs := hs.strong.target o _ hobj
  have hweak := hs.strong.weak o _ hobj
  have hdestroyed := hs.strong.count_destroyed hs.strongPart.2 hobj
  rw [← htarget]
  have hw : t.strongPart.weakRefs = if t.storage then 1 else 0 := rfl
  have htg : t.strongPart.target = t.target := rfl
  rw [hw, hdestroyed, htg] at hweak
  cases hstorage : t.storage <;> cases hlive : t.target <;> simp_all

theorem Settled.strongRefs_eq (hs : h.Settled) (ht : h.objs[o]? = some t) :
    t.strongRefs = h.strongPart.handleRefs o :=
  (hs.strong.strong o _ (strongPart_obj ht)).trans (hs.strongPart.count_eq o)

theorem Settled.weakRefs_eq (hs : h.Settled) (ht : h.objs[o]? = some t) :
    t.weakRefs = h.weakHandles o + if t.storage then 1 else 0 := hs.weak.weak o t ht

theorem Settled.control_iff (hs : h.Settled) (ht : h.objs[o]? = some t) :
    t.control = true ↔ 0 < t.strongRefs + h.weakHandles o := by
  have hiff := hs.storage_iff ht
  rw [hs.weak.control o t ht, hs.weakRefs_eq ht]
  by_cases hstorage : t.storage = true
  · have := hiff.mp hstorage
    rw [if_pos hstorage]
    omega
  · have : ¬ 0 < t.strongRefs := fun hpos => hstorage (hiff.mpr hpos)
    rw [if_neg hstorage]
    omega

theorem Settled.destroyed_count (hs : h.Settled) (ht : h.objs[o]? = some t) :
    h.destroyed.count o = if t.storage then 0 else 1 := by
  have hweak := hs.strong.weak o _ (strongPart_obj ht)
  have hw : t.strongPart.weakRefs = if t.storage then 1 else 0 := rfl
  rw [hw] at hweak
  have hlog : h.strongPart.destroyed = h.destroyed := rfl
  rw [hlog] at hweak
  split at hweak <;> split <;> simp_all

/-- An object exists as long as a root or a cycle of strong handles holds it. -/
theorem Settled.exists_iff_held (hs : h.Settled) (o : ℕ) :
    h.strongPart.Exists o ↔
      h.strongPart.graph.Reachable o ∨ h.strongPart.graph.HeldByCycle o :=
  hs.strongPart.supports.mem_iff_held
    ((Set.finite_lt_nat h.strongPart.objs.length).subset fun _ ho => ho.1)
    (fun _ _ hxy => hs.strong.exists_of_owns hs.strongPart.2 hxy) o

/-- `lock` and `expired` on a handle whose object is there, or is not. -/
theorem Settled.lock_eq (hs : h.Settled) (hu : h.usable .weak other = true)
    (hl : h.load .weak other = some (some o)) :
    (h.strongPart.Exists o → (h.lock other).map Heap.roots = some (h.roots ++ [some (some o)]) ∧
      (h.expired other).map Prod.snd = some false) ∧
    (¬ h.strongPart.Exists o → (h.lock other).map Heap.roots = some (h.roots ++ [some none]) ∧
      (h.expired other).map Prod.snd = some true) := by
  obtain ⟨t, ht, hcontrol⟩ := hs.weak.control_of_load hl
  have htarget : t.target = true ↔ 0 < t.strongRefs := hs.strong.target o _ (strongPart_obj ht)
  rw [hs.exists_iff ht]
  constructor
  · intro hlive
    have hcount : (t.strongRefs == 0) = false := by simpa using hlive
    simp [lock, expired, guard, hu, hl, tryRetainStrongRef, isExpired, ht, hcount, hlive,
      htarget.mpr (Nat.pos_of_ne_zero hlive), addRoot, touchControl, withObj]
  · intro hdead
    rw [not_not] at hdead
    simp [lock, expired, guard, hu, hl, tryRetainStrongRef, isExpired, ht, hdead, addRoot,
      touchControl]

/-! ## Runs -/

/-- With the counters below the maximum, every operation counts. -/
theorem countable_of_lt (hmax : ∀ t ∈ h.objs, t.strongRefs < sizeMax) (op : Op) : h.Countable op :=
  fun _ _ _ _ _ ht => (hmax _ (List.mem_of_getElem? ht)).ne

theorem run_settled (r : Run machine)
    (hC : ∀ k op, r.label k = some op → (r.state k).Countable op) (k : ℕ) : (r.state k).Settled :=
  simulation.inv r hC k

/-- A parent that holds its child, and a child with a weak handle to its parent, which is
locked, destroyed with the last strong handle and locked again. -/
def tree : List Op :=
  [.construct .weak, .makeIntrusive [.copy .weak (.root 0)],
    .makeIntrusive [.copy .strong (.root 0)],
    .weakFromStrong (.root 1), .copyAssign .weak (.member 0 0) (.root 1), .destroy .strong 0,
    .lock (.root 1), .destroy .strong 1, .destroy .strong 2, .lock (.root 1)]

def treeRun : Run machine := .ofLabels machine .empty rfl tree

theorem treeRun_countable (k : ℕ) (op : Op) (_ : treeRun.label k = some op) :
    (treeRun.state k).Countable op := by
  refine countable_of_lt ?_ op
  exact Run.forall_ofLabels (fun h : Heap => ∀ t ∈ h.objs, t.strongRefs < sizeMax) _ tree
    (by decide +kernel) k

/-- The weak handles of a run, with everything that is done to them, do not change what
the strong ones see: without them it is a run of the strong heap, with the same objects
alive and destroyed in the same order. The runs have no strong move assignment, and no
`lock` in them meets a counter at its largest value. -/
theorem weak_handles_unseen (r : Run machine)
    (hC : ∀ k op, r.label k = some op → (r.state k).Countable op) :
    ∃ r' : Run IntrusiveHeap.machine, ∀ k, r'.state k = (r.state k).strongPart :=
  simulation.exists_run r hC

theorem weak_handles_unseen_tree :
    ∃ r' : Run IntrusiveHeap.machine,
      (r'.state 10).destroyed = [1, 0] ∧ (r'.state 10).pending = [] := by
  obtain ⟨r', hr'⟩ := weak_handles_unseen treeRun treeRun_countable
  refine ⟨r', ?_⟩
  rw [hr' 10]
  decide +kernel

/-- After each operation, with its cascade, of any run without strong move assignments, and
in which no `lock` meets a counter at its largest value: no target and no control block was
touched after its end, both counters of every object are the numbers of handles to it,
the object exists while strong handles do, its control block while handles of any kind
do, and each of the two is deleted once. -/
theorem control_blocks_freed_once (r : Run machine)
    (hC : ∀ k op, r.label k = some op → (r.state k).Countable op) (k : ℕ) :
    (r.state k).fault = false ∧ (r.state k).controlFault = false ∧ (r.state k).pending = [] ∧
    ∀ (o : ℕ) (t : Target), (r.state k).objs[o]? = some t →
      t.strongRefs = (r.state k).strongPart.handleRefs o ∧
      t.weakRefs = (r.state k).weakHandles o + (if t.storage then 1 else 0) ∧
      (t.storage = true ↔ 0 < t.strongRefs) ∧
      (t.control = true ↔ 0 < t.strongRefs + (r.state k).weakHandles o) ∧
      (r.state k).destroyed.count o = (if t.storage then 0 else 1) ∧
      (r.state k).freed.count o = (if t.control then 0 else 1) := by
  have hs := run_settled r hC k
  refine ⟨hs.strong.fault, hs.weak.controlFault, hs.pending, ?_⟩
  intro o t ht
  exact ⟨hs.strongRefs_eq ht, hs.weakRefs_eq ht, hs.storage_iff ht, hs.control_iff ht,
    hs.destroyed_count ht, hs.weak.freed o t ht⟩

theorem control_blocks_freed_once_tree :
    (treeRun.state 9).destroyed.count 1 = 1 ∧ (treeRun.state 9).freed.count 1 = 0 := by
  obtain ⟨-, -, -, hobj⟩ := control_blocks_freed_once treeRun treeRun_countable 9
  have ht : (treeRun.state 9).objs[1]? = some ⟨0, 1, false, false, true, [⟨.strong, none⟩]⟩ := by
    decide +kernel
  obtain ⟨-, -, -, -, hdestroyed, hfreed⟩ := hobj 1 _ ht
  exact ⟨hdestroyed, hfreed⟩

/-- After each operation of any run without strong move assignments, and in which no `lock`
meets a counter at its largest value: an object exists exactly while the roots reach it
along strong handles or a cycle of strong handles does, whatever the weak handles are,
and a weak handle to it locks, and is not expired, exactly then. -/
theorem lock_iff_held (r : Run machine)
    (hC : ∀ k op, r.label k = some op → (r.state k).Countable op) (k : ℕ) :
    (∀ o < (r.state k).objs.length, o ∉ (r.state k).destroyed ↔
      (r.state k).strongPart.graph.Reachable o ∨ (r.state k).strongPart.graph.HeldByCycle o) ∧
    ∀ other o, (r.state k).usable .weak other = true →
      (r.state k).load .weak other = some (some o) →
      ((r.state k).strongPart.graph.Reachable o ∨ (r.state k).strongPart.graph.HeldByCycle o →
        ((r.state k).lock other).map Heap.roots = some ((r.state k).roots ++ [some (some o)]) ∧
        ((r.state k).expired other).map Prod.snd = some false) ∧
      (¬ ((r.state k).strongPart.graph.Reachable o ∨ (r.state k).strongPart.graph.HeldByCycle o) →
        ((r.state k).lock other).map Heap.roots = some ((r.state k).roots ++ [some none]) ∧
        ((r.state k).expired other).map Prod.snd = some true) := by
  have hs := run_settled r hC k
  constructor
  · intro o ho
    rw [← hs.exists_iff_held o]
    have hlen : o < (r.state k).strongPart.objs.length := by
      rwa [show (r.state k).strongPart.objs.length = _ from List.length_map _]
    exact ⟨fun hnot => ⟨hlen, hnot⟩, fun hex => hex.2⟩
  · intro other o hu hl
    rw [← hs.exists_iff_held o]
    exact hs.lock_eq hu hl

theorem lock_iff_held_tree :
    (treeRun.state 6).strongPart.graph.Reachable 1 ∧
    ((treeRun.state 6).lock (.root 1)).map Heap.roots =
      some [none, some (some 1), some (some 1)] := by
  have hstate : (treeRun.state 6).roots = [none, some (some 1)] := by decide +kernel
  have hroot : (treeRun.state 6).strongPart.graph.root 1 := by
    change some (some 1) ∈ (treeRun.state 6).roots
    rw [hstate]
    decide
  have hreach : (treeRun.state 6).strongPart.graph.Reachable 1 := ⟨1, hroot, .refl⟩
  obtain ⟨-, hlock⟩ := lock_iff_held treeRun treeRun_countable 6
  have hheld := (hlock (.root 1) 1 (by decide +kernel) (by decide +kernel)).1 (.inl hreach)
  rw [hstate] at hheld
  exact ⟨hreach, hheld.1⟩

end Heap

end Gradyx.WeakHeap
