import Gradyx.Core.IntrusivePtr.Ready

/-!
# IntrusivePtr — the counting equations

References are *tokens*, held by handles or by steps in progress; so is every
obligation of the destruction (the pending `exchange`, `delete`, base
destructor, storage release and `delete control`). `Counted` relates the
memory to the tallies of the tokens: the counters count their references, and
each obligation is pending exactly once while its turn has come.

Every step moves tokens between the memory, the registers and the steps left,
so `Counted` is preserved by arithmetic alone (`exec_counted`).
-/

namespace Gradyx.IntrusivePtr

open Gradyx.Lib

/-! ## Tokens -/

/-- What is counted: references, and the obligations of the destruction. -/
inductive Token where
  | ref (k : Kind)
  | exchange
  | delete
  | base
  | free
  | control
deriving DecidableEq, Repr

/-- A handle with a non-null pointer holds a reference of its kind. -/
def Slot.weight : Token → Slot → ℕ
  | .ref k, .handle k' true => if k = k' then 1 else 0
  | _, _ => 0

/-- A pending `fetch_sub` holds the reference it gives up, and `lock` holds the
one it took until the handle adopts it; the other tokens are the pending steps
themselves. -/
def Instr.weight : Token → Instr → ℕ
  | .ref k, .releaseFetchSub k' => if k = k' then 1 else 0
  | .ref .strong, .lockTargetLoad _ => 1
  | .exchange, .targetExchange => 1
  | .delete, .deleteTarget true => 1
  | .base, .baseDestructor => 1
  | .free, .freeTarget => 1
  | .control, .deleteControl => 1
  | _, _ => 0

def Regs.weight (τ : Token) (r : Regs) : ℕ :=
  r.self.weight τ + r.other.weight τ + r.copy.weight τ

def Frame.weight (τ : Token) (f : Frame) : ℕ :=
  f.regs.weight τ + tally (Instr.weight τ) f.code

/-- An idle thread holds nothing. -/
def threadWeight (τ : Token) : Option Frame → ℕ
  | none => 0
  | some f => f.weight τ

/-- The tokens held by handles at rest and by functions in progress. -/
def State.tally (τ : Token) (s : State) : ℕ :=
  Lib.tally (fun e => e.2.weight τ) s.pool + Lib.tally (threadWeight τ) s.threads

/-- The references of one kind held by handles or by operations in progress. -/
def State.held (k : Kind) (s : State) : ℕ := s.tally (.ref k)

/-- The base destructor still holds its implicit weak reference. -/
def Life.implicitRef : Life → ℕ
  | .alive | .destroying => 1
  | .released | .freed => 0

@[simp] theorem Regs.weight_reply (τ : Token) (r : Regs) (answer : Bool) :
    (r.reply answer).weight τ = r.weight τ := rfl

theorem Regs.weight_set (τ : Token) (r : Regs) (x : Reg) (v : Slot) :
    (r.set x v).weight τ + (r.get x).weight τ = r.weight τ + v.weight τ := by
  cases x <;> simp only [Regs.weight, Regs.set, Regs.get] <;> omega

theorem Regs.weight_get_le (τ : Token) (r : Regs) (x : Reg) :
    (r.get x).weight τ ≤ r.weight τ := by
  cases x <;> simp only [Regs.weight, Regs.get] <;> omega

theorem sizeSub_eq {n : ℕ} (h : 0 < n) : sizeSub n = n - 1 := by
  cases n with
  | zero => omega
  | succ n => rfl

theorem sizeAdd_eq {n : ℕ} (h : n < sizeMax) : sizeAdd n = n + 1 :=
  if_neg (Nat.ne_of_lt h)

/-- The equations between the memory and the tokens. -/
@[grind cases]
structure Counted (m : Memory) (T : Token → ℕ) : Prop where
  strong : m.strongRefs = T (.ref .strong)
  weak : m.weakRefs = T (.ref .weak) + m.life.implicitRef
  strong_le : m.strongRefs ≤ sizeMax
  weak_le : m.weakRefs ≤ sizeMax
  alive : 0 < m.strongRefs → m.target = true
  target : m.target = true → m.life = .alive
  exchange : T .exchange = if m.strongRefs = 0 ∧ m.target = true then 1 else 0
  delete : T .delete = if m.target = false ∧ m.life = .alive then 1 else 0
  base : T .base = if m.life = .destroying then 1 else 0
  free : T .free = if m.life = .released then 1 else 0
  control : T .control = if m.weakRefs = 0 ∧ m.controlDeletes = 0 then 1 else 0
  targetDeletes : m.targetDeletes = if m.life = .alive then 0 else 1
  controlDeletes : m.controlDeletes = 0 ∨ m.controlDeletes = 1 ∧ m.weakRefs = 0
  fault : m.fault = false

@[simp] theorem Slot.weight_raw (τ : Token) : Slot.raw.weight τ = 0 := by cases τ <;> rfl

@[simp] theorem Slot.weight_building (τ : Token) (k : Kind) : (Slot.building k).weight τ = 0 := by
  cases τ <;> rfl

@[simp] theorem Slot.weight_null (τ : Token) (k : Kind) : (Slot.handle k false).weight τ = 0 := by
  cases τ <;> rfl

theorem Regs.weight_transfer (τ : Token) (r : Regs) {d s : Reg} (k : Kind) (hne : s ≠ d)
    (hd : (r.get d).weight τ = 0) :
    ((r.set d (r.get s)).set s (.handle k false)).weight τ = r.weight τ := by
  have h₁ := weight_set τ r d (r.get s)
  have h₂ := weight_set τ (r.set d (r.get s)) s (.handle k false)
  rw [get_set_ne _ _ hne, Slot.weight_null] at h₂
  omega

/-- An object that weighs as much as the one it replaces. -/
theorem Regs.weight_set_eq (τ : Token) (r : Regs) {x : Reg} {v : Slot}
    (h : v.weight τ = (r.get x).weight τ) : (r.set x v).weight τ = r.weight τ := by
  have := weight_set τ r x v
  omega

theorem Regs.weight_swap (τ : Token) (r : Regs) {a b : Reg} (hne : a ≠ b) :
    ((r.set a (r.get b)).set b (r.get a)).weight τ = r.weight τ := by
  have h₁ := weight_set τ r a (r.get b)
  have h₂ := weight_set τ (r.set a (r.get b)) b (r.get a)
  rw [get_set_ne _ _ hne.symm] at h₂
  omega

theorem Memory.touchControl_eq {m : Memory} (h : m.controlDeletes = 0) : m.touchControl = m := by
  cases m
  simp_all [touchControl]

theorem Memory.touchTarget_eq {m : Memory} (h : m.life ≠ .freed) : m.touchTarget = m := by
  have hf : (m.life == .freed) = false := by simpa using h
  cases m
  simp_all [touchTarget]

namespace Counted
variable {m : Memory} {T T' : Token → ℕ}

theorem congr (h : Counted m T) (hT : ∀ τ, T' τ = T τ) : Counted m T' := by
  rw [funext hT]
  exact h

theorem target_of_strong (h : Counted m T) (hs : 0 < T (.ref .strong)) : m.target = true :=
  h.alive (by rw [h.strong]; exact hs)

theorem life_of_strong (h : Counted m T) (hs : 0 < T (.ref .strong)) : m.life = .alive :=
  h.target (h.target_of_strong hs)

/-- `lock` reads the target pointer while it holds the reference that it took. -/
theorem target_of_lockTargetLoad (h : Counted m T) {d : Reg} {n : ℕ}
    (hle : Instr.weight (.ref .strong) (.lockTargetLoad d) + n ≤ T (.ref .strong)) :
    m.target = true :=
  h.target_of_strong (Nat.lt_of_lt_of_le Nat.one_pos (Nat.le_of_add_right_le hle))

theorem control_live (h : Counted m T) (hw : 0 < m.weakRefs) : m.controlDeletes = 0 := by
  rcases h.controlDeletes with hc | ⟨-, hc⟩
  · exact hc
  · omega

theorem weak_pos_of_implicit (h : Counted m T) (hl : m.life.implicitRef = 1) : 0 < m.weakRefs := by
  rw [h.weak, hl]
  omega

theorem touchControl_of_strong (h : Counted m T) (hs : 0 < T (.ref .strong)) :
    m.touchControl = m := 
  Memory.touchControl_eq (h.control_live (h.weak_pos_of_implicit (by rw [h.life_of_strong hs]; rfl)))

theorem touchControl_of_weak (h : Counted m T) (hw : 0 < T (.ref .weak)) :
    m.touchControl = m := 
  Memory.touchControl_eq (h.control_live (by rw [h.weak]; omega))

theorem touchTarget_of_strong (h : Counted m T) (hs : 0 < T (.ref .strong)) :
    m.touchTarget = m := 
  Memory.touchTarget_eq (by rw [h.life_of_strong hs]; decide)

end Counted

theorem Regs.ref_of_get {r : Regs} {x : Reg} {k : Kind} (h : r.get x = .handle k true) :
    0 < r.weight (.ref k) := by
  have hle := weight_get_le (.ref k) r x
  rw [h] at hle
  simp only [Slot.weight, if_true] at hle
  omega


/-! ### Steps that move no token -/

/-- Building, moving and clearing handles, and the loads, leave the memory as
it is and move no token, except that `reset` hands its reference to the
pending `fetch_sub`. -/
theorem exec_quiet {b : Bool} {m : Memory} {T : Token → ℕ} {r : Regs} {i : Instr}
    (h : Counted m T) (hpre : i.Pre r) (hle : ∀ τ, r.weight τ ≤ T τ) :
    match i with
    | .incrementCas .. | .tryRetainCas .. | .lockTargetLoad _ | .releaseFetchSub _
    | .targetExchange | .deleteTarget _ | .baseDestructor | .freeTarget | .deleteControl => True
    | i => (exec b m r i).1 = m ∧ ∀ τ,
        i.weight τ + r.weight τ =
          tally (Instr.weight τ) (exec b m r i).2.2 + (exec b m r i).2.1.weight τ := by
  have strong {x : Reg} (hx : r.get x = .handle .strong true) : 0 < T (.ref .strong) :=
    Nat.lt_of_lt_of_le (Regs.ref_of_get hx) (hle _)
  have weak {x : Reg} (hx : r.get x = .handle .weak true) : 0 < T (.ref .weak) :=
    Nat.lt_of_lt_of_le (Regs.ref_of_get hx) (hle _)
  cases i with
  | nullConstruct k d =>
      refine ⟨rfl, fun τ => ?_⟩
      have hd : r.get d = .raw := hpre
      have hτ := Regs.weight_set_eq τ r (v := .handle k false) (x := d) (by simp [hd])
      simp only [exec, Instr.weight, tally_nil, hτ]
  -- the copy has the pointer, but no reference yet: that comes with the CAS
  | copyConstruct k d s =>
      obtain ⟨hne, hd, v, hs⟩ := hpre
      cases v with
      | false =>
          simp only [exec, hs]
          refine ⟨trivial, fun τ => ?_⟩
          have hτ := Regs.weight_set_eq τ r (v := .handle k false) (x := d) (by simp [hd])
          simp only [Instr.weight, tally_nil, hτ]
      | true =>
          simp only [exec, hs]
          refine ⟨?_, fun τ => ?_⟩
          · split
            · rename_i hk
              subst hk
              exact h.touchTarget_of_strong (strong hs)
            · rfl
          · have hτ := Regs.weight_set_eq τ r (v := .building k) (x := d) (by simp [hd])
            simp only [Instr.weight, tally_cons, tally_nil, hτ]
  | weakFromStrong d s =>
      obtain ⟨hne, hd, v, hs⟩ := hpre
      cases v with
      | false =>
          simp only [exec, hs]
          refine ⟨trivial, fun τ => ?_⟩
          have hτ := Regs.weight_set_eq τ r (v := .handle .weak false) (x := d) (by simp [hd])
          simp only [Instr.weight, tally_nil, hτ]
      | true =>
          simp only [exec, hs]
          refine ⟨h.touchTarget_of_strong (strong hs), fun τ => ?_⟩
          have hτ := Regs.weight_set_eq τ r (v := .building .weak) (x := d) (by simp [hd])
          simp only [Instr.weight, tally_cons, tally_nil, hτ]
  | moveConstruct k d s =>
      obtain ⟨hne, hd, -⟩ := hpre
      refine ⟨rfl, fun τ => ?_⟩
      have hw := Regs.weight_transfer τ r k hne (by rw [hd]; exact Slot.weight_raw τ)
      simp only [exec, Instr.weight, tally_nil, hw]
  | exchangeInto k d s =>
      obtain ⟨hne, hd, -⟩ := hpre
      refine ⟨rfl, fun τ => ?_⟩
      have hw := Regs.weight_transfer τ r k hne (by rw [hd]; exact Slot.weight_null τ k)
      simp only [exec, Instr.weight, tally_nil, hw]
  | reset k x =>
      obtain ⟨v, hx⟩ := hpre
      cases v with
      | false =>
          simp only [exec, hx]
          exact ⟨trivial, fun τ => by simp only [Instr.weight, tally_nil]⟩
      | true =>
          simp only [exec, hx]
          refine ⟨?_, fun τ => ?_⟩
          · split
            · rename_i hk
              subst hk
              exact h.touchTarget_of_strong (strong hx)
            · rfl
          · have hw := Regs.weight_set τ r x (.handle k false)
            rw [hx, Slot.weight_null] at hw
            cases τ <;> simp only [Instr.weight, Slot.weight, tally_cons, tally_nil] at hw ⊢ <;>
              omega
  | swap k a c =>
      obtain ⟨hne, -⟩ := hpre
      refine ⟨rfl, fun τ => ?_⟩
      simp only [exec, Instr.weight, tally_nil, Regs.weight_swap τ r hne]
  | endLifetime x =>
      obtain ⟨k, hx⟩ := hpre
      refine ⟨rfl, fun τ => ?_⟩
      have hτ := Regs.weight_set_eq τ r (v := .raw) (x := x) (by simp [hx])
      simp only [exec, Instr.weight, tally_nil, hτ]
  | lock d w =>
      obtain ⟨hne, hd, v, hw⟩ := hpre
      cases v with
      | false =>
          simp only [exec, hw]
          refine ⟨trivial, fun τ => ?_⟩
          have hτ := Regs.weight_set_eq τ r (v := .handle .strong false) (x := d) (by simp [hd])
          simp only [Instr.weight, tally_nil, hτ]
      | true =>
          simp only [exec, hw]
          exact ⟨trivial, fun τ => by simp [Instr.weight]⟩
  | expired w =>
      obtain ⟨v, hw⟩ := hpre
      cases v <;> simp only [exec, hw] <;>
        exact ⟨trivial, fun τ => by simp [Instr.weight]⟩
  | incrementLoad k d s =>
      obtain ⟨hne, hd, hs⟩ := hpre
      refine ⟨?_, fun τ => by simp [exec, Instr.weight]⟩
      rcases hs with hs | ⟨-, hs⟩
      · exact h.touchControl_of_strong (strong hs)
      · exact h.touchControl_of_weak (weak hs)
  | tryRetainLoad d w =>
      obtain ⟨-, -, hw⟩ := hpre
      exact ⟨h.touchControl_of_weak (weak hw), fun τ => by simp [exec, Instr.weight]⟩
  | expiredLoad w =>
      have hw : r.get w = .handle .weak true := hpre
      exact ⟨h.touchControl_of_weak (weak hw), fun τ => by simp [exec, Instr.weight]⟩
  | _ => trivial

/-! ### Steps that move tokens -/

/-- The attempt that swaps `0` in for the largest value: `try_retain_strong_ref` does not
test for it. -/
def Instr.Wraps (spurious : Bool) (m : Memory) : Instr → Prop
  | .tryRetainCas count _ _ => count = sizeMax ∧ m.strongRefs = sizeMax ∧ spurious = false
  | _ => False

namespace Counted

variable {m : Memory} {T T' : Token → ℕ}

/-- A successful increment of the strong counter takes one reference; it never
starts from `0`, because another reference is held. -/
theorem retainStrong (h : Counted m T) (hpos : 0 < m.strongRefs) (hlt : m.strongRefs < sizeMax)
    (hT : ∀ τ, T' τ = T τ + if τ = .ref .strong then 1 else 0) :
    Counted (m.setRefs .strong (sizeAdd m.strongRefs)) T' := by
  rw [sizeAdd_eq hlt]
  have htarget := h.alive hpos
  have hlife := h.target htarget
  constructor <;> simp only [Memory.setRefs] <;> grind

/-- A successful increment of the weak counter takes one weak reference. -/
theorem retainWeak (h : Counted m T) (hpos : 0 < m.weakRefs) (hlt : m.weakRefs < sizeMax)
    (hT : ∀ τ, T' τ = T τ + if τ = .ref .weak then 1 else 0) :
    Counted (m.setRefs .weak (sizeAdd m.weakRefs)) T' := by
  rw [sizeAdd_eq hlt]
  have hlive := h.control_live hpos
  constructor <;> simp only [Memory.setRefs] <;> grind

/-- Giving up a strong reference; the last one leaves the pending `exchange`. -/
theorem releaseStrong (h : Counted m T) (hpos : 0 < T (.ref .strong))
    (hT : ∀ τ, T' τ + Instr.weight τ (.releaseFetchSub .strong) =
      T τ + tally (Instr.weight τ) (releaseStrongRef m).2) :
    Counted (releaseStrongRef m).1 T' := by
  have hs : 0 < m.strongRefs := by rw [h.strong]; exact hpos
  have htarget := h.alive hs
  have hlife := h.target htarget
  have hsub := sizeSub_eq hs
  simp only [releaseStrongRef, h.touchControl_of_strong hpos, hsub] at hT ⊢
  by_cases hone : m.strongRefs = 1
  · -- the last one: `exchange` is due now
    simp only [hone, if_true, tally_cons, tally_nil] at hT
    constructor <;> grind [Instr.weight]
  · simp only [hone, if_false, tally_nil] at hT
    constructor <;> grind [Instr.weight]

/-- Giving up a weak reference; the last one leaves the pending `delete`. -/
theorem releaseWeak (h : Counted m T) (hpos : 0 < T (.ref .weak))
    (hT : ∀ τ, T' τ + Instr.weight τ (.releaseFetchSub .weak) =
      T τ + tally (Instr.weight τ) (releaseWeakRef m).2) :
    Counted (releaseWeakRef m).1 T' := by
  have hw : 0 < m.weakRefs := by rw [h.weak]; omega
  have hlive := h.control_live hw
  have hsub := sizeSub_eq hw
  simp only [releaseWeakRef, h.touchControl_of_weak hpos, hsub] at hT ⊢
  by_cases hone : m.weakRefs = 1
  · -- the last one: `delete control` is due now
    simp only [hone, if_true, tally_cons, tally_nil] at hT
    constructor <;> grind [Instr.weight]
  · simp only [hone, if_false, tally_nil] at hT
    constructor <;> grind [Instr.weight]

/-- The base destructor gives up the implicit weak reference. -/
theorem baseDestructor (h : Counted m T) (hpos : 0 < T .base)
    (hT : ∀ τ, T' τ + Instr.weight τ .baseDestructor =
      T τ + tally (Instr.weight τ) ((releaseWeakRef m.touchTarget).2 ++ [.freeTarget])) :
    Counted { (releaseWeakRef m.touchTarget).1 with life := .released } T' := by
  have hlife : m.life = .destroying := by
    have := h.base
    grind
  have hw : 0 < m.weakRefs := h.weak_pos_of_implicit (by rw [hlife]; rfl)
  have hlive := h.control_live hw
  have hsub := sizeSub_eq hw
  have htouch : m.touchTarget = m := Memory.touchTarget_eq (by rw [hlife]; decide)
  simp only [htouch, releaseWeakRef, Memory.touchControl_eq hlive, hsub, tally_append] at hT ⊢
  by_cases hone : m.weakRefs = 1
  · simp only [hone, if_true, tally_cons, tally_nil] at hT
    constructor <;> grind [Instr.weight, Life.implicitRef]
  · simp only [hone, if_false, tally_cons, tally_nil] at hT
    constructor <;> grind [Instr.weight, Life.implicitRef]

/-- The thread that dropped the last reference takes the target pointer. -/
theorem targetExchange (h : Counted m T) (hpos : 0 < T .exchange)
    (hT : ∀ τ, T' τ + Instr.weight τ .targetExchange =
      T τ + tally (Instr.weight τ) [.deleteTarget m.target]) :
    Counted { m.touchControl with target := false } T' := by
  -- a pending exchange says that it has not happened yet
  have hex : m.strongRefs = 0 ∧ m.target = true := by
    have := h.exchange
    grind
  have hlife := h.target hex.2
  have hlive := h.control_live (h.weak_pos_of_implicit (by rw [hlife]; rfl))
  simp only [Memory.touchControl_eq hlive, hex.2, tally_cons, tally_nil] at hT ⊢
  constructor <;> grind [Instr.weight]

/-- The destructor of the target starts. -/
theorem deleteTarget (h : Counted m T) (hpos : 0 < T .delete)
    (hT : ∀ τ, T' τ + Instr.weight τ (.deleteTarget true) =
      T τ + tally (Instr.weight τ) [.baseDestructor]) :
    Counted { m.touchTarget with life := .destroying, targetDeletes := m.targetDeletes + 1 } T' := by
  have hdel : m.target = false ∧ m.life = .alive := by
    have := h.delete
    grind
  have htouch : m.touchTarget = m := Memory.touchTarget_eq (by rw [hdel.2]; decide)
  simp only [htouch, tally_cons, tally_nil] at hT ⊢
  constructor <;> grind [Instr.weight, Life.implicitRef]

/-- The storage of the target is returned. -/
theorem freeTarget (h : Counted m T) (hpos : 0 < T .free)
    (hT : ∀ τ, T' τ + Instr.weight τ .freeTarget = T τ) :
    Counted { m.touchTarget with life := .freed } T' := by
  -- a pending return of the storage says how far the target has come
  have hlife : m.life = .released := by
    have := h.free
    grind
  have htouch : m.touchTarget = m := Memory.touchTarget_eq (by rw [hlife]; decide)
  rw [htouch]
  constructor <;> grind [Instr.weight, Life.implicitRef]

/-- The control block is deleted. -/
theorem deleteControl (h : Counted m T) (hpos : 0 < T .control)
    (hT : ∀ τ, T' τ + Instr.weight τ .deleteControl = T τ) :
    Counted { m.touchControl with controlDeletes := m.controlDeletes + 1 } T' := by
  have hlive : m.weakRefs = 0 ∧ m.controlDeletes = 0 := by
    have := h.control
    grind
  rw [Memory.touchControl_eq hlive.2]
  constructor <;> grind [Instr.weight]

theorem terminate (h : Counted m T) : Counted { m with terminated := true } T := by
  exact { h with }

variable {b : Bool} {r : Regs}

/-- `increment_ref_count`: the source handle's reference keeps the control
block, and for a strong copy the target, in place. -/
theorem incrementCas {k : Kind} {current : ℕ} {d s : Reg} (h : Counted m T)
    (hpre : (Instr.incrementCas k current d s).Pre r) (hle : ∀ τ, r.weight τ ≤ T τ)
    (hT : ∀ τ, T' τ + (Instr.weight τ (.incrementCas k current d s) + r.weight τ) =
      T τ + (tally (Instr.weight τ) (exec b m r (.incrementCas k current d s)).2.2 +
        (exec b m r (.incrementCas k current d s)).2.1.weight τ)) :
    Counted (exec b m r (.incrementCas k current d s)).1 T' := by
  obtain ⟨hne, hd, hs⟩ := hpre
  -- a reference of the source keeps the counter above `0`
  have hsrc : m.touchControl = m ∧ 0 < m.weakRefs ∧ (k = .strong → 0 < m.strongRefs) := by
    rcases hs with hs | ⟨rfl, hs⟩
    · have hpos := Nat.lt_of_lt_of_le (Regs.ref_of_get hs) (hle _)
      refine ⟨h.touchControl_of_strong hpos, ?_, fun _ => by rw [h.strong]; exact hpos⟩
      exact h.weak_pos_of_implicit (by rw [h.life_of_strong hpos]; rfl)
    · have hpos := Nat.lt_of_lt_of_le (Regs.ref_of_get hs) (hle _)
      exact ⟨h.touchControl_of_weak hpos, by rw [h.weak]; omega, nofun⟩
  obtain ⟨htouch, hweak, hstrong⟩ := hsrc
  simp only [exec, htouch] at hT ⊢
  split at hT
  · -- the counter is full: `std::terminate`
    rename_i hmax
    simp only [tally_cons, tally_nil, Instr.weight] at hT
    rw [if_pos hmax]
    exact h.terminate.congr fun τ => by have := hT τ; omega
  · rename_i hmax
    rw [if_neg hmax]
    split at hT
    · -- the attempt succeeds: the new handle holds the reference
      rename_i hcas
      rw [if_pos hcas]
      obtain ⟨rfl, -⟩ := hcas
      have hgain : ∀ τ, T' τ = T τ + if τ = .ref k then 1 else 0 := by
        intro τ
        have hw := Regs.weight_set τ r d (.handle k true)
        have hτ := hT τ
        rw [hd, Slot.weight_building] at hw
        have hone : (Slot.handle k true).weight τ = if τ = .ref k then 1 else 0 := by
          cases τ <;> simp [Slot.weight]
        simp only [tally_nil, Instr.weight, hone] at hτ hw
        omega
      cases k with
      | strong =>
          have hlt : m.strongRefs ≠ sizeMax := hmax
          have := h.strong_le
          exact h.retainStrong (hstrong rfl) (by omega) hgain
      | weak =>
          have hlt : m.weakRefs ≠ sizeMax := hmax
          have := h.weak_le
          exact h.retainWeak hweak (by omega) hgain
    · -- the attempt fails: nothing moves
      rename_i hcas
      rw [if_neg hcas]
      simp only [tally_cons, tally_nil, Instr.weight] at hT
      exact h.congr fun τ => by have := hT τ; omega

/-- `try_retain_strong_ref`: the weak handle's reference keeps the control
block in place, and a success starts from a counter that is not `0`. -/
theorem tryRetainCas {count : ℕ} {d w : Reg} (h : Counted m T)
    (hpre : (Instr.tryRetainCas count d w).Pre r) (hle : ∀ τ, r.weight τ ≤ T τ)
    (hwraps : ¬ (Instr.tryRetainCas count d w).Wraps b m)
    (hT : ∀ τ, T' τ + (Instr.weight τ (.tryRetainCas count d w) + r.weight τ) =
      T τ + (tally (Instr.weight τ) (exec b m r (.tryRetainCas count d w)).2.2 +
        (exec b m r (.tryRetainCas count d w)).2.1.weight τ)) :
    Counted (exec b m r (.tryRetainCas count d w)).1 T' := by
  obtain ⟨hne, hd, hw⟩ := hpre
  have hpos := Nat.lt_of_lt_of_le (Regs.ref_of_get hw) (hle _)
  simp only [exec, h.touchControl_of_weak hpos] at hT ⊢
  split at hT
  · -- the counter was `0`: the result is a null handle
    rename_i hzero
    rw [if_pos hzero]
    refine h.congr fun τ => ?_
    have hw := Regs.weight_set_eq τ r (v := .handle .strong false) (x := d) (by simp [hd])
    have hτ := hT τ
    simp only [tally_nil, Instr.weight, hw] at hτ
    omega
  · rename_i hzero
    rw [if_neg hzero]
    split at hT
    · -- the attempt succeeds: the reference waits for the handle
      rename_i hcas
      rw [if_pos hcas]
      obtain ⟨rfl, hspurious⟩ := hcas
      have hmax : m.strongRefs ≠ sizeMax := fun hmax => hwraps ⟨hmax, hmax, hspurious⟩
      refine h.retainStrong (by omega) (Nat.lt_of_le_of_ne h.strong_le hmax) fun τ => ?_
      have hτ := hT τ
      cases τ with
      | ref k => cases k <;> simp only [tally_cons, tally_nil, Instr.weight] at hτ ⊢ <;> grind
      | _ => simp only [tally_cons, tally_nil, Instr.weight] at hτ ⊢; grind
    · -- the attempt fails: nothing moves
      rename_i hcas
      rw [if_neg hcas]
      simp only [tally_cons, tally_nil, Instr.weight] at hT
      exact h.congr fun τ => by have := hT τ; omega

/-- `lock` turns the reference it took into a handle; the target pointer is
still set, because the reference kept the destruction from starting. -/
theorem lockTargetLoad {d : Reg} (h : Counted m T) (hpre : (Instr.lockTargetLoad d).Pre r)
    (hpos : 0 < T (.ref .strong))
    (hT : ∀ τ, T' τ + (Instr.weight τ (.lockTargetLoad d) + r.weight τ) =
      T τ + (tally (Instr.weight τ) (exec b m r (.lockTargetLoad d)).2.2 +
        (exec b m r (.lockTargetLoad d)).2.1.weight τ)) :
    Counted (exec b m r (.lockTargetLoad d)).1 T' := by
  have hd : r.get d = .raw := hpre
  simp only [exec, h.touchControl_of_strong hpos, h.target_of_strong hpos] at hT ⊢
  refine h.congr fun τ => ?_
  have hw := Regs.weight_set τ r d (.handle .strong true)
  have hτ := hT τ
  have hone : (Slot.handle .strong true).weight τ = Instr.weight τ (.lockTargetLoad d) := by
    cases τ with
    | ref k => cases k <;> rfl
    | _ => rfl
  rw [hd, Slot.weight_raw] at hw
  simp only [tally_nil] at hτ
  omega

end Counted

/-- Executing one instruction preserves the equations, unless it is the attempt that
wraps. -/
theorem exec_counted {b : Bool} {m : Memory} {T T' : Token → ℕ} {r : Regs} {i : Instr}
    (h : Counted m T) (hpre : i.Pre r) (hle : ∀ τ, i.weight τ + r.weight τ ≤ T τ)
    (hwraps : ¬ i.Wraps b m)
    (hT : ∀ τ, T' τ + (i.weight τ + r.weight τ) =
      T τ + (tally (Instr.weight τ) (exec b m r i).2.2 + (exec b m r i).2.1.weight τ)) :
    Counted (exec b m r i).1 T' := by
  have hreg : ∀ τ, r.weight τ ≤ T τ := fun τ => by have := hle τ; omega
  have hpos : ∀ τ, i.weight τ = 1 → 0 < T τ := fun τ hi => by have := hle τ; omega
  -- a step that leaves the registers alone moves its own tokens only
  have hmove : (exec b m r i).2.1 = r → ∀ τ, T' τ + i.weight τ =
      T τ + tally (Instr.weight τ) (exec b m r i).2.2 := by
    intro hr τ
    have := hT τ
    rw [hr] at this
    omega
  have hquiet := exec_quiet (b := b) h hpre hreg
  -- the steps that move tokens have a lemma each, the others are quiet
  cases i with
  | incrementCas k current d s => exact h.incrementCas hpre hreg hT
  | tryRetainCas count d w => exact h.tryRetainCas hpre hreg hwraps hT
  | lockTargetLoad d => exact h.lockTargetLoad hpre (hpos _ rfl) hT
  | releaseFetchSub k =>
      cases k with
      | strong => exact h.releaseStrong (hpos _ rfl) (hmove rfl)
      | weak => exact h.releaseWeak (hpos _ rfl) (hmove rfl)
  | targetExchange => exact h.targetExchange (hpos _ rfl) (hmove rfl)
  | deleteTarget t =>
      cases t with
      | false =>
          refine h.congr fun τ => ?_
          have hτ := hmove rfl τ
          cases τ <;> exact hτ
      | true => exact h.deleteTarget (hpos _ rfl) (hmove rfl)
  | baseDestructor => exact h.baseDestructor (hpos _ rfl) (hmove rfl)
  | freeTarget => exact h.freeTarget (hpos _ rfl) (hmove rfl)
  | deleteControl => exact h.deleteControl (hpos _ rfl) (hmove rfl)
  | _ =>
      obtain ⟨hm, hw⟩ := hquiet
      rw [hm]
      exact h.congr fun τ => by have h₁ := hT τ; have h₂ := hw τ; omega

end Gradyx.IntrusivePtr
