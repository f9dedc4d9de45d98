import Gradyx.Core.IntrusivePtr.Machine

/-!
# IntrusivePtr — what a function in progress relies on

A member function in progress works on the handle objects in its registers.
`Ready` is the precondition of the steps left, read off these registers alone,
so a step of another thread cannot touch it. It is established by the call
(`ready_of_checkOut`) and kept by every step of the thread itself
(`exec_ready`).
-/

namespace Gradyx.IntrusivePtr

open Gradyx.Lib

namespace Regs

@[simp] theorem get_set (r : Regs) (x : Reg) (v : Slot) : (r.set x v).get x = v := by
  cases x <;> rfl

@[simp] theorem get_set_ne (r : Regs) {x y : Reg} (v : Slot) (h : y ≠ x) :
    (r.set x v).get y = r.get y := by
  cases x <;> cases y <;> first | rfl | exact absurd rfl h

theorem set_eq_self {r : Regs} {x : Reg} {v : Slot} (h : r.get x = v) : r.set x v = r := by
  subst h
  cases x <;> rfl

@[simp] theorem get_reply (r : Regs) (answer : Bool) (x : Reg) :
    (r.reply answer).get x = r.get x := by
  cases x <;> rfl

theorem reply_set (r : Regs) (answer : Bool) (x : Reg) (v : Slot) :
    (r.reply answer).set x v = (r.set x v).reply answer := by
  cases x <;> rfl

@[simp] theorem set_set (r : Regs) (x : Reg) (v w : Slot) : (r.set x v).set x w = r.set x w := by
  cases x <;> rfl

end Regs

/-- The registers an instruction needs. -/
def Instr.Pre (r : Regs) : Instr → Prop
  | .nullConstruct _ d => r.get d = .raw
  | .copyConstruct k d s => s ≠ d ∧ r.get d = .raw ∧ ∃ v, r.get s = .handle k v
  | .weakFromStrong d s => s ≠ d ∧ r.get d = .raw ∧ ∃ v, r.get s = .handle .strong v
  | .moveConstruct k d s => s ≠ d ∧ r.get d = .raw ∧ ∃ v, r.get s = .handle k v
  | .exchangeInto k d s => s ≠ d ∧ r.get d = .handle k false ∧ ∃ v, r.get s = .handle k v
  | .reset k x => ∃ v, r.get x = .handle k v
  | .swap k a b => a ≠ b ∧ ∃ v w, r.get a = .handle k v ∧ r.get b = .handle k w
  | .endLifetime x => ∃ k, r.get x = .handle k false
  | .lock d w => w ≠ d ∧ r.get d = .raw ∧ ∃ v, r.get w = .handle .weak v
  | .expired w => ∃ v, r.get w = .handle .weak v
  | .incrementLoad k d s | .incrementCas k _ d s =>
      s ≠ d ∧ r.get d = .building k ∧
        (r.get s = .handle .strong true ∨ k = .weak ∧ r.get s = .handle .weak true)
  | .tryRetainLoad d w | .tryRetainCas _ d w =>
      w ≠ d ∧ r.get d = .raw ∧ r.get w = .handle .weak true
  | .lockTargetLoad d => r.get d = .raw
  | .expiredLoad w => r.get w = .handle .weak true
  | .releaseFetchSub _ | .targetExchange | .deleteTarget _ | .baseDestructor
  | .freeTarget | .deleteControl => True

/-- The registers an instruction may leave when it and the helpers it calls
are done. -/
def Instr.Post (r r' : Regs) : Instr → Prop
  | .nullConstruct k d => r' = r.set d (.handle k false)
  | .copyConstruct _ d s => r' = r.set d (r.get s)
  | .weakFromStrong d s => ∃ v, r.get s = .handle .strong v ∧ r' = r.set d (.handle .weak v)
  | .moveConstruct k d s | .exchangeInto k d s =>
      r' = (r.set d (r.get s)).set s (.handle k false)
  | .reset k x => r' = r.set x (.handle k false)
  | .swap _ a b => r' = (r.set a (r.get b)).set b (r.get a)
  | .endLifetime x => r' = r.set x .raw
  | .incrementLoad k d _ | .incrementCas k _ d _ => r' = r.set d (.handle k true)
  | .lock d _ | .tryRetainLoad d _ | .tryRetainCas _ d _ | .lockTargetLoad d =>
      ∃ b, r' = r.set d (.handle .strong b)
  | .expired _ | .expiredLoad _ => ∃ answer, r' = r.reply answer
  | .releaseFetchSub _ | .targetExchange | .deleteTarget _ | .baseDestructor | .freeTarget
  | .deleteControl => r' = r

/-- The steps left can run from these registers: each finds what it needs, and
at the end the local variable is gone. `solo` says that the function has no
second object. -/
def Ready (solo : Bool) : List Instr → Regs → Prop
  | [], r => r.copy = .raw ∧ (solo = true → r.other = .raw)
  | i :: rest, r => i.Pre r ∧ ∀ r', i.Post r r' → Ready solo rest r'

/-- Executing one instruction keeps the rest of the function ready. -/
theorem exec_ready {solo b : Bool} {m : Memory} {r : Regs} {i : Instr} {rest : List Instr}
    (h : Ready solo (i :: rest) r) :
    Ready solo ((exec b m r i).2.2 ++ rest) (exec b m r i).2.1 := by
  obtain ⟨hpre, hpost⟩ := h
  cases i with
  | nullConstruct k d => exact hpost _ rfl
  | copyConstruct k d s =>
      obtain ⟨hne, hd, v, hs⟩ := hpre
      cases v with
      | false =>
          simp only [exec, hs, List.nil_append]
          exact hpost _ (by simp [Instr.Post, hs])
      | true =>
          simp only [exec, hs, List.singleton_append]
          refine ⟨⟨hne, Regs.get_set _ _ _, ?_⟩, ?_⟩
          · rw [Regs.get_set_ne _ _ hne, hs]
            cases k <;> simp
          · rintro r' rfl
            exact hpost _ (by simp [Instr.Post, hs])
  | weakFromStrong d s =>
      obtain ⟨hne, hd, v, hs⟩ := hpre
      cases v with
      | false =>
          simp only [exec, hs, List.nil_append]
          exact hpost _ ⟨false, hs, rfl⟩
      | true =>
          simp only [exec, hs, List.singleton_append]
          refine ⟨⟨hne, Regs.get_set _ _ _, Or.inl ?_⟩, ?_⟩
          · rw [Regs.get_set_ne _ _ hne, hs]
          · rintro r' rfl
            exact hpost _ ⟨true, hs, by simp⟩
  | moveConstruct k d s => exact hpost _ rfl
  | exchangeInto k d s => exact hpost _ rfl
  | reset k x =>
      obtain ⟨v, hx⟩ := hpre
      cases v with
      | false =>
          simp only [exec, hx, List.nil_append]
          exact hpost _ (Regs.set_eq_self hx).symm
      | true =>
          simp only [exec, hx, List.singleton_append]
          refine ⟨trivial, ?_⟩
          rintro r' rfl
          exact hpost _ rfl
  | swap k a b => exact hpost _ rfl
  | endLifetime x => exact hpost _ rfl
  | lock d w =>
      obtain ⟨hne, hd, v, hw⟩ := hpre
      cases v with
      | false =>
          simp only [exec, hw, List.nil_append]
          exact hpost _ ⟨false, rfl⟩
      | true =>
          simp only [exec, hw, List.singleton_append]
          exact ⟨⟨hne, hd, hw⟩, hpost⟩
  | expired w =>
      obtain ⟨v, hw⟩ := hpre
      cases v with
      | false =>
          simp only [exec, hw, List.nil_append]
          exact hpost _ ⟨true, rfl⟩
      | true =>
          simp only [exec, hw, List.singleton_append]
          exact ⟨hw, hpost⟩
  | incrementLoad k d s => exact ⟨hpre, hpost⟩
  -- a retry leaves the same step to be done
  | incrementCas k current d s =>
      simp only [exec]
      split
      · exact ⟨hpre, hpost⟩
      · split
        · exact hpost _ rfl
        · exact ⟨hpre, hpost⟩
  | tryRetainLoad d w => exact ⟨hpre, hpost⟩
  -- empty, taken, or another attempt
  | tryRetainCas count d w =>
      simp only [exec]
      split
      · exact hpost _ ⟨false, rfl⟩
      · split
        · exact ⟨hpre.2.1, hpost⟩
        · exact ⟨hpre, hpost⟩
  | lockTargetLoad d => exact hpost _ ⟨_, rfl⟩
  | expiredLoad w => exact hpost _ ⟨_, rfl⟩
  | releaseFetchSub k =>
      have hrest := hpost r rfl
      cases k with
      | strong =>
          simp only [exec, releaseStrongRef]
          split
          · exact ⟨trivial, fun r' h => by rw [h]; exact hrest⟩
          · exact hrest
      | weak =>
          simp only [exec, releaseWeakRef]
          split
          · exact ⟨trivial, fun r' h => by rw [h]; exact hrest⟩
          · exact hrest
  | targetExchange =>
      have hrest := hpost r rfl
      exact ⟨trivial, fun r' h => by rw [h]; exact hrest⟩
  | deleteTarget t =>
      have hrest := hpost r rfl
      cases t with
      | false => exact hrest
      | true => exact ⟨trivial, fun r' h => by rw [h]; exact hrest⟩
  -- the storage goes after what `release_weak_ref` leaves to be done
  | baseDestructor =>
      have hfree : Ready solo (.freeTarget :: rest) r :=
        ⟨trivial, fun r' h => by rw [h]; exact hpost r rfl⟩
      simp only [exec, releaseWeakRef, List.append_assoc, List.singleton_append]
      split
      · exact ⟨trivial, fun r' h => by rw [h]; exact hfree⟩
      · exact hfree
  | freeTarget => exact hpost _ rfl
  | deleteControl => exact hpost _ rfl

/-- What a call checks out: `*this`, and the argument when it is another
object. -/
theorem checkOut_cases {pool pool' : List (ℕ × Slot)} {op : Op} {r : Regs}
    (h : checkOut pool op = some (r, pool')) :
    ∃ v pool₁, pick op.self pool = some (v, pool₁) ∧ v.Fits op.selfKind ∧
      ((op.other = none ∧ r = { self := v, other := .raw, copy := .raw } ∧ pool' = pool₁) ∨
        ∃ o w, op.other = some o ∧ pick o pool₁ = some (w, pool') ∧ w.Fits op.otherKind ∧
          r = { self := v, other := w, copy := .raw }) := by
  unfold checkOut at h
  split at h
  · cases h
  rename_i v pool₁ hself
  refine ⟨v, pool₁, hself, ?_⟩
  split at h
  · cases h
  rename_i hfit
  refine ⟨not_not.mp hfit, ?_⟩
  split at h
  · rename_i hother
    cases h
    exact Or.inl ⟨hother, rfl, rfl⟩
  · rename_i o hother
    split at h
    · cases h
    · rename_i w pool₂ ho
      split at h
      · rename_i hfit'
        cases h
        exact Or.inr ⟨o, w, hother, ho, hfit', rfl⟩
      · cases h

theorem Slot.Fits.handle {v : Slot} {k : Kind} (h : v.Fits (some k)) : ∃ b, v = .handle k b := by
  rcases h with h | h
  · exact ⟨true, h⟩
  · exact ⟨false, h⟩

/-- A body can run from the objects its call checked out. -/
theorem ready_of_checkOut {pool pool' : List (ℕ × Slot)} {op : Op} {r : Regs}
    (h : checkOut pool op = some (r, pool')) : Ready op.other.isNone op.body r := by
  obtain ⟨v, pool₁, -, hv, h⟩ := checkOut_cases h
  rcases h with ⟨hother, rfl, -⟩ | ⟨o, w, hother, -, hw, rfl⟩
  · -- no second object: the calls on `*this` alone
    cases op with
    | construct k d =>
        have hraw : v = .raw := hv
        subst hraw
        exact ⟨rfl, by rintro r rfl; exact ⟨rfl, fun _ => rfl⟩⟩
    | reset k x =>
        obtain ⟨b, rfl⟩ := hv.handle
        exact ⟨⟨b, rfl⟩, by rintro r rfl; exact ⟨rfl, fun _ => rfl⟩⟩
    | destroy k x =>
        obtain ⟨b, rfl⟩ := hv.handle
        refine ⟨⟨b, rfl⟩, ?_⟩
        rintro r rfl
        exact ⟨⟨k, rfl⟩, by rintro r rfl; exact ⟨rfl, fun _ => rfl⟩⟩
    | expired w =>
        obtain ⟨b, rfl⟩ := hv.handle
        exact ⟨⟨b, rfl⟩, by rintro r ⟨answer, rfl⟩; exact ⟨rfl, fun _ => rfl⟩⟩
    | copyAssign k d s =>
        -- self-assignment: the body is empty
        by_cases hds : d = s
        · simp only [Op.body, hds, if_true]
          exact ⟨rfl, fun _ => rfl⟩
        · simp [Op.other, hds] at hother
    | moveAssign k d s =>
        by_cases hds : d = s
        · simp only [Op.body, hds, if_true]
          exact ⟨rfl, fun _ => rfl⟩
        · simp [Op.other, hds] at hother
    | swap k d s =>
        by_cases hds : d = s
        · simp only [Op.body, hds, if_true]
          exact ⟨rfl, fun _ => rfl⟩
        · simp [Op.other, hds] at hother
    | copyConstruct k d s => cases hother
    | moveConstruct k d s => cases hother
    | weakFromStrong d s => cases hother
    | lock w d => cases hother
  · -- two objects
    rw [hother]
    cases op with
    | construct k d => cases hother
    | reset k x => cases hother
    | destroy k x => cases hother
    | expired w => cases hother
    | copyConstruct k d s =>
        have hraw : v = .raw := hv
        subst hraw
        obtain ⟨b, rfl⟩ := hw.handle
        exact ⟨⟨by decide, rfl, b, rfl⟩, by rintro r rfl; exact ⟨rfl, by simp⟩⟩
    | moveConstruct k d s =>
        have hraw : v = .raw := hv
        subst hraw
        obtain ⟨b, rfl⟩ := hw.handle
        exact ⟨⟨by decide, rfl, b, rfl⟩, by rintro r rfl; exact ⟨rfl, by simp⟩⟩
    | weakFromStrong d s =>
        have hraw : v = .raw := hv
        subst hraw
        obtain ⟨b, rfl⟩ := hw.handle
        exact ⟨⟨by decide, rfl, b, rfl⟩, by rintro r ⟨b', -, rfl⟩; exact ⟨rfl, by simp⟩⟩
    | copyAssign k d s =>
        obtain ⟨b, rfl⟩ := hv.handle
        obtain ⟨c, rfl⟩ := hw.handle
        have hds : ¬ d = s := by rintro rfl; simp [Op.other] at hother
        simp only [Op.body, hds, if_false]
        -- `copy{other}`, `swap(copy)`, and the end of `copy`
        refine ⟨⟨by decide, rfl, c, rfl⟩, ?_⟩
        rintro r rfl
        refine ⟨⟨by decide, b, c, rfl, rfl⟩, ?_⟩
        rintro r rfl
        refine ⟨⟨b, rfl⟩, ?_⟩
        rintro r rfl
        refine ⟨⟨k, rfl⟩, ?_⟩
        rintro r rfl
        exact ⟨rfl, by simp⟩
    | moveAssign k d s =>
        obtain ⟨b, rfl⟩ := hv.handle
        obtain ⟨c, rfl⟩ := hw.handle
        have hds : ¬ d = s := by rintro rfl; simp [Op.other] at hother
        -- `reset()`, then the pointer of `other`
        simp only [Op.body, hds, if_false]
        refine ⟨⟨b, rfl⟩, ?_⟩
        rintro r rfl
        refine ⟨⟨by decide, rfl, c, rfl⟩, ?_⟩
        rintro r rfl
        exact ⟨rfl, by simp⟩
    | swap k d s =>
        obtain ⟨b, rfl⟩ := hv.handle
        obtain ⟨c, rfl⟩ := hw.handle
        have hds : ¬ d = s := by rintro rfl; simp [Op.other] at hother
        simp only [Op.body, hds, if_false]
        refine ⟨⟨by decide, b, c, rfl, rfl⟩, ?_⟩
        rintro r rfl
        exact ⟨rfl, by simp⟩
    | lock x d =>
        obtain ⟨b, rfl⟩ := hv.handle
        exact ⟨⟨by decide, hw, b, rfl⟩, by rintro r ⟨b', rfl⟩; exact ⟨rfl, by simp⟩⟩

end Gradyx.IntrusivePtr
