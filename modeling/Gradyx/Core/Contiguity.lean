import Gradyx.Core.Addressing

/-!
# Contiguous strides

`is_contiguous` of `src/core/shape.cc` compares a stride vector with the one of
`contiguous_strides`. The comparison answers a question about addresses: whether
the offset of every index tuple is the tuple's row-major position.
-/

namespace Gradyx

open Lib MixedRadix

def isContiguous (shape : Shape) (strides : List Stride) : Except Status Bool :=
  if shape.rank ≠ strides.length then
    .error (.invalidArgument "shape and strides must have the same rank")
  else do
    let expected ← contiguousStrides shape
    return expected == strides

namespace Shape

/-- The row-major position of an index tuple: how many tuples of the shape come
before it. -/
noncomputable def position (s : Shape) (idx : List ℕ) : ℕ :=
  {idx' | s.InBounds idx' ∧ idx' < idx}.ncard

/-- The contiguous strides number the tuples by their positions. -/
theorem offset_eq_position {s : Shape} {strides : List Stride}
    (h : contiguousStrides s = .ok strides) {idx : List ℕ} (hidx : s.InBounds idx) :
    offset strides idx = s.position idx := by
  have hset : {idx' | s.InBounds idx' ∧ idx' < idx} =
      {idx' | Numeral (sizes s.dims) idx' ∧ idx' < idx} := by
    ext idx'
    exact and_congr_left' inBounds_iff
  rw [offset_eq h hidx, position, hset, ncard_lt_eq_value (inBounds_iff.mp hidx)]

/-! ## Offsets determine the strides -/

theorem offset_cons (stride : Stride) (strides : List Stride) (i : ℕ) (idx : List ℕ) :
    offset (stride :: strides) (i :: idx) = i * stride.val + offset strides idx := by
  simp only [offset, products, List.zipWith_cons_cons, List.sum_cons]

/-- The tuple of zeros. -/
def origin (dims : List Dim) : List ℕ := dims.map fun _ => 0

theorem origin_cons (d : Dim) (dims : List Dim) : origin (d :: dims) = 0 :: origin dims := rfl

theorem offset_origin (strides : List Stride) (dims : List Dim) :
    offset strides (origin dims) = 0 := by
  induction dims generalizing strides with
  | nil => rfl
  | cons d dims ih =>
      cases strides with
      | nil => rfl
      | cons stride strides => rw [origin_cons, offset_cons, ih, Nat.cast_zero, zero_mul, zero_add]

theorem origin_inBounds {dims : List Dim} (hd : ∀ d ∈ dims, 2 ≤ d.val) :
    List.Forall₂ (fun (i : ℕ) (d : Dim) => (i : ℤ) < d.val) (origin dims) dims := by
  induction dims with
  | nil => exact .nil
  | cons d dims ih =>
      have hd₂ : 2 ≤ d.val := hd d List.mem_cons_self
      have hpos : ((0 : ℕ) : ℤ) < d.val := by omega
      exact .cons hpos (ih fun d hd' => hd d (List.mem_cons_of_mem _ hd'))

/-- Where every axis has an index `1`, strides with the same offsets are the
same: the unit tuple of an axis has the stride as its offset. -/
theorem strides_ext {dims : List Dim} (hd : ∀ d ∈ dims, 2 ≤ d.val) {strides strides' : List Stride}
    (hlen : strides.length = dims.length) (hlen' : strides'.length = dims.length)
    (h : ∀ idx, List.Forall₂ (fun (i : ℕ) (d : Dim) => (i : ℤ) < d.val) idx dims →
      offset strides idx = offset strides' idx) : strides = strides' := by
  induction dims generalizing strides strides' with
  | nil =>
      rw [List.length_eq_zero_iff.mp hlen, List.length_eq_zero_iff.mp hlen']
  | cons d dims ih =>
      obtain ⟨st, rest, rfl⟩ := List.exists_cons_of_length_eq_add_one hlen
      obtain ⟨st', rest', rfl⟩ := List.exists_cons_of_length_eq_add_one hlen'
      have hd₂ : 2 ≤ d.val := hd d List.mem_cons_self
      have hdims : ∀ d ∈ dims, 2 ≤ d.val := fun d hd' => hd d (List.mem_cons_of_mem _ hd')
      have hst : st = st' := by
        have hunit := h (1 :: origin dims) (.cons (by omega) (origin_inBounds hdims))
        rw [offset_cons, offset_cons, offset_origin, offset_origin, add_zero, add_zero,
          Nat.cast_one, one_mul, one_mul] at hunit
        exact Subtype.ext hunit
      have hrest : rest = rest' := by
        refine ih hdims (Nat.succ.inj hlen) (Nat.succ.inj hlen') fun idx hidx => ?_
        have hzero := h (0 :: idx) (.cons (by omega) hidx)
        rwa [offset_cons, offset_cons, hst, add_right_inj] at hzero
      rw [hst, hrest]

/-! ## What is_contiguous answers -/

theorem isContiguous_iff {s : Shape} {canonical strides : List Stride}
    (h : contiguousStrides s = .ok canonical) (hlen : strides.length = s.rank) :
    isContiguous s strides = .ok true ↔ canonical = strides := by
  rw [isContiguous, if_neg (not_not.mpr hlen.symm), h, ok_bind]
  constructor
  · intro heq
    exact eq_of_beq (Except.ok.inj heq)
  · rintro rfl
    exact congrArg Except.ok (beq_self_eq_true canonical)

/-- `is_contiguous` says whether the offsets are the row-major positions; the
converse needs an index `1` on every axis. A stride vector of another rank is
rejected, whatever the extents. -/
theorem isContiguous_answers_addressing :
    (∀ (s : Shape) (canonical strides : List Stride), contiguousStrides s = .ok canonical →
      strides.length = s.rank →
      (isContiguous s strides = .ok true →
        ∀ idx, s.InBounds idx → offset strides idx = s.position idx) ∧
      ((∀ d ∈ s.dims, 2 ≤ d.val) →
        (∀ idx, s.InBounds idx → offset strides idx = s.position idx) →
        isContiguous s strides = .ok true)) ∧
    ∀ (s : Shape) (strides : List Stride), strides.length ≠ s.rank →
      ∃ e, isContiguous s strides = .error e ∧ e.code = .kInvalidArgument := by
  refine ⟨fun s canonical strides h hlen => ⟨?_, ?_⟩, ?_⟩
  · intro htrue idx hidx
    rw [← (isContiguous_iff h hlen).mp htrue]
    exact offset_eq_position h hidx
  · intro hd hpos
    refine (isContiguous_iff h hlen).mpr (strides_ext hd (length_strides h) hlen fun idx hidx => ?_)
    rw [offset_eq_position h hidx, hpos idx hidx]
  · intro s strides hlen
    exact ⟨_, if_pos hlen.symm, rfl⟩

/-- The last element of `brick` comes after 23 others. -/
theorem isContiguous_answers_addressing_brick :
    isContiguous brick brickStrides = .ok true ∧ (brick.position [1, 2, 3] : ℤ) = 23 := by
  have hlaw := (isContiguous_answers_addressing.1 brick brickStrides brickStrides (by decide) rfl).1
  have hidx : brick.InBounds [1, 2, 3] := .cons (by decide) (.cons (by decide) (.cons (by decide) .nil))
  exact ⟨by decide, (hlaw (by decide) _ hidx).symm.trans (by decide)⟩

end Shape

end Gradyx
