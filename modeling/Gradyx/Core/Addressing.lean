import Gradyx.Core.Shape
import Mathlib.Algebra.BigOperators.Ring.Finset

/-!
# Addressing by contiguous strides

The strides of `contiguous_strides` are the weights of a mixed-radix system
whose radices are the extents, and an offset is the value of its index tuple.
So the offsets number the elements of the shape in lexicographic order, without
gaps, and nothing on the way to an offset leaves `int64`.
-/

namespace Gradyx

open Lib MixedRadix

/-- An index tuple of the shape. -/
def Shape.InBounds (s : Shape) (idx : List ℕ) : Prop :=
  List.Forall₂ (fun (i : ℕ) (d : Dim) => (i : ℤ) < d.val) idx s.dims

/-- The products `idx_i * strides_i`. -/
def products (strides : List Stride) (idx : List ℕ) : List ℤ :=
  List.zipWith (fun (i : ℕ) (stride : Stride) => i * stride.val) idx strides

def offset (strides : List Stride) (idx : List ℕ) : ℤ := (products strides idx).sum

namespace Shape

/-! ## Index tuples are numerals -/

theorem inBounds_iff {s : Shape} {idx : List ℕ} : s.InBounds idx ↔ Numeral (sizes s.dims) idx := by
  unfold InBounds Numeral sizes
  rw [List.forall₂_map_right_iff]
  constructor
  · intro h
    exact h.imp fun _ _ hlt => by omega
  · intro h
    exact h.imp fun _ _ hlt => by omega

/-- A shape with an index tuple has no zero extent. -/
theorem InBounds.pos {s : Shape} {idx : List ℕ} (h : s.InBounds idx) : ∀ d ∈ s.dims, 0 < d.val := by
  unfold InBounds at h
  generalize s.dims = dims at h
  induction h with
  | nil =>
      intro d hd
      cases hd
  | @cons i d idx dims hlt _ ih =>
      intro d' hd'
      rcases List.mem_cons.mp hd' with rfl | hmem
      · omega
      · exact ih d' hmem

/-- The value a weight has as a stride. -/
theorem strideList_val {ws : List ℕ} (hws : ∀ w ∈ ws, (w : ℤ) ≤ IntType.int64.max) :
    (strideList ws).map (fun stride => stride.val) = ws.map (fun w : ℕ => (w : ℤ)) := by
  rw [strideList, List.map_map]
  refine List.map_congr_left fun w hw => ?_
  have hin : IntType.int64.InRange w :=
    ⟨IntType.int64.min_nonpos.trans (Int.natCast_nonneg w), hws w hw⟩
  rw [Function.comp_apply, IntType.cast_val hin]

theorem weights_le {dims : List Dim} {w : ℕ} (hw : w ∈ weights (extents dims)) :
    w ≤ (extents dims).prod := by
  obtain ⟨i, hi⟩ := List.mem_iff_getElem?.mp hw
  have hlt : i < (extents dims).length := by
    have := (List.getElem?_eq_some_iff.mp hi).1
    rwa [length_weights] at this
  rw [getElem?_weights _ hlt] at hi
  rw [← Option.some.inj hi]
  exact weight_le_prod_extents dims (i + 1)

variable {s : Shape} {strides : List Stride} (h : contiguousStrides s = .ok strides)

include h

/-- The products are the weighted digits. -/
theorem products_eq {idx : List ℕ} (hidx : s.InBounds idx) :
    products strides idx = (terms idx (weights (sizes s.dims))).map (fun n : ℕ => (n : ℤ)) := by
  obtain ⟨hle, rfl⟩ := contiguousStrides_ok_iff.mp h
  have hws : ∀ w ∈ weights (extents s.dims), (w : ℤ) ≤ IntType.int64.max := by
    intro w hw
    have := weights_le hw
    omega
  have hzip : products (strideList (weights (extents s.dims))) idx =
      List.zipWith (fun (i : ℕ) (w : ℤ) => i * w) idx
        ((strideList (weights (extents s.dims))).map fun stride => stride.val) := by
    rw [List.zipWith_map_right]
    rfl
  rw [hzip, strideList_val hws, sizes_eq_extents hidx.pos, terms, List.zipWith_map_right,
    List.map_zipWith]
  simp only [Nat.cast_mul]

theorem offset_eq {idx : List ℕ} (hidx : s.InBounds idx) :
    offset strides idx = value (sizes s.dims) idx := by
  rw [offset, products_eq h hidx, value, Nat.cast_list_sum]

theorem length_strides : strides.length = s.rank := by
  obtain ⟨-, rfl⟩ := contiguousStrides_ok_iff.mp h
  rw [strideList, List.length_map, length_weights, extents, List.length_map]
  rfl

/-- A shape with strides has an element count. -/
theorem numel_isOk : ∃ n, s.numel = .ok n := by
  by_cases hz : ∀ d ∈ s.dims, d.val ≠ 0
  · obtain ⟨n, hn, -⟩ := (contiguousStrides_isOk_iff hz).mp ⟨strides, h⟩
    exact ⟨n, hn⟩
  · push Not at hz
    exact ⟨_, if_pos hz⟩

/-! ## Offsets -/

theorem offset_bijOn {n : IntType.uint64.Val} (hn : s.numel = .ok n) :
    Set.BijOn (offset strides) {idx | s.InBounds idx} {k | 0 ≤ k ∧ k < n.val} := by
  rw [numel_ok_iff.mp hn]
  have hvalue := value_bijOn (sizes s.dims)
  have hset : {idx | s.InBounds idx} = {idx | Numeral (sizes s.dims) idx} :=
    Set.ext fun _ => inBounds_iff
  refine ⟨?_, ?_, ?_⟩
  · intro idx hidx
    have := hvalue.mapsTo (hset ▸ hidx)
    rw [offset_eq h hidx]
    exact ⟨Int.natCast_nonneg _, Int.ofNat_lt.mpr this⟩
  · intro idx hidx idx' hidx' heq
    rw [offset_eq h hidx, offset_eq h hidx'] at heq
    exact hvalue.injOn (hset ▸ hidx) (hset ▸ hidx') (Int.ofNat_inj.mp heq)
  · rintro k ⟨hk, hlt⟩
    obtain ⟨idx, hidx, hval⟩ := hvalue.surjOn (a := k.toNat) (by
      change k.toNat < _
      omega)
    have hin : s.InBounds idx := inBounds_iff.mpr hidx
    refine ⟨idx, hin, ?_⟩
    rw [offset_eq h hin, hval]
    omega

theorem offset_strictMono {idx idx' : List ℕ} (hidx : s.InBounds idx) (hidx' : s.InBounds idx')
    (hlt : idx < idx') : offset strides idx < offset strides idx' := by
  rw [offset_eq h hidx, offset_eq h hidx']
  exact_mod_cast value_strictMono (inBounds_iff.mp hidx) (inBounds_iff.mp hidx') hlt

/-- Any part of the sum is in range: it is at most an offset, and that is below
the product of the extents. -/
theorem part_inRange {idx : List ℕ} (hidx : s.InBounds idx) {part : List ℤ}
    (hpart : part.Sublist (products strides idx)) : IntType.int64.InRange part.sum := by
  rw [products_eq h hidx] at hpart
  obtain ⟨digits, hdigits, rfl⟩ := List.sublist_map_iff.mp hpart
  have hvalue := sum_le_value hdigits
  have hlt := value_lt (inBounds_iff.mp hidx)
  have hmax := (contiguousStrides_ok_iff.mp h).1
  rw [← sizes_eq_extents hidx.pos] at hmax
  rw [← Nat.cast_list_sum]
  exact ⟨IntType.int64.min_nonpos.trans (Int.natCast_nonneg _), by omega⟩

omit h

/-- Strides that `contiguous_strides` returns address the elements of the shape:
every offset of the shape once, in lexicographic order, within `int64`. -/
theorem contiguous_addressing (s : Shape) (strides : List Stride)
    (h : contiguousStrides s = .ok strides) :
    strides.length = s.rank ∧
    (∀ i < s.rank, ∃ st, strides[i]? = some st ∧
      st.val = ((s.dims.drop (i + 1)).map fun d => max d.val 1).prod) ∧
    ∃ n, s.numel = .ok n ∧
      Set.BijOn (offset strides) {idx | s.InBounds idx} {k | 0 ≤ k ∧ k < n.val} ∧
      (∀ idx idx', s.InBounds idx → s.InBounds idx' → idx < idx' →
        offset strides idx < offset strides idx') ∧
      ∀ idx, s.InBounds idx →
        (∀ p ∈ products strides idx, p ≤ IntType.int64.max) ∧
        ∀ part : List ℤ, part.Sublist (products strides idx) → part.sum ≤ IntType.int64.max := by
  obtain ⟨n, hn⟩ := numel_isOk h
  refine ⟨length_strides h, ?_, n, hn, offset_bijOn h hn, ?_, ?_⟩
  · intro i hi
    obtain ⟨st, hst, hval⟩ := stride_val h hi
    refine ⟨st, hst, ?_⟩
    rw [hval, extents, ← List.map_drop, Nat.cast_list_prod, List.map_map]
    refine congrArg List.prod (List.map_congr_left fun d hd => ?_)
    have := s.nonneg d (List.mem_of_mem_drop hd)
    change ((max d.val.toNat 1 : ℕ) : ℤ) = max d.val 1
    omega
  · intro idx idx' hidx hidx' hlt
    exact offset_strictMono h hidx hidx' hlt
  · intro idx hidx
    refine ⟨fun p hp => ?_, fun part hpart => (part_inRange h hidx hpart).2⟩
    have := part_inRange h hidx (List.singleton_sublist.mpr hp)
    rw [List.sum_singleton] at this
    exact this.2

/-- The strides of `brick`. -/
def brickStrides : List Stride := [IntType.int64.cast 12, IntType.int64.cast 4, IntType.int64.cast 1]

theorem contiguous_addressing_brick :
    contiguousStrides brick = .ok brickStrides ∧ brickStrides.length = brick.rank ∧
      ∃ n, brick.numel = .ok n ∧
        Set.BijOn (offset brickStrides) {idx | brick.InBounds idx} {k | 0 ≤ k ∧ k < n.val} := by
  have h : contiguousStrides brick = .ok brickStrides := by decide
  obtain ⟨hlen, -, n, hn, hbij, -⟩ := contiguous_addressing brick brickStrides h
  exact ⟨h, hlen, n, hn, hbij⟩

end Shape

end Gradyx
