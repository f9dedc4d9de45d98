import Gradyx.Core.CheckedMath
import Gradyx.Lib.MixedRadix
import Mathlib.Algebra.BigOperators.Ring.List

/-!
# Shapes, element counts and strides

`include/gradyx/core/shape.h`, `src/core/shape.cc`. `numel` multiplies the
extents forward in `uint64`, `contiguous_strides` backward in `int64`, both with
`checked_multiply`. Each is a fold that is exact: it succeeds when the whole
product is in range (`numel_eq`, `contiguousStrides_eq`).
-/

namespace Gradyx

open Lib MixedRadix

/-- `Dim`, and `Stride`. -/
abbrev Dim := IntType.int64.Val

abbrev Stride := IntType.int64.Val

/-- A shape has no negative extent. -/
structure Shape where
  dims : List Dim
  nonneg : ∀ d ∈ dims, 0 ≤ d.val

namespace Shape

/-- `Shape::from_dims`. -/
def fromDims (dims : List Dim) : Except Status Shape :=
  if h : ∃ d ∈ dims, d.val < 0 then
    .error (.invalidArgument "shape dimensions must be non-negative")
  else .ok ⟨dims, by
    push Not at h
    exact h⟩

def rank (s : Shape) : ℕ := s.dims.length

/-- One round of the loop of `numel`. -/
def countDim (count : IntType.uint64.Val) (dim : Dim) : Except Status IntType.uint64.Val :=
  checkedMultiply IntType.uint64 count (IntType.uint64.cast dim.val)

def numel (s : Shape) : Except Status IntType.uint64.Val :=
  if ∃ d ∈ s.dims, d.val = 0 then .ok (IntType.uint64.cast 0)
  else s.dims.foldlM countDim (IntType.uint64.cast 1)

end Shape

/-- One round of the loop of `contiguous_strides`, which visits the axes from
the last to the first: the stride of the axis, and the one of the axis before. -/
def pushStride (dim : Dim) (loop : Stride × List Stride) : Except Status (Stride × List Stride) := do
  let extent : Dim := if dim.val < 1 then IntType.int64.cast 1 else dim
  let next ← checkedMultiply IntType.int64 loop.1 extent
  return (next, loop.1 :: loop.2)

def contiguousStrides (shape : Shape) : Except Status (List Stride) := do
  let loop ← shape.dims.foldrM pushStride (IntType.int64.cast 1, [])
  return loop.2

namespace Shape

/-! ## The element count -/

/-- The extents as natural numbers. -/
def sizes (dims : List Dim) : List ℕ := dims.map fun d => d.val.toNat

/-- The extents, with `1` for `0`. -/
def extents (dims : List Dim) : List ℕ := dims.map fun d => max d.val.toNat 1

theorem uint64_cast_dim {d : Dim} (hd : 0 ≤ d.val) : (IntType.uint64.cast d.val).val = d.val := by
  refine IntType.cast_val ⟨hd, ?_⟩
  have : d.val ≤ 2 ^ 63 - 1 := d.2.2
  have : IntType.uint64.max = 2 ^ 64 - 1 := rfl
  omega

/-- The loop of `numel` stops with an overflow exactly when the whole product
is too large: the extents are positive, so no later one brings it back. -/
theorem foldlM_countDim (dims : List Dim) (hpos : ∀ d ∈ dims, 1 ≤ d.val)
    (count : IntType.uint64.Val) :
    dims.foldlM countDim count =
      if count.val * ((sizes dims).prod : ℕ) ≤ IntType.uint64.max then
        .ok (IntType.uint64.cast (count.val * ((sizes dims).prod : ℕ)))
      else .error multiplyOverflow := by
  induction dims generalizing count with
  | nil =>
      have hle : count.val ≤ IntType.uint64.max := count.2.2
      have hcast : IntType.uint64.cast count.val = count := Subtype.ext (IntType.cast_val count.2)
      simp only [List.foldlM_nil, sizes, List.map_nil, List.prod_nil, Nat.cast_one, mul_one,
        if_pos hle, hcast]
      rfl
  | cons d dims ih =>
      have hd : 1 ≤ d.val := hpos d List.mem_cons_self
      have hrest : ∀ d ∈ dims, 1 ≤ d.val := fun d hd => hpos d (List.mem_cons_of_mem _ hd)
      have hcount : 0 ≤ count.val := count.2.1
      have hone : 1 ≤ (sizes dims).prod := by
        refine Nat.one_le_iff_ne_zero.mpr (List.prod_ne_zero fun hmem => ?_)
        obtain ⟨x, hx, hz⟩ := List.mem_map.mp hmem
        have := hrest x hx
        omega
      have hassoc : count.val * ((sizes (d :: dims)).prod : ℕ) =
          count.val * d.val * ((sizes dims).prod : ℕ) := by
        rw [sizes, List.map_cons, List.prod_cons, Nat.cast_mul, Int.toNat_of_nonneg (by omega),
          mul_assoc]
        rfl
      rw [List.foldlM_cons, countDim, checkedMultiply_eq, uint64_cast_dim (by omega), hassoc]
      by_cases hr : IntType.uint64.InRange (count.val * d.val)
      · rw [if_pos hr]
        have := ih hrest (IntType.uint64.cast (count.val * d.val))
        rw [IntType.cast_val hr] at this
        exact this
      · have hlarge : IntType.uint64.max < count.val * d.val := by
          by_contra hle
          exact hr ⟨mul_nonneg hcount (by omega), not_lt.mp hle⟩
        have hmono : count.val * d.val ≤
            count.val * d.val * ((sizes dims).prod : ℕ) :=
          le_mul_of_one_le_right (mul_nonneg hcount (by omega)) (by exact_mod_cast hone)
        rw [if_neg hr, if_neg (by omega)]
        rfl

/-- `numel` is the product of the extents, or an overflow when that is not a
`uint64`. -/
theorem numel_eq (s : Shape) :
    s.numel = if ((sizes s.dims).prod : ℤ) ≤ IntType.uint64.max then
      .ok (IntType.uint64.cast (sizes s.dims).prod) else .error multiplyOverflow := by
  unfold numel
  by_cases hz : ∃ d ∈ s.dims, d.val = 0
  · obtain ⟨d, hd, hd0⟩ := hz
    have hprod : (sizes s.dims).prod = 0 :=
      List.prod_eq_zero (List.mem_map.mpr ⟨d, hd, by rw [hd0]; rfl⟩)
    rw [if_pos ⟨d, hd, hd0⟩, hprod, if_pos (by decide)]
    rfl
  · rw [if_neg hz, foldlM_countDim s.dims fun d hd => ?_]
    · have hone : (IntType.uint64.cast 1).val = 1 := by decide
      rw [hone, one_mul]
    · push Not at hz
      have := hz d hd
      have := s.nonneg d hd
      omega

/-! ## The strides -/

/-- Natural numbers as strides. -/
def strideList (ws : List ℕ) : List Stride := ws.map fun w : ℕ => IntType.int64.cast (w : ℤ)

theorem strideList_weights_cons (r : ℕ) (rs : List ℕ) :
    strideList (weights (r :: rs)) = IntType.int64.cast (rs.prod : ℕ) :: strideList (weights rs) :=
  rfl

theorem extents_cons (d : Dim) (dims : List Dim) :
    extents (d :: dims) = max d.val.toNat 1 :: extents dims := rfl

theorem one_le_prod_extents (dims : List Dim) :
    1 ≤ (extents dims).prod := by
  refine Nat.one_le_iff_ne_zero.mpr (List.prod_ne_zero fun hmem => ?_)
  obtain ⟨d, -, hz⟩ := List.mem_map.mp hmem
  omega

/-- `std::max(shape[index], Dim{1})`. -/
theorem extent_val {d : Dim} (hd : 0 ≤ d.val) :
    (if d.val < 1 then IntType.int64.cast 1 else d : Dim).val = (max d.val.toNat 1 : ℕ) := by
  split
  · have hone : (IntType.int64.cast 1).val = 1 := by decide
    rw [hone]
    omega
  · omega

/-- One round, on a stride `p` that did not overflow. -/
theorem pushStride_eq {d : Dim} (hd : 0 ≤ d.val) {p : ℕ} (hp : (p : ℤ) ≤ IntType.int64.max)
    (rest : List Stride) :
    pushStride d (IntType.int64.cast p, rest) =
      if ((max d.val.toNat 1 * p : ℕ) : ℤ) ≤ IntType.int64.max then
        .ok (IntType.int64.cast (max d.val.toNat 1 * p : ℕ), IntType.int64.cast p :: rest)
      else .error multiplyOverflow := by
  have hval : (IntType.int64.cast p).val = p :=
    IntType.cast_val ⟨IntType.int64.min_nonpos.trans (Int.natCast_nonneg p), hp⟩
  have hcomm : (p : ℤ) * (max d.val.toNat 1 : ℕ) = (max d.val.toNat 1 * p : ℕ) := by
    rw [Nat.cast_mul, mul_comm]
  rw [pushStride, checkedMultiply_eq, hval, extent_val hd, hcomm]
  by_cases hle : ((max d.val.toNat 1 * p : ℕ) : ℤ) ≤ IntType.int64.max
  · have hin : IntType.int64.InRange (max d.val.toNat 1 * p : ℕ) :=
      ⟨IntType.int64.min_nonpos.trans (Int.natCast_nonneg _), hle⟩
    rw [if_pos hin, if_pos hle]
    rfl
  · rw [if_neg fun hin => hle hin.2, if_neg hle]
    rfl

/-- The loop of `contiguous_strides` stops with an overflow exactly when the
whole product is too large. -/
theorem foldrM_pushStride (dims : List Dim) (hn : ∀ d ∈ dims, 0 ≤ d.val) :
    dims.foldrM pushStride (IntType.int64.cast 1, []) =
      if ((extents dims).prod : ℤ) ≤ IntType.int64.max then
        .ok (IntType.int64.cast ((extents dims).prod : ℕ),
          strideList (weights (extents dims)))
      else .error multiplyOverflow := by
  induction dims with
  | nil => rfl
  | cons d dims ih =>
      have hd : 0 ≤ d.val := hn d List.mem_cons_self
      have hone := one_le_prod_extents dims
      rw [List.foldrM_cons, ih fun d hd => hn d (List.mem_cons_of_mem _ hd), extents_cons,
        List.prod_cons, strideList_weights_cons]
      by_cases hle : ((extents dims).prod : ℤ) ≤ IntType.int64.max
      · rw [if_pos hle, ok_bind, pushStride_eq hd hle]
      · -- a longer product is larger still
        have hmono : (extents dims).prod ≤ max d.val.toNat 1 * (extents dims).prod :=
          Nat.le_mul_of_pos_left _ (by omega)
        rw [if_neg hle, error_bind, if_neg (by omega)]

/-- `contiguous_strides` is the list of the weights of the places, or an
overflow when the product of the extents is not an `int64`. -/
theorem contiguousStrides_eq (s : Shape) :
    contiguousStrides s = if ((extents s.dims).prod : ℤ) ≤ IntType.int64.max then
      .ok (strideList (weights (extents s.dims)))
      else .error multiplyOverflow := by
  rw [contiguousStrides, foldrM_pushStride s.dims s.nonneg]
  split <;> rfl

theorem sizes_eq_extents {dims : List Dim} (hpos : ∀ d ∈ dims, 0 < d.val) :
    sizes dims = extents dims := by
  refine List.map_congr_left fun d hd => ?_
  have := hpos d hd
  omega

/-- `contiguous_strides` succeeds when the product of the extents is an `int64`,
and only then. -/
theorem contiguousStrides_ok_iff {s : Shape} {strides : List Stride} :
    contiguousStrides s = .ok strides ↔
      ((extents s.dims).prod : ℤ) ≤ IntType.int64.max ∧
        strides = strideList (weights (extents s.dims)) := by
  rw [contiguousStrides_eq]
  split
  · rename_i hle
    constructor
    · intro h
      exact ⟨hle, (Except.ok.inj h).symm⟩
    · rintro ⟨-, rfl⟩
      rfl
  · rename_i hle
    constructor
    · intro h
      cases h
    · intro h
      exact absurd h.1 hle

theorem numel_ok_iff {s : Shape} {n : IntType.uint64.Val} :
    s.numel = .ok n ↔ n.val = (sizes s.dims).prod := by
  rw [numel_eq]
  have hin {p : ℕ} (hp : (p : ℤ) ≤ IntType.uint64.max) : (IntType.uint64.cast p).val = p :=
    IntType.cast_val ⟨IntType.uint64.min_nonpos.trans (Int.natCast_nonneg p), hp⟩
  split
  · rename_i hle
    constructor
    · intro h
      rw [← Except.ok.inj h, hin hle]
    · intro h
      exact congrArg Except.ok (Subtype.ext ((hin hle).trans h.symm))
  · rename_i hle
    constructor
    · intro h
      cases h
    · intro h
      exact absurd (h ▸ n.2.2) hle

/-- The weight of a place is at most the product of the radices. -/
theorem weight_le_prod_extents (dims : List Dim) (i : ℕ) :
    ((extents dims).drop i).prod ≤ (extents dims).prod := by
  have hone := one_le_prod_extents (dims.take i)
  calc ((extents dims).drop i).prod ≤ ((extents dims).take i).prod * ((extents dims).drop i).prod := by
        rw [extents, ← List.map_take]
        exact Nat.le_mul_of_pos_left _ hone
    _ = (extents dims).prod := by rw [← List.prod_append, List.take_append_drop]

/-- Each stride is the product of the extents of the later axes. -/
theorem stride_val {s : Shape} {strides : List Stride} (h : contiguousStrides s = .ok strides)
    {i : ℕ} (hi : i < s.rank) :
    ∃ st, strides[i]? = some st ∧ st.val = ((extents s.dims).drop (i + 1)).prod := by
  obtain ⟨hle, rfl⟩ := contiguousStrides_ok_iff.mp h
  have hlen : i < (extents s.dims).length := by rwa [extents, List.length_map]
  refine ⟨IntType.int64.cast ((extents s.dims).drop (i + 1)).prod, ?_, IntType.cast_val ⟨?_, ?_⟩⟩
  · rw [strideList, List.getElem?_map, getElem?_weights _ hlen, Option.map_some]
  · exact IntType.int64.min_nonpos.trans (Int.natCast_nonneg _)
  · have := weight_le_prod_extents s.dims (i + 1)
    omega

/-! ## Agreement -/

/-- The extents from an axis on. -/
theorem prod_drop_extents {dims : List Dim} {i : ℕ} (hi : i < dims.length) :
    ∃ d, dims[i]? = some d ∧
      ((extents dims).drop i).prod = max d.val.toNat 1 * ((extents dims).drop (i + 1)).prod := by
  refine ⟨dims[i], List.getElem?_eq_getElem hi, ?_⟩
  rw [extents, ← List.map_drop, List.drop_eq_getElem_cons hi, List.map_cons, List.prod_cons,
    List.map_drop]

section NoZero

variable {s : Shape} (hz : ∀ d ∈ s.dims, d.val ≠ 0)

include hz

theorem pos_of_ne_zero {d : Dim} (hd : d ∈ s.dims) : 0 < d.val :=
  lt_of_le_of_ne (s.nonneg d hd) (hz d hd).symm

/-- The extent of an axis is the entry of the shape. -/
theorem max_one_of_ne_zero {i : ℕ} {d : Dim} (hd : s.dims[i]? = some d) :
    ((max d.val.toNat 1 : ℕ) : ℤ) = d.val := by
  have := pos_of_ne_zero hz (List.mem_of_getElem? hd)
  omega

/-- `numel` in terms of the extents of the strides. -/
theorem numel_ok_iff_extents {n : IntType.uint64.Val} :
    s.numel = .ok n ↔ n.val = (extents s.dims).prod := by
  rw [numel_ok_iff, sizes_eq_extents fun _ => pos_of_ne_zero hz]

theorem contiguousStrides_isOk_iff :
    (∃ strides, contiguousStrides s = .ok strides) ↔
      ∃ n, s.numel = .ok n ∧ n.val ≤ IntType.int64.max := by
  constructor
  · rintro ⟨strides, h⟩
    have hle := (contiguousStrides_ok_iff.mp h).1
    have hmax : IntType.int64.max ≤ IntType.uint64.max := by decide
    have hval : (IntType.uint64.cast (extents s.dims).prod).val = (extents s.dims).prod :=
      IntType.cast_val ⟨IntType.uint64.min_nonpos.trans (Int.natCast_nonneg _), hle.trans hmax⟩
    refine ⟨IntType.uint64.cast (extents s.dims).prod, (numel_ok_iff_extents hz).mpr hval, ?_⟩
    rw [hval]
    exact hle
  · rintro ⟨n, hn, hle⟩
    rw [(numel_ok_iff_extents hz).mp hn] at hle
    exact ⟨_, contiguousStrides_ok_iff.mpr ⟨hle, rfl⟩⟩

variable {strides : List Stride} (h : contiguousStrides s = .ok strides)

include h

theorem numel_eq_first {n : IntType.uint64.Val} (hn : s.numel = .ok n) (hrank : 0 < s.rank) :
    ∃ d st, s.dims[0]? = some d ∧ strides[0]? = some st ∧ n.val = d.val * st.val := by
  obtain ⟨d, hd, hprod⟩ := prod_drop_extents hrank
  obtain ⟨st, hst, hval⟩ := stride_val h hrank
  refine ⟨d, st, hd, hst, ?_⟩
  rw [(numel_ok_iff_extents hz).mp hn, hval, ← max_one_of_ne_zero hz hd, ← Nat.cast_mul, ← hprod,
    List.drop_zero]

theorem stride_eq_next {i : ℕ} (hi : i + 1 < s.rank) :
    ∃ d before st, s.dims[i + 1]? = some d ∧ strides[i]? = some before ∧
      strides[i + 1]? = some st ∧ before.val = d.val * st.val := by
  obtain ⟨d, hd, hprod⟩ := prod_drop_extents hi
  obtain ⟨before, hbefore, hval⟩ := stride_val h (Nat.lt_of_succ_lt hi)
  obtain ⟨st, hst, hval'⟩ := stride_val h hi
  refine ⟨d, before, st, hd, hbefore, hst, ?_⟩
  rw [hval, hval', ← max_one_of_ne_zero hz hd, ← Nat.cast_mul, ← hprod]

omit h

/-- A product too large for the strides is too large for an `int64` count. -/
theorem numel_of_strides_error {e : Status} (h : contiguousStrides s = .error e) :
    e.code = .kOverflow ∧ ((∃ e', s.numel = .error e' ∧ e'.code = .kOverflow) ∨
      ∃ n, s.numel = .ok n ∧ IntType.int64.max < n.val) := by
  rw [contiguousStrides_eq] at h
  split at h
  · cases h
  · rename_i hle
    obtain rfl : multiplyOverflow = e := Except.error.inj h
    refine ⟨rfl, ?_⟩
    cases hn : s.numel with
    | ok n =>
        refine .inr ⟨n, rfl, ?_⟩
        rw [(numel_ok_iff_extents hz).mp hn]
        exact not_le.mp hle
    | error e' =>
        rw [numel_eq] at hn
        split at hn
        · cases hn
        · exact .inl ⟨e', rfl, by rw [← Except.error.inj hn]; rfl⟩

end NoZero

/-- On a shape without a zero extent the forward `uint64` product and the
backward `int64` products agree. -/
theorem numel_agrees_with_strides (s : Shape) (hz : ∀ d ∈ s.dims, d.val ≠ 0) :
    ((∃ strides, contiguousStrides s = .ok strides) ↔
      ∃ n, s.numel = .ok n ∧ n.val ≤ IntType.int64.max) ∧
    (∀ strides n, contiguousStrides s = .ok strides → s.numel = .ok n →
      (0 < s.rank → ∃ d st, s.dims[0]? = some d ∧ strides[0]? = some st ∧
        n.val = d.val * st.val) ∧
      ∀ i, i + 1 < s.rank → ∃ d before st, s.dims[i + 1]? = some d ∧ strides[i]? = some before ∧
        strides[i + 1]? = some st ∧ before.val = d.val * st.val) ∧
    ∀ e, contiguousStrides s = .error e → e.code = .kOverflow ∧
      ((∃ e', s.numel = .error e' ∧ e'.code = .kOverflow) ∨
        ∃ n, s.numel = .ok n ∧ IntType.int64.max < n.val) := by
  refine ⟨contiguousStrides_isOk_iff hz, ?_, ?_⟩
  · intro strides n h hn
    exact ⟨numel_eq_first hz h hn, fun i => stride_eq_next hz h⟩
  · intro e h
    exact numel_of_strides_error hz h

/-- A shape of extents 2, 3 and 4. -/
def brick : Shape := ⟨[IntType.int64.cast 2, IntType.int64.cast 3, IntType.int64.cast 4], by decide⟩

theorem numel_agrees_with_strides_brick :
    (∃ strides, contiguousStrides brick = .ok strides) ↔
      ∃ n, brick.numel = .ok n ∧ n.val ≤ IntType.int64.max :=
  (numel_agrees_with_strides brick (by decide)).1

/-! ## The element count of any list of extents -/

theorem prod_sizes {dims : List Dim} (hn : ∀ d ∈ dims, 0 ≤ d.val) :
    ((sizes dims).prod : ℤ) = (dims.map fun d => d.val).prod := by
  induction dims with
  | nil => rfl
  | cons d dims ih =>
      have hd : 0 ≤ d.val := hn d List.mem_cons_self
      have hrest := ih fun d hd => hn d (List.mem_cons_of_mem _ hd)
      rw [sizes, List.map_cons, List.prod_cons, Nat.cast_mul, Int.toNat_of_nonneg hd, List.map_cons,
        List.prod_cons, ← hrest]
      rfl

theorem fromDims_eq {dims : List Dim} (hn : ∀ d ∈ dims, 0 ≤ d.val) :
    fromDims dims = .ok ⟨dims, hn⟩ := by
  refine dif_neg ?_
  push Not
  exact hn

/-- The count does not depend on the order of the extents. -/
theorem numel_perm {s s' : Shape} (h : s'.dims.Perm s.dims) : s'.numel = s.numel := by
  have hprod : (sizes s'.dims).prod = (sizes s.dims).prod := (h.map _).prod_eq
  rw [numel_eq, numel_eq, hprod]

/-- `numel` is exact on every list of non-negative extents, and blind to their
order. -/
theorem numel_exact (dims : List Dim) (hn : ∀ d ∈ dims, 0 ≤ d.val) :
    ∃ s, fromDims dims = .ok s ∧
      ((dims.map fun d => d.val).prod < 2 ^ 64 →
        ∃ n, s.numel = .ok n ∧ n.val = (dims.map fun d => d.val).prod) ∧
      (¬ (dims.map fun d => d.val).prod < 2 ^ 64 →
        ∃ e, s.numel = .error e ∧ e.code = .kOverflow) ∧
      ∀ dims', dims'.Perm dims → ∃ s', fromDims dims' = .ok s' ∧ s'.numel = s.numel := by
  have hmax : IntType.uint64.max = 2 ^ 64 - 1 := rfl
  refine ⟨⟨dims, hn⟩, fromDims_eq hn, ?_, ?_, ?_⟩
  · intro hlt
    have hle : ((sizes dims).prod : ℤ) ≤ IntType.uint64.max := by
      rw [prod_sizes hn]
      omega
    have hval : (IntType.uint64.cast ((sizes dims).prod : ℕ)).val = ((sizes dims).prod : ℕ) :=
      IntType.cast_val ⟨IntType.uint64.min_nonpos.trans (Int.natCast_nonneg _), hle⟩
    exact ⟨_, numel_ok_iff.mpr hval, hval.trans (prod_sizes hn)⟩
  · intro hge
    have hgt : ¬ ((sizes dims).prod : ℤ) ≤ IntType.uint64.max := by
      rw [prod_sizes hn]
      omega
    refine ⟨multiplyOverflow, ?_, rfl⟩
    rw [numel_eq]
    exact if_neg hgt
  · intro dims' hperm
    have hn' : ∀ d ∈ dims', 0 ≤ d.val := fun d hd => hn d (hperm.subset hd)
    exact ⟨⟨dims', hn'⟩, fromDims_eq hn', numel_perm hperm⟩

/-- A zero after a prefix that overflows. -/
theorem numel_exact_zero_last :
    ∃ s, fromDims [IntType.int64.cast (2 ^ 62), IntType.int64.cast 4, IntType.int64.cast 0] = .ok s ∧
      ∃ n, s.numel = .ok n ∧ n.val = 0 := by
  obtain ⟨s, hs, hok, -⟩ := numel_exact
    [IntType.int64.cast (2 ^ 62), IntType.int64.cast 4, IntType.int64.cast 0] (by decide)
  obtain ⟨n, hn, hval⟩ := hok (by decide)
  exact ⟨s, hs, n, hn, hval⟩

/-! ## Shapes with a zero extent -/

/-- The stride that the axis has in a contiguous layout. -/
def canonicalStride (s : Shape) (i : ℕ) : ℤ :=
  ((s.dims.drop (i + 1)).map fun d => max d.val 1).prod

/-- The strides of an empty shape: they are returned when they are
representable, and an overflow is reported only when one is not. -/
def StridesOfEmpty (s : Shape) : Prop :=
  ((∀ i < s.rank, s.canonicalStride i ≤ IntType.int64.max) →
    ∃ strides, contiguousStrides s = .ok strides ∧
      strides.map (fun stride => stride.val) = (List.range s.rank).map s.canonicalStride) ∧
  ∀ e, contiguousStrides s = .error e → e.code = .kOverflow →
    ∃ i < s.rank, IntType.int64.max < s.canonicalStride i

theorem prod_extents {dims : List Dim} (hn : ∀ d ∈ dims, 0 ≤ d.val) :
    ((extents dims).prod : ℤ) = (dims.map fun d => max d.val 1).prod := by
  induction dims with
  | nil => rfl
  | cons d dims ih =>
      have hd : 0 ≤ d.val := hn d List.mem_cons_self
      have hmax : ((max d.val.toNat 1 : ℕ) : ℤ) = max d.val 1 := by omega
      have hrest := ih fun d hd => hn d (List.mem_cons_of_mem _ hd)
      rw [extents_cons, List.prod_cons, Nat.cast_mul, hmax, hrest, List.map_cons, List.prod_cons]

theorem canonicalStride_eq (s : Shape) (i : ℕ) :
    s.canonicalStride i = ((extents s.dims).drop (i + 1)).prod := by
  have hn : ∀ d ∈ s.dims.drop (i + 1), 0 ≤ d.val := fun d hd => s.nonneg d (List.mem_of_mem_drop hd)
  rw [canonicalStride, ← prod_extents hn, extents, extents, List.map_drop]

/-- The first stride is the largest one. -/
theorem canonicalStride_le (s : Shape) (i : ℕ) : s.canonicalStride i ≤ s.canonicalStride 0 := by
  have h := weight_le_prod_extents (s.dims.drop 1) i
  rw [extents, List.map_drop, List.drop_drop] at h
  rw [canonicalStride_eq, canonicalStride_eq, Nat.add_comm i 1]
  exact_mod_cast h

theorem strides_canonical {s : Shape} {strides : List Stride} (h : contiguousStrides s = .ok strides) :
    strides.map (fun stride => stride.val) = (List.range s.rank).map s.canonicalStride := by
  have hlen : strides.length = s.rank := by
    obtain ⟨-, rfl⟩ := contiguousStrides_ok_iff.mp h
    rw [strideList, List.length_map, length_weights, extents, List.length_map, rank]
  refine List.ext_getElem? fun i => ?_
  rw [List.getElem?_map, List.getElem?_map]
  by_cases hi : i < s.rank
  · obtain ⟨st, hst, hval⟩ := stride_val h hi
    rw [hst, List.getElem?_range hi, Option.map_some, Option.map_some, hval, canonicalStride_eq]
  · rw [List.getElem?_eq_none (by omega), List.getElem?_eq_none (by rw [List.length_range]; omega)]
    rfl

/-- A shape with a zero extent gets its strides exactly when the loop's last
product, which is no stride, fits too; or when a stride does not fit anyway. -/
theorem strides_of_empty_iff (s : Shape) (hz : ∃ d ∈ s.dims, d.val = 0) :
    s.StridesOfEmpty ↔
      (s.dims.map fun d => max d.val 1).prod ≤ IntType.int64.max ∨
        IntType.int64.max < ((s.dims.drop 1).map fun d => max d.val 1).prod := by
  have hrank : 0 < s.rank := by
    obtain ⟨d, hd, -⟩ := hz
    exact List.length_pos_of_mem hd
  have hprod := prod_extents s.nonneg
  change _ ↔ _ ∨ IntType.int64.max < s.canonicalStride 0
  constructor
  · rintro ⟨hok, -⟩
    by_cases hle : s.canonicalStride 0 ≤ IntType.int64.max
    · obtain ⟨strides, hs, -⟩ := hok fun i _ => (s.canonicalStride_le i).trans hle
      left
      rw [← hprod]
      exact (contiguousStrides_ok_iff.mp hs).1
    · exact .inr (not_le.mp hle)
  · intro h
    by_cases hle : ((extents s.dims).prod : ℤ) ≤ IntType.int64.max
    · have hs := contiguousStrides_ok_iff.mpr ⟨hle, rfl⟩
      refine ⟨fun _ => ⟨_, hs, strides_canonical hs⟩, fun e he => ?_⟩
      rw [hs] at he
      cases he
    · -- the loop overflows, so a stride must be too large
      have hlarge : IntType.int64.max < s.canonicalStride 0 :=
        h.resolve_left fun h => hle (hprod.trans_le h)
      refine ⟨fun hall => absurd (hall 0 hrank) (not_le.mpr hlarge), fun _ _ _ => ?_⟩
      exact ⟨0, hrank, hlarge⟩

/-- Strides 2, 2 and 1, and a product after them that no axis needs. -/
def wideEmpty : Shape :=
  ⟨[IntType.int64.cast (2 ^ 63 - 1), IntType.int64.cast 0, IntType.int64.cast 2], by decide⟩

theorem strides_of_empty_fails :
    (∃ d ∈ wideEmpty.dims, d.val = 0) ∧ (List.range 3).map wideEmpty.canonicalStride = [2, 2, 1] ∧
      contiguousStrides wideEmpty = .error multiplyOverflow ∧ ¬ wideEmpty.StridesOfEmpty := by
  have herror : contiguousStrides wideEmpty = .error multiplyOverflow := by decide
  refine ⟨by decide, by decide, herror, fun h => ?_⟩
  obtain ⟨i, hi, hlarge⟩ := h.2 _ herror rfl
  have hle : ∀ i < wideEmpty.rank, wideEmpty.canonicalStride i ≤ IntType.int64.max := by decide
  exact absurd (hle i hi) (not_le.mpr hlarge)

theorem strides_of_empty_brick :
    StridesOfEmpty ⟨[IntType.int64.cast 2, IntType.int64.cast 0, IntType.int64.cast 3], by decide⟩ :=
  (strides_of_empty_iff _ (by decide)).mpr (by decide)

end Shape

end Gradyx
