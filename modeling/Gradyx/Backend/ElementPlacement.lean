import Gradyx.Core.Addressing
import Gradyx.Core.DTypeTable
import Gradyx.Backend.CpuAllocator

/-!
# Placing the elements of a shape

What the parts of the library promise together: the offsets of `contiguous_strides`, the
size and the alignment of the dtype table, `checked_multiply` for the number of bytes, and
a block of `CpuAllocator::allocate` of that size and alignment. Elements are then aligned,
inside the block, and share out its bytes.
-/

namespace Gradyx

open CpuAllocator Shape

/-! ## Sizes -/

theorem checkedMultiply_val {t : IntType} {a b c : t.Val} (h : checkedMultiply t a b = .ok c) :
    c.val = a.val * b.val := by
  rw [checkedMultiply_eq] at h
  split at h
  · next hin =>
      rw [← Except.ok.inj h]
      exact IntType.cast_val hin
  · cases h

theorem toNat_ofInt_val (v : IntType.uint64.Val) : ((UInt64.ofInt v.val).toNat : ℤ) = v.val := by
  obtain ⟨z, hlo, hhi⟩ := v
  have hlo : 0 ≤ z := hlo
  have hhi : z ≤ 2 ^ 64 - 1 := hhi
  have hmod : z % 2 ^ 64 = z := Int.emod_eq_of_lt hlo (by omega)
  have hlt : z.toNat < 2 ^ 64 := by omega
  rw [UInt64.ofInt, hmod, UInt64.toNat_ofNat_of_lt' hlt]
  exact Int.toNat_of_nonneg hlo

/-- An empty request gets no block. -/
theorem allocate_empty {P : Platform} (hP : P.Conforms) {alignment : UInt64} {device : Device}
    {owner : DataPtr} (h : allocate P 0 alignment device = .ok owner) : owner = {} := by
  rcases allocate_cases 0 alignment device hP with
    ⟨-, hfail⟩ | ⟨-, ⟨-, hres⟩ | ⟨hne, -⟩ | ⟨hne, -⟩⟩
  · rcases hfail with hfail | hfail <;> cases h.symm.trans hfail
  · exact Except.ok.inj (h.symm.trans hres)
  · exact absurd rfl hne
  · exact absurd rfl hne

variable {A : Abi} {d : DType} {info : DTypeInfo} {size : IntType.uint64.Val}

theorem alignOf_lt (hA : A.Conforms) (d : DType) : A.alignOf d < 2 ^ 8 :=
  Nat.lt_of_le_of_lt (Nat.le_of_dvd (hA.sizeOf_pos d) (hA.alignOf_dvd d)) (hA.sizeOf_lt d)

theorem alignment_toNat (hA : A.Conforms) (h : dtypeInfo A d.byte = .ok info) :
    info.alignment.toUInt64.toNat = A.alignOf d := by
  obtain ⟨info', hinfo, -, halign⟩ := dtypeInfo_byte A d
  rw [h] at hinfo
  cases hinfo
  rw [halign, UInt8.toNat_toUInt64, UInt8.toNat_ofNat_of_lt' (alignOf_lt hA d)]

theorem elementSize_val (hA : A.Conforms) (h : elementSize A d.byte = .ok size) :
    size.val = A.sizeOf d := by
  obtain ⟨info, hinfo, hsize, -⟩ := dtypeInfo_byte A d
  rw [elementSize, hinfo] at h
  rw [← Except.ok.inj h, hsize, UInt8.toNat_ofNat_of_lt' (hA.sizeOf_lt d)]
  refine IntType.cast_val ⟨Int.natCast_nonneg _, ?_⟩
  have hmax : IntType.uint64.max = 2 ^ 64 - 1 := rfl
  have := hA.sizeOf_lt d
  omega

/-! ## Elements -/

/-- The byte belongs to the element of an index tuple. -/
def Occupies (strides : List Stride) (size : ℤ) (idx : List ℕ) (k : ℕ) : Prop :=
  offset strides idx * size ≤ k ∧ k < offset strides idx * size + size

variable {s : Shape} {strides : List Stride} {n : IntType.uint64.Val}

/-- The elements share out the bytes from `0` to the count times the size. -/
theorem exists_unique_occupies (hstrides : contiguousStrides s = .ok strides)
    (hn : s.numel = .ok n) {size : ℤ} (hsize : 0 < size) {k : ℕ} (hk : k < n.val * size) :
    ∃! idx, s.InBounds idx ∧ Occupies strides size idx k := by
  have hbij := Shape.offset_bijOn hstrides hn
  have hquot : ∀ q : ℤ, q * size ≤ k ∧ k < q * size + size ↔ (k : ℤ) / size = q := by
    intro q
    rw [Int.ediv_eq_iff_of_pos hsize]
  obtain ⟨idx, hidx, hoffset⟩ := hbij.surjOn (a := (k : ℤ) / size)
    ⟨Int.ediv_nonneg (Int.natCast_nonneg k) (Int.le_of_lt hsize), Int.ediv_lt_of_lt_mul hsize hk⟩
  refine ⟨idx, ⟨hidx, (hquot _).mpr hoffset.symm⟩, ?_⟩
  rintro idx' ⟨hidx', hoccupies⟩
  refine hbij.injOn hidx' hidx ?_
  rw [hoffset]
  exact ((hquot _).mp hoccupies).symm

/-- Each element is inside them. -/
theorem occupied_le (hstrides : contiguousStrides s = .ok strides) (hn : s.numel = .ok n)
    {size : ℤ} (hsize : 0 < size) {idx : List ℕ} (hidx : s.InBounds idx) :
    0 ≤ offset strides idx * size ∧ offset strides idx * size + size ≤ n.val * size := by
  obtain ⟨hlo, hhi⟩ := (Shape.offset_bijOn hstrides hn).mapsTo hidx
  constructor
  · exact Int.mul_nonneg hlo (Int.le_of_lt hsize)
  · have := Int.mul_le_mul_of_nonneg_right (Int.add_one_le_of_lt hhi) (Int.le_of_lt hsize)
    linarith

/-- A block of the size of a shape and the alignment of an element type is never refused as
invalid; in one that is handed out each element is aligned and inside the block, and each
byte of the block belongs to one element. -/
theorem elements_share_block (P : Platform) (hP : P.Conforms) (A : Abi) (hA : A.Conforms)
    (s : Shape) (strides : List Stride) (d : DType) (info : DTypeInfo)
    (n size bytes : IntType.uint64.Val) (hstrides : contiguousStrides s = .ok strides)
    (hn : s.numel = .ok n) (hinfo : dtypeInfo A d.byte = .ok info)
    (hsize : elementSize A d.byte = .ok size)
    (hbytes : checkedMultiply IntType.uint64 n size = .ok bytes) :
    ¬ FailsWith (allocate P (.ofInt bytes.val) info.alignment.toUInt64 .cpu) .kInvalidArgument ∧
    ∀ owner, allocate P (.ofInt bytes.val) info.alignment.toUInt64 .cpu = .ok owner →
      (∀ idx, s.InBounds idx → ∃ data, owner.data = some data ∧
        (A.alignOf d : ℤ) ∣ P.address data + offset strides idx * size.val ∧
        0 ≤ offset strides idx * size.val ∧
        offset strides idx * size.val + size.val ≤ owner.allocation.bytes) ∧
      ∀ k < owner.allocation.bytes, ∃! idx, s.InBounds idx ∧ Occupies strides size.val idx k := by
  have halign := alignment_toNat hA hinfo
  have hval := elementSize_val hA hsize
  have hpos : 0 < size.val := by
    have := hA.sizeOf_pos d
    omega
  have htotal : ((UInt64.ofInt bytes.val).toNat : ℤ) = n.val * size.val := by
    rw [toNat_ofInt_val, checkedMultiply_val hbytes]
  constructor
  · rw [allocate_invalid_iff _ _ _ hP, halign]
    rintro (hdevice | hpow)
    · exact hdevice rfl
    · exact hpow (hA.alignOf_pow d)
  · intro owner howner
    have hblock : (owner.allocation.bytes : ℤ) = n.val * size.val := by
      by_cases hzero : UInt64.ofInt bytes.val = 0
      · rw [hzero] at howner htotal
        rw [← htotal]
        rw [allocate_empty hP howner]
        rfl
      · obtain ⟨data, -, hb, -⟩ := allocate_owner hP howner hzero
        rw [hb, htotal]
    constructor
    · intro idx hidx
      obtain ⟨hlo, hhi⟩ := occupied_le hstrides hn hpos hidx
      have hne : UInt64.ofInt bytes.val ≠ 0 := by
        intro hzero
        rw [hzero] at htotal
        have hnone : (0 : ℤ) = n.val * size.val := htotal
        linarith
      obtain ⟨data, hdata, -, -, -, hdvd, -⟩ := allocate_owner hP howner hne
      rw [halign] at hdvd
      refine ⟨data, hdata, ?_, hlo, hblock ▸ hhi⟩
      refine Int.dvd_add (Int.natCast_dvd_natCast.mpr hdvd) (Int.dvd_mul_of_dvd_right ?_)
      rw [hval]
      exact Int.natCast_dvd_natCast.mpr (hA.alignOf_dvd d)
    · intro k hk
      refine exists_unique_occupies hstrides hn hpos ?_
      rw [← hblock]
      exact Int.ofNat_lt.mpr hk

/-- The System V sizes and alignments on x86-64. -/
def x86Abi : Abi where
  sizeOf
    | .kBool | .kUInt8 | .kInt8 => 1
    | .kInt16 | .kFloat16 | .kBFloat16 => 2
    | .kInt32 | .kFloat32 => 4
    | .kInt64 | .kUInt64 | .kFloat64 | .kComplex64 => 8
    | .kComplex128 => 16
  alignOf
    | .kBool | .kUInt8 | .kInt8 => 1
    | .kInt16 | .kFloat16 | .kBFloat16 => 2
    | .kInt32 | .kFloat32 | .kComplex64 => 4
    | .kInt64 | .kUInt64 | .kFloat64 | .kComplex128 => 8

theorem x86Abi_conforms : x86Abi.Conforms where
  alignOf_pow d := by
    cases d <;> first | exact ⟨0, rfl⟩ | exact ⟨1, rfl⟩ | exact ⟨2, rfl⟩ | exact ⟨3, rfl⟩
  alignOf_dvd d := by cases d <;> decide
  sizeOf_pos d := by cases d <;> decide
  sizeOf_lt d := by cases d <;> decide

/-- The 24 complex elements of a brick in a block of 384 bytes. -/
theorem elements_share_block_brick :
    ∃ owner, allocate smallPlatform 384 8 .cpu = .ok owner ∧ owner.allocation.bytes = 384 ∧
      ∀ k < owner.allocation.bytes,
        ∃! idx, brick.InBounds idx ∧ Occupies brickStrides 16 idx k := by
  have howner : allocate smallPlatform 384 8 .cpu = .ok ⟨⟨some 16, 384, .cpu⟩, none, some 1⟩ := by
    decide +kernel
  refine ⟨_, howner, rfl, ?_⟩
  exact ((elements_share_block smallPlatform smallPlatform_conforms x86Abi x86Abi_conforms brick
    brickStrides .kComplex128 _ (IntType.uint64.cast 24) (IntType.uint64.cast 16)
    (IntType.uint64.cast 384) (by decide) (by decide) rfl (by decide) (by decide)).2 _ howner).2

end Gradyx
