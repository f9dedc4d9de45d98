import Gradyx.Core.DeviceStr
import Mathlib.Data.Nat.Bitwise

/-!
# Hashing a device

`std::hash<gradyx::Device>` of `include/gradyx/core/device.h`. An index has 31 bits,
and the multiples of the constant by the three types differ above them.
-/

namespace Gradyx

namespace Device

/-- `static_cast<std::size_t>(0x9e3779b9U)`. -/
def hashFactor : UInt64 := 0x9e3779b9

/-- `std::hash<gradyx::Device>::operator()`. -/
def hash (d : Device) : UInt64 :=
  let type := d.type.byte.toUInt64
  let index := UInt64.ofInt d.index.val
  (type * hashFactor) ^^^ index

theorem type_cases (d : Device) : d.type = .kCPU ∨ d.type = .kCUDA ∨ d.type = .kMeta := by
  have h := d.type_valid
  simp only [isValidDeviceType, Bool.or_eq_true, beq_iff_eq] at h
  rcases h with (h | h) | h
  · exact .inl h
  · exact .inr (.inl h)
  · exact .inr (.inr h)

theorem index_toNat_lt (d : Device) : d.index.val.toNat < 2 ^ 31 := by
  have := d.index.2.2
  omega

/-- The index sits below bit 31. -/
theorem hash_toNat (d : Device) :
    d.hash.toNat = (d.type.byte.toUInt64 * hashFactor).toNat ^^^ d.index.val.toNat := by
  have hlt := d.index_toNat_lt
  have hnonneg := d.index_nonneg
  have hindex : (UInt64.ofInt d.index.val).toNat = d.index.val.toNat := by
    rw [UInt64.ofInt, UInt64.toNat_ofNat_of_lt']
    all_goals
      rw [Int.emod_eq_of_lt hnonneg (by omega)]
    exact Nat.lt_trans hlt (by decide)
  rw [hash, UInt64.toNat_xor, hindex]

/-- The bits above tell the types apart. -/
theorem hash_shift (d : Device) :
    d.hash.toNat >>> 31 = (d.type.byte.toUInt64 * hashFactor).toNat >>> 31 := by
  rw [hash_toNat, Nat.shiftRight_xor_distrib, Nat.shiftRight_eq_zero _ _ d.index_toNat_lt,
    Nat.xor_zero]

/-- No two devices have the same hash. -/
theorem hash_injective : Function.Injective hash := by
  intro d d' h
  have hshift : (d.type.byte.toUInt64 * hashFactor).toNat >>> 31 =
      (d'.type.byte.toUInt64 * hashFactor).toNat >>> 31 := by
    rw [← hash_shift, ← hash_shift, h]
  have htype : d.type = d'.type := by
    rcases d.type_cases with ht | ht | ht <;> rcases d'.type_cases with ht' | ht' | ht' <;>
      rw [ht, ht'] at hshift ⊢ <;> exact absurd hshift (by decide)
  have hxor := congrArg UInt64.toNat h
  rw [hash_toNat, hash_toNat, htype] at hxor
  have hindex : d.index.val.toNat = d'.index.val.toNat := Nat.xor_right_injective hxor
  have hnonneg := d.index_nonneg
  have hnonneg' := d'.index_nonneg
  exact ext_iff_val.mpr ⟨htype, by omega⟩

end Device

end Gradyx
