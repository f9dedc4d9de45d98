import Gradyx.Core.DeviceParse
import Gradyx.Lib.ToDecimal

/-!
# Printing a device

`Device::str` of `src/core/device.cc`, and `parse` after it.

* `mem_typeNames`: the names that `device_type_name` gives the valid types are the
  names that `parse_device_type` knows.
* `parse_str`: a printed device is parsed to the device.
-/

namespace Gradyx

open Lib

/-- `device_type_name`. -/
def deviceTypeName (type : DeviceType) : List Char :=
  if type = .kCPU then "cpu".toList
  else if type = .kCUDA then "cuda".toList
  else if type = .kMeta then "meta".toList
  else "invalid".toList

namespace Device

/-- `Device::str`. -/
def str (d : Device) : List Char := deviceTypeName d.type ++ ':' :: toDecimal d.index.val

theorem mem_typeNames {type : DeviceType} (h : isValidDeviceType type = true) :
    (deviceTypeName type, type) ∈ typeNames := by
  simp only [isValidDeviceType, Bool.or_eq_true, beq_iff_eq] at h
  rcases h with (rfl | rfl) | rfl <;> decide

/-- The constructor takes every valid type and every non-negative index. -/
theorem make_ok {type : DeviceType} {index : DeviceIndex} (htype : isValidDeviceType type = true)
    (hindex : 0 ≤ index.val) : make type index = .ok ⟨type, index, htype, hindex⟩ := by
  rw [make, dif_pos htype, dif_pos hindex]

theorem ext_iff_val {d d' : Device} : d = d' ↔ d.type = d'.type ∧ d.index.val = d'.index.val := by
  obtain ⟨type, index, _, _⟩ := d
  obtain ⟨type', index', _, _⟩ := d'
  rw [mk.injEq, Subtype.ext_iff]

/-- The printed index passes both range checks. -/
theorem parseIndex_toDecimal {index : DeviceIndex} (h : 0 ≤ index.val) :
    parseIndex (toDecimal index.val) = .ok (DeviceIndex.cast index.val) := by
  have hmax : index.val ≤ DeviceIndex.max := Int.le_sub_one_of_lt index.2.2
  obtain ⟨hdigits, hvalue⟩ := toDecimal_of_nonneg h
  have hread : fromChars IntType.int64.min IntType.int64.max (toDecimal index.val) =
      ⟨.ok index.val, []⟩ := by
    refine fromChars_toDecimal ?_ ?_
    · exact Int.le_trans (by decide) h
    · exact Int.le_trans hmax (by decide)
  have hrange : ¬ (index.val < 0 ∨ DeviceIndex.max < index.val) := by omega
  rw [parseIndex, if_neg hdigits.1]
  simp only [hread, if_neg hrange]

/-- Parsing undoes printing. -/
theorem parse_str (d : Device) : parse d.str = .ok (.ok d) := by
  have hname := mem_typeNames d.type_valid
  have hmax : d.index.val ≤ DeviceIndex.max := Int.le_sub_one_of_lt d.index.2.2
  obtain ⟨d', hd', htype, hindex⟩ :=
    parse_index_ok hname d.index_nonneg hmax (parseIndex_toDecimal d.index_nonneg)
  rw [str, hd', ext_iff_val.mpr ⟨htype, hindex⟩]

/-- Every device that the constructor accepts is printed and parsed back, no two are
printed alike, and a text that is accepted is parsed like the text printed from it. -/
theorem parse_undoes_str :
    (∀ type index, isValidDeviceType type = true → 0 ≤ index.val →
      ∃ d, make type index = .ok d ∧ d.type = type ∧ d.index = index ∧
        parse d.str = .ok (.ok d)) ∧
    Function.Injective str ∧
    ∀ text d, parse text = .ok (.ok d) → parse d.str = parse text := by
  refine ⟨?_, ?_, ?_⟩
  · intro type index htype hindex
    exact ⟨_, make_ok htype hindex, rfl, rfl, parse_str _⟩
  · intro d d' h
    have hparse := parse_str d
    rw [h, parse_str d'] at hparse
    exact (Except.ok.inj (Except.ok.inj hparse)).symm
  · intro text d h
    rw [h, parse_str d]

/-- Leading zeros are not printed. -/
theorem parse_undoes_str_leadingZeros :
    ∃ d, parse "cuda:007".toList = .ok (.ok d) ∧ d.str = "cuda:7".toList ∧
      parse "cuda:7".toList = parse "cuda:007".toList := by
  refine ⟨⟨.kCUDA, ⟨7, by decide⟩, rfl, by decide⟩, rfl, rfl, ?_⟩
  exact parse_undoes_str.2.2 "cuda:007".toList _ rfl

end Device

end Gradyx
