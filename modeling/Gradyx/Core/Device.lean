import Gradyx.Core.Status
import Mathlib.Algebra.Ring.Int.Defs

/-!
# Device types and devices

`include/gradyx/core/device.h`. A `DeviceType` is any byte, as an enumeration
with a fixed underlying type is in C++; a `Device` carries what its constructor
checks.
-/

namespace Gradyx

/-- `enum class DeviceType : std::uint8_t`. -/
structure DeviceType where
  byte : UInt8
deriving DecidableEq, Repr

namespace DeviceType

def kCPU : DeviceType := ⟨0⟩

def kCUDA : DeviceType := ⟨1⟩

def kMeta : DeviceType := ⟨2⟩

end DeviceType

def isValidDeviceType (type : DeviceType) : Bool :=
  type == .kCPU || type == .kCUDA || type == .kMeta

/-- `std::int32_t`. -/
abbrev DeviceIndex := { i : ℤ // -2 ^ 31 ≤ i ∧ i < 2 ^ 31 }

def kDefaultDeviceIndex : DeviceIndex := ⟨0, by decide⟩

structure Device where
  type : DeviceType
  index : DeviceIndex
  type_valid : isValidDeviceType type = true
  index_nonneg : 0 ≤ index.val
deriving DecidableEq, Repr

namespace Device

/-- The constructor; the error is the text of its `std::invalid_argument`. -/
def make (type : DeviceType) (index : DeviceIndex) : Except String Device :=
  if ht : isValidDeviceType type = true then
    if hi : 0 ≤ index.val then .ok ⟨type, index, ht, hi⟩
    else .error "device index must be non-negative"
  else .error "invalid device type"

/-- `Device{DeviceType::kCPU}`. -/
def cpu : Device := ⟨.kCPU, kDefaultDeviceIndex, rfl, by decide⟩

end Device

end Gradyx
