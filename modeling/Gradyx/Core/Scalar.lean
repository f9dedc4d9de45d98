import Gradyx.Core.DType
import Gradyx.Core.IntType
import Gradyx.Core.Status
import Gradyx.Lib.Rounding

/-!
# Scalar — a value of any element type

`include/gradyx/core/scalar.h`. A `Scalar` keeps a boolean, a 64-bit integer of
either signedness, a `double` or a pair of `double`s. `Scalar::to<T>` is
`toTarget`; it goes through `long double` for the floating targets.

Conversions round to nearest, ties to even. `long double` is any format with at
least 64 significand bits and the range of `double`.
-/

namespace Gradyx

open Lib

/-- `float`. -/
def binary32 : Format := ⟨24, -149, 104, by decide, by decide, by decide⟩

/-- `double`. -/
def binary64 : Format := ⟨53, -1074, 971, by decide, by decide, by decide⟩

/-- `long double`. -/
structure LongDouble where
  format : Format
  prec_ge : 64 ≤ format.prec
  emin_le : format.emin ≤ -1074
  emax_ge : 971 ≤ format.emax

/-- The floating types a scalar converts to. -/
inductive Precision where
  | float
  | double
deriving DecidableEq, Repr

def Precision.format : Precision → Format
  | .float => binary32
  | .double => binary64

inductive Scalar where
  | boolean (value : Bool)
  | signedInteger (value : IntType.int64.Val)
  | unsignedInteger (value : IntType.uint64.Val)
  | floating (value : Floating binary64)
  | complex (real imaginary : Floating binary64)

/-- The type argument of `Scalar::to`. -/
inductive Target where
  | bool
  | integer (t : IntType) (width_le : t.width ≤ 64)
  | floating (p : Precision)
  | complex (p : Precision)

/-- The values of the target type. -/
def Target.Value : Target → Type
  | .bool => Bool
  | .integer t _ => t.Val
  | .floating p => Floating p.format
  | .complex p => Floating p.format × Floating p.format

/-- `DTypeTraits`: the element type of a C++ type that has one. -/
def Target.dtype : Target → Option DType
  | .bool => some .kBool
  | .integer t _ =>
      match t.signed, t.width with
      | false, 8 => some .kUInt8
      | true, 8 => some .kInt8
      | true, 16 => some .kInt16
      | true, 32 => some .kInt32
      | true, 64 => some .kInt64
      | false, 64 => some .kUInt64
      | _, _ => none
  | .floating .float => some .kFloat32
  | .floating .double => some .kFloat64
  | .complex .float => some .kComplex64
  | .complex .double => some .kComplex128

/-! ## Checked conversions -/

def outOfRangeConversion : Status := .outOfRange "scalar conversion is out of range"

def nonzeroImaginary : Status :=
  .invalidArgument "cannot convert a scalar with a non-zero imaginary part"

section Detail

variable (L : LongDouble)

/-- `detail::floating_to_integer<T>`. -/
def floatingToInteger (t : IntType) (value : Floating L.format) : Except Status t.Val :=
  if value.isFinite = false then
    .error (.outOfRange "cannot convert a non-finite floating-point value to an integer")
  else if value.trunc.eq value = false then
    .error (.invalidArgument "cannot convert a fractional floating-point value to an integer")
  else
    let upperBound : Floating L.format := L.format.ofRat (2 ^ t.digits)
    if t.signed = true then
      if value.lt upperBound.neg = true ∨ upperBound.le value = true then
        .error outOfRangeConversion
      else .ok (t.cast value.toInt)
    else
      if value.lt (.zero L.format) = true ∨ upperBound.le value = true then
        .error outOfRangeConversion
      else .ok (t.cast value.toInt)

/-- `detail::checked_floating_cast<T>`. -/
def checkedFloatingCast (F : Format) (value : Floating L.format) : Except Status (Floating F) :=
  let maximum : Floating L.format := (Floating.largest F).convert L.format
  if value.isFinite = true ∧ (value.lt maximum.neg = true ∨ maximum.lt value = true) then
    .error outOfRangeConversion
  else .ok (value.convert F)

end Detail

namespace Scalar

/-! ## Construction -/

/-- `Scalar(float)`, `Scalar(double)`. -/
def ofFloating : (p : Precision) → Floating p.format → Scalar
  | .float, value => .floating (value.convert binary64)
  | .double, value => .floating value

/-- `Scalar(std::complex<float>)`, `Scalar(std::complex<double>)`. -/
def ofComplex : (p : Precision) → Floating p.format × Floating p.format → Scalar
  | .float, value => .complex (value.1.convert binary64) (value.2.convert binary64)
  | .double, value => .complex value.1 value.2

def dtype : Scalar → DType
  | .boolean _ => .kBool
  | .signedInteger _ => .kInt64
  | .unsignedInteger _ => .kUInt64
  | .floating _ => .kFloat64
  | .complex _ _ => .kComplex128

variable (L : LongDouble)

/-! ## Conversions -/

def toBool : Scalar → Except Status Bool
  | .boolean b => .ok b
  | .signedInteger i =>
      if i.val = 0 ∨ i.val = 1 then .ok (i.val = 1) else .error notBool
  | .unsignedInteger u =>
      if u.val = 0 ∨ u.val = 1 then .ok (u.val = 1) else .error notBool
  | .floating x =>
      if x.eq (binary64.ofRat 0) = true ∨ x.eq (binary64.ofRat 1) = true then
        .ok (x.eq (binary64.ofRat 1))
      else .error notBool
  | .complex re im =>
      if im.eq (binary64.ofRat 0) = true ∧
          (re.eq (binary64.ofRat 0) = true ∨ re.eq (binary64.ofRat 1) = true) then
        .ok (re.eq (binary64.ofRat 1))
      else .error notBool
where
  notBool : Status := .invalidArgument "only scalar values 0 and 1 can be converted to bool"

def toInteger (t : IntType) : Scalar → Except Status t.Val
  | .boolean b => .ok (t.cast (if b then 1 else 0))
  | .signedInteger i =>
      if ¬ t.InRange i.val then .error outOfRangeConversion else .ok (t.cast i.val)
  | .unsignedInteger u =>
      if ¬ t.InRange u.val then .error outOfRangeConversion else .ok (t.cast u.val)
  | .floating x => floatingToInteger L t (x.convert L.format)
  | .complex re im =>
      if im.eq (binary64.ofRat 0) = false then .error nonzeroImaginary
      else floatingToInteger L t (re.convert L.format)

def toReal : Scalar → Except Status (Floating L.format)
  | .boolean b => .ok (if b then L.format.ofRat 1 else L.format.ofRat 0)
  | .signedInteger i => .ok (L.format.ofRat i.val)
  | .unsignedInteger u => .ok (L.format.ofRat u.val)
  | .floating x => .ok (x.convert L.format)
  | .complex re im =>
      if im.eq (binary64.ofRat 0) = false then .error nonzeroImaginary
      else .ok (re.convert L.format)

def complexParts : Scalar → Floating binary64 × Floating binary64
  | .boolean b => (if b then binary64.ofRat 1 else binary64.ofRat 0, binary64.ofRat 0)
  | .signedInteger i => (binary64.ofRat i.val, binary64.ofRat 0)
  | .unsignedInteger u => (binary64.ofRat u.val, binary64.ofRat 0)
  | .floating x => (x, binary64.ofRat 0)
  | .complex re im => (re, im)

/-- `Scalar::to<T>`. -/
def toTarget : (T : Target) → Scalar → Except Status T.Value
  | .bool, s => s.toBool
  | .integer t _, s => s.toInteger L t
  | .floating p, s => do
      let real ← s.toReal L
      checkedFloatingCast L p.format real
  | .complex p, s => do
      let parts := s.complexParts
      let real ← checkedFloatingCast L p.format (parts.1.convert L.format)
      let imaginary ← checkedFloatingCast L p.format (parts.2.convert L.format)
      return (real, imaginary)

end Scalar

end Gradyx
