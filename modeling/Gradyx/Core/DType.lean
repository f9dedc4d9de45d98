import Mathlib.Data.Nat.Notation

/-!
# Element types

`include/gradyx/core/dtype.h`: the enumeration. `Scalar::dtype` and the traits of
the C++ element types name its members; the table of names and sizes is in
`Gradyx.Core.DTypeTable`.
-/

namespace Gradyx

inductive DType where
  | kBool
  | kUInt8
  | kInt8
  | kInt16
  | kInt32
  | kInt64
  | kFloat16
  | kBFloat16
  | kFloat32
  | kFloat64
  | kComplex64
  | kComplex128
  | kUInt64
deriving DecidableEq, Repr

end Gradyx
