import Gradyx.Core.DType
import Gradyx.Core.IntType
import Gradyx.Core.Status
import Gradyx.Lib.Text

/-!
# The table of element types

`src/core/dtype.cc`. A `DType` argument is any byte, as an enumeration with a fixed
underlying type is in C++; `DType.byte` is the byte of an enumerator. Sizes and
alignments come from the compiler. A stream prints an unsigned number in decimal.

* `dtype_text_roundTrip`: `dtype_name` and `parse_dtype` undo each other, and so does
  printing, which tells all bytes apart.
-/

namespace Gradyx

open Lib

/-- `sizeof(T)` and `alignof(T)` of the C++ type that has the `DType`. -/
structure Abi where
  sizeOf : DType → ℕ
  alignOf : DType → ℕ

/-- What the language says of them; the element types are small. -/
structure Abi.Conforms (A : Abi) : Prop where
  alignOf_pow : ∀ d, ∃ k, A.alignOf d = 2 ^ k
  alignOf_dvd : ∀ d, A.alignOf d ∣ A.sizeOf d
  sizeOf_pos : ∀ d, 0 < A.sizeOf d
  sizeOf_lt : ∀ d, A.sizeOf d < 2 ^ 8

/-- The value of an enumerator. -/
def DType.byte : DType → UInt8
  | .kBool => 0
  | .kUInt8 => 1
  | .kInt8 => 2
  | .kInt16 => 3
  | .kInt32 => 4
  | .kInt64 => 5
  | .kFloat16 => 6
  | .kBFloat16 => 7
  | .kFloat32 => 8
  | .kFloat64 => 9
  | .kComplex64 => 10
  | .kComplex128 => 11
  | .kUInt64 => 12

inductive DTypeCategory where
  | kBoolean
  | kUnsignedInteger
  | kSignedInteger
  | kFloating
  | kComplex
deriving DecidableEq, Repr

structure DTypeInfo where
  name : List Char
  sizeBytes : UInt8
  alignment : UInt8
  category : DTypeCategory
deriving DecidableEq, Repr

def isValidDType (dtype : UInt8) : Bool := DType.kBool.byte ≤ dtype && dtype ≤ DType.kUInt64.byte

section Table

variable (A : Abi)

/-- `make_dtype_info<T>`. -/
def makeDTypeInfo (T : DType) (name : String) (category : DTypeCategory) : DTypeInfo where
  name := name.toList
  sizeBytes := .ofNat (A.sizeOf T)
  alignment := .ofNat (A.alignOf T)
  category

def kDTypeTable : List DTypeInfo :=
  [makeDTypeInfo A .kBool "bool" .kBoolean,
    makeDTypeInfo A .kUInt8 "uint8" .kUnsignedInteger,
    makeDTypeInfo A .kInt8 "int8" .kSignedInteger,
    makeDTypeInfo A .kInt16 "int16" .kSignedInteger,
    makeDTypeInfo A .kInt32 "int32" .kSignedInteger,
    makeDTypeInfo A .kInt64 "int64" .kSignedInteger,
    makeDTypeInfo A .kFloat16 "float16" .kFloating,
    makeDTypeInfo A .kBFloat16 "bfloat16" .kFloating,
    makeDTypeInfo A .kFloat32 "float32" .kFloating,
    makeDTypeInfo A .kFloat64 "float64" .kFloating,
    makeDTypeInfo A .kComplex64 "complex64" .kComplex,
    makeDTypeInfo A .kComplex128 "complex128" .kComplex,
    makeDTypeInfo A .kUInt64 "uint64" .kUnsignedInteger]

def findDTypeInfo (dtype : UInt8) : Option DTypeInfo :=
  if !isValidDType dtype then none else (kDTypeTable A)[dtype.toNat]?

def dtypeInfo (dtype : UInt8) : Except Status DTypeInfo :=
  match findDTypeInfo A dtype with
  | none => .error (.invalidArgument "invalid DType value")
  | some info => .ok info

def dtypeName (dtype : UInt8) : Except Status (List Char) := do
  let info ← dtypeInfo A dtype
  return info.name

def elementSize (dtype : UInt8) : Except Status IntType.uint64.Val := do
  let info ← dtypeInfo A dtype
  return IntType.uint64.cast info.sizeBytes.toNat

def parseDType (text : List Char) : Except Status UInt8 :=
  match (kDTypeTable A).findIdx? (fun info => info.name == text) with
  | some index => .ok (.ofNat index)
  | none => .error (.invalidArgument ("unknown dtype: " ++ String.ofList text))

/-- `operator<<`. -/
def printDType (dtype : UInt8) : List Char :=
  match findDTypeInfo A dtype with
  | some info => info.name
  | none => "invalid_dtype".toList ++ '(' :: Nat.toDigits 10 dtype.toNat ++ [')']

end Table

/-! ## Lookup -/

def dtypeNames : List (List Char) :=
  ["bool".toList, "uint8".toList, "int8".toList, "int16".toList, "int32".toList, "int64".toList,
    "float16".toList, "bfloat16".toList, "float32".toList, "float64".toList, "complex64".toList,
    "complex128".toList, "uint64".toList]

theorem dtypeNames_nodup : dtypeNames.Nodup := by decide

theorem dtypeNames_plain : ∀ name ∈ dtypeNames, '(' ∉ name := by decide

variable {A : Abi} {dtype : UInt8}

theorem names_eq : (kDTypeTable A).map DTypeInfo.name = dtypeNames := rfl

theorem isValidDType_iff : isValidDType dtype = true ↔ dtype.toNat < dtypeNames.length := by
  have hlow : DType.kBool.byte ≤ dtype := UInt8.le_iff_toNat_le.mpr (Nat.zero_le _)
  have hlength : dtypeNames.length = DType.kUInt64.byte.toNat + 1 := rfl
  rw [isValidDType, decide_eq_true hlow, Bool.true_and, decide_eq_true_eq, UInt8.le_iff_toNat_le,
    hlength, Nat.lt_succ_iff]

/-- The check stands before every access, so no access is outside the table. -/
theorem findDTypeInfo_eq : findDTypeInfo A dtype = (kDTypeTable A)[dtype.toNat]? := by
  unfold findDTypeInfo
  split
  · next h =>
      rw [eq_comm, List.getElem?_eq_none_iff]
      have hnot : ¬ dtype.toNat < dtypeNames.length := by
        rw [← isValidDType_iff]
        simpa using h
      exact Nat.le_of_not_lt hnot
  · rfl

theorem findDTypeInfo_name :
    (findDTypeInfo A dtype).map DTypeInfo.name = dtypeNames[dtype.toNat]? := by
  rw [findDTypeInfo_eq, ← List.getElem?_map, names_eq]

theorem dtypeName_iff {name : List Char} :
    dtypeName A dtype = .ok name ↔ dtypeNames[dtype.toNat]? = some name := by
  rw [← findDTypeInfo_name (A := A), dtypeName, dtypeInfo]
  cases findDTypeInfo A dtype with
  | none =>
      constructor
      · intro h
        cases h
      · intro h
        cases h
  | some info =>
      rw [Option.map_some, Option.some.injEq]
      exact ⟨Except.ok.inj, congrArg Except.ok⟩

theorem printDType_eq :
    printDType A dtype = printCode dtypeNames "invalid_dtype".toList dtype.toNat := by
  have hname : (findDTypeInfo A dtype).map DTypeInfo.name = dtypeNames[dtype.toNat]? :=
    findDTypeInfo_name
  rw [printDType, printCode, ← hname]
  cases findDTypeInfo A dtype <;> rfl

theorem toNat_ofNat_index {i : ℕ} (h : i < dtypeNames.length) : (UInt8.ofNat i).toNat = i := by
  have hsize : dtypeNames.length ≤ UInt8.size := by decide
  exact UInt8.toNat_ofNat_of_lt' (Nat.lt_of_lt_of_le h hsize)

theorem parseDType_iff {text : List Char} :
    parseDType A text = .ok dtype ↔ dtypeNames[dtype.toNat]? = some text := by
  have hindex : ∀ {i}, (kDTypeTable A).findIdx? (fun info => info.name == text) = some i ↔
      dtypeNames[i]? = some text :=
    findIdx?_key_iff (l := kDTypeTable A) (by rw [names_eq]; exact dtypeNames_nodup)
  unfold parseDType
  constructor
  · intro h
    split at h
    · next i hi =>
        have hname := hindex.mp hi
        rw [← Except.ok.inj h, toNat_ofNat_index (List.getElem?_eq_some_iff.mp hname).1]
        exact hname
    · cases h
  · intro h
    rw [hindex.mpr h]
    exact congrArg Except.ok UInt8.ofNat_toNat

/-! ## Texts -/

/-- `dtype_name` and `parse_dtype` undo each other, for every byte and every text; any
other text is refused; no two bytes are printed alike; and what is printed is parsed back
to the byte exactly for the bytes that are a `DType`. -/
theorem dtype_text_roundTrip (A : Abi) :
    (∀ text dtype, parseDType A text = .ok dtype ↔ dtypeName A dtype = .ok text) ∧
    (∀ text, FailsWith (parseDType A text) .kInvalidArgument ↔
      ∀ dtype, dtypeName A dtype ≠ .ok text) ∧
    Function.Injective (printDType A) ∧
    ∀ dtype dtype', parseDType A (printDType A dtype) = .ok dtype' ↔
      dtype' = dtype ∧ isValidDType dtype = true := by
  have hround : ∀ text dtype, parseDType A text = .ok dtype ↔ dtypeName A dtype = .ok text := by
    intro text dtype
    rw [parseDType_iff, dtypeName_iff]
  refine ⟨hround, ?_, ?_, ?_⟩
  · intro text
    constructor
    · intro hfails dtype hname
      exact not_failsWith_of_ok ((hround text dtype).mpr hname) _ hfails
    · intro hnone
      cases h : parseDType A text with
      | ok dtype => exact absurd ((hround text dtype).mp h) (hnone dtype)
      | error e =>
          unfold parseDType at h
          split at h
          · cases h
          · rw [← Except.error.inj h]
            exact ⟨_, rfl, rfl⟩
  · intro dtype dtype' h
    rw [printDType_eq, printDType_eq] at h
    exact UInt8.toNat_inj.mp (printCode_injective dtypeNames_nodup dtypeNames_plain h)
  · intro dtype dtype'
    rw [parseDType_iff, printDType_eq, getElem?_printCode dtypeNames_nodup dtypeNames_plain,
      UInt8.toNat_inj, isValidDType_iff]

/-! ## The enumerators -/

/-- The entry of an enumerator is about its own type. -/
theorem dtypeInfo_byte (A : Abi) (d : DType) : ∃ info, dtypeInfo A d.byte = .ok info ∧
    info.sizeBytes = .ofNat (A.sizeOf d) ∧ info.alignment = .ofNat (A.alignOf d) := by
  cases d <;> exact ⟨_, rfl, rfl, rfl⟩

end Gradyx
