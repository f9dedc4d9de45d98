import Gradyx.Core.Device
import Gradyx.Core.IntType
import Gradyx.Core.Status
import Gradyx.Lib.FromChars
import Mathlib.Data.List.Basic

/-!
# Parsing a device

`src/core/device.cc`. A text is the list of its code units; `parse` returns a
`Result<Device>`, and outside it the text of an exception of the constructor.

* `parse_split` is what `parse` computes from the text before and after the first
  colon, `parseIndex_digits`, `parseIndex_minus` and `parseIndex_other` what it
  makes of an index.
* `Grammar` is the language that `parse` is to accept.
-/

namespace Gradyx

open Lib

def parseDeviceType (text : List Char) : Except Status DeviceType :=
  if text = "cpu".toList then .ok .kCPU
  else if text = "cuda".toList then .ok .kCUDA
  else if text = "meta".toList then .ok .kMeta
  else .error (.invalidArgument ("unknown device type: " ++ String.ofList text))

namespace DeviceIndex

/-- `std::numeric_limits<DeviceIndex>::max()`. -/
def max : ℤ := 2 ^ 31 - 1

theorem bmod_inRange (z : ℤ) : -2 ^ 31 ≤ z.bmod (2 ^ 32) ∧ z.bmod (2 ^ 32) < 2 ^ 31 :=
  ⟨Int.le_bmod (by decide), Int.bmod_lt (by decide)⟩

/-- `static_cast<DeviceIndex>`. -/
def cast (z : ℤ) : DeviceIndex := ⟨z.bmod (2 ^ 32), bmod_inRange z⟩

theorem cast_val {z : ℤ} (hlo : 0 ≤ z) (hhi : z ≤ max) : (cast z).val = z := by
  refine Int.bmod_eq_of_le (le_trans (by decide) hlo) (lt_of_le_of_lt hhi (by decide))

end DeviceIndex

namespace Device

/-! ## The parser -/

/-- The text after the separator. -/
def parseIndex (indexText : List Char) : Except Status DeviceIndex :=
  if indexText = [] then .error (.invalidArgument "device index must not be empty")
  else
    let result := fromChars IntType.int64.min IntType.int64.max indexText
    match result.value, result.rest with
    | .ok wideIndex, [] =>
        if wideIndex < 0 ∨ DeviceIndex.max < wideIndex then
          .error (.outOfRange ("device index is out of range: " ++ String.ofList indexText))
        else .ok (DeviceIndex.cast wideIndex)
    | _, _ => .error (.invalidArgument ("invalid device index: " ++ String.ofList indexText))

/-- The type and the index of a text. -/
def parseParts (text : List Char) : Except Status (DeviceType × DeviceIndex) :=
  if text = [] then .error (.invalidArgument "device string must not be empty")
  else
    -- `substr(0, npos)` is the whole text
    let separator := text.findIdx? (· == ':')
    let typeText := match separator with
      | none => text
      | some i => text.take i
    do
      let type ← parseDeviceType typeText
      let index ← match separator with
        | none => .ok kDefaultDeviceIndex
        | some i => parseIndex (text.drop (i + 1))
      return (type, index)

/-- `Device::parse`. -/
def parse (text : List Char) : Except String (Except Status Device) :=
  match parseParts text with
  | .error status => .ok (.error status)
  | .ok (type, index) => (make type index).map .ok

/-! ## The language -/

/-- The names of the device types. -/
def typeNames : List (List Char × DeviceType) :=
  [("cpu".toList, .kCPU), ("cuda".toList, .kCUDA), ("meta".toList, .kMeta)]

/-- The texts that name a device, with its type and its index. -/
inductive Grammar : List Char → DeviceType → ℕ → Prop where
  | type {name : List Char} {type : DeviceType} (hname : (name, type) ∈ typeNames) :
      Grammar name type 0
  | indexed {name digits : List Char} {type : DeviceType} (hname : (name, type) ∈ typeNames)
      (hdigits : IsDigits digits) (hmax : decimal digits ≤ 2 ^ 31 - 1) :
      Grammar (name ++ ':' :: digits) type (decimal digits)

/-- `parse` does with the text what the grammar says. -/
def FollowsGrammar (text : List Char) : Prop :=
  ((∃ d, parse text = .ok (.ok d)) ↔ ∃ type index, Grammar text type index) ∧
  ∀ d type index, parse text = .ok (.ok d) → Grammar text type index →
    d.type = type ∧ d.index.val = index

/-- `parse` returns an error with the code. -/
def Fails (text : List Char) (code : ErrorCode) : Prop :=
  ∃ r, parse text = .ok r ∧ FailsWith r code

/-- A name followed by a minus sign and zeros. -/
def NegativeZero (text : List Char) : Prop :=
  ∃ name type zeros, (name, type) ∈ typeNames ∧ zeros ≠ [] ∧ (∀ c ∈ zeros, c = '0') ∧
    text = name ++ ':' :: '-' :: zeros

/-! ## What the parser computes -/

theorem parseDeviceType_of_mem {name : List Char} {type : DeviceType}
    (h : (name, type) ∈ typeNames) : parseDeviceType name = .ok type := by
  simp only [typeNames, List.mem_cons, List.not_mem_nil, or_false, Prod.mk.injEq] at h
  rcases h with ⟨rfl, rfl⟩ | ⟨rfl, rfl⟩ | ⟨rfl, rfl⟩ <;> rfl

theorem parseDeviceType_error {name : List Char} (h : ∀ type, (name, type) ∉ typeNames) :
    FailsWith (parseDeviceType name) .kInvalidArgument := by
  have hname : name ≠ "cpu".toList ∧ name ≠ "cuda".toList ∧ name ≠ "meta".toList := by
    refine ⟨?_, ?_, ?_⟩ <;> rintro rfl
    · exact h .kCPU (by decide)
    · exact h .kCUDA (by decide)
    · exact h .kMeta (by decide)
  rw [parseDeviceType, if_neg hname.1, if_neg hname.2.1, if_neg hname.2.2]
  exact ⟨_, rfl, rfl⟩

theorem typeNames_spec : ∀ p ∈ typeNames, p.1 ≠ [] ∧ ':' ∉ p.1 ∧ isValidDeviceType p.2 = true := by
  decide

theorem parseParts_of_not_mem {text : List Char} (hne : text ≠ []) (h : ':' ∉ text) :
    parseParts text = (parseDeviceType text >>= fun type => .ok (type, kDefaultDeviceIndex)) := by
  have hfind : text.findIdx? (· == ':') = none := by
    rw [List.findIdx?_eq_none_iff]
    intro c hc
    exact beq_false_of_ne (ne_of_mem_of_not_mem hc h)
  rw [parseParts, if_neg hne]
  simp only [hfind]
  rfl

theorem find_separator {name : List Char} (rest : List Char) (h : ':' ∉ name) :
    (name ++ ':' :: rest).findIdx? (· == ':') = some name.length := by
  have hname : name.findIdx? (· == ':') = none := by
    rw [List.findIdx?_eq_none_iff]
    intro c hc
    exact beq_false_of_ne (ne_of_mem_of_not_mem hc h)
  rw [List.findIdx?_append, hname, List.findIdx?_cons]
  simp

/-- The first colon splits a text in one way. -/
theorem split_inj {name name' rest rest' : List Char} (h : ':' ∉ name) (h' : ':' ∉ name')
    (heq : name ++ ':' :: rest = name' ++ ':' :: rest') : name = name' ∧ rest = rest' := by
  have hfind := find_separator rest h
  rw [heq, find_separator rest' h'] at hfind
  obtain ⟨hname, hrest⟩ := List.append_inj heq (Option.some.inj hfind).symm
  exact ⟨hname, (List.cons.inj hrest).2⟩

theorem parseParts_split {name : List Char} (rest : List Char) (h : ':' ∉ name) :
    parseParts (name ++ ':' :: rest) =
      (parseDeviceType name >>= fun type => parseIndex rest >>= fun index => .ok (type, index)) := by
  have hne : name ++ ':' :: rest ≠ [] := List.append_ne_nil_of_right_ne_nil _ (List.cons_ne_nil _ _)
  have hdrop : (name ++ ':' :: rest).drop (name.length + 1) = rest := by
    rw [List.drop_length_add_append]
    rfl
  rw [parseParts, if_neg hne]
  simp only [find_separator rest h, List.take_left, hdrop]
  rfl

/-! ## What the parser makes of an index -/

/-- A numeral that `from_chars` reads to its end meets the two range checks. -/
theorem parseIndex_numeral {text : List Char} {v : ℤ} (hne : text ≠ [])
    (h : fromChars IntType.int64.min IntType.int64.max text =
      ⟨fit IntType.int64.min IntType.int64.max v, []⟩) :
    (0 ≤ v ∧ v ≤ DeviceIndex.max ∧ parseIndex text = .ok (DeviceIndex.cast v)) ∨
    ((v < 0 ∨ DeviceIndex.max < v) ∧ IntType.int64.InRange v ∧
      FailsWith (parseIndex text) .kOutOfRange) ∨
    (¬ IntType.int64.InRange v ∧ FailsWith (parseIndex text) .kInvalidArgument) := by
  rw [parseIndex, if_neg hne]
  simp only [h]
  by_cases hin : IntType.int64.InRange v
  · rw [fit_ok hin.1 hin.2]
    by_cases hout : v < 0 ∨ DeviceIndex.max < v
    · exact .inr (.inl ⟨hout, hin, _, if_pos hout, rfl⟩)
    · obtain ⟨hlo, hhi⟩ := not_or.mp hout
      exact .inl ⟨not_lt.mp hlo, not_lt.mp hhi, if_neg hout⟩
  · have hout : v < IntType.int64.min ∨ IntType.int64.max < v := by
      by_contra hcon
      obtain ⟨hlo, hhi⟩ := not_or.mp hcon
      exact hin ⟨not_lt.mp hlo, not_lt.mp hhi⟩
    rw [fit_error hout]
    exact .inr (.inr ⟨hin, _, rfl, rfl⟩)

/-- The two range checks, of `from_chars` and of `parse`, on a string of digits. -/
theorem parseIndex_digits {text : List Char} (h : IsDigits text) :
    (decimal text ≤ 2 ^ 31 - 1 ∧ parseIndex text = .ok (DeviceIndex.cast (decimal text))) ∨
    (2 ^ 31 - 1 < decimal text ∧ decimal text ≤ 2 ^ 63 - 1 ∧
      FailsWith (parseIndex text) .kOutOfRange) ∨
    (2 ^ 63 - 1 < decimal text ∧ FailsWith (parseIndex text) .kInvalidArgument) := by
  have hmin : IntType.int64.min = -2 ^ 63 := rfl
  have hmax : IntType.int64.max = 2 ^ 63 - 1 := rfl
  have hindex : DeviceIndex.max = 2 ^ 31 - 1 := rfl
  rcases parseIndex_numeral h.1 (fromChars_digits h) with ⟨-, hle, hok⟩ | ⟨hout, hin, hfails⟩ |
    ⟨hout, hfails⟩
  · exact .inl ⟨by omega, hok⟩
  · have hfit := hin.2
    exact .inr (.inl ⟨by omega, by omega, hfails⟩)
  · refine .inr (.inr ⟨?_, hfails⟩)
    by_contra hle
    exact hout ⟨by omega, by omega⟩

/-- After a minus sign only zero passes. -/
theorem parseIndex_minus {tail : List Char} (h : IsDigits tail) :
    (decimal tail = 0 ∧ parseIndex ('-' :: tail) = .ok (DeviceIndex.cast 0)) ∨
    (decimal tail ≠ 0 ∧ ∃ code, FailsWith (parseIndex ('-' :: tail)) code) := by
  rcases parseIndex_numeral (List.cons_ne_nil _ _) (fromChars_minus h) with ⟨hlo, -, hok⟩ |
    ⟨hout, -, hfails⟩ | ⟨hout, hfails⟩
  · have hzero : decimal tail = 0 := by omega
    rw [hzero] at hok
    exact .inl ⟨hzero, hok⟩
  · refine .inr ⟨?_, _, hfails⟩
    intro hzero
    rw [hzero] at hout
    exact absurd hout (by decide)
  · refine .inr ⟨?_, _, hfails⟩
    intro hzero
    rw [hzero] at hout
    exact hout (by decide)

/-- An index that is no numeral is rejected. -/
theorem parseIndex_other {text : List Char} (h : ¬ IsDigits text)
    (hminus : ∀ tail, text = '-' :: tail → ¬ IsDigits tail) :
    FailsWith (parseIndex text) .kInvalidArgument := by
  by_cases hne : text = []
  · exact ⟨_, if_pos hne, rfl⟩
  · have hstops : (∃ e, (fromChars IntType.int64.min IntType.int64.max text).value = .error e) ∨
        (fromChars IntType.int64.min IntType.int64.max text).rest ≠ [] :=
      fromChars_stops h hminus
    rw [parseIndex, if_neg hne]
    dsimp only
    split
    · next hvalue hrest =>
        rcases hstops with ⟨e, he⟩ | hrest'
        · rw [hvalue] at he
          cases he
        · exact absurd hrest hrest'
    · exact ⟨_, rfl, rfl⟩

/-! ## What the parser makes of a text -/

variable {name rest : List Char} {type : DeviceType}

theorem typeNames_functional {type' : DeviceType} (h : (name, type) ∈ typeNames)
    (h' : (name, type') ∈ typeNames) : type = type' := by
  have hparse := parseDeviceType_of_mem h
  rw [parseDeviceType_of_mem h'] at hparse
  exact (Except.ok.inj hparse).symm

theorem parse_of_parts {text : List Char} {index : DeviceIndex} (hname : (name, type) ∈ typeNames)
    (hindex : 0 ≤ index.val) (h : parseParts text = .ok (type, index)) :
    ∃ d, parse text = .ok (.ok d) ∧ d.type = type ∧ d.index = index := by
  have hvalid := (typeNames_spec _ hname).2.2
  refine ⟨⟨type, index, hvalid, hindex⟩, ?_, rfl, rfl⟩
  rw [parse, h]
  simp only [make, dif_pos hvalid, dif_pos hindex]
  rfl

theorem fails_of_parts {text : List Char} {code : ErrorCode}
    (h : FailsWith (parseParts text) code) : Fails text code := by
  obtain ⟨e, he, hcode⟩ := h
  refine ⟨.error e, ?_, e, rfl, hcode⟩
  rw [parse, he]

theorem parse_name (hname : (name, type) ∈ typeNames) :
    ∃ d, parse name = .ok (.ok d) ∧ d.type = type ∧ d.index.val = 0 := by
  obtain ⟨hne, hcolon, -⟩ := typeNames_spec _ hname
  have hparts : parseParts name = .ok (type, kDefaultDeviceIndex) := by
    rw [parseParts_of_not_mem hne hcolon, parseDeviceType_of_mem hname]
    rfl
  obtain ⟨d, hd, htype, hindex⟩ := parse_of_parts hname le_rfl hparts
  exact ⟨d, hd, htype, congrArg Subtype.val hindex⟩

theorem parse_index_ok {v : ℤ} (hname : (name, type) ∈ typeNames) (hlo : 0 ≤ v)
    (hhi : v ≤ DeviceIndex.max) (h : parseIndex rest = .ok (DeviceIndex.cast v)) :
    ∃ d, parse (name ++ ':' :: rest) = .ok (.ok d) ∧ d.type = type ∧ d.index.val = v := by
  have hval := DeviceIndex.cast_val hlo hhi
  have hparts : parseParts (name ++ ':' :: rest) = .ok (type, DeviceIndex.cast v) := by
    rw [parseParts_split rest (typeNames_spec _ hname).2.1, parseDeviceType_of_mem hname, h]
    rfl
  obtain ⟨d, hd, htype, hindex⟩ := parse_of_parts hname (hlo.trans_eq hval.symm) hparts
  exact ⟨d, hd, htype, by rw [hindex, hval]⟩

theorem fails_index {code : ErrorCode} (hname : (name, type) ∈ typeNames)
    (h : FailsWith (parseIndex rest) code) : Fails (name ++ ':' :: rest) code := by
  obtain ⟨e, he, hcode⟩ := h
  refine fails_of_parts ⟨e, ?_, hcode⟩
  rw [parseParts_split rest (typeNames_spec _ hname).2.1, parseDeviceType_of_mem hname, he]
  rfl

theorem fails_unknown_split (rest : List Char) (hcolon : ':' ∉ name)
    (hname : ∀ type, (name, type) ∉ typeNames) :
    Fails (name ++ ':' :: rest) .kInvalidArgument := by
  obtain ⟨e, he, hcode⟩ := parseDeviceType_error hname
  refine fails_of_parts ⟨e, ?_, hcode⟩
  rw [parseParts_split rest hcolon, he]
  rfl

theorem fails_unknown (hcolon : ':' ∉ name) (hname : ∀ type, (name, type) ∉ typeNames) :
    Fails name .kInvalidArgument := by
  by_cases hne : name = []
  · exact fails_of_parts ⟨_, if_pos hne, rfl⟩
  · obtain ⟨e, he, hcode⟩ := parseDeviceType_error hname
    refine fails_of_parts ⟨e, ?_, hcode⟩
    rw [parseParts_of_not_mem hne hcolon, he]
    rfl

theorem not_ok_of_fails {text : List Char} {code : ErrorCode} (h : Fails text code) (d : Device) :
    parse text ≠ .ok (.ok d) := by
  obtain ⟨r, hr, hfails⟩ := h
  intro hd
  rw [hr] at hd
  cases hd
  exact failsWith_ok d code hfails

/-- A text has no colon, or a first one. -/
theorem split_cases (text : List Char) :
    ':' ∉ text ∨ ∃ name rest, ':' ∉ name ∧ text = name ++ ':' :: rest := by
  by_cases h : ':' ∈ text
  · obtain ⟨name, rest, htext, hname⟩ := List.eq_append_cons_of_mem h
    exact .inr ⟨name, rest, hname, htext⟩
  · exact .inl h

/-- A remainder is a string of digits, one after a minus sign, or neither. -/
theorem numeral_cases (rest : List Char) :
    IsDigits rest ∨ (∃ tail, rest = '-' :: tail ∧ IsDigits tail) ∨
      (¬ IsDigits rest ∧ ∀ tail, rest = '-' :: tail → ¬ IsDigits tail) := by
  by_cases h : IsDigits rest
  · exact .inl h
  · by_cases hminus : ∃ tail, rest = '-' :: tail ∧ IsDigits tail
    · exact .inr (.inl hminus)
    · exact .inr (.inr ⟨h, fun tail htail hdigits => hminus ⟨tail, htail, hdigits⟩⟩)

/-! ## Acceptance -/

theorem grammar_of_not_mem {n : ℕ} (hcolon : ':' ∉ name) :
    Grammar name type n ↔ (name, type) ∈ typeNames ∧ n = 0 := by
  constructor
  · rintro (h | ⟨hname, -, -⟩)
    · exact ⟨h, rfl⟩
    · exact absurd (List.mem_append_right _ List.mem_cons_self) hcolon
  · rintro ⟨hname, rfl⟩
    exact .type hname

theorem grammar_split {n : ℕ} (hcolon : ':' ∉ name) :
    Grammar (name ++ ':' :: rest) type n ↔
      (name, type) ∈ typeNames ∧ IsDigits rest ∧ decimal rest ≤ 2 ^ 31 - 1 ∧ n = decimal rest := by
  constructor
  · intro h
    generalize htext : name ++ ':' :: rest = text at h
    cases h with
    | type hname =>
        subst htext
        exact absurd (List.mem_append_right _ List.mem_cons_self) (typeNames_spec _ hname).2.1
    | indexed hname hdigits hmax =>
        obtain ⟨rfl, rfl⟩ := split_inj hcolon (typeNames_spec _ hname).2.1 htext
        exact ⟨hname, hdigits, hmax, rfl⟩
  · rintro ⟨hname, hdigits, hmax, rfl⟩
    exact .indexed hname hdigits hmax

theorem negativeZero_split (hcolon : ':' ∉ name) :
    NegativeZero (name ++ ':' :: rest) ↔ (∃ type, (name, type) ∈ typeNames) ∧
      ∃ tail, rest = '-' :: tail ∧ IsDigits tail ∧ decimal tail = 0 := by
  constructor
  · rintro ⟨name', type, zeros, hname, hne, hzeros, htext⟩
    obtain ⟨rfl, rfl⟩ := split_inj hcolon (typeNames_spec _ hname).2.1 htext
    have hdigits : ∀ c ∈ zeros, c.isDigit = true := by
      intro c hc
      rw [hzeros c hc]
      rfl
    exact ⟨⟨type, hname⟩, zeros, rfl, ⟨hne, hdigits⟩, (decimal_eq_zero_iff hdigits).mpr hzeros⟩
  · rintro ⟨⟨type, hname⟩, tail, rfl, hdigits, hzero⟩
    exact ⟨name, type, tail, hname, hdigits.1, (decimal_eq_zero_iff hdigits.2).mp hzero, rfl⟩

theorem followsGrammar_of_fails {text : List Char} {code : ErrorCode} (h : Fails text code)
    (hno : ∀ type n, ¬ Grammar text type n) : FollowsGrammar text := by
  refine ⟨iff_of_false ?_ ?_, fun d type n hd => absurd hd (not_ok_of_fails h d)⟩
  · rintro ⟨d, hd⟩
    exact not_ok_of_fails h d hd
  · rintro ⟨type, n, hg⟩
    exact hno type n hg

/-- A text that is accepted follows the grammar when the grammar has it with the
type and the index of the device. -/
theorem followsGrammar_of_ok {text : List Char} {d : Device} (h : parse text = .ok (.ok d))
    (hg : Grammar text d.type d.index.val.toNat)
    (huniq : ∀ type n, Grammar text type n → d.type = type ∧ d.index.val = n) :
    FollowsGrammar text := by
  refine ⟨iff_of_true ⟨d, h⟩ ⟨_, _, hg⟩, ?_⟩
  intro d' type n hd' hgrammar
  rw [h] at hd'
  cases hd'
  exact huniq type n hgrammar

/-- With a known name, what is after the colon decides. -/
theorem followsGrammar_index (hname : (name, type) ∈ typeNames) :
    FollowsGrammar (name ++ ':' :: rest) ↔
      ¬ ∃ tail, rest = '-' :: tail ∧ IsDigits tail ∧ decimal tail = 0 := by
  have hcolon := (typeNames_spec _ hname).2.1
  rcases numeral_cases rest with hdigits | ⟨tail, rfl, hdigits⟩ | ⟨hno, hminus⟩
  · refine iff_of_true ?_ ?_
    · have hlarge : 2 ^ 31 - 1 < decimal rest →
          ∀ type' n, ¬ Grammar (name ++ ':' :: rest) type' n := fun hlt type' n hg =>
        absurd ((grammar_split hcolon).mp hg).2.2.1 (not_le.mpr hlt)
      rcases parseIndex_digits hdigits with ⟨hle, hok⟩ | ⟨hlt, -, hfails⟩ | ⟨hlt, hfails⟩
      · have hmax : ((decimal rest : ℕ) : ℤ) ≤ DeviceIndex.max := by
          have hindex : DeviceIndex.max = 2 ^ 31 - 1 := rfl
          omega
        obtain ⟨d, hd, rfl, hindex⟩ := parse_index_ok hname (Int.natCast_nonneg _) hmax hok
        refine followsGrammar_of_ok hd ?_ ?_
        · rw [hindex, Int.toNat_natCast]
          exact .indexed hname hdigits hle
        · intro type' n hg
          obtain ⟨hname', -, -, rfl⟩ := (grammar_split hcolon).mp hg
          exact ⟨typeNames_functional hname hname', hindex⟩
      · exact followsGrammar_of_fails (fails_index hname hfails) (hlarge hlt)
      · exact followsGrammar_of_fails (fails_index hname hfails)
          (hlarge (lt_of_le_of_lt (by decide) hlt))
    · rintro ⟨tail, rfl, -⟩
      exact absurd (hdigits.2 '-' List.mem_cons_self) (by decide)
  · have hno : ∀ type' n, ¬ Grammar (name ++ ':' :: '-' :: tail) type' n := fun type' n hg =>
      absurd (((grammar_split hcolon).mp hg).2.1.2 '-' List.mem_cons_self) (by decide)
    rcases parseIndex_minus hdigits with ⟨hzero, hok⟩ | ⟨hzero, code, hfails⟩
    · -- the code accepts the text, the grammar does not have it
      refine iff_of_false ?_ (not_not.mpr ⟨tail, rfl, hdigits, hzero⟩)
      rintro ⟨haccepts, -⟩
      obtain ⟨d, hd, -⟩ := parse_index_ok hname le_rfl (by decide) hok
      obtain ⟨type', n, hg⟩ := haccepts.mp ⟨d, hd⟩
      exact hno type' n hg
    · refine iff_of_true (followsGrammar_of_fails (fails_index hname hfails) hno) ?_
      rintro ⟨tail', htail, -, hzero'⟩
      cases htail
      exact hzero hzero'
  · refine iff_of_true (followsGrammar_of_fails (fails_index hname (parseIndex_other hno hminus)) ?_) ?_
    · intro type' n hg
      exact hno ((grammar_split hcolon).mp hg).2.1
    · rintro ⟨tail, htail, hdigits, -⟩
      exact hminus tail htail hdigits

/-- `parse` accepts its grammar, and a negative zero. -/
theorem followsGrammar_iff (text : List Char) : FollowsGrammar text ↔ ¬ NegativeZero text := by
  rcases split_cases text with hcolon | ⟨name, rest, hcolon, rfl⟩
  · refine iff_of_true ?_ ?_
    · by_cases hname : ∃ type, (text, type) ∈ typeNames
      · obtain ⟨type, hname⟩ := hname
        obtain ⟨d, hd, rfl, hindex⟩ := parse_name hname
        refine followsGrammar_of_ok hd ?_ ?_
        · rw [hindex]
          exact .type hname
        · intro type' n hg
          obtain ⟨hname', rfl⟩ := (grammar_of_not_mem hcolon).mp hg
          exact ⟨typeNames_functional hname hname', hindex⟩
      · refine followsGrammar_of_fails (fails_unknown hcolon fun type h => hname ⟨type, h⟩) ?_
        intro type n hg
        exact hname ⟨type, ((grammar_of_not_mem hcolon).mp hg).1⟩
    · rintro ⟨name, -, zeros, -, -, -, rfl⟩
      exact hcolon (List.mem_append_right _ List.mem_cons_self)
  · rw [negativeZero_split hcolon]
    by_cases hname : ∃ type, (name, type) ∈ typeNames
    · obtain ⟨type, hname⟩ := hname
      rw [followsGrammar_index hname, and_iff_right ⟨type, hname⟩]
    · refine iff_of_true ?_ fun h => hname h.1
      have hfails := fails_unknown_split rest hcolon fun type h => hname ⟨type, h⟩
      refine followsGrammar_of_fails hfails ?_
      intro type n hg
      exact hname ⟨type, ((grammar_split hcolon).mp hg).1⟩

/-- The text "cpu:-0" is accepted. -/
theorem followsGrammar_fails : parse "cpu:-0".toList = .ok (.ok cpu) ∧
    ¬ FollowsGrammar "cpu:-0".toList := by
  have hparse : parse "cpu:-0".toList = .ok (.ok cpu) := rfl
  refine ⟨hparse, ?_⟩
  rintro ⟨haccepts, -⟩
  obtain ⟨type, n, hg⟩ := haccepts.mp ⟨cpu, hparse⟩
  have hsplit : Grammar ("cpu".toList ++ ':' :: "-0".toList) type n := hg
  have hdigits : IsDigits "-0".toList := ((grammar_split (by decide)).mp hsplit).2.1
  exact absurd hdigits (by decide)

/-! ## The errors of an index -/

/-- A text with an unknown name, or with an index that is not a numeral. -/
inductive Malformed : List Char → Prop where
  | unknown {name : List Char} (hcolon : ':' ∉ name) (hname : ∀ type, (name, type) ∉ typeNames) :
      Malformed name
  | unknownType {name : List Char} (rest : List Char) (hcolon : ':' ∉ name)
      (hname : ∀ type, (name, type) ∉ typeNames) : Malformed (name ++ ':' :: rest)
  | emptyIndex {name : List Char} (hcolon : ':' ∉ name) : Malformed (name ++ [':'])
  | badIndex {name rest : List Char} (hcolon : ':' ∉ name) {i : ℕ} {c : Char}
      (hc : rest[i]? = some c) (hdigit : c.isDigit = false) (hminus : ¬ (i = 0 ∧ c = '-')) :
      Malformed (name ++ ':' :: rest)

/-- A number beyond `int32` is out of range, and what is malformed is invalid. -/
def ClassifiesIndexErrors (text : List Char) : Prop :=
  (∀ name type digits, (name, type) ∈ typeNames → IsDigits digits →
    text = name ++ ':' :: digits → 2 ^ 31 - 1 < decimal digits → Fails text .kOutOfRange) ∧
  (Malformed text → Fails text .kInvalidArgument)

/-- A known name with a number that does not fit `int64`. -/
def BeyondInt64 (text : List Char) : Prop :=
  ∃ name type digits, (name, type) ∈ typeNames ∧ IsDigits digits ∧ 2 ^ 63 - 1 < decimal digits ∧
    text = name ++ ':' :: digits

theorem fails_invalid_index (hcolon : ':' ∉ name)
    (h : FailsWith (parseIndex rest) .kInvalidArgument) :
    Fails (name ++ ':' :: rest) .kInvalidArgument := by
  by_cases hname : ∃ type, (name, type) ∈ typeNames
  · obtain ⟨type, hname⟩ := hname
    exact fails_index hname h
  · exact fails_unknown_split rest hcolon fun type hmem => hname ⟨type, hmem⟩

theorem fails_of_malformed {text : List Char} (h : Malformed text) :
    Fails text .kInvalidArgument := by
  cases h with
  | unknown hcolon hname => exact fails_unknown hcolon hname
  | unknownType rest hcolon hname => exact fails_unknown_split rest hcolon hname
  | emptyIndex hcolon => exact fails_invalid_index hcolon ⟨_, rfl, rfl⟩
  | @badIndex name rest hcolon i c hc hdigit hminus =>
      refine fails_invalid_index hcolon (parseIndex_other ?_ ?_)
      · intro hdigits
        rw [hdigits.2 c (List.mem_of_getElem? hc)] at hdigit
        cases hdigit
      · rintro tail rfl hdigits
        cases i with
        | zero => exact hminus ⟨rfl, (Option.some.inj hc).symm⟩
        | succ i =>
            rw [hdigits.2 c (List.mem_of_getElem? hc)] at hdigit
            cases hdigit

theorem fails_unique {text : List Char} {code code' : ErrorCode} (h : Fails text code)
    (h' : Fails text code') : code = code' := by
  obtain ⟨r, hr, e, he, rfl⟩ := h
  obtain ⟨r', hr', e', he', rfl⟩ := h'
  rw [hr] at hr'
  cases hr'
  rw [he] at he'
  cases he'
  rfl

/-- The errors are classified unless a number does not fit `int64`. -/
theorem classifiesIndexErrors_iff (text : List Char) :
    ClassifiesIndexErrors text ↔ ¬ BeyondInt64 text := by
  constructor
  · rintro ⟨hrange, -⟩ ⟨name, type, digits, hname, hdigits, hlarge, rfl⟩
    -- `from_chars` reports the number like a text that is none
    have hlarge' : 2 ^ 31 - 1 < decimal digits := lt_of_le_of_lt (by decide) hlarge
    have hout := hrange name type digits hname hdigits rfl hlarge'
    rcases parseIndex_digits hdigits with ⟨hle, -⟩ | ⟨-, hle, -⟩ | ⟨-, hfails⟩
    · omega
    · omega
    · cases fails_unique hout (fails_index hname hfails)
  · intro hsmall
    refine ⟨?_, fails_of_malformed⟩
    rintro name type digits hname hdigits rfl hlarge
    rcases parseIndex_digits hdigits with ⟨hle, -⟩ | ⟨-, -, hfails⟩ | ⟨hbeyond, -⟩
    · omega
    · exact fails_index hname hfails
    · exact absurd ⟨name, type, digits, hname, hdigits, hbeyond, rfl⟩ hsmall

/-- `2^63` is out of range of a device index, and reported as no number. -/
theorem classifiesIndexErrors_fails : Fails "cpu:9223372036854775808".toList .kInvalidArgument ∧
    ¬ ClassifiesIndexErrors "cpu:9223372036854775808".toList := by
  have hfails : Fails "cpu:9223372036854775808".toList .kInvalidArgument := ⟨_, rfl, _, rfl, rfl⟩
  refine ⟨hfails, ?_⟩
  rintro ⟨hrange, -⟩
  have hout := hrange "cpu".toList .kCPU "9223372036854775808".toList (by decide) (by decide) rfl
    (by decide)
  cases fails_unique hout hfails

end Device

end Gradyx
