import Gradyx.Core.DataPtr
import Gradyx.Core.DeviceStr

/-!
# CpuAllocator — allocating aligned memory

`CpuAllocator::allocate` and `CpuRuntime::capabilities` of `backend/cpu/runtime.cc`.
The platform has `posix_memalign` and the sizes of its types; `Conforms` is what
their documentation says of them.

* `request` is `allocate` up to its call of `posix_memalign`, `allocate` goes on
  with what the call returned.
* `request_cases`: what the checks let pass, and what they return otherwise.
* `allocate_cases`: the outcomes of a request.
* `allocate_contract`: what is refused, what `posix_memalign` is asked for, and what
  the owner of a block gets.
-/

namespace Gradyx

/-- `is_power_of_two`. -/
def isPowerOfTwo (value : UInt64) : Bool := value != 0 && (value &&& (value - 1)) == 0

/-- The errors of `posix_memalign`. -/
inductive Errno where
  | EINVAL
  | ENOMEM
deriving DecidableEq, Repr

structure RuntimeCapabilities where
  asynchronousExecution : Bool := false
  pinnedMemory : Bool := false
  minimumAlignment : UInt64
deriving DecidableEq, Repr

/-- `alignof(std::max_align_t)`, `sizeof(void*)`, `posix_memalign`, the number that a
pointer is as a `std::uintptr_t`, and the pointer to the function `free_cpu_memory`. -/
structure Platform where
  maxAlign : UInt64
  pointerSize : UInt64
  posixMemalign : UInt64 → UInt64 → Except Errno DataPtr.Addr
  address : DataPtr.Addr → ℕ
  freeCpuMemory : DataPtr.Addr

namespace Platform

/-- The alignments that `posix_memalign` accepts. -/
def ValidAlignment (P : Platform) (alignment : UInt64) : Prop :=
  (∃ k, alignment.toNat = 2 ^ k) ∧ P.pointerSize.toNat ∣ alignment.toNat

/-- The documentation: both sizes are powers of two, a block has the alignment it was
asked for, and `EINVAL` is the error of an alignment that is not valid. -/
structure Conforms (P : Platform) : Prop where
  maxAlign_pow : ∃ k, P.maxAlign.toNat = 2 ^ k
  pointerSize_pow : ∃ k, P.pointerSize.toNat = 2 ^ k
  pointerSize_le : P.pointerSize.toNat ≤ P.maxAlign.toNat
  aligned : ∀ alignment size data, P.ValidAlignment alignment →
    P.posixMemalign alignment size = .ok data → alignment.toNat ∣ P.address data
  invalid : ∀ alignment size, P.posixMemalign alignment size = .error .EINVAL →
    ¬ P.ValidAlignment alignment

/-- What a call of a deleter hands to `std::free`: `free_cpu_memory` does not use
its context. -/
def freed (P : Platform) (c : DataPtr.Call) : Option DataPtr.Addr :=
  if c.deleter = P.freeCpuMemory then some c.data else none

end Platform

namespace CpuAllocator

/-- `std::numeric_limits<std::ptrdiff_t>::max()`. -/
def ptrdiffMax : UInt64 := .ofNat (2 ^ 63 - 1)

/-- `std::max`. -/
def max (a b : UInt64) : UInt64 := if a < b then b else a

def onlyCpu : Status := .invalidArgument "CPU allocator only accepts cpu:0"

def notPowerOfTwo : Status := .invalidArgument "allocation alignment must be a power of two"

def tooSmall : Status := .invalidArgument "allocation alignment is too small"

def exhausted (bytes : UInt64) (device : Device) : Status :=
  .error .kResourceExhausted ("CPU allocator cannot allocate " ++ toString bytes.toNat ++
    " bytes on " ++ String.ofList device.str)

variable (P : Platform) (bytes alignment : UInt64) (device : Device)

/-- `allocate` up to its call of `posix_memalign`: what it returns before, or the
arguments of the call. -/
def request : Except (Except Status DataPtr) (UInt64 × UInt64) :=
  if device ≠ .cpu then .error (.error onlyCpu)
  else if isPowerOfTwo alignment = false then .error (.error notPowerOfTwo)
  else if bytes = 0 then .error (.ok {})
  else
    let actualAlignment := max alignment P.maxAlign
    if actualAlignment < P.pointerSize then .error (.error tooSmall)
    else if ptrdiffMax < bytes then .error (.error (exhausted bytes device))
    else .ok (actualAlignment, bytes)

/-- `CpuAllocator::allocate`. -/
def allocate : Except Status DataPtr :=
  match request P bytes alignment device with
  | .error result => result
  | .ok (actualAlignment, size) =>
      match P.posixMemalign actualAlignment size with
      | .error _ => .error (exhausted bytes device)
      | .ok data =>
          .ok (DataPtr.construct ⟨some data, bytes.toNat, device⟩ none (some P.freeCpuMemory))

/-- `CpuRuntime::capabilities`. -/
def capabilities (_ : Device) : RuntimeCapabilities where
  asynchronousExecution := false
  pinnedMemory := false
  minimumAlignment := P.maxAlign

/-! ## Powers of two -/

/-- The bit trick. -/
theorem isPowerOfTwo_iff (value : UInt64) :
    isPowerOfTwo value = true ↔ ∃ k, value.toNat = 2 ^ k := by
  have htrick : isPowerOfTwo value = true ↔
      value.toNat ≠ 0 ∧ value.toNat &&& (value.toNat - 1) = 0 := by
    rw [isPowerOfTwo, Bool.and_eq_true, bne_iff_ne, beq_iff_eq]
    have hzero : value = 0 ↔ value.toNat = 0 := UInt64.toNat_inj.symm
    rw [Ne, hzero]
    refine and_congr_right fun hne => ?_
    have hsub : (value - 1).toNat = value.toNat - 1 :=
      UInt64.toNat_sub_of_le _ _ (UInt64.le_iff_toNat_le.mpr (Nat.pos_of_ne_zero hne))
    rw [← UInt64.toNat_inj, UInt64.toNat_and, hsub]
    rfl
  exact htrick.trans Nat.ne_zero_and_sub_one_eq_zero_iff_isPowerOfTwo

/-- Of two powers of two the smaller one divides the larger one. -/
theorem dvd_of_pow_le {m n : ℕ} (hm : ∃ k, m = 2 ^ k) (hn : ∃ k, n = 2 ^ k) (h : m ≤ n) :
    m ∣ n := by
  obtain ⟨i, rfl⟩ := hm
  obtain ⟨j, rfl⟩ := hn
  exact Nat.pow_dvd_pow 2 ((Nat.pow_le_pow_iff_right (by decide)).mp h)

/-! ## The alignment that is passed on -/

theorem max_cases (a b : UInt64) :
    (max a b = a ∧ b.toNat ≤ a.toNat) ∨ (max a b = b ∧ a.toNat ≤ b.toNat) := by
  unfold max
  split
  · next hlt => exact .inr ⟨rfl, Nat.le_of_lt (UInt64.lt_iff_toNat_lt.mp hlt)⟩
  · next hle => exact .inl ⟨rfl, UInt64.le_iff_toNat_le.mp (UInt64.not_lt.mp hle)⟩

theorem le_max (a b : UInt64) : a.toNat ≤ (max a b).toNat ∧ b.toNat ≤ (max a b).toNat := by
  rcases max_cases a b with ⟨heq, hle⟩ | ⟨heq, hle⟩ <;> rw [heq]
  · exact ⟨Nat.le_refl _, hle⟩
  · exact ⟨hle, Nat.le_refl _⟩

theorem max_pow {a b : UInt64} (ha : ∃ k, a.toNat = 2 ^ k) (hb : ∃ k, b.toNat = 2 ^ k) :
    ∃ k, (max a b).toNat = 2 ^ k := by
  rcases max_cases a b with ⟨heq, -⟩ | ⟨heq, -⟩ <;> rw [heq]
  · exact ha
  · exact hb

variable {P bytes alignment device}

/-- The larger of two powers of two is a multiple of both, and of the pointer size. -/
theorem max_valid (h : P.Conforms) (halign : ∃ k, alignment.toNat = 2 ^ k) :
    P.ValidAlignment (max alignment P.maxAlign) ∧
      alignment.toNat ∣ (max alignment P.maxAlign).toNat ∧
      P.maxAlign.toNat ∣ (max alignment P.maxAlign).toNat := by
  have hpow := max_pow halign h.maxAlign_pow
  obtain ⟨hleft, hright⟩ := le_max alignment P.maxAlign
  refine ⟨⟨hpow, ?_⟩, dvd_of_pow_le halign hpow hleft, dvd_of_pow_le h.maxAlign_pow hpow hright⟩
  exact dvd_of_pow_le h.pointerSize_pow hpow (Nat.le_trans h.pointerSize_le hright)

/-! ## The checks -/

theorem exhausted_code (bytes : UInt64) (device : Device) :
    (exhausted bytes device).code = .kResourceExhausted := rfl

theorem ptrdiffMax_toNat : ptrdiffMax.toNat = 2 ^ 63 - 1 := rfl

variable (bytes alignment device) in
/-- What is returned before `posix_memalign`, check by check, and the arguments that
pass them all. -/
theorem request_cases (h : P.Conforms) :
    (device ≠ .cpu ∧ request P bytes alignment device = .error (.error onlyCpu)) ∨
    (device = .cpu ∧ (¬ ∃ k, alignment.toNat = 2 ^ k) ∧
      request P bytes alignment device = .error (.error notPowerOfTwo)) ∨
    (device = .cpu ∧ (∃ k, alignment.toNat = 2 ^ k) ∧
      ((bytes = 0 ∧ request P bytes alignment device = .error (.ok {})) ∨
       (bytes ≠ 0 ∧ 2 ^ 63 - 1 < bytes.toNat ∧
         request P bytes alignment device = .error (.error (exhausted bytes device))) ∨
       (bytes ≠ 0 ∧ bytes.toNat ≤ 2 ^ 63 - 1 ∧
         request P bytes alignment device = .ok (max alignment P.maxAlign, bytes)))) := by
  unfold request
  split
  · next hdevice => exact .inl ⟨hdevice, rfl⟩
  · next hdevice =>
      have hdevice := not_not.mp hdevice
      split
      · next hpow =>
          refine .inr (.inl ⟨hdevice, fun hk => ?_, rfl⟩)
          rw [(isPowerOfTwo_iff alignment).mpr hk] at hpow
          cases hpow
      · next hpow =>
          have halign := (isPowerOfTwo_iff alignment).mp (Bool.not_eq_false _ ▸ hpow)
          refine .inr (.inr ⟨hdevice, halign, ?_⟩)
          split
          · next hzero => exact .inl ⟨hzero, rfl⟩
          · next hzero =>
              -- the check for a small alignment never fails
              have hlarge : ¬ max alignment P.maxAlign < P.pointerSize := by
                rw [UInt64.lt_iff_toNat_lt, Nat.not_lt]
                exact Nat.le_trans h.pointerSize_le (le_max alignment P.maxAlign).2
              simp only [if_neg hlarge]
              split
              · next hbytes =>
                  rw [UInt64.lt_iff_toNat_lt, ptrdiffMax_toNat] at hbytes
                  exact .inr (.inl ⟨hzero, hbytes, rfl⟩)
              · next hbytes =>
                  rw [UInt64.lt_iff_toNat_lt, ptrdiffMax_toNat, Nat.not_lt] at hbytes
                  exact .inr (.inr ⟨hzero, hbytes, rfl⟩)

variable (bytes alignment device) in
/-- A request is refused for its device or its alignment, is empty, finds no memory, or
gets a block. -/
theorem allocate_cases (h : P.Conforms) :
    ((device ≠ .cpu ∨ ¬ ∃ k, alignment.toNat = 2 ^ k) ∧
      (allocate P bytes alignment device = .error onlyCpu ∨
        allocate P bytes alignment device = .error notPowerOfTwo)) ∨
    ((device = .cpu ∧ ∃ k, alignment.toNat = 2 ^ k) ∧
      ((bytes = 0 ∧ allocate P bytes alignment device = .ok {}) ∨
       (bytes ≠ 0 ∧ allocate P bytes alignment device = .error (exhausted bytes device)) ∨
       (bytes ≠ 0 ∧ ∃ data, P.posixMemalign (max alignment P.maxAlign) bytes = .ok data ∧
         allocate P bytes alignment device =
           .ok (DataPtr.construct ⟨some data, bytes.toNat, device⟩ none
             (some P.freeCpuMemory))))) := by
  unfold allocate
  rcases request_cases bytes alignment device h with
    ⟨hdevice, hreq⟩ | ⟨-, halign, hreq⟩ |
    ⟨hdevice, halign, ⟨hzero, hreq⟩ | ⟨hne, -, hreq⟩ | ⟨hne, -, hreq⟩⟩
  · exact .inl ⟨.inl hdevice, .inl (by rw [hreq])⟩
  · exact .inl ⟨.inr halign, .inr (by rw [hreq])⟩
  · exact .inr ⟨⟨hdevice, halign⟩, .inl ⟨hzero, by rw [hreq]⟩⟩
  · exact .inr ⟨⟨hdevice, halign⟩, .inr (.inl ⟨hne, by rw [hreq]⟩)⟩
  · refine .inr ⟨⟨hdevice, halign⟩, .inr ?_⟩
    rw [hreq]
    cases hcall : P.posixMemalign (max alignment P.maxAlign) bytes with
    | error errno => exact .inl ⟨hne, by simp only [hcall]⟩
    | ok data => exact .inr ⟨hne, data, rfl, by simp only [hcall]⟩

/-! ## The contract -/

variable (bytes alignment device) in
/-- Only the device and the alignment are refused as invalid, whatever else is wrong. -/
theorem allocate_invalid_iff (h : P.Conforms) :
    FailsWith (allocate P bytes alignment device) .kInvalidArgument ↔
      device ≠ .cpu ∨ ¬ ∃ k, alignment.toNat = 2 ^ k := by
  rcases allocate_cases bytes alignment device h with
    ⟨hbad, hfail⟩ | ⟨⟨hdevice, halign⟩, hres⟩
  · refine iff_of_true ?_ hbad
    rcases hfail with hfail | hfail <;> rw [hfail, failsWith_error] <;> rfl
  · have hgood : ¬ (device ≠ .cpu ∨ ¬ ∃ k, alignment.toNat = 2 ^ k) := by
      rintro (hne | hnot)
      · exact hne hdevice
      · exact hnot halign
    refine iff_of_false ?_ hgood
    rcases hres with ⟨-, hres⟩ | ⟨-, hres⟩ | ⟨-, data, -, hres⟩
    · exact not_failsWith_of_ok hres _
    · exact not_failsWith_of_error hres (exhausted_code bytes device ▸ by decide)
    · exact not_failsWith_of_ok hres _

/-- The arguments of `posix_memalign`. -/
theorem request_ok (h : P.Conforms) {a n : UInt64}
    (hreq : request P bytes alignment device = .ok (a, n)) :
    P.ValidAlignment a ∧ alignment.toNat ∣ a.toNat ∧ P.maxAlign.toNat ∣ a.toNat ∧
      n = bytes ∧ 1 ≤ n.toNat ∧ n.toNat ≤ 2 ^ 63 - 1 := by
  rcases request_cases bytes alignment device h with
    ⟨-, hr⟩ | ⟨-, -, hr⟩ | ⟨-, halign, ⟨-, hr⟩ | ⟨-, -, hr⟩ | ⟨hne, hle, hr⟩⟩
  all_goals cases hreq.symm.trans hr
  obtain ⟨hvalid, hdvd, hmax⟩ := max_valid h halign
  have hpos : 0 < bytes.toNat :=
    Nat.pos_of_ne_zero fun hzero => hne (UInt64.toNat_inj.mp hzero)
  exact ⟨hvalid, hdvd, hmax, rfl, hpos, hle⟩

/-- With these arguments the call fails for want of memory only. -/
theorem exhausted_of_error (h : P.Conforms) {a n : UInt64} {errno : Errno}
    (hreq : request P bytes alignment device = .ok (a, n))
    (hcall : P.posixMemalign a n = .error errno) :
    errno = .ENOMEM ∧ allocate P bytes alignment device = .error (exhausted bytes device) := by
  constructor
  · cases errno with
    | ENOMEM => rfl
    | EINVAL => exact absurd (request_ok h hreq).1 (h.invalid _ _ hcall)
  · simp only [allocate, hreq, hcall]

/-- The larger of the two alignments is never too small. -/
theorem request_ne_tooSmall (h : P.Conforms) :
    request P bytes alignment device ≠ .error (.error tooSmall) := by
  intro hreq
  rcases request_cases bytes alignment device h with
    ⟨-, hr⟩ | ⟨-, -, hr⟩ | ⟨-, -, ⟨-, hr⟩ | ⟨-, -, hr⟩ | ⟨-, -, hr⟩⟩
  all_goals have heq := hreq.symm.trans hr
  · exact absurd heq (by decide)
  · exact absurd heq (by decide)
  · cases heq
  · have hcode : tooSmall.code = (exhausted bytes device).code :=
      congrArg Status.code (Except.error.inj (Except.error.inj heq))
    rw [exhausted_code] at hcode
    cases hcode
  · cases heq

/-- What the owner of a block has. -/
theorem allocate_owner (h : P.Conforms) {d : DataPtr}
    (hd : allocate P bytes alignment device = .ok d) (hne : bytes ≠ 0) :
    ∃ data, d.data = some data ∧ d.allocation.bytes = bytes.toNat ∧
      d.allocation.device = device ∧ d.reset.1.filterMap P.freed = [data] ∧
      alignment.toNat ∣ P.address data ∧
      (capabilities P device).minimumAlignment.toNat ∣ P.address data := by
  rcases allocate_cases bytes alignment device h with
    ⟨-, hfail⟩ | ⟨⟨-, halign⟩, ⟨hzero, -⟩ | ⟨-, hres⟩ | ⟨-, data, hcall, hres⟩⟩
  · rcases hfail with hfail | hfail <;> cases hd.symm.trans hfail
  · exact absurd hzero hne
  · cases hd.symm.trans hres
  · cases hd.symm.trans hres
    obtain ⟨hvalid, hdvd, hmax⟩ := max_valid h halign
    have haddress := h.aligned _ _ data hvalid hcall
    refine ⟨data, rfl, rfl, rfl, ?_, Nat.dvd_trans hdvd haddress, Nat.dvd_trans hmax haddress⟩
    simp [DataPtr.reset, DataPtr.construct, DataPtr.due, DataPtr.data, Platform.freed]

/-- What is refused, what `posix_memalign` is asked for, and what the owner of a block
gets. -/
theorem allocate_contract (P : Platform) (h : P.Conforms) (bytes alignment : UInt64)
    (device : Device) :
    (FailsWith (allocate P bytes alignment device) .kInvalidArgument ↔
      device ≠ .cpu ∨ ¬ ∃ k, alignment.toNat = 2 ^ k) ∧
    -- the call of `posix_memalign`
    (∀ a n, request P bytes alignment device = .ok (a, n) →
      P.ValidAlignment a ∧ alignment.toNat ∣ a.toNat ∧ P.maxAlign.toNat ∣ a.toNat ∧
      n = bytes ∧ 1 ≤ n.toNat ∧ n.toNat ≤ 2 ^ 63 - 1 ∧
      ∀ errno, P.posixMemalign a n = .error errno →
        errno = .ENOMEM ∧ allocate P bytes alignment device = .error (exhausted bytes device)) ∧
    request P bytes alignment device ≠ .error (.error tooSmall) ∧
    -- the owner
    ∀ d, allocate P bytes alignment device = .ok d → bytes ≠ 0 →
      ∃ data, d.data = some data ∧ d.allocation.bytes = bytes.toNat ∧
        d.allocation.device = device ∧ d.reset.1.filterMap P.freed = [data] ∧
        alignment.toNat ∣ P.address data ∧
        (capabilities P device).minimumAlignment.toNat ∣ P.address data := by
  refine ⟨allocate_invalid_iff bytes alignment device h, ?_, request_ne_tooSmall h, ?_⟩
  · intro a n hreq
    obtain ⟨hvalid, hdvd, hmax, hn, hpos, hle⟩ := request_ok h hreq
    exact ⟨hvalid, hdvd, hmax, hn, hpos, hle, fun errno => exhausted_of_error h hreq⟩
  · intro d hd hne
    exact allocate_owner h hd hne

/-- 4096 bytes of memory, of which each block starts at its alignment. -/
def smallPlatform : Platform where
  maxAlign := 16
  pointerSize := 8
  posixMemalign alignment size :=
    if isPowerOfTwo alignment = false ∨ ¬ 8 ∣ alignment.toNat then .error .EINVAL
    else if alignment.toNat + size.toNat ≤ 4096 then .ok alignment.toNat
    else .error .ENOMEM
  address data := data
  freeCpuMemory := 1

theorem smallPlatform_conforms : smallPlatform.Conforms where
  maxAlign_pow := ⟨4, rfl⟩
  pointerSize_pow := ⟨3, rfl⟩
  pointerSize_le := by decide
  aligned := by
    intro alignment size data hvalid hcall
    simp only [smallPlatform] at hcall
    split at hcall
    · cases hcall
    · split at hcall
      · cases hcall
        exact Nat.dvd_refl _
      · cases hcall
  invalid := by
    intro alignment size hcall hvalid
    simp only [smallPlatform] at hcall
    split at hcall
    · next hbad =>
        rcases hbad with hbad | hbad
        · rw [(isPowerOfTwo_iff alignment).mpr hvalid.1] at hbad
          cases hbad
        · exact hbad hvalid.2
    · split at hcall <;> cases hcall

/-- The requests of the runtime's tests. -/
theorem allocate_contract_small :
    (∃ d data, allocate smallPlatform 256 64 .cpu = .ok d ∧ d.data = some data ∧
      d.reset.1.filterMap smallPlatform.freed = [data] ∧ 64 ∣ smallPlatform.address data) ∧
    FailsWith (allocate smallPlatform 64 3 .cpu) .kInvalidArgument := by
  have hconforms := smallPlatform_conforms
  constructor
  · have hd : allocate smallPlatform 256 64 .cpu = .ok ⟨⟨some 64, 256, .cpu⟩, none, some 1⟩ := by
      decide +kernel
    obtain ⟨data, hdata, -, -, hfreed, hdvd, -⟩ :=
      (allocate_contract smallPlatform hconforms 256 64 .cpu).2.2.2 _ hd (by decide)
    exact ⟨_, data, hd, hdata, hfreed, hdvd⟩
  · refine (allocate_contract smallPlatform hconforms 64 3 .cpu).1.mpr (.inr ?_)
    rw [← isPowerOfTwo_iff]
    decide

end CpuAllocator

end Gradyx
