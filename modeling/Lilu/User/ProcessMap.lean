import Lilu.Prelude.Memory
import Lilu.User.LoadFiles

/-!
# The memory of a process

The pages of a process that are mapped have a protection each. The patcher reads and writes the
memory of a process and sets the protection of its pages by calls of the kernel, which may be
refused. Before it asks for a page that is both writable and executable, `vmProtect` takes the
enforcement of code signatures from the current process.

## Main definitions

* `ProcessMap`: the memory of a process and the protections of its pages
* `VmCall`, `VmKernel`: the calls, and how the kernel answers them
* `VmKernel.Grants`: no call on mapped pages is refused, except for writes to pages that are not
  writable
* `vmProtect`, `getPageProtection`, `orgVmMapReadUser`, `orgVmMapWriteUser`

## Main results

* `vmProtect_eq`: apart from the flags of the current process, `vmProtect` is `vm_protect`
* `vmProtect_granted`, `orgVmMapReadUser_granted`, `orgVmMapWriteUser_granted`: what the calls do
  when they are granted
-/

namespace Lilu

def Kext.KernelVersion.Mojave : ℕ := 18

namespace UserPatcher

open Lilu.Kext (KernelVersion.Mojave)

/-! ## Pages -/

/-- `VM_PROT_READ`, `VM_PROT_WRITE` and `VM_PROT_EXECUTE` -/
structure VmProt where
  read : Bool
  write : Bool
  execute : Bool
  deriving DecidableEq

/-- `val|VM_PROT_WRITE` -/
def VmProt.withWrite (prot : VmProt) : VmProt :=
  { prot with write := true }

/-- The number of an address' page. -/
def pageOf (a : VmAddress) : ℕ :=
  a.toNat / PAGE_SIZE

/-- The pages that the `n` bytes from an address on meet. -/
def pages (a : VmAddress) (n : ℕ) : List ℕ :=
  if n = 0 then [] else List.range' (pageOf a) ((a.toNat + n - 1) / PAGE_SIZE + 1 - pageOf a)

/-- The memory of a process and the protections of its mapped pages, which lie in the address
space. -/
structure ProcessMap where
  memory : VmAddress → UInt8
  protection : ℕ → Option VmProt
  bounded : ∀ p, 2 ^ 52 ≤ p → protection p = none

namespace ProcessMap

/-- All pages of a range are mapped. -/
def Mapped (m : ProcessMap) (a : VmAddress) (n : ℕ) : Prop :=
  ∀ p ∈ pages a n, (m.protection p).isSome

instance (m : ProcessMap) (a : VmAddress) (n : ℕ) : Decidable (m.Mapped a n) :=
  inferInstanceAs (Decidable (∀ p ∈ pages a n, (m.protection p).isSome))

/-- All pages of a range are mapped and can be written to. -/
def Writable (m : ProcessMap) (a : VmAddress) (n : ℕ) : Prop :=
  ∀ p ∈ pages a n, ∃ prot, m.protection p = some prot ∧ prot.write

/-- The mapped pages of a range get a protection. -/
def setProtection (m : ProcessMap) (a : VmAddress) (n : ℕ) (prot : VmProt) : ProcessMap where
  memory := m.memory
  protection p := if p ∈ pages a n then (m.protection p).map fun _ => prot else m.protection p
  bounded p hp := by rw [m.bounded p hp, Option.map_none, ite_self]

/-- The bytes from an address on are replaced. -/
def write (m : ProcessMap) (a : VmAddress) (bytes : List UInt8) : ProcessMap :=
  { m with memory := store m.memory a bytes }

end ProcessMap

/-- `vm_map_check_protection`: all pages of the range have the protection. -/
def orgVmMapCheckProtection (m : ProcessMap) (a : VmAddress) (n : ℕ) (prot : VmProt → Bool) :
    Bool :=
  (pages a n).all fun p => (m.protection p).any prot

def getPageProtection (m : ProcessMap) (addr : VmAddress) : VmProt where
  read := orgVmMapCheckProtection m addr PAGE_SIZE VmProt.read
  write := orgVmMapCheckProtection m addr PAGE_SIZE VmProt.write
  execute := orgVmMapCheckProtection m addr PAGE_SIZE VmProt.execute

/-- A page and the protection it had. -/
structure SavedProt where
  off : VmAddress
  val : VmProt
  deriving DecidableEq

/-- The page at an address, with its protection. -/
def savePage (m : ProcessMap) (off : VmAddress) : SavedProt :=
  ⟨off, getPageProtection m off⟩

/-! ## Calls of the kernel -/

inductive VmCall where
  | read (addr : VmAddress) (size : ℕ)
  | write (addr : VmAddress) (bytes : List UInt8)
  | protect (start : VmAddress) (size : ℕ) (prot : VmProt)
  deriving DecidableEq

abbrev KernReturn := ℕ

def KERN_SUCCESS : KernReturn := 0

/-- What `vmProtect` uses of the current process: the words of `struct proc`, and whether its map
may switch protections. -/
structure Proc where
  getMember : ℕ → BitVec 32
  switchProtect : Bool

/-- A process' memory, the current process, and the calls so far with what they were made on. -/
structure Vm where
  map : ProcessMap
  currentProc : Option Proc
  csFlagsOffset : ℕ
  calls : List (VmCall × ProcessMap)

/-- The kernel: its version, whether `vm_map_switch_protect` was found, and its answers. -/
structure VmKernel where
  version : ℕ
  orgVmMapSwitchProtect : Bool
  answer : VmCall → Vm → KernReturn

/-- **No call on mapped pages is refused**, except for writes to pages that are not writable. -/
structure VmKernel.Grants (K : VmKernel) : Prop where
  read : ∀ a n s, s.map.Mapped a n → K.answer (.read a n) s = KERN_SUCCESS
  write : ∀ a bytes s, s.map.Writable a bytes.length → K.answer (.write a bytes) s = KERN_SUCCESS
  protect : ∀ a n prot s, s.map.Mapped a n → K.answer (.protect a n prot) s = KERN_SUCCESS

variable (K : VmKernel)

/-- A call, with what it does to the process' memory if it is not refused. -/
def Vm.call (s : Vm) (c : VmCall) (effect : ProcessMap → ProcessMap) : KernReturn × Vm :=
  let r := K.answer c s
  (r, { s with
    map := if r = KERN_SUCCESS then effect s.map else s.map
    calls := s.calls ++ [(c, s.map)] })

/-- `vm_map_read_user`: the bytes that are read, if they are. -/
def orgVmMapReadUser (a : VmAddress) (n : ℕ) (s : Vm) : Option (List UInt8) × Vm :=
  let (r, s') := s.call K (.read a n) id
  (if r = KERN_SUCCESS then some (load s.map.memory a n) else none, s')

/-- `vm_map_write_user` -/
def orgVmMapWriteUser (a : VmAddress) (bytes : List UInt8) (s : Vm) : KernReturn × Vm :=
  s.call K (.write a bytes) (·.write a bytes)

def vm_protect (start : VmAddress) (size : ℕ) (prot : VmProt) (s : Vm) : KernReturn × Vm :=
  s.call K (.protect start size prot) (·.setProtection start size prot)

/-! ## Code signing flags -/

def CS_HARD : BitVec 32 := 0x100
def CS_KILL : BitVec 32 := 0x200
def CS_ENFORCEMENT : BitVec 32 := 0x1000
def CS_KILLED : BitVec 32 := 0x1000000
def CS_DEBUGGED : BitVec 32 := 0x10000000

def CPU_TYPE_I386 : BitVec 32 := 7
def CPU_TYPE_X86_64 : BitVec 32 := 0x1000007
def CPU_SUBTYPE_MASK : BitVec 32 := 0xFF000000
def CPU_SUBTYPE_X86_64_ALL : BitVec 32 := 3
def CPU_SUBTYPE_X86_64_H : BitVec 32 := 8

/-- Whether the words at `off` look like a processor type, with living flags before them. -/
def Proc.isCpuAt (proc : Proc) (off : ℕ) : Bool :=
  let cpu := proc.getMember off
  let subcpu := proc.getMember (off + 4) &&& ~~~CPU_SUBTYPE_MASK
  (cpu == CPU_TYPE_X86_64 || cpu == CPU_TYPE_I386) &&
    (subcpu == CPU_SUBTYPE_X86_64_ALL || subcpu == CPU_SUBTYPE_X86_64_H) &&
    proc.getMember (off - 24) &&& CS_KILLED == 0

/-- The offset of the flags, which are found by the processor type behind them. -/
def Proc.findCsFlags (proc : Proc) : ℕ :=
  match (List.range' 0x200 128 4).find? proc.isCpuAt with
  | some off => off - 24
  | none => 0x308

/-- The flags without enforcement. -/
def liftFlags (flags : BitVec 32) : BitVec 32 :=
  (flags &&& ~~~(CS_KILL ||| CS_HARD ||| CS_ENFORCEMENT)) ||| CS_DEBUGGED

/-- `vm_protect`, for which the current process gives up enforcement if the page is to be both
writable and executable. -/
def vmProtect (start : VmAddress) (size : ℕ) (prot : VmProt) (s : Vm) : KernReturn × Vm :=
  match s.currentProc with
  | none => vm_protect K start size prot s
  | some currproc =>
    if prot.write ∧ prot.execute ∧ KernelVersion.Mojave ≤ K.version then
      let off := if s.csFlagsOffset = 0 then currproc.findCsFlags else s.csFlagsOffset
      let flags := currproc.getMember off
      if flags &&& CS_ENFORCEMENT ≠ 0 then
        let currproc : Proc :=
          { getMember := Function.update currproc.getMember off (liftFlags flags)
            switchProtect := currproc.switchProtect && !K.orgVmMapSwitchProtect }
        vm_protect K start size prot { s with currentProc := currproc, csFlagsOffset := off }
      else vm_protect K start size prot { s with csFlagsOffset := off }
    else vm_protect K start size prot s

/-- The range of a call. -/
def VmCall.range : VmCall → VmAddress × ℕ
  | read addr size => (addr, size)
  | write addr bytes => (addr, bytes.length)
  | protect start size _ => (start, size)

/-- A kernel that refuses calls on pages that are not mapped (`KERN_INVALID_ADDRESS`), and no
others. -/
def plainKernel (version : ℕ) : VmKernel where
  version
  orgVmMapSwitchProtect := false
  answer c s := if s.map.Mapped c.range.1 c.range.2 then KERN_SUCCESS else 1

theorem plainKernel_grants (version : ℕ) : (plainKernel version).Grants where
  read _ _ _ h := if_pos h
  write a bytes s h := by
    refine if_pos fun p hp => ?_
    obtain ⟨prot, hprot, -⟩ := h p hp
    rw [hprot]
    rfl
  protect _ _ _ _ h := if_pos h

/-! ## What the calls do -/

section Calls

variable {a start : VmAddress} {n size p : ℕ} {bytes : List UInt8} {prot : VmProt} {m : ProcessMap}
  {s : Vm}

theorem mem_pages : p ∈ pages a n ↔ 0 < n ∧ pageOf a ≤ p ∧ p * PAGE_SIZE < a.toNat + n := by
  rcases Nat.eq_zero_or_pos n with rfl | hn
  · simp [pages]
  · have hP : 0 < PAGE_SIZE := by decide
    have hle : p ≤ (a.toNat + n - 1) / PAGE_SIZE ↔ p * PAGE_SIZE < a.toNat + n := by
      rw [Nat.le_div_iff_mul_le hP]
      omega
    rw [pages, if_neg (by omega), List.mem_range'_1, ← hle]
    omega

/-- The page of an address in a range is one of the range's. -/
theorem pageOf_mem_pages {x : VmAddress} (hle : a.toNat ≤ x.toNat) (hlt : x.toNat < a.toNat + n) :
    pageOf x ∈ pages a n := by
  have hP : pageOf x * PAGE_SIZE ≤ x.toNat := Nat.div_mul_le_self _ _
  rw [mem_pages]
  exact ⟨by omega, Nat.div_le_div_right hle, by omega⟩

/-- A page that begins at an address is the range of its bytes. -/
theorem mem_pages_page (ha : a.toNat % PAGE_SIZE = 0) : p ∈ pages a PAGE_SIZE ↔ p = pageOf a := by
  rw [mem_pages, pageOf]
  simp only [PAGE_SIZE] at *
  omega

/-- Mapped bytes do not reach past the end of the address space. -/
theorem ProcessMap.Mapped.le (h : m.Mapped a n) : a.toNat + n ≤ 2 ^ 64 := by
  by_contra hgt
  have hlast : pageOf a ≤ 2 ^ 52 := by
    have := a.isLt
    rw [pageOf, PAGE_SIZE]
    omega
  have hmem : 2 ^ 52 ∈ pages a n := by
    have := a.isLt
    rw [mem_pages, PAGE_SIZE]
    omega
  have hsome := h _ hmem
  rw [m.bounded _ le_rfl] at hsome
  exact absurd hsome Bool.false_ne_true

theorem ProcessMap.Mapped.mono {b : VmAddress} {k : ℕ} (h : m.Mapped a n)
    (hle : a.toNat ≤ b.toNat) (hend : b.toNat + k ≤ a.toNat + n) : m.Mapped b k := by
  intro p hp
  rw [mem_pages] at hp
  refine h p (mem_pages.mpr ⟨by omega, ?_, by omega⟩)
  exact (Nat.div_le_div_right hle).trans hp.2.1

/-- The protection of a page that is mapped. -/
theorem getPageProtection_eq (ha : a.toNat % PAGE_SIZE = 0)
    (h : m.protection (pageOf a) = some prot) : getPageProtection m a = prot := by
  have hcheck (f : VmProt → Bool) : orgVmMapCheckProtection m a PAGE_SIZE f = f prot := by
    rw [Bool.eq_iff_iff, orgVmMapCheckProtection, List.all_eq_true]
    simp only [mem_pages_page ha, forall_eq, h, Option.any_some]
  rw [getPageProtection, hcheck, hcheck, hcheck]

/-- Apart from the flags of the current process, **`vmProtect` is `vm_protect`**. -/
theorem vmProtect_eq (start : VmAddress) (size : ℕ) (prot : VmProt) (s : Vm) :
    ∃ s₁ : Vm, s₁.map = s.map ∧ s₁.calls = s.calls ∧
      vmProtect K start size prot s = vm_protect K start size prot s₁ := by
  unfold vmProtect
  split
  case h_1 => exact ⟨s, rfl, rfl, rfl⟩
  case h_2 currproc _ =>
    split
    · extract_lets off flags lifted
      -- enforcement is lifted, or was not there
      split
      · exact ⟨{ s with currentProc := lifted, csFlagsOffset := off }, rfl, rfl, rfl⟩
      · exact ⟨{ s with csFlagsOffset := off }, rfl, rfl, rfl⟩
    · exact ⟨s, rfl, rfl, rfl⟩

/-- What setting a protection does, refused or not. -/
theorem vmProtect_map : (vmProtect K start size prot s).2.map =
    if (vmProtect K start size prot s).1 = KERN_SUCCESS then s.map.setProtection start size prot
    else s.map := by
  obtain ⟨s₁, hmap, -, heq⟩ := vmProtect_eq K start size prot s
  rw [heq, vm_protect, Vm.call, hmap]

theorem vmProtect_calls : (vmProtect K start size prot s).2.calls =
    s.calls ++ [(.protect start size prot, s.map)] := by
  obtain ⟨s₁, hmap, hcalls, heq⟩ := vmProtect_eq K start size prot s
  rw [heq, vm_protect, Vm.call, hmap, hcalls]

theorem vmProtect_memory : (vmProtect K start size prot s).2.map.memory = s.map.memory := by
  rw [vmProtect_map]
  split_ifs <;> rfl

theorem orgVmMapWriteUser_protection :
    (orgVmMapWriteUser K a bytes s).2.map.protection = s.map.protection := by
  rw [orgVmMapWriteUser, Vm.call]
  simp only
  split_ifs <;> rfl

theorem orgVmMapWriteUser_memory {x : VmAddress} (hx : x ∉ block a bytes.length) :
    (orgVmMapWriteUser K a bytes s).2.map.memory x = s.map.memory x := by
  rw [orgVmMapWriteUser, Vm.call]
  simp only
  split_ifs
  · exact store_of_notMem hx
  · rfl

theorem orgVmMapReadUser_eq (a : VmAddress) (n : ℕ) (s : Vm) : orgVmMapReadUser K a n s =
    (if K.answer (.read a n) s = KERN_SUCCESS then some (load s.map.memory a n) else none,
      { s with calls := s.calls ++ [(.read a n, s.map)] }) := by
  simp only [orgVmMapReadUser, Vm.call, id_eq, ite_self]

variable {K}

theorem vmProtect_granted (hK : K.Grants) (hm : s.map.Mapped start size) :
    (vmProtect K start size prot s).1 = KERN_SUCCESS := by
  obtain ⟨s₁, hmap, -, heq⟩ := vmProtect_eq K start size prot s
  rw [heq]
  exact hK.protect _ _ _ _ (by rwa [hmap])

theorem orgVmMapReadUser_granted (hK : K.Grants) (hm : s.map.Mapped a n) :
    orgVmMapReadUser K a n s = (some (load s.map.memory a n),
      { s with calls := s.calls ++ [(.read a n, s.map)] }) := by
  rw [orgVmMapReadUser_eq, if_pos (hK.read a n s hm)]

theorem orgVmMapWriteUser_granted (hK : K.Grants) (hm : s.map.Writable a bytes.length) :
    orgVmMapWriteUser K a bytes s = (KERN_SUCCESS, { s with
      map := s.map.write a bytes
      calls := s.calls ++ [(.write a bytes, s.map)] }) := by
  have hr := hK.write a bytes s hm
  simp only [orgVmMapWriteUser, Vm.call, hr, if_true]

end Calls

end UserPatcher

end Lilu
