import Mathlib.Data.Nat.Bitwise
import Lilu.Mach.Walk
import Lilu.Patcher.Route

/-!
# The running image

The addresses of an image that is loaded are taken from its header in memory: its slide, where its
symbols are, and an area for address slots. That area begins where the load commands end, and goes
on to the end of the page and over all pages behind it that begin with a zero word. The end of the
page is computed with a mask that clears a single bit.

## Main definitions

* `getRunningAddresses`, `kcGetRunningAddresses`: what is taken from the header, up to the slots
* `activateSlots`: the area for address slots
* `SlotsSound`: the area ends with a page and has nothing in it, and its slots are apart

## Main results

* `handedOut_sound`: slots that are handed out one after the other
* `slotsSound_iff`: when the area is as it should be
-/

namespace Lilu.MachInfo

open Lilu.Kext (CString strncmp)
open Lilu.Patcher (Addr Mem)

/-! ## The state -/

/-- The part of an image's data that concerns the running image. A pointer is null when it is
zero. -/
structure Running where
  isKernel : Bool := false
  kernel_collection : Bool := false
  kaslr_slide_set : Bool := false
  kaslr_slide : Addr := 0
  running_mh : Addr := 0
  running_text_addr : Addr := 0
  disk_text_addr : Addr := 0
  memory_size : Addr := 8192
  prelink_slid : Bool := false
  prelink_vmaddr : Addr := 0
  sym_buf : Addr := 0
  sym_buf_ro : Bool := false
  sym_fileoff : Addr := 0
  sym_size : Addr := 0
  symboltable_fileoff : BitVec 32 := 0
  symboltable_nr_symbols : BitVec 32 := 0
  stringtable_fileoff : BitVec 32 := 0
  slots : Patcher.MachInfo := ⟨0, 0⟩
  deriving DecidableEq

/-- How far the addresses are taken: to a result, or to the slots of the header `running_mh`. -/
inductive Progress where
  | returned (s : Running) (success : Bool)
  | slots (s : Running)
  deriving DecidableEq

/-- The bytes of `__TEXT_EXEC`. -/
def TEXT_EXEC : CString := [95, 95, 84, 69, 88, 84, 95, 69, 88, 69, 67]

section Addresses

variable (mem : Mem)

/-- The name of the segment command at an address. -/
def segnameAt (addr : Addr) : CString :=
  (load mem (addr + 8) 16).takeWhile (· ≠ 0)

/-- The size of the command at an address. -/
def cmdsizeAt (addr : Addr) : Addr :=
  (read 32 mem (addr + 4)).setWidth 64

/-- `LC_SEGMENT_64` and `LC_SYMTAB`. -/
def segment64 : BitVec 32 := 0x19
def symtab : BitVec 32 := 0x2

/-! ## Kernel collections -/

/-- The address of the inner kernel: that of the first `__TEXT_EXEC` among the next commands. -/
def findInner : ℕ → Addr → Addr
  | 0, _ => 0
  | n + 1, addr =>
    if read 32 mem addr = segment64 ∧ strncmp (segnameAt mem addr) TEXT_EXEC 16 then
      read 64 mem (addr + 24)
    else findInner n (addr + cmdsizeAt mem addr)

/-- What a command adds, with the end of the segments so far. -/
def kcCommand (addr : Addr) (s : Running) (last_addr : Addr) : Running × Addr :=
  if read 32 mem addr = segment64 then
    let vmaddr := read 64 mem (addr + 24)
    let vmsize := read 64 mem (addr + 32)
    -- only the first `__LINKEDIT` counts, and its end does not
    if s.sym_buf = 0 ∧ strncmp (segnameAt mem addr) LINKEDIT 16 then
      ({ s with
        sym_buf := vmaddr
        sym_fileoff := read 64 mem (addr + 40)
        sym_size := vmsize
        sym_buf_ro := true }, last_addr)
    else if vmaddr + vmsize > last_addr then (s, vmaddr + vmsize)
    else (s, last_addr)
  -- only the first symbol table counts
  else if s.symboltable_fileoff = 0 ∧ read 32 mem addr = symtab then
    ({ s with
      symboltable_fileoff := read 32 mem (addr + 8)
      symboltable_nr_symbols := read 32 mem (addr + 12)
      stringtable_fileoff := read 32 mem (addr + 16) }, last_addr)
  else (s, last_addr)

/-- The loop over the commands. -/
def kcCommands : ℕ → Addr → Running → Addr → Running × Addr
  | 0, _, s, last_addr => (s, last_addr)
  | n + 1, addr, s, last_addr =>
    let (s, last_addr) := kcCommand mem addr s last_addr
    kcCommands n (addr + cmdsizeAt mem addr) s last_addr

variable (kernelBase : Addr)

/-- The load address of an image: its slide, or what `findKernelBase` finds. -/
def baseOf (slide : Addr) : Addr :=
  if slide ≠ 0 then slide else kernelBase

/-- The first part of `kcGetRunningAddresses`. -/
def kcGetRunningAddresses (slide : Addr) (s : Running) : Progress :=
  let base := baseOf kernelBase slide
  if base = 0 then .returned s false
  else
    let inner := if s.isKernel then findInner mem (read 32 mem (base + 16)).toNat (base + 32) else base
    if inner = 0 then .returned s false
    else
      let (s, last_addr) := kcCommands mem (read 32 mem (inner + 16)).toNat (inner + 32) s 0
      if s.sym_buf = 0 ∨ s.symboltable_fileoff = 0 then .returned s false
      else if last_addr < inner then .returned s false
      else
        let s := { s with
          kaslr_slide_set := true
          prelink_slid := true
          running_mh := inner
          memory_size := last_addr - inner }
        if slide ≠ 0 ∨ s.isKernel then .slots s else .returned s true

/-! ## Single images -/

/-- The loop over the load commands of a header that ends at `endaddr`, up to `__TEXT`. -/
def findText (endaddr : Addr) : ℕ → Addr → Reads.TextSearch
  | 0, _ => .missing
  | n + 1, addr =>
    if addr.toNat % 4 ≠ 0 then .invalid
    else if addr + 8 > endaddr ∨ addr + cmdsizeAt mem addr > endaddr then .invalid
    else if read 32 mem addr = segment64 ∧ strncmp (segnameAt mem addr) TEXT 16 then
      .found (read 64 mem (addr + 24)).toNat
    else findText endaddr n (addr + cmdsizeAt mem addr)

/-- The search for `__TEXT` in the header at an address. -/
def searchText (base : Addr) : Reads.TextSearch :=
  findText mem (base + BitVec.ofNat 64 HeaderSize) (read 32 mem (base + 16)).toNat (base + 32)

/-- What the search leaves behind when it does not stop at an invalid command. -/
def withText (base : Addr) (s : Running) : Reads.TextSearch → Running
  | .found vmaddr => { s with running_text_addr := BitVec.ofNat 64 vmaddr, running_mh := base }
  | _ => s

/-- The state that a call begins with. -/
def Running.restart (s : Running) (size : Addr) (force : Bool) : Running :=
  let s := if force then
    { s with kaslr_slide_set := false, running_mh := 0, running_text_addr := 0, memory_size := 0 }
    else s
  -- a call that is done already does not take the size
  if s.kaslr_slide_set then s else if size > 0 then { s with memory_size := size } else s

/-- The first part of `getRunningAddresses`. -/
def locate (slide size : Addr) (force : Bool) (s : Running) : Progress :=
  let s := s.restart size force
  if s.kaslr_slide_set then .returned s true
  else if s.kernel_collection ∧ s.sym_buf = 0 then kcGetRunningAddresses mem kernelBase slide s
  else
    let base := baseOf kernelBase slide
    -- what an earlier call has found stays where this one finds nothing
    let found := if base ≠ 0 then searchText mem base else .missing
    if found = .invalid then .returned s false
    else
      let s := withText base s found
      if s.running_text_addr ≠ 0 ∧ s.running_mh ≠ 0 then
        .slots { s with
          kaslr_slide :=
            -- the kernel is moved by the difference, an extension by its own address
            if slide = 0 then s.running_text_addr - s.disk_text_addr
            else if s.prelink_slid then s.prelink_vmaddr else slide
          kaslr_slide_set := true }
      else .returned s false

/-! ## Address slots -/

/-- The end of the load commands of the header at an address: the first slot. -/
def slotsStart (mh : Addr) : Addr :=
  mh + 32 + (read 32 mem (mh + 20)).setWidth 64

/-- The end of the page, as it is computed: `~PAGE_SIZE` clears the bit of the page size only. -/
def pageEnd (start : Addr) : Addr :=
  (start + 4095) &&& ~~~4096

/-- A turn of the loop over the pages behind. -/
def pageTurn (page : Addr) : Turn Addr Addr :=
  if read 32 mem page = 0 then .again (page + 4096) else .leave page

/-- The slots behind the load commands of the running image; `none` if the loop takes more turns
than allowed. -/
def activateSlots (fuel : ℕ) (s : Running) : Option (Running × Bool) :=
  let start := slotsStart mem s.running_mh
  (loop (pageTurn mem) fuel (pageEnd start)).map fun page => ({ s with slots := ⟨start, page⟩ }, true)

/-- `getRunningAddresses`. -/
def getRunningAddresses (fuel : ℕ) (slide size : Addr) (force : Bool) (s : Running) :
    Option (Running × Bool) :=
  match locate mem kernelBase slide size force s with
  | .returned s success => some (s, success)
  | .slots s => activateSlots mem fuel s

end Addresses

/-! ## The header in memory -/

section HeaderAt

variable {mem : Mem} {base : Addr} {n off v : ℕ}

/-- The bytes of a header in memory. -/
def headerAt (mem : Mem) (base : Addr) : Buffer :=
  fun k => mem (base + BitVec.ofNat 64 k)

theorem load_headerAt :
    load mem (base + BitVec.ofNat 64 off) n = bytesAt (headerAt mem base) off n := by
  rw [load, bytesAt]
  refine List.map_congr_left fun k _ => ?_
  rw [headerAt, BitVec.ofNat_add, BitVec.add_assoc]

theorem add_add_ofNat (base : Addr) (k : ℕ) :
    base + BitVec.ofNat 64 off + BitVec.ofNat 64 k = base + BitVec.ofNat 64 (off + k) := by
  rw [BitVec.ofNat_add, BitVec.add_assoc]

theorem toNat_read_headerAt (hv : 8 ∣ v) : (read v mem (base + BitVec.ofNat 64 off)).toNat =
    leNat (bytesAt (headerAt mem base) off (v / 8)) := by
  have hlt := leNat_lt (bytesAt (headerAt mem base) off (v / 8))
  rw [bytesAt, List.length_map, List.length_range, pow_div_eight hv, ← bytesAt] at hlt
  rw [read, load_headerAt, BitVec.toNat_ofNat, Nat.mod_eq_of_lt hlt]

theorem toNat_cmdsizeAt : (cmdsizeAt mem (base + BitVec.ofNat 64 off)).toNat =
    u32 (headerAt mem base) (off + 4) := by
  have hnext : base + BitVec.ofNat 64 off + 4 = base + BitVec.ofNat 64 (off + 4) :=
    add_add_ofNat base 4
  have hread := @toNat_read_headerAt mem base (off + 4) 32 (by decide)
  rw [cmdsizeAt, BitVec.toNat_setWidth, hnext, hread, u32]
  refine Nat.mod_eq_of_lt ((leNat_lt _).trans_le ?_)
  rw [bytesAt, List.length_map, List.length_range]
  decide

/-- Whether a command in memory is the segment `__TEXT`. -/
theorem isText_headerAt : isText (headerAt mem base) off ↔
    read 32 mem (base + BitVec.ofNat 64 off) = segment64 ∧
      strncmp (segnameAt mem (base + BitVec.ofNat 64 off)) TEXT 16 := by
  have hnext : base + BitVec.ofNat 64 off + 8 = base + BitVec.ofNat 64 (off + 8) :=
    add_add_ofNat base 8
  rw [isText, decide_eq_true_eq, segname, segnameAt, hnext, load_headerAt, ← BitVec.toNat_inj,
    toNat_read_headerAt (by decide)]
  rfl

/-- A header that does not reach the end of the address space is searched as a buffer is. -/
theorem findText_eq (haligned : base.toNat % 4 = 0)
    (hroom : base.toNat + HeaderSize + 2 ^ 32 ≤ 2 ^ 64) (hoff : off ≤ HeaderSize) :
    findText mem (base + BitVec.ofNat 64 HeaderSize) n (base + BitVec.ofNat 64 off) =
      (Reads.walk Reads.textCommand (fun _ => .invalid) (fun _ => .missing) n off ()).run
        (headerAt mem base) := by
  have hsize : HeaderSize = 8192 := rfl
  have hend : (base + BitVec.ofNat 64 HeaderSize).toNat = base.toNat + HeaderSize := by bv_omega
  -- Induction on the commands left, with the offset of the next one.
  induction n generalizing off with
  | zero => rfl
  | succ n ih =>
    have haddr : (base + BitVec.ofNat 64 off).toNat = base.toNat + off := by bv_omega
    have hcmdsize := @toNat_cmdsizeAt mem base off
    have hlt : u32 (headerAt mem base) (off + 4) < 2 ^ 32 := by
      rw [← hcmdsize, cmdsizeAt, BitVec.toNat_setWidth]
      exact (Nat.mod_le _ _).trans_lt (BitVec.isLt _)
    have hbegin : base + BitVec.ofNat 64 off + 8 > base + BitVec.ofNat 64 HeaderSize ↔
        off + 8 > HeaderSize := by
      rw [gt_iff_lt, BitVec.lt_def, hend]
      bv_omega
    have hnext : base + BitVec.ofNat 64 off + cmdsizeAt mem (base + BitVec.ofNat 64 off) =
        base + BitVec.ofNat 64 (off + u32 (headerAt mem base) (off + 4)) := by
      rw [← add_add_ofNat, ← hcmdsize, BitVec.ofNat_toNat, BitVec.setWidth_eq]
    have hwhole : base + BitVec.ofNat 64 (off + u32 (headerAt mem base) (off + 4)) >
        base + BitVec.ofNat 64 HeaderSize ↔ off + u32 (headerAt mem base) (off + 4) > HeaderSize := by
      rw [gt_iff_lt, BitVec.lt_def, hend]
      bv_omega
    -- the pointers do not wrap, so that they are compared as the offsets are
    have hmod : (base.toNat + off) % 4 = off % 4 := by omega
    rw [findText, Reads.walk, haddr, hmod, hnext]
    by_cases hoffset : off % 4 ≠ 0
    · rw [if_pos hoffset, if_pos hoffset]
      rfl
    rw [if_neg hoffset, if_neg hoffset]
    by_cases hbegins : off + 8 > HeaderSize
    · rw [if_pos (.inl (hbegin.mpr hbegins)), if_pos hbegins]
      rfl
    rw [if_neg hbegins, Probe.run_bind, Reads.run_read32, Probe.run_ite]
    by_cases hfits : off + u32 (headerAt mem base) (off + 4) > HeaderSize
    · rw [if_pos (.inr (hwhole.mpr hfits)), if_pos hfits]
      rfl
    rw [if_neg (not_or.mpr ⟨hbegin.not.mpr hbegins, hwhole.not.mpr hfits⟩), if_neg hfits,
      Probe.run_bind, run_textCommand]
    by_cases htext : isText (headerAt mem base) off
    · have hvmaddr : base + BitVec.ofNat 64 off + 24 = base + BitVec.ofNat 64 (off + 24) :=
        add_add_ofNat base 24
      rw [if_pos (isText_headerAt.mp htext), if_pos htext, hvmaddr, toNat_read_headerAt (by decide)]
      rfl
    · rw [if_neg (isText_headerAt.not.mp htext), if_neg htext]
      exact ih (by omega)

/-- **The search for `__TEXT`** is the walk over the header's bytes. -/
theorem searchText_eq (haligned : base.toNat % 4 = 0)
    (hroom : base.toNat + HeaderSize + 2 ^ 32 ≤ 2 ^ 64) :
    searchText mem base = Reads.runningText.run (headerAt mem base) := by
  have hncmds := @toNat_read_headerAt mem base 16 32 (by decide)
  have hcmds := @findText_eq mem base (read 32 mem (base + 16)).toNat 32 haligned hroom (by decide)
  rw [Reads.runningText, Probe.run_bind, Reads.run_read32, u32, ← hncmds]
  exact hcmds

end HeaderAt

/-! ## Handing slots out -/

section Slots

variable {i : Patcher.MachInfo} {n k : ℕ}

/-- What the next `getAddressSlot` returns. -/
def slot (i : Patcher.MachInfo) : Addr :=
  if i.HasSlot then i.address_slots else 0

/-- What the next `getAddressSlot` leaves. -/
def afterSlot (i : Patcher.MachInfo) : Patcher.MachInfo :=
  if i.HasSlot then i.advance else i

/-- `getAddressSlot` of an image returns its next slot. -/
theorem getAddressSlot_returns {id : ℕ} {s : Patcher.State} (hid : s.kinfos[id]? = some i) :
    Patcher.Returns (Patcher.getAddressSlot id) s (slot i)
      { s with kinfos := s.kinfos.set id (afterSlot i) } := by
  rw [Patcher.getAddressSlot, Patcher.returns_bind]
  refine ⟨s, s, rfl, ?_⟩
  rw [hid, slot, afterSlot]
  dsimp only
  by_cases hslot : i.HasSlot
  · rw [if_pos hslot, if_pos hslot, if_pos hslot]
    rfl
  · have hsame : s.kinfos.set id i = s.kinfos := by
      obtain ⟨hlt, rfl⟩ := List.getElem?_eq_some_iff.mp hid
      exact List.set_getElem_self hlt
    rw [if_neg hslot, if_neg hslot, if_neg hslot, hsame]
    rfl

/-- What the call number `n` returns. -/
def handedOut (i : Patcher.MachInfo) (n : ℕ) : Addr :=
  slot (afterSlot^[n] i)

/-- The slots that are handed out are apart from each other and in the area; behind them there is
nothing but zero. -/
structure HandedOutSound (i : Patcher.MachInfo) : Prop where
  inside : ∀ n, handedOut i n ≠ 0 → ∀ x ∈ block (handedOut i n) 8,
    i.address_slots ≤ x ∧ x < i.address_slots_end
  apart : ∀ n k, n < k → handedOut i n ≠ 0 → handedOut i k ≠ 0 →
    Disjoint (block (handedOut i n) 8) (block (handedOut i k) 8)
  last : ∃ count, (∀ n < count, handedOut i n ≠ 0) ∧ ∀ n, count ≤ n → handedOut i n = 0

/-- How many slots an area has. -/
def slotCount (i : Patcher.MachInfo) : ℕ :=
  if i.address_slots = 0 then 0
  else (i.address_slots_end.toNat - i.address_slots.toNat) / 8

/-- An area that does not reach the end of the address space has as many slots as fit. -/
theorem hasSlot_advance_iff (hle : i.address_slots.toNat ≤ i.address_slots_end.toNat)
    (hend : i.address_slots_end.toNat + 8 < 2 ^ 64) (hn : n ≤ slotCount i) :
    (⟨i.address_slots + BitVec.ofNat 64 (8 * n), i.address_slots_end⟩ : Patcher.MachInfo).HasSlot ↔
      n < slotCount i := by
  rw [slotCount] at hn ⊢
  rw [Patcher.MachInfo.HasSlot]
  split_ifs at hn ⊢ with hzero
  · obtain rfl : n = 0 := by omega
    simp [hzero]
  · have hne : i.address_slots.toNat ≠ 0 := fun h => hzero (BitVec.toNat_inj.mp h)
    have hadd : (i.address_slots + BitVec.ofNat 64 (8 * n)).toNat = i.address_slots.toNat + 8 * n := by
      rw [BitVec.toNat_add, BitVec.toNat_ofNat]
      omega
    have hnext : (i.address_slots + BitVec.ofNat 64 (8 * n) + 8).toNat =
        i.address_slots.toNat + 8 * n + 8 := by
      have height : (8 : Addr).toNat = 8 := rfl
      rw [BitVec.toNat_add, hadd, height]
      exact Nat.mod_eq_of_lt (by omega)
    rw [BitVec.le_def, hnext, Ne, ← BitVec.toNat_inj, hadd]
    simp only [BitVec.ofNat_eq_ofNat, BitVec.toNat_ofNat]
    omega

/-- The area behind the slots that were handed out. -/
theorem iterate_afterSlot (hle : i.address_slots.toNat ≤ i.address_slots_end.toNat)
    (hend : i.address_slots_end.toNat + 8 < 2 ^ 64) (n : ℕ) : afterSlot^[n] i =
      ⟨i.address_slots + BitVec.ofNat 64 (8 * min n (slotCount i)), i.address_slots_end⟩ := by
  -- Induction on the calls: as long as there are slots, each takes one.
  induction n with
  | zero => simp
  | succ n ih =>
    rw [Function.iterate_succ_apply', ih, afterSlot]
    have hmin : min n (slotCount i) ≤ slotCount i := min_le_right _ _
    by_cases hlt : n < slotCount i
    · rw [if_pos ((hasSlot_advance_iff hle hend hmin).mpr (by omega)), Patcher.MachInfo.advance,
        min_eq_left hlt.le, min_eq_left (Nat.succ_le_of_lt hlt), Nat.mul_succ, BitVec.ofNat_add,
        ← BitVec.add_assoc]
      rfl
    · rw [if_neg (fun h => absurd ((hasSlot_advance_iff hle hend hmin).mp h) (by omega)),
        min_eq_right (not_lt.mp hlt), min_eq_right ((not_lt.mp hlt).trans (Nat.le_succ n))]

/-- The slots follow one another from the start of the area on. -/
theorem handedOut_eq (hle : i.address_slots.toNat ≤ i.address_slots_end.toNat)
    (hend : i.address_slots_end.toNat + 8 < 2 ^ 64) (n : ℕ) : handedOut i n =
      if n < slotCount i then i.address_slots + BitVec.ofNat 64 (8 * n) else 0 := by
  have hmin : min n (slotCount i) ≤ slotCount i := min_le_right _ _
  rw [handedOut, iterate_afterSlot hle hend, slot]
  by_cases hlt : n < slotCount i
  · rw [if_pos ((hasSlot_advance_iff hle hend hmin).mpr (by omega)), if_pos hlt, min_eq_left hlt.le]
  · rw [if_neg (fun h => absurd ((hasSlot_advance_iff hle hend hmin).mp h) (by omega)), if_neg hlt]

/-- **Slots**: those of an area that does not reach the end of the address space are handed out one
after the other, as many as fit. -/
theorem handedOut_sound (hle : i.address_slots.toNat ≤ i.address_slots_end.toNat)
    (hend : i.address_slots_end.toNat + 8 < 2 ^ 64) : HandedOutSound i := by
  have hslot : ∀ {n}, handedOut i n ≠ 0 → n < slotCount i ∧
      handedOut i n = i.address_slots + BitVec.ofNat 64 (8 * n) := by
    intro n hne
    rw [handedOut_eq hle hend] at hne ⊢
    split_ifs at hne ⊢ with hlt
    · exact ⟨hlt, rfl⟩
    · exact absurd rfl hne
  -- a slot that is counted ends in the area
  have hcount : ∀ {n}, n < slotCount i →
      i.address_slots ≠ 0 ∧ i.address_slots.toNat + 8 * n + 8 ≤ i.address_slots_end.toNat := by
    intro n hn
    rw [slotCount] at hn
    split_ifs at hn with hzero
    · exact absurd hn (Nat.not_lt_zero n)
    · exact ⟨hzero, by omega⟩
  refine ⟨fun n hne x hx => ?_, fun n k hlt hn hk => ?_, slotCount i, fun n hn => ?_, fun n hn => ?_⟩
  · obtain ⟨hn, heq⟩ := hslot hne
    have hfits := (hcount hn).2
    rw [heq, mem_block] at hx
    rw [BitVec.le_def, BitVec.lt_def]
    bv_omega
  · obtain ⟨hn, heq⟩ := hslot hn
    obtain ⟨hk, heq'⟩ := hslot hk
    have hfits := (hcount hk).2
    -- the later of the two is whole slots behind the other
    have hsplit : i.address_slots + BitVec.ofNat 64 (8 * k) =
        i.address_slots + BitVec.ofNat 64 (8 * n) + BitVec.ofNat 64 (8 * (k - n)) := by
      rw [BitVec.add_assoc, ← BitVec.ofNat_add, ← Nat.mul_add, Nat.add_sub_cancel' hlt.le]
    rw [heq, heq', hsplit]
    exact disjoint_block_add (by omega) (by omega)
  · obtain ⟨hne, hfits⟩ := hcount hn
    have hpos : i.address_slots.toNat ≠ 0 := fun h => hne (BitVec.toNat_inj.mp h)
    rw [handedOut_eq hle hend, if_pos hn]
    bv_omega
  · rw [handedOut_eq hle hend, if_neg (not_lt.mpr hn)]

end Slots

/-! ## The area -/

section Area

variable {mem : Mem} {x start page e e' : Addr} {n k : ℕ}

/-- The mask takes an address to the page before if its page has an odd number, and nowhere if
not. -/
theorem toNat_and_not_page (x : Addr) :
    (x &&& ~~~4096).toNat = x.toNat - 4096 * (x.toNat / 4096 % 2) := by
  -- the bit of the page size is the parity of the page
  have hbit : (x &&& 4096).toNat = 4096 * (x.toNat / 4096 % 2) := by
    have hpow : (4096 : Addr).toNat = 2 ^ 12 := rfl
    have hdiv : x.toNat / 2 ^ 12 = x.toNat / 4096 := rfl
    rw [BitVec.toNat_and, hpow, Nat.and_two_pow, Nat.testBit_eq_decide_div_mod_eq, hdiv]
    rcases Nat.mod_two_eq_zero_or_one (x.toNat / 4096) with hbit | hbit
    · simp [hbit]
    · simp [hbit]
  rw [and_not_eq_sub, BitVec.toNat_sub_of_le, hbit]
  rw [BitVec.le_def, hbit]
  omega

theorem toNat_pageEnd (start : Addr) : (pageEnd start).toNat =
    (start.toNat + 4095) % 2 ^ 64 - 4096 * ((start.toNat + 4095) % 2 ^ 64 / 4096 % 2) := by
  have hadd : (start + 4095).toNat = (start.toNat + 4095) % 2 ^ 64 := BitVec.toNat_add _ _
  rw [pageEnd, toNat_and_not_page, hadd]

/-- The end of the page, if the page behind has an even number. -/
theorem pageEnd_of_even (hfits : start.toNat + 4095 < 2 ^ 64)
    (heven : (start.toNat + 4095) / 4096 % 2 = 0) : pageEnd start = start + 4095 := by
  have hfirst := toNat_pageEnd start
  apply BitVec.eq_of_toNat_eq
  bv_omega

/-- Otherwise it is a page too low. -/
theorem pageEnd_of_odd (hfits : start.toNat + 4095 < 2 ^ 64)
    (hodd : (start.toNat + 4095) / 4096 % 2 = 1) : pageEnd start = start - 1 := by
  have hfirst := toNat_pageEnd start
  apply BitVec.eq_of_toNat_eq
  bv_omega

theorem pageTurn_zero (h : read 32 mem e = 0) : pageTurn mem e = .again (e + 4096) :=
  if_pos h

theorem pageTurn_ne (h : read 32 mem e ≠ 0) : pageTurn mem e = .leave e :=
  if_neg h

/-- The page number `k` from an address on. -/
def pageAt (e : Addr) (k : ℕ) : Addr :=
  e + BitVec.ofNat 64 (4096 * k)

theorem pageAt_zero : pageAt e 0 = e := by
  simp [pageAt]

theorem pageAt_succ : pageAt e (k + 1) = pageAt (e + 4096) k := by
  rw [pageAt, pageAt, Nat.mul_succ, BitVec.ofNat_add, BitVec.add_comm (BitVec.ofNat 64 (4096 * k)),
    ← BitVec.add_assoc]
  rfl

/-- There are `2 ^ 52` pages. -/
theorem pageAt_mod : pageAt e (k % 2 ^ 52) = pageAt e k := by
  have hmod : 4096 * (k % 2 ^ 52) % 2 ^ 64 = 4096 * k % 2 ^ 64 := by omega
  have heq : BitVec.ofNat 64 (4096 * (k % 2 ^ 52)) = BitVec.ofNat 64 (4096 * k) := by
    apply BitVec.eq_of_toNat_eq
    rw [BitVec.toNat_ofNat, BitVec.toNat_ofNat, hmod]
  rw [pageAt, pageAt, heq]

theorem toNat_pageAt (h : e.toNat + 4096 * k < 2 ^ 64) : (pageAt e k).toNat = e.toNat + 4096 * k := by
  rw [pageAt, BitVec.toNat_add, BitVec.toNat_ofNat]
  omega

/-- **The loop over the pages**: it ends at the first page that begins with a word that is not
zero. -/
theorem loop_pageTurn_iff : (∃ fuel, loop (pageTurn mem) fuel e = some e') ↔
    ∃ k, e' = pageAt e k ∧ read 32 mem (pageAt e k) ≠ 0 ∧ ∀ j < k, read 32 mem (pageAt e j) = 0 := by
  constructor
  · rintro ⟨fuel, h⟩
    -- Induction on the turns: each passes one page over.
    induction fuel generalizing e with
    | zero => cases h
    | succ fuel ih =>
      by_cases hzero : read 32 mem e = 0
      · rw [loop_succ_again (pageTurn_zero hzero)] at h
        obtain ⟨k, rfl, hne, hbefore⟩ := ih h
        refine ⟨k + 1, pageAt_succ.symm, by rwa [pageAt_succ], fun j hj => ?_⟩
        cases j with
        | zero => rwa [pageAt_zero]
        | succ j =>
          rw [pageAt_succ]
          exact hbefore j (Nat.lt_of_succ_lt_succ hj)
      · rw [loop_succ_leave (pageTurn_ne hzero)] at h
        obtain rfl := Option.some.inj h
        exact ⟨0, pageAt_zero.symm, by rwa [pageAt_zero], fun j hj => absurd hj (Nat.not_lt_zero j)⟩
  · rintro ⟨k, rfl, hne, hbefore⟩
    -- Induction on the pages that are passed over.
    induction k generalizing e with
    | zero =>
      rw [pageAt_zero] at hne ⊢
      exact ⟨1, loop_succ_leave (pageTurn_ne hne) 0⟩
    | succ k ih =>
      have hzero := hbefore 0 (Nat.succ_pos k)
      have hrest : ∀ j < k, read 32 mem (pageAt (e + 4096) j) = 0 := by
        intro j hj
        have hj' := hbefore (j + 1) (Nat.succ_lt_succ hj)
        rwa [pageAt_succ] at hj'
      rw [pageAt_zero] at hzero
      rw [pageAt_succ] at hne ⊢
      obtain ⟨fuel, h⟩ := ih hne hrest
      exact ⟨fuel + 1, (loop_succ_again (pageTurn_zero hzero) fuel).trans h⟩

/-- The area for address slots is as it should be: it ends with a page, and on the pages that it
goes on to there is nothing; its slots are apart. -/
structure SlotsSound (mem : Mem) (start : Addr) (i : Patcher.MachInfo) : Prop where
  start_eq : i.address_slots = start
  aligned : i.address_slots_end.toNat % 4096 = 0
  le : i.address_slots ≤ i.address_slots_end
  empty : ∀ p, start.toNat ≤ 4096 * p → 4096 * p < i.address_slots_end.toNat →
    read 32 mem (BitVec.ofNat 64 (4096 * p)) = 0
  handedOut : HandedOutSound i

/-- The load commands end with the first byte of a page. Either the page behind has an even number,
or their last page is taken for an empty one; and from the page behind on there is one that is not
empty. -/
structure RoomForSlots (mem : Mem) (start : Addr) : Prop where
  offset : start.toNat % 4096 = 1
  fits : start.toNat + 4095 < 2 ^ 64
  even_or_zero : (start.toNat + 4095) / 4096 % 2 = 0 ∨ read 32 mem (start - 1) = 0
  ends : ∃ k, start.toNat + 4095 + 4096 * k < 2 ^ 64 ∧ read 32 mem (pageAt (start + 4095) k) ≠ 0

theorem toNat_add_page (hfits : start.toNat + 4095 < 2 ^ 64) :
    (start + 4095).toNat = start.toNat + 4095 := by
  rw [BitVec.toNat_add]
  exact Nat.mod_eq_of_lt hfits

theorem sub_one_add_page (start : Addr) : start - 1 + 4096 = start + 4095 := by
  bv_omega

/-- The first of all pages that is not empty comes less than `2 ^ 52` pages behind. -/
theorem lt_of_first (hne : read 32 mem (pageAt e k) ≠ 0)
    (hbefore : ∀ j < k, read 32 mem (pageAt e j) = 0) : k < 2 ^ 52 := by
  by_contra hge
  -- it would have been found a turn around the address space before
  refine hne ?_
  rw [← pageAt_mod]
  exact hbefore _ (by omega)

/-- What is asked of the page that the loop comes to. -/
theorem roomForSlots_of_sound (hne : read 32 mem (pageAt (pageEnd start) k) ≠ 0)
    (hbefore : ∀ j < k, read 32 mem (pageAt (pageEnd start) j) = 0)
    (hsound : SlotsSound mem start ⟨start, pageAt (pageEnd start) k⟩) : RoomForSlots mem start := by
  have hk := lt_of_first hne hbefore
  have hfirst := toNat_pageEnd start
  have hlast : (pageAt (pageEnd start) k).toNat = ((pageEnd start).toNat + 4096 * k) % 2 ^ 64 := by
    rw [pageAt, BitVec.toNat_add, BitVec.toNat_ofNat]
    omega
  have haligned : (pageAt (pageEnd start) k).toNat % 4096 = 0 := hsound.aligned
  have hle : start.toNat ≤ (pageAt (pageEnd start) k).toNat := BitVec.le_def.mp hsound.le
  -- the mask keeps the offset in the page, so that the end is aligned only if `start + 4095` is
  have hstart := start.isLt
  have hfits : start.toNat + 4095 < 2 ^ 64 := by omega
  have hoffset : start.toNat % 4096 = 1 := by omega
  rcases Nat.mod_two_eq_zero_or_one ((start.toNat + 4095) / 4096) with heven | hodd
  -- the mask changes nothing, so that the pages are those from `start + 4095` on
  · rw [pageEnd_of_even hfits heven] at hne hlast hle
    have hadd := toNat_add_page hfits
    exact ⟨hoffset, hfits, .inl heven, k, by omega, hne⟩
  · have hpage := pageEnd_of_odd hfits hodd
    -- the area cannot end before it begins, so that the page before was passed over
    cases k with
    | zero =>
      rw [pageAt_zero, hpage] at hle
      bv_omega
    | succ k =>
      have hzero := hbefore 0 (Nat.succ_pos k)
      rw [pageAt_zero, hpage] at hzero
      rw [pageAt_succ, hpage, sub_one_add_page] at hne
      refine ⟨hoffset, hfits, .inr hzero, k, ?_, hne⟩
      bv_omega

/-- With room for slots, there is a first page behind that is not empty. -/
theorem RoomForSlots.first (h : RoomForSlots mem start) :
    ∃ k, start.toNat + 4095 + 4096 * k < 2 ^ 64 ∧ read 32 mem (pageAt (start + 4095) k) ≠ 0 ∧
      ∀ j < k, read 32 mem (pageAt (start + 4095) j) = 0 := by
  classical
  have hends : ∃ k, read 32 mem (pageAt (start + 4095) k) ≠ 0 := h.ends.imp fun _ => And.right
  obtain ⟨k, hk, hne⟩ := h.ends
  -- the first comes before the one that is known
  have hle : Nat.find hends ≤ k := Nat.find_min' hends hne
  exact ⟨Nat.find hends, by omega, Nat.find_spec hends, fun j hj => not_not.mp (Nat.find_min hends hj)⟩

/-- The loop comes to that page, also where it begins a page too low. -/
theorem RoomForSlots.loop_ends (h : RoomForSlots mem start)
    (hne : read 32 mem (pageAt (start + 4095) k) ≠ 0)
    (hbefore : ∀ j < k, read 32 mem (pageAt (start + 4095) j) = 0) :
    ∃ fuel, loop (pageTurn mem) fuel (pageEnd start) = some (pageAt (start + 4095) k) := by
  apply loop_pageTurn_iff.mpr
  rcases Nat.mod_two_eq_zero_or_one ((start.toNat + 4095) / 4096) with heven | hodd
  · rw [pageEnd_of_even h.fits heven]
    exact ⟨k, rfl, hne, hbefore⟩
  · have hzero : read 32 mem (start - 1) = 0 := h.even_or_zero.resolve_left (by omega)
    rw [pageEnd_of_odd h.fits hodd]
    refine ⟨k + 1, ?_, ?_, fun j hj => ?_⟩
    · rw [pageAt_succ, sub_one_add_page]
    · rwa [pageAt_succ, sub_one_add_page]
    · cases j with
      | zero => rwa [pageAt_zero]
      | succ j =>
        rw [pageAt_succ, sub_one_add_page]
        exact hbefore j (Nat.lt_of_succ_lt_succ hj)

/-- With room for slots, the loop ends with an area that is as it should be. -/
theorem sound_of_roomForSlots (h : RoomForSlots mem start) : ∃ page,
    (∃ fuel, loop (pageTurn mem) fuel (pageEnd start) = some page) ∧
      SlotsSound mem start ⟨start, page⟩ := by
  obtain ⟨k, hk, hne, hbefore⟩ := h.first
  have hoffset := h.offset
  have hadd := toNat_add_page h.fits
  have hlast : (pageAt (start + 4095) k).toNat = start.toNat + 4095 + 4096 * k := by
    rw [toNat_pageAt (by omega), hadd]
  refine ⟨pageAt (start + 4095) k, h.loop_ends hne hbefore, rfl, ?_, ?_, ?_, ?_⟩
  · show (pageAt (start + 4095) k).toNat % 4096 = 0
    omega
  · show start ≤ pageAt (start + 4095) k
    rw [BitVec.le_def]
    omega
  · intro p hp hlt
    dsimp only at hlt
    -- a page in the area is one that was passed over
    have hpage : BitVec.ofNat 64 (4096 * p) = pageAt (start + 4095) (p - (start.toNat + 4095) / 4096) := by
      apply BitVec.eq_of_toNat_eq
      rw [toNat_pageAt (by omega), BitVec.toNat_ofNat]
      omega
    rw [hpage]
    exact hbefore _ (by omega)
  · -- an aligned end leaves room for another slot before the end of the address space
    apply handedOut_sound
    · show start.toNat ≤ (pageAt (start + 4095) k).toNat
      omega
    · show (pageAt (start + 4095) k).toNat + 8 < 2 ^ 64
      omega

/-- The loop leaves an area that is as it should be if and only if there is room for slots. -/
theorem sound_iff_roomForSlots : (∃ fuel page,
    loop (pageTurn mem) fuel (pageEnd start) = some page ∧ SlotsSound mem start ⟨start, page⟩) ↔
      RoomForSlots mem start := by
  constructor
  · rintro ⟨fuel, page, hloop, hsound⟩
    obtain ⟨k, rfl, hne, hbefore⟩ := loop_pageTurn_iff.mp ⟨fuel, hloop⟩
    exact roomForSlots_of_sound hne hbefore hsound
  · intro h
    obtain ⟨page, ⟨fuel, hloop⟩, hsound⟩ := sound_of_roomForSlots h
    exact ⟨fuel, page, hloop, hsound⟩

end Area

/-! ## The running image's area -/

section Sound

variable {mem : Mem} {kernelBase slide size : Addr} {force : Bool} {s s₁ : Running}

/-- A call returns, and the area that it has set up is as it should be. -/
def SetsUp (mem : Mem) (kernelBase slide size : Addr) (force : Bool) (s : Running) (start : Addr) :
    Prop :=
  ∃ fuel s', getRunningAddresses mem kernelBase fuel slide size force s = some (s', true) ∧
    SlotsSound mem start s'.slots

theorem setsUp_iff (h : locate mem kernelBase slide size force s = .slots s₁) :
    SetsUp mem kernelBase slide size force s (slotsStart mem s₁.running_mh) ↔
      RoomForSlots mem (slotsStart mem s₁.running_mh) := by
  rw [← sound_iff_roomForSlots]
  constructor
  · rintro ⟨fuel, s', hcall, hsound⟩
    rw [getRunningAddresses, h] at hcall
    obtain ⟨page, hloop, heq⟩ := Option.map_eq_some_iff.mp hcall
    obtain rfl := congrArg Prod.fst heq
    exact ⟨fuel, page, hloop, hsound⟩
  · rintro ⟨fuel, page, hloop, hsound⟩
    refine ⟨fuel, { s₁ with slots := ⟨slotsStart mem s₁.running_mh, page⟩ }, ?_, hsound⟩
    rw [getRunningAddresses, h]
    exact Option.map_eq_some_iff.mpr ⟨page, hloop, rfl⟩

/-- **Address slots**: whenever a call comes to the slots, of a single image or of a kernel
collection, the area that it sets up is as it should be if and only if there is room for slots
behind the load commands. Where a header is aligned and its load commands are, there is not. -/
theorem slotsSound_iff (h : locate mem kernelBase slide size force s = .slots s₁) :
    SetsUp mem kernelBase slide size force s (slotsStart mem s₁.running_mh) ↔
      RoomForSlots mem (slotsStart mem s₁.running_mh) :=
  setsUp_iff h

end Sound

/-- An image at `0x10000` with a segment `__TEXT`; its load commands have `low + 256 * high` bytes
as they say. -/
def image (low high : UInt8) : Mem := fun a =>
  let k := (a - 0x10000).toNat
  if k = 16 then 1
  else if k = 20 then low
  else if k = 21 then high
  else if k = 32 then 0x19
  else if k = 36 then 72
  else if 40 ≤ k ∧ k < 46 then TEXT.getD (k - 40) 0
  else if k = 57 then 0x10
  else if k < 104 then 0
  else 0xFF

/-- What is found of it. -/
def imageFound : Running where
  kaslr_slide_set := true
  kaslr_slide := 0x10000
  running_mh := 0x10000
  running_text_addr := 0x1000

/-- With load commands up to the first byte of a page there is room. -/
theorem slotsSound_iff_image :
    locate (image 0xE1 0x0F) 0 0x10000 0 false {} = .slots imageFound ∧
      (SetsUp (image 0xE1 0x0F) 0 0x10000 0 false {}
          (slotsStart (image 0xE1 0x0F) imageFound.running_mh) ↔
        RoomForSlots (image 0xE1 0x0F) (slotsStart (image 0xE1 0x0F) imageFound.running_mh)) ∧
      RoomForSlots (image 0xE1 0x0F) (slotsStart (image 0xE1 0x0F) imageFound.running_mh) := by
  have hlocate : locate (image 0xE1 0x0F) 0 0x10000 0 false {} = .slots imageFound := by decide +kernel
  have hstart : slotsStart (image 0xE1 0x0F) imageFound.running_mh = 0x11001 := by decide +kernel
  have hroom : RoomForSlots (image 0xE1 0x0F) (slotsStart (image 0xE1 0x0F) imageFound.running_mh) := by
    rw [hstart]
    exact ⟨rfl, by simp, .inl rfl, 0, by simp, by decide +kernel⟩
  exact ⟨hlocate, slotsSound_iff hlocate, hroom⟩

/-- The area behind one command of 72 bytes ends before it begins. -/
theorem not_slotsSound_image : ¬ ∀ (mem : Mem) (kernelBase slide size : Addr) (force : Bool)
    (s s₁ : Running), locate mem kernelBase slide size force s = .slots s₁ →
    SetsUp mem kernelBase slide size force s (slotsStart mem s₁.running_mh) := by
  intro h
  have hlocate : locate (image 72 0) 0 0x10000 0 false {} = .slots imageFound := by decide +kernel
  -- the load commands end at `0x10068`, in the middle of a page
  have hroom := (setsUp_iff hlocate).mp (h _ _ _ _ _ _ _ hlocate)
  exact absurd hroom.offset (by decide)

end Lilu.MachInfo
