import Lilu.Prelude.Register

/-!
# Direct access to RTC memory

The 256 bytes of memory are in two banks, each behind a port for the index and a port for the data.
A checksum of the bytes from 0x0E on is kept in two of them, which count as zero in it. It is a shift
register of sixteen bits, of which the upper two stay clear.

## Main definitions

* `Device`: the memory, the two indices and the interrupt flag, with the ports
* `readDirect`, `writeDirect`: ranges of bytes, and the checksum

## Main results

* `lossless_hashByte`: the checksum notices a byte that is altered
* `writeDirect_spec`: what is read after a write, and what the checksum is worth
-/

namespace Lilu.RTCStorage

open Function

def APPLERTC_HASHED_ADDR : UInt8 := 0x0E
def APPLERTC_CHECKSUM_ADDR1 : UInt8 := 0x58
def APPLERTC_CHECKSUM_ADDR2 : UInt8 := 0x59

def R_PCH_RTC_INDEX : UInt8 := 0x70
def R_PCH_RTC_TARGET : UInt8 := 0x71
def R_PCH_RTC_EXT_INDEX : UInt8 := 0x72
def R_PCH_RTC_EXT_TARGET : UInt8 := 0x73

def RTC_BANK_SIZE : UInt8 := 0x80
def RTC_DATA_MASK : UInt8 := 0x7F

/-- The device, and the interrupt flag of the processor. -/
structure Device where
  memory : UInt8 → UInt8
  index : UInt8
  extIndex : UInt8
  interrupts : Bool

/-- The address that an index selects in the lower and in the upper bank. -/
def lowAddr (index : UInt8) : UInt8 := index &&& 0x7F
def highAddr (index : UInt8) : UInt8 := (index &&& 0x7F) ||| 0x80

/-- A write to a port. -/
def ioWrite8 (port value : UInt8) (dev : Device) : Device :=
  if port = 0x70 then { dev with index := value }
  else if port = 0x71 then { dev with memory := update dev.memory (lowAddr dev.index) value }
  else if port = 0x72 then { dev with extIndex := value }
  else if port = 0x73 then { dev with memory := update dev.memory (highAddr dev.extIndex) value }
  else dev

/-- A read from a data port. -/
def ioRead8 (port : UInt8) (dev : Device) : UInt8 :=
  if port = 0x71 then dev.memory (lowAddr dev.index)
  else if port = 0x73 then dev.memory (highAddr dev.extIndex)
  else 0xFF

/-- `MachInfo::setInterrupts`: whether the flag was another one. -/
def setInterrupts (enable : Bool) (dev : Device) : Bool × Device :=
  (dev.interrupts != enable, { dev with interrupts := enable })

/-- The port for the index and the port for the data. -/
def ports (offset : UInt8) : UInt8 × UInt8 :=
  if offset < RTC_BANK_SIZE then (R_PCH_RTC_INDEX, R_PCH_RTC_TARGET)
  else (R_PCH_RTC_EXT_INDEX, R_PCH_RTC_EXT_TARGET)

def readByte (offset : UInt8) (dev : Device) : UInt8 × Device :=
  let (indexPort, dataPort) := ports offset
  let dev := ioWrite8 indexPort (offset &&& RTC_DATA_MASK) dev
  (ioRead8 dataPort dev, dev)

def writeByte (offset value : UInt8) (dev : Device) : Device :=
  let (indexPort, dataPort) := ports offset
  ioWrite8 dataPort value (ioWrite8 indexPort (offset &&& RTC_DATA_MASK) dev)

/-- The bytes from `off` on. -/
def readBytes : ℕ → UInt8 → Device → List UInt8 × Device
  | 0, _, dev => ([], dev)
  | n + 1, off, dev =>
    let (byte, dev) := readByte off dev
    let (bytes, dev) := readBytes n (off + 1) dev
    (byte :: bytes, dev)

def writeBytes : List UInt8 → UInt8 → Device → Device
  | [], _, dev => dev
  | byte :: bytes, off, dev => writeBytes bytes (off + 1) (writeByte off byte dev)

/-- Run with the interrupts off, if that is asked for. -/
def withoutInterrupts {α : Type*} (introff : Bool) (f : Device → α × Device) (dev : Device) :
    α × Device :=
  let (intrsOn, dev) := if introff then setInterrupts false dev else (false, dev)
  let (a, dev) := f dev
  (a, if intrsOn then (setInterrupts true dev).2 else dev)

def readDirect (off : UInt8) (size : ℕ) (introff : Bool) : Device → List UInt8 × Device :=
  withoutInterrupts introff (readBytes size off)

/-- One of the seven shifts for a byte. -/
def shift (checksum : UInt16) : UInt16 :=
  let even := checksum &&& 1
  let checksum := (checksum &&& 0xFFFE) >>> 1
  if even ≠ 0 then checksum ^^^ 0x2001 else checksum

def hashByte (checksum : UInt16) (byte : UInt8) : UInt16 :=
  shift^[7] (checksum ^^^ byte.toUInt16)

/-- The loop over the hashed addresses. -/
def hashBytes : ℕ → UInt8 → UInt16 → Device → UInt16 × Device
  | 0, _, checksum, dev => (checksum, dev)
  | n + 1, i, checksum, dev =>
    let (byte, dev) := if i = APPLERTC_CHECKSUM_ADDR1 ∨ i = APPLERTC_CHECKSUM_ADDR2 then (0, dev)
      else readByte i dev
    hashBytes n (i + 1) (hashByte checksum byte) dev

/-- The checksum of all hashed bytes. -/
def checksum (dev : Device) : UInt16 × Device :=
  hashBytes (256 - APPLERTC_HASHED_ADDR.toNat) APPLERTC_HASHED_ADDR 0 dev

/-- The checksum is computed and stored. -/
def updateChecksum (dev : Device) : Device :=
  let (checksum, dev) := checksum dev
  let dev := writeByte APPLERTC_CHECKSUM_ADDR1 (checksum >>> 8).toUInt8 dev
  writeByte APPLERTC_CHECKSUM_ADDR2 (checksum &&& 0xFF).toUInt8 dev

def writeDirect (off : UInt8) (buffer : List UInt8) (updatecrc introff : Bool) (dev : Device) :
    Device :=
  (withoutInterrupts introff (fun dev =>
    let dev := writeBytes buffer off dev
    ((), if updatecrc then updateChecksum dev else dev)) dev).2

/-! ## Bytes -/

theorem lowAddr_mask {offset : UInt8} (h : offset < RTC_BANK_SIZE) :
    lowAddr (offset &&& RTC_DATA_MASK) = offset := by
  have hall : ∀ bits : BitVec 8, UInt8.ofBitVec bits < RTC_BANK_SIZE →
      lowAddr (UInt8.ofBitVec bits &&& RTC_DATA_MASK) = UInt8.ofBitVec bits := by decide
  exact hall offset.toBitVec h

theorem highAddr_mask {offset : UInt8} (h : ¬ offset < RTC_BANK_SIZE) :
    highAddr (offset &&& RTC_DATA_MASK) = offset := by
  have hall : ∀ bits : BitVec 8, ¬ UInt8.ofBitVec bits < RTC_BANK_SIZE →
      highAddr (UInt8.ofBitVec bits &&& RTC_DATA_MASK) = UInt8.ofBitVec bits := by decide
  exact hall offset.toBitVec h

/-- **Reading a byte** changes no byte. -/
theorem readByte_spec (offset : UInt8) (dev : Device) :
    (readByte offset dev).1 = dev.memory offset ∧
      (readByte offset dev).2.memory = dev.memory ∧
      (readByte offset dev).2.interrupts = dev.interrupts := by
  unfold readByte ports
  by_cases h : offset < RTC_BANK_SIZE
  · rw [if_pos h]
    exact ⟨congrArg dev.memory (lowAddr_mask h), rfl, rfl⟩
  · rw [if_neg h]
    exact ⟨congrArg dev.memory (highAddr_mask h), rfl, rfl⟩

/-- **Writing a byte** changes that byte. -/
theorem writeByte_spec (offset value : UInt8) (dev : Device) :
    (writeByte offset value dev).memory = update dev.memory offset value ∧
      (writeByte offset value dev).interrupts = dev.interrupts := by
  unfold writeByte ports
  by_cases h : offset < RTC_BANK_SIZE
  · rw [if_pos h]
    exact ⟨congrArg (update dev.memory · value) (lowAddr_mask h), rfl⟩
  · rw [if_neg h]
    exact ⟨congrArg (update dev.memory · value) (highAddr_mask h), rfl⟩

/-! ## Ranges -/

/-- `n` addresses from `a` on. -/
def addresses : ℕ → UInt8 → List UInt8
  | 0, _ => []
  | n + 1, a => a :: addresses n (a + 1)

theorem toNat_succ {a : UInt8} (h : a.toNat + 1 < 256) : (a + 1).toNat = a.toNat + 1 := by
  rw [UInt8.toNat_add]
  exact Nat.mod_eq_of_lt h

theorem mem_addresses {n : ℕ} {off a : UInt8} (h : off.toNat + n ≤ 256) :
    a ∈ addresses n off ↔ off.toNat ≤ a.toNat ∧ a.toNat < off.toNat + n := by
  induction n generalizing off with
  | zero => simp [addresses]
  | succ n ih =>
    rw [addresses, List.mem_cons, ← UInt8.toNat_inj]
    by_cases hlast : off.toNat + 1 < 256
    · rw [ih (by rw [toNat_succ hlast]; omega), toNat_succ hlast]
      omega
    · obtain rfl : n = 0 := by omega
      simp only [addresses, List.not_mem_nil, or_false]
      omega

theorem nodup_addresses {n : ℕ} {off : UInt8} (h : off.toNat + n ≤ 256) :
    (addresses n off).Nodup := by
  induction n generalizing off with
  | zero => exact List.nodup_nil
  | succ n ih =>
    rw [addresses, List.nodup_cons]
    by_cases hlast : off.toNat + 1 < 256
    · have hnext : (off + 1).toNat + n ≤ 256 := by
        rw [toNat_succ hlast]
        omega
      refine ⟨?_, ih hnext⟩
      rw [mem_addresses hnext, toNat_succ hlast]
      omega
    · obtain rfl : n = 0 := by omega
      exact ⟨List.not_mem_nil, List.nodup_nil⟩

theorem getElem?_addresses {n i : ℕ} (off : UInt8) (hi : i < n) :
    (addresses n off)[i]? = some (off + UInt8.ofNat i) := by
  induction n generalizing i off with
  | zero => exact absurd hi (Nat.not_lt_zero i)
  | succ n ih =>
    cases i with
    | zero => exact congrArg some (UInt8.add_zero off).symm
    | succ i =>
      rw [addresses, List.getElem?_cons_succ, ih (off + 1) (Nat.lt_of_succ_lt_succ hi),
        UInt8.add_assoc, Nat.add_comm i 1, UInt8.ofNat_add]
      rfl

variable {bytes : List UInt8} {n : ℕ} {off a : UInt8} {c : UInt16} {dev : Device}

theorem readBytes_spec : (readBytes n off dev).1 = (addresses n off).map dev.memory ∧
    (readBytes n off dev).2.memory = dev.memory ∧
    (readBytes n off dev).2.interrupts = dev.interrupts := by
  induction n generalizing off dev with
  | zero => exact ⟨rfl, rfl, rfl⟩
  | succ n ih =>
    obtain ⟨hbyte, hmem, hintr⟩ := readByte_spec off dev
    obtain ⟨hbytes, hmem', hintr'⟩ := @ih (off + 1) (readByte off dev).2
    refine ⟨?_, hmem'.trans hmem, hintr'.trans hintr⟩
    rw [hmem] at hbytes
    exact congrArg₂ List.cons hbyte hbytes

theorem interrupts_writeBytes : (writeBytes bytes off dev).interrupts = dev.interrupts := by
  induction bytes generalizing off dev with
  | nil => rfl
  | cons b bytes ih => exact ih.trans (writeByte_spec off b dev).2

/-- Bytes outside of the range are as they were. -/
theorem memory_writeBytes_of_notMem (h : a ∉ addresses bytes.length off) :
    (writeBytes bytes off dev).memory a = dev.memory a := by
  induction bytes generalizing off dev with
  | nil => rfl
  | cons b bytes ih =>
    obtain ⟨hne, hrest⟩ := not_or.mp (mt List.mem_cons.mpr h)
    rw [writeBytes, ih hrest, (writeByte_spec off b dev).1, update_of_ne hne]

/-- The bytes in the range are those that were written. -/
theorem map_memory_writeBytes (h : (addresses bytes.length off).Nodup) :
    (addresses bytes.length off).map (writeBytes bytes off dev).memory = bytes := by
  induction bytes generalizing off dev with
  | nil => rfl
  | cons b bytes ih =>
    obtain ⟨hout, hrest⟩ := List.nodup_cons.mp h
    rw [List.length_cons, addresses, List.map_cons, writeBytes, ih hrest,
      memory_writeBytes_of_notMem hout, (writeByte_spec off b dev).1, update_self]

/-! ## The checksum -/

/-- A byte as it counts in the checksum. -/
def hashed (m : UInt8 → UInt8) (a : UInt8) : UInt8 :=
  if a = APPLERTC_CHECKSUM_ADDR1 ∨ a = APPLERTC_CHECKSUM_ADDR2 then 0 else m a

theorem hashBytes_spec :
    (hashBytes n off c dev).1 = ((addresses n off).map (hashed dev.memory)).foldl hashByte c ∧
      (hashBytes n off c dev).2.memory = dev.memory ∧
      (hashBytes n off c dev).2.interrupts = dev.interrupts := by
  induction n generalizing off c dev with
  | zero => exact ⟨rfl, rfl, rfl⟩
  | succ n ih =>
    rw [hashBytes, addresses, List.map_cons, List.foldl_cons, hashed]
    split_ifs with haddr
    · exact ih
    · obtain ⟨hbyte, hmem, hintr⟩ := readByte_spec off dev
      obtain ⟨hsum, hmem', hintr'⟩ :=
        @ih (off + 1) (hashByte c (readByte off dev).1) (readByte off dev).2
      rw [hmem, hbyte] at hsum
      exact ⟨hbyte ▸ hsum, hmem'.trans hmem, hintr'.trans hintr⟩

/-- The checksum of a memory. -/
def checksumOf (m : UInt8 → UInt8) : UInt16 :=
  ((addresses 242 APPLERTC_HASHED_ADDR).map (hashed m)).foldl hashByte 0

theorem checksum_spec (dev : Device) : (checksum dev).1 = checksumOf dev.memory ∧
    (checksum dev).2.memory = dev.memory ∧ (checksum dev).2.interrupts = dev.interrupts :=
  hashBytes_spec

/-- The checksum that is stored. -/
def stored (m : UInt8 → UInt8) : UInt16 :=
  (m APPLERTC_CHECKSUM_ADDR1).toUInt16 <<< 8 ||| (m APPLERTC_CHECKSUM_ADDR2).toUInt16

/-- The two halves of a checksum. -/
theorem checksum_bytes (c : UInt16) :
    (c >>> 8).toUInt8.toUInt16 <<< 8 ||| (c &&& 0xFF).toUInt8.toUInt16 = c := by
  have hc := c.toNat_lt
  have hhigh : ((c >>> 8).toUInt8.toUInt16 <<< 8).toNat = (c.toNat / 256) <<< 8 := by
    have hshift : (c >>> 8).toNat = c.toNat / 256 := by
      rw [UInt16.toNat_shiftRight, Nat.shiftRight_eq_div_pow]
      rfl
    rw [UInt16.toNat_shiftLeft, UInt8.toNat_toUInt16, UInt16.toNat_toUInt8, hshift,
      Nat.mod_eq_of_lt (show c.toNat / 256 < 256 by omega)]
    refine Nat.mod_eq_of_lt ?_
    rw [Nat.shiftLeft_eq]
    show c.toNat / 256 * 256 < 65536
    omega
  have hlow : (c &&& 0xFF).toUInt8.toUInt16.toNat = c.toNat % 256 := by
    rw [UInt8.toNat_toUInt16, UInt16.toNat_toUInt8, UInt16.toNat_and]
    show (c.toNat &&& (2 ^ 8 - 1)) % 2 ^ 8 = c.toNat % 2 ^ 8
    rw [Nat.and_two_pow_sub_one_eq_mod, Nat.mod_mod]
  rw [← UInt16.toNat_inj, UInt16.toNat_or, hhigh, hlow,
    ← Nat.shiftLeft_add_eq_or_of_lt (Nat.mod_lt _ (by decide)), Nat.shiftLeft_eq]
  omega

/-- The memory with a checksum. -/
def withChecksum (m : UInt8 → UInt8) (c : UInt16) : UInt8 → UInt8 :=
  update (update m APPLERTC_CHECKSUM_ADDR1 (c >>> 8).toUInt8) APPLERTC_CHECKSUM_ADDR2
    (c &&& 0xFF).toUInt8

theorem stored_withChecksum (m : UInt8 → UInt8) (c : UInt16) : stored (withChecksum m c) = c := by
  have hne : APPLERTC_CHECKSUM_ADDR1 ≠ APPLERTC_CHECKSUM_ADDR2 := by decide
  rw [stored, withChecksum, update_self, update_of_ne hne, update_self]
  exact checksum_bytes c

theorem withChecksum_of_ne (m : UInt8 → UInt8) (c : UInt16) (h₁ : a ≠ APPLERTC_CHECKSUM_ADDR1)
    (h₂ : a ≠ APPLERTC_CHECKSUM_ADDR2) : withChecksum m c a = m a := by
  rw [withChecksum, update_of_ne h₂, update_of_ne h₁]

/-- The checksum does not count. -/
theorem hashed_withChecksum (m : UInt8 → UInt8) (c : UInt16) :
    hashed (withChecksum m c) = hashed m := by
  ext a
  unfold hashed
  split_ifs with haddr
  · rfl
  · obtain ⟨h₁, h₂⟩ := not_or.mp haddr
    rw [withChecksum_of_ne m c h₁ h₂]

theorem checksumOf_withChecksum (m : UInt8 → UInt8) (c : UInt16) :
    checksumOf (withChecksum m c) = checksumOf m := by
  rw [checksumOf, hashed_withChecksum]
  rfl

/-- Storing the same checksum again changes nothing. -/
theorem withChecksum_self (m : UInt8 → UInt8) (c : UInt16) :
    withChecksum (withChecksum m c) c = withChecksum m c := by
  funext a
  by_cases h₂ : a = APPLERTC_CHECKSUM_ADDR2
  · rw [h₂, withChecksum, update_self, withChecksum, update_self]
  by_cases h₁ : a = APPLERTC_CHECKSUM_ADDR1
  · have hne : APPLERTC_CHECKSUM_ADDR1 ≠ APPLERTC_CHECKSUM_ADDR2 := by decide
    rw [h₁, withChecksum, update_of_ne hne, update_self, withChecksum, update_of_ne hne,
      update_self]
  · exact withChecksum_of_ne _ c h₁ h₂

theorem updateChecksum_spec (dev : Device) :
    (updateChecksum dev).memory = withChecksum dev.memory (checksumOf dev.memory) ∧
      (updateChecksum dev).interrupts = dev.interrupts := by
  obtain ⟨hsum, hmem, hintr⟩ := checksum_spec dev
  unfold updateChecksum
  simp only [(writeByte_spec ..).1, (writeByte_spec ..).2, hsum, hmem, hintr]
  exact ⟨rfl, trivial⟩

/-! ## The register -/

theorem odd_iff (c : UInt16) : c &&& 1 ≠ 0 ↔ c.toBitVec.getLsbD 0 = true := by
  have hbit : (c &&& 1).toBitVec = BitVec.setWidth 16 (BitVec.ofBool (c.toBitVec.getLsbD 0)) := by
    rw [UInt16.toBitVec_and]
    exact BitVec.and_one_eq_setWidth_ofBool_getLsbD
  rw [ne_eq, ← UInt16.toBitVec_inj, hbit]
  cases c.toBitVec.getLsbD 0 <;> decide

theorem getLsbD_shift (c : UInt16) (i : ℕ) : (shift c).toBitVec.getLsbD i =
    (c.toBitVec.getLsbD (i + 1) ^^ (c.toBitVec.getLsbD 0 && (0x2001#16).getLsbD i)) := by
  have hmask : ∀ k < 15, (0xFFFE#16).getLsbD (k + 1) = true := by decide
  have hhalf : ((c &&& 0xFFFE) >>> 1).toBitVec.getLsbD i = c.toBitVec.getLsbD (i + 1) := by
    have hshift : ((c &&& 0xFFFE) >>> 1).toBitVec = (c.toBitVec &&& 0xFFFE#16) >>> 1 := rfl
    rw [hshift, BitVec.getLsbD_ushiftRight, BitVec.getLsbD_and, Nat.add_comm]
    by_cases hi : i < 15
    · rw [hmask i hi, Bool.and_true]
    · rw [BitVec.getLsbD_of_ge _ _ (by omega), Bool.false_and]
  unfold shift
  by_cases hodd : c.toBitVec.getLsbD 0 = true
  · rw [if_pos ((odd_iff c).mpr hodd), UInt16.toBitVec_xor, BitVec.getLsbD_xor, hhalf, hodd,
      Bool.true_and]
    rfl
  · rw [if_neg (mt (odd_iff c).mp hodd), hhalf, Bool.eq_false_iff.mpr hodd, Bool.false_and,
      Bool.xor_false]

/-- The values that the register takes. -/
def Narrow (c : UInt16) : Prop :=
  ∀ i, 14 ≤ i → c.toBitVec.getLsbD i = false

theorem Narrow.shift (h : Narrow c) : Narrow (shift c) := by
  have hmask : ∀ i, 14 ≤ i → (0x2001#16).getLsbD i = false := by
    intro i hi
    by_cases hlt : i < 16
    · interval_cases i <;> rfl
    · exact BitVec.getLsbD_of_ge _ _ (Nat.not_lt.mp hlt)
  intro i hi
  rw [getLsbD_shift, h (i + 1) (by omega), hmask i hi, Bool.and_false]
  rfl

/-- **A shift** loses nothing: the bit that is shifted out comes in again at the thirteenth place,
where nothing else does. -/
theorem shift_injOn : Set.InjOn shift {c | Narrow c} := by
  intro c hc c' hc' heq
  have hbit : ∀ i, (c.toBitVec.getLsbD (i + 1) ^^ (c.toBitVec.getLsbD 0 && (0x2001#16).getLsbD i)) =
      (c'.toBitVec.getLsbD (i + 1) ^^ (c'.toBitVec.getLsbD 0 && (0x2001#16).getLsbD i)) := by
    intro i
    rw [← getLsbD_shift, ← getLsbD_shift, heq]
  have hlow : c.toBitVec.getLsbD 0 = c'.toBitVec.getLsbD 0 := by
    have h13 := hbit 13
    have hmask : (0x2001#16).getLsbD 13 = true := by decide
    rwa [hc 14 le_rfl, hc' 14 le_rfl, hmask, Bool.and_true, Bool.and_true, Bool.false_xor,
      Bool.false_xor] at h13
  refine UInt16.toBitVec_inj.mp (BitVec.eq_of_getLsbD_eq fun i _ => ?_)
  cases i with
  | zero => exact hlow
  | succ i =>
    have hnext := hbit i
    rw [hlow] at hnext
    rwa [Bool.xor_left_inj] at hnext

theorem narrow_xor (h : Narrow c) (byte : UInt8) : Narrow (c ^^^ byte.toUInt16) := by
  intro i hi
  have hbyte : byte.toUInt16.toBitVec.getLsbD i = false := by
    rw [UInt8.toBitVec_toUInt16, BitVec.getLsbD_setWidth, BitVec.getLsbD_of_ge _ _ (by omega),
      Bool.and_false]
  rw [UInt16.toBitVec_xor, BitVec.getLsbD_xor, h i hi, hbyte]
  rfl

/-- **The checksum** loses nothing of what it was or of a byte. -/
theorem lossless_hashByte : Lossless hashByte {c | Narrow c} := by
  have hshift : Set.MapsTo shift {c | Narrow c} {c | Narrow c} := fun c hc => hc.shift
  have hmaps := hshift.iterate 7
  have hinj := shift_injOn.iterate hshift 7
  refine ⟨fun byte c hc => hmaps (narrow_xor hc byte), fun byte c hc c' hc' heq => ?_,
    fun c hc byte byte' heq => ?_⟩
  · have hxor := hinj (narrow_xor hc byte) (narrow_xor hc' byte) heq
    exact (UInt16.xor_left_inj _).mp hxor
  · have hxor := hinj (narrow_xor hc byte) (narrow_xor hc byte') heq
    have hbytes : byte.toUInt16 = byte'.toUInt16 := (UInt16.xor_right_inj _).mp hxor
    rw [← UInt8.toNat_inj]
    have htoNat := congrArg UInt16.toNat hbytes
    rwa [UInt8.toNat_toUInt16, UInt8.toNat_toUInt16] at htoNat

/-- **A byte that is altered** has another checksum. -/
theorem checksumOf_update_ne {m : UInt8 → UInt8} {v : UInt8} (ha : APPLERTC_HASHED_ADDR ≤ a)
    (h₁ : a ≠ APPLERTC_CHECKSUM_ADDR1) (h₂ : a ≠ APPLERTC_CHECKSUM_ADDR2) (hv : v ≠ m a) :
    checksumOf (update m a v) ≠ checksumOf m := by
  have hrange : APPLERTC_HASHED_ADDR.toNat + 242 ≤ 256 := by decide
  have hmem : a ∈ addresses 242 APPLERTC_HASHED_ADDR := by
    rw [mem_addresses hrange]
    exact ⟨UInt8.le_iff_toNat_le.mp ha, a.toNat_lt⟩
  obtain ⟨l, r, hsplit⟩ := List.append_of_mem hmem
  have hnodup := nodup_addresses hrange
  rw [hsplit] at hnodup
  obtain ⟨-, hcons, hdisjoint⟩ := List.nodup_append.mp hnodup
  have hsame : ∀ b, b ≠ a → hashed (update m a v) b = hashed m b := by
    intro b hb
    rw [hashed, hashed, update_of_ne hb]
  have hl : l.map (hashed (update m a v)) = l.map (hashed m) :=
    List.map_congr_left fun b hb => hsame b (hdisjoint b hb a List.mem_cons_self)
  have hr : r.map (hashed (update m a v)) = r.map (hashed m) := by
    refine List.map_congr_left fun b hb => hsame b ?_
    rintro rfl
    exact (List.nodup_cons.mp hcons).1 hb
  have hold : hashed m a = m a := if_neg (not_or.mpr ⟨h₁, h₂⟩)
  have hnew : hashed (update m a v) a = v := by
    rw [hashed, if_neg (not_or.mpr ⟨h₁, h₂⟩), update_self]
  rw [checksumOf, checksumOf, hsplit, List.map_append, List.map_append, List.map_cons,
    List.map_cons, hl, hr, hold, hnew]
  apply lossless_hashByte.foldl_ne _ _ _ hv
  intro i _
  exact BitVec.getLsbD_zero

/-! ## Reading and writing -/

theorem withoutInterrupts_spec {α : Type*} (introff : Bool) (f : Device → α × Device)
    (hf : ∀ dev, (f dev).2.interrupts = dev.interrupts) (dev : Device) :
    ∃ dev', dev'.memory = dev.memory ∧ (withoutInterrupts introff f dev).1 = (f dev').1 ∧
      (withoutInterrupts introff f dev).2.memory = (f dev').2.memory ∧
      (withoutInterrupts introff f dev).2.interrupts = dev.interrupts := by
  cases introff with
  | false => exact ⟨dev, rfl, rfl, rfl, hf dev⟩
  | true =>
    refine ⟨{ dev with interrupts := false }, rfl, rfl, ?_, ?_⟩
    · simp only [withoutInterrupts, setInterrupts]
      split_ifs <;> rfl
    · simp only [withoutInterrupts, setInterrupts]
      cases hon : dev.interrupts with
      | true => rfl
      | false => exact hf _

theorem readDirect_spec (off : UInt8) (size : ℕ) (introff : Bool) (dev : Device) :
    (readDirect off size introff dev).1 = (addresses size off).map dev.memory ∧
      (readDirect off size introff dev).2.memory = dev.memory ∧
      (readDirect off size introff dev).2.interrupts = dev.interrupts := by
  obtain ⟨dev', hmem, hval, hmem', hintr⟩ := withoutInterrupts_spec introff (readBytes size off)
    (fun _ => readBytes_spec.2.2) dev
  refine ⟨hval.trans ?_, hmem'.trans ?_, hintr⟩
  · rw [readBytes_spec.1, hmem]
  · rw [readBytes_spec.2.1, hmem]

/-- **A write** with the checksum: the bytes in the range, and then the checksum of all. -/
theorem memory_writeDirect (off : UInt8) (buffer : List UInt8) (introff : Bool) (dev : Device) :
    ∃ dev', dev'.memory = dev.memory ∧
      (writeDirect off buffer true introff dev).memory =
        withChecksum (writeBytes buffer off dev').memory
          (checksumOf (writeBytes buffer off dev').memory) ∧
      (writeDirect off buffer true introff dev).interrupts = dev.interrupts := by
  obtain ⟨dev', hmem, -, hmem', hintr⟩ := withoutInterrupts_spec introff (fun dev =>
    ((), updateChecksum (writeBytes buffer off dev)))
    (fun dev => (updateChecksum_spec _).2.trans interrupts_writeBytes) dev
  have hwrite : writeDirect off buffer true introff dev = (withoutInterrupts introff (fun dev =>
      ((), updateChecksum (writeBytes buffer off dev))) dev).2 := by
    unfold writeDirect
    simp only [if_true]
  rw [hwrite]
  refine ⟨dev', hmem, ?_, hintr⟩
  rw [hmem', (updateChecksum_spec _).1]

/-- **Reading back**: after a write with the checksum the range reads as the buffer, and the other
bytes are as they were, apart from the checksum. That is the one of the bytes that are there now, so
storing it once more changes nothing, and it is not the one of a memory with a byte altered. -/
theorem writeDirect_spec (off : UInt8) (buffer : List UInt8) (introff : Bool) (dev : Device)
    (hsize : buffer.length ≤ 256 - off.toNat) :
    let dev' := writeDirect off buffer true introff dev
    (∀ introff' i, i < buffer.length → off + UInt8.ofNat i ≠ APPLERTC_CHECKSUM_ADDR1 →
      off + UInt8.ofNat i ≠ APPLERTC_CHECKSUM_ADDR2 →
      (readDirect off buffer.length introff' dev').1[i]? = buffer[i]?) ∧
    (∀ a, ¬ (off.toNat ≤ a.toNat ∧ a.toNat < off.toNat + buffer.length) →
      a ≠ APPLERTC_CHECKSUM_ADDR1 → a ≠ APPLERTC_CHECKSUM_ADDR2 →
      dev'.memory a = dev.memory a) ∧
    stored dev'.memory = (checksum dev').1 ∧
    (∀ off' introff', (writeDirect off' [] true introff' dev').memory = dev'.memory) ∧
    ∀ a v, APPLERTC_HASHED_ADDR ≤ a → a ≠ APPLERTC_CHECKSUM_ADDR1 → a ≠ APPLERTC_CHECKSUM_ADDR2 →
      v ≠ dev'.memory a →
      (checksum { dev' with memory := update dev'.memory a v }).1 ≠ stored dev'.memory := by
  intro dev'
  have hrange : off.toNat + buffer.length ≤ 256 := by
    have := off.toNat_lt
    omega
  obtain ⟨dev₁, hmem₁, hmem, -⟩ := memory_writeDirect off buffer introff dev
  set m := (writeBytes buffer off dev₁).memory with hm
  have hstored : stored dev'.memory = checksumOf dev'.memory := by
    rw [hmem, stored_withChecksum, checksumOf_withChecksum]
  refine ⟨fun introff' i hi h₁ h₂ => ?_, fun a ha h₁ h₂ => ?_, ?_, fun off' introff' => ?_,
    fun a v ha h₁ h₂ hv => ?_⟩
  · have hwritten : (addresses buffer.length off).map m = buffer :=
      map_memory_writeBytes (nodup_addresses hrange)
    have hback := congrArg (·[i]?) hwritten
    rw [List.getElem?_map, getElem?_addresses off hi, Option.map_some] at hback
    rw [(readDirect_spec ..).1, List.getElem?_map, getElem?_addresses off hi, Option.map_some, hmem,
      withChecksum_of_ne m _ h₁ h₂, hback]
  · rw [hmem, withChecksum_of_ne m _ h₁ h₂, hm,
      memory_writeBytes_of_notMem (mt (mem_addresses hrange).mp ha), hmem₁]
  · rw [hstored, (checksum_spec dev').1]
  · obtain ⟨dev₂, hmem₂, hagain, -⟩ := memory_writeDirect off' [] introff' dev'
    rw [hagain, writeBytes, hmem₂, hmem, checksumOf_withChecksum, withChecksum_self]
  · rw [hstored, (checksum_spec _).1]
    exact checksumOf_update_ne ha h₁ h₂ hv

/-- Two bytes that are written over the second byte of the checksum. -/
theorem writeDirect_spec_two :
    let dev : Device := ⟨fun _ => 0, 0, 0, true⟩
    let dev' := writeDirect 0x59 [7, 8] true true dev
    (readDirect 0x59 2 true dev').1[1]? = some 8 ∧ stored dev'.memory = (checksum dev').1 := by
  intro dev dev'
  obtain ⟨hread, -, hstored, -⟩ := writeDirect_spec 0x59 [7, 8] true dev (by decide)
  exact ⟨hread true 1 (by decide) (by decide) (by decide), hstored⟩

end Lilu.RTCStorage
