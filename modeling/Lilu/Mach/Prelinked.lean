import Lilu.Mach.Running
import Lilu.Mach.Sections

/-!
# Images from the prelinked kernel

The prelinked kernel holds kexts in a section of its own, and a dictionary tells their addresses and
sizes. The address of an image is moved from where the section is mapped to where it was read to,
and is checked against the file buffer. The symbols of a kext are copied from its image, as its
header tells.

## Main definitions

* `PrelinkDict`, `PrelinkImage`: the dictionary, and what it tells of an image
* `updatePrelinkInfo`, `findImage`: the dictionary is found, and an image in it
* `initFromPrelinked`: the symbols of a kext are copied from its image

## Main results

* `inFile_iff`: what the check of an address means
* `findImage_inside`: an image that is returned is in the file buffer
* `initFromPrelinked_inside`: so it is, and what is copied is in the image
-/

namespace Lilu.MachInfo

open Lilu.Kext (CString)
open Lilu.Patcher (Addr Mem)

/-! ## The dictionary -/

/-- What the dictionary tells of an image; a value is none unless it has the expected class. -/
structure PrelinkImage where
  CFBundleIdentifier : Option CString
  _PrelinkExecutableSourceAddr : Option (BitVec 64)
  _PrelinkExecutableLoadAddr : Option (BitVec 64)
  _PrelinkExecutableSize : Option (BitVec 64)
  deriving DecidableEq

/-- The dictionary: its array, the elements of which may not be dictionaries, and whether the
addresses are slid. -/
structure PrelinkDict where
  _PrelinkInfoDictionary : Option (List (Option PrelinkImage))
  _PrelinkLinkKASLROffsets : Bool
  deriving DecidableEq

/-- The part of the kernel's data that concerns the prelinked kernel. A pointer is null when it is
zero. -/
structure Prelink where
  isKernel : Bool
  file_buf : Addr
  file_buf_size : BitVec 32
  prelink_dict : Option PrelinkDict := none
  prelink_addr : Addr := 0
  prelink_vmaddr : Addr := 0
  prelink_slid : Bool := false
  kaslr_slide : Addr := 0

/-- The static variables of `findImage`. -/
structure Statics where
  imageArr : Option (List (Option PrelinkImage)) := none
  imageNum : ℕ := 0

/-- The bytes of `__PRELINK_INFO`, `__info`, `__PRELINK_TEXT` and `__text`. -/
def PRELINK_INFO : CString := [95, 95, 80, 82, 69, 76, 73, 78, 75, 95, 73, 78, 70, 79]
def infoSection : CString := [95, 95, 105, 110, 102, 111]
def PRELINK_TEXT : CString := [95, 95, 80, 82, 69, 76, 73, 78, 75, 95, 84, 69, 88, 84]
def textSection : CString := [95, 95, 116, 101, 120, 116]

section Find

variable (mem : Mem) (OSUnserializeXML : CString → Option PrelinkDict)

namespace Prelink

/-- The size of the file buffer as a number of 64 bits. -/
def size (m : Prelink) : Addr :=
  m.file_buf_size.setWidth 64

def findSection (m : Prelink) (segmentName sectionName : CString) : Bounds :=
  (findSectionBounds m.file_buf m.size segmentName sectionName
    (BitVec.ofNat 32 MachCpuTypeNative)).run mem

/-- The dictionary in the information section, which has to end in a zero. -/
def prelinkInfo (m : Prelink) : Option PrelinkDict :=
  let sect := m.findSection mem PRELINK_INFO infoSection
  let startoff :=
    if sect.sectionSize ≠ 0 ∧ m.file_buf ≤ sect.sectionptr then sect.sectionptr - m.file_buf
    else m.size
  if 0 < sect.sectionSize ∧ startoff < m.size ∧ sect.sectionSize ≤ m.size - startoff then
    let xmlData := load mem sect.sectionptr sect.sectionSize.toNat
    if xmlData.getLast? = some 0 then OSUnserializeXML (xmlData.takeWhile (· ≠ 0)) else none
  else none

/-- `updatePrelinkInfo`: the dictionary is kept if there is a section for the images as well. -/
def updatePrelinkInfo (m : Prelink) : Prelink :=
  if m.prelink_dict.isNone ∧ m.isKernel ∧ m.file_buf ≠ 0 then
    match m.prelinkInfo mem OSUnserializeXML with
    | none => m
    | some dict =>
      let sect := m.findSection mem PRELINK_TEXT textSection
      if sect.sectionSize ≠ 0 then
        { m with
          prelink_dict := some dict
          prelink_addr := sect.sectionptr
          prelink_vmaddr := sect.vmsection
          prelink_slid := dict._PrelinkLinkKASLROffsets }
      else m
  else m

/-- The check of an image's address. The offset is a difference of pointers, so that the comparisons
are signed. -/
def inFile (m : Prelink) (imageaddr : Addr) (imageSize : BitVec 32) : Bool :=
  let startoff := if m.file_buf ≤ imageaddr then imageaddr - m.file_buf else m.size
  startoff.slt m.size && (imageSize.setWidth 64).sle (m.size - startoff)

end Prelink

/-- What `findImage` returns, null at first, and the variables that are passed by reference. -/
structure Found where
  imageSize : BitVec 32
  slide : Addr
  missing : Bool
  image : Addr := 0

/-- What is returned for an image of the dictionary. -/
def foundImage (m : Prelink) (image : PrelinkImage) (out : Found) : Found :=
  match image._PrelinkExecutableSourceAddr, image._PrelinkExecutableLoadAddr,
      image._PrelinkExecutableSize with
  | some saddr, some _, some size =>
    let imageSize := size.setWidth 32
    let imageaddr := (saddr - m.prelink_vmaddr) + m.prelink_addr
    -- the size is also set if the address is not accepted
    if m.inFile imageaddr imageSize then
      { out with
        image := imageaddr
        imageSize := imageSize
        slide := if m.prelink_slid then 0 else m.kaslr_slide }
    else { out with imageSize := imageSize }
  | _, _, _ => out

/-- `findImage`: the first image with the identifier. -/
def findImage (identifier : CString) (imageSize : BitVec 32) (slide : Addr) (missing : Bool)
    (st : Statics) (m : Prelink) : Prelink × Statics × Found :=
  let out : Found := { imageSize, slide, missing }
  let m := m.updatePrelinkInfo mem OSUnserializeXML
  match m.prelink_dict with
  | none => (m, st, out)
  | some dict =>
    let st := { st with imageArr := st.imageArr.or dict._PrelinkInfoDictionary }
    match st.imageArr with
    | none => (m, st, out)
    | some arr =>
      let st := { st with imageNum := if st.imageNum = 0 then arr.length else st.imageNum }
      let images := (arr.take st.imageNum).reduceOption
      match images.find? fun image => image.CFBundleIdentifier = some identifier with
      | some image => (m, st, foundImage m image out)
      | none => (m, st, { out with missing := true })

end Find

/-! ## The symbols of a kext -/

/-- The part of a kext's data that is set from its image. -/
structure PrelinkedKext where
  objectId : Option CString
  syms : Symbols := {}
  file_buf : Addr := 0
  file_buf_size : BitVec 32 := 0
  prelink_vmaddr : Addr := 0
  prelink_slid : Bool := false
  self_uuid : ℕ × ℕ := (0, 0)
  sym_buf : Addr := 0

/-- A call of `memcpy`. -/
structure Memcpy where
  dst : Addr
  src : Addr
  size : ℕ
  deriving DecidableEq

/-- The memory behind a call. -/
def Memcpy.run (c : Memcpy) (mem : Mem) : Mem :=
  store mem c.dst (load mem c.src c.size)

namespace PrelinkedKext

variable (create : ℕ → Addr) (uuids : Bool) (mem : Mem)

/-- `processMachHeader` for an image in memory; the first command is not aligned if the image is
not. -/
def processHeader (k : PrelinkedKext) : PrelinkedKext :=
  if k.file_buf.toNat % 4 = 0 then
    { k with syms := processMachHeader k.syms (headerAt mem k.file_buf) }
  else k

/-- `getUUID` for an image in memory. -/
def imageUUID (k : PrelinkedKext) : Option (ℕ × ℕ) :=
  if k.file_buf.toNat % 4 = 0 then getUUID (headerAt mem k.file_buf) else none

def loadUUID (k : PrelinkedKext) : PrelinkedKext × Bool :=
  if ¬ uuids then (k, true)
  else
    match k.imageUUID mem with
    | some p => ({ k with self_uuid := p }, true)
    | none => (k, false)

/-- `readSymbols` where there is a file buffer: the copy that is made, if it succeeds. The numbers
of the header have 64 bits, the size of the buffer has 32. -/
def readSymbols (k : PrelinkedKext) : PrelinkedKext × Option Memcpy :=
  let sym_buf := create k.syms.sym_size
  if sym_buf = 0 then ({ k with sym_buf := 0 }, none)
  else if k.syms.sym_size ≤ k.file_buf_size.toNat ∧
      k.syms.sym_fileoff ≤ k.file_buf_size.toNat - k.syms.sym_size then
    ({ k with sym_buf := sym_buf },
      some ⟨sym_buf, k.file_buf + BitVec.ofNat 64 k.syms.sym_fileoff, k.syms.sym_size⟩)
  else ({ k with sym_buf := 0 }, none)

/-- The symbols of an image that was found: the copy that is made, if it succeeds. -/
def readImage (k : PrelinkedKext) : PrelinkedKext × Option Memcpy :=
  if k.file_buf ≠ 0 ∧ HeaderSize ≤ k.file_buf_size.toNat then
    let k := k.processHeader mem
    if k.syms.sym_fileoff ≠ 0 ∧ k.syms.symboltable_fileoff ≠ 0 then
      match k.loadUUID uuids mem with
      | (k, true) =>
        match k.readSymbols create with
        | (k, some c) => ({ k with prelink_slid := true }, some c)
        | (k, none) => (k, none)
      | (k, false) => (k, none)
    else (k, none)
  else (k, none)

end PrelinkedKext

/-- What `initFromPrelinked` leaves: it succeeds if a copy is made. -/
structure Inited where
  kext : PrelinkedKext
  prelink : Option Prelink
  statics : Statics
  mem : Mem
  copied : Option Memcpy := none

section Init

variable (OSUnserializeXML : CString → Option PrelinkDict) (create : ℕ → Addr) (uuids : Bool)
  (mem : Mem)

/-- `findImage` as `initFromPrelinked` calls it. -/
def findKext (objectId : CString) (k : PrelinkedKext) (st : Statics) (m : Prelink) :
    Prelink × Statics × Found :=
  findImage mem OSUnserializeXML objectId k.file_buf_size k.prelink_vmaddr false st m

def initFromPrelinked (k : PrelinkedKext) (prelink : Option Prelink) (st : Statics) : Inited :=
  match prelink, k.objectId with
  | some m, some objectId =>
    let (m, st, found) := findKext OSUnserializeXML mem objectId k st m
    let k := { k with
      file_buf := found.image
      file_buf_size := found.imageSize
      prelink_vmaddr := found.slide }
    let (k, copied) := k.readImage create uuids mem
    ⟨{ k with file_buf := 0 }, some m, st, (copied.map (Memcpy.run · mem)).getD mem, copied⟩
  | prelink, _ => ⟨k, prelink, st, mem, none⟩

end Init

/-! ## Where images are, and where they are copied from -/

section Inside

variable {mem : Mem} {OSUnserializeXML : CString → Option PrelinkDict} {create : ℕ → Addr}
  {uuids : Bool} {m : Prelink} {k : PrelinkedKext} {st : Statics}

/-- The dictionary does not move the file buffer. -/
theorem updatePrelinkInfo_file : (m.updatePrelinkInfo mem OSUnserializeXML).file_buf = m.file_buf ∧
    (m.updatePrelinkInfo mem OSUnserializeXML).file_buf_size = m.file_buf_size := by
  rw [Prelink.updatePrelinkInfo]
  split_ifs with hwanted
  · split
    · exact ⟨rfl, rfl⟩
    · dsimp only
      split_ifs with hsect
      · exact ⟨rfl, rfl⟩
      · exact ⟨rfl, rfl⟩
  · exact ⟨rfl, rfl⟩

theorem toNat_size : m.size.toNat = m.file_buf_size.toNat := by
  rw [Prelink.size, BitVec.toNat_setWidth]
  have := m.file_buf_size.isLt
  omega

/-- Signed comparisons of numbers that are not negative. -/
theorem slt_iff {a b : Addr} (ha : a.toNat < 2 ^ 63) (hb : b.toNat < 2 ^ 63) :
    (a.slt b = true ↔ a.toNat < b.toNat) ∧ (a.sle b = true ↔ a.toNat ≤ b.toNat) := by
  have hai : a.toInt = a.toNat := BitVec.toInt_eq_toNat_of_lt (by omega)
  have hbi : b.toInt = b.toNat := BitVec.toInt_eq_toNat_of_lt (by omega)
  simp only [BitVec.slt, BitVec.sle, decide_eq_true_eq, hai, hbi, Int.ofNat_lt, Int.ofNat_le,
    and_self]

/-- **The check of an address**: with the file buffer in the upper half of the address space, the
offset is not negative, and the image is accepted if and only if it begins and ends in the
buffer. -/
theorem inFile_iff {imageaddr : Addr} {imageSize : BitVec 32} (hfile : 2 ^ 63 ≤ m.file_buf.toNat) :
    m.inFile imageaddr imageSize = true ↔ Inside m.file_buf m.size imageaddr imageSize.toNat ∧
      imageaddr.toNat < m.file_buf.toNat + m.size.toNat := by
  have hsize : m.size.toNat < 2 ^ 32 := toNat_size ▸ m.file_buf_size.isLt
  have himage : ((imageSize.setWidth 64 : Addr)).toNat = imageSize.toNat := by
    rw [BitVec.toNat_setWidth]
    have := imageSize.isLt
    omega
  have hlt := imageSize.isLt
  rw [Prelink.inFile, Inside, Bool.and_eq_true]
  by_cases hle : m.file_buf ≤ imageaddr
  · have hnat : m.file_buf.toNat ≤ imageaddr.toNat := BitVec.le_def.mp hle
    have hoff : (imageaddr - m.file_buf).toNat = imageaddr.toNat - m.file_buf.toNat :=
      BitVec.toNat_sub_of_le hle
    have hbound := imageaddr.isLt
    rw [if_pos hle, (slt_iff (by omega) (by omega)).1, hoff]
    -- the second comparison only counts where the first one holds
    constructor
    · rintro ⟨hstart, hend⟩
      have hrest : (m.size - (imageaddr - m.file_buf)).toNat =
          m.size.toNat - (imageaddr.toNat - m.file_buf.toNat) := by
        rw [BitVec.toNat_sub_of_le (BitVec.le_def.mpr (by omega)), hoff]
      rw [(slt_iff (by omega) (by omega)).2, hrest, himage] at hend
      omega
    · rintro ⟨⟨-, hend⟩, hstart⟩
      have hrest : (m.size - (imageaddr - m.file_buf)).toNat =
          m.size.toNat - (imageaddr.toNat - m.file_buf.toNat) := by
        rw [BitVec.toNat_sub_of_le (BitVec.le_def.mpr (by omega)), hoff]
      refine ⟨by omega, ?_⟩
      rw [(slt_iff (by omega) (by omega)).2, hrest, himage]
      omega
  · have hnat : ¬ m.file_buf.toNat ≤ imageaddr.toNat := fun h => hle (BitVec.le_def.mpr h)
    rw [if_neg hle, (slt_iff (by omega) (by omega)).1]
    simp [hnat]

/-- What is returned for an image: null, or an address that passed the check. -/
theorem foundImage_cases (m : Prelink) (image : PrelinkImage) {out : Found} (hout : out.image = 0) :
    (foundImage m image out).image = 0 ∨
      m.inFile (foundImage m image out).image (foundImage m image out).imageSize = true := by
  rw [foundImage]
  split
  case h_1 saddr _ size _ _ _ =>
    by_cases hcheck : m.inFile ((saddr - m.prelink_vmaddr) + m.prelink_addr) (size.setWidth 32)
    · simp only [hcheck, if_true]
      exact .inr trivial
    · simp only [hcheck]
      exact .inl hout
  case h_2 => exact .inl hout

/-- **An image that is returned** is in the file buffer. -/
theorem findImage_inside (hfile : 2 ^ 63 ≤ m.file_buf.toNat) (identifier : CString)
    (imageSize : BitVec 32) (slide : Addr) (missing : Bool) :
    let found := (findImage mem OSUnserializeXML identifier imageSize slide missing st m).2.2
    found.image = 0 ∨ Inside m.file_buf m.size found.image found.imageSize.toNat := by
  obtain ⟨hbuf, hsize⟩ := @updatePrelinkInfo_file mem OSUnserializeXML m
  generalize hm : m.updatePrelinkInfo mem OSUnserializeXML = m' at hbuf hsize
  simp only [findImage, hm]
  split
  · exact .inl rfl
  · split
    · exact .inl rfl
    · split
      · refine (foundImage_cases m' _ rfl).imp_right fun hcheck => ?_
        obtain ⟨hinside, -⟩ := (inFile_iff (hbuf ▸ hfile)).mp hcheck
        rwa [Prelink.size, hbuf, hsize] at hinside
      · exact .inl rfl

theorem processHeader_file : (k.processHeader mem).file_buf = k.file_buf ∧
    (k.processHeader mem).file_buf_size = k.file_buf_size := by
  rw [PrelinkedKext.processHeader]
  split_ifs
  · exact ⟨rfl, rfl⟩
  · exact ⟨rfl, rfl⟩

theorem loadUUID_file : (k.loadUUID uuids mem).1.file_buf = k.file_buf ∧
    (k.loadUUID uuids mem).1.file_buf_size = k.file_buf_size := by
  rw [PrelinkedKext.loadUUID]
  split_ifs
  · split
    · exact ⟨rfl, rfl⟩
    · exact ⟨rfl, rfl⟩
  · exact ⟨rfl, rfl⟩

/-- The copy of the symbols is from the image, whatever its header says. -/
theorem readSymbols_inside {c : Memcpy} (h : (k.readSymbols create).2 = some c) :
    block c.src c.size ⊆ block k.file_buf k.file_buf_size.toNat := by
  rw [PrelinkedKext.readSymbols] at h
  split_ifs at h with hnull hbounds
  obtain rfl := Option.some.inj h
  obtain ⟨hsize, hoff⟩ := hbounds
  exact block_add_subset (show k.syms.sym_fileoff + k.syms.sym_size ≤ _ by omega)

theorem readImage_inside {c : Memcpy} (h : (k.readImage create uuids mem).2 = some c) :
    k.file_buf ≠ 0 ∧ block c.src c.size ⊆ block k.file_buf k.file_buf_size.toNat := by
  obtain ⟨hbuf, hsize⟩ := @processHeader_file mem k
  obtain ⟨hbuf', hsize'⟩ := @loadUUID_file mem uuids (k.processHeader mem)
  rw [hbuf] at hbuf'
  rw [hsize] at hsize'
  by_cases himage : k.file_buf ≠ 0 ∧ HeaderSize ≤ k.file_buf_size.toNat
  case neg =>
    rw [PrelinkedKext.readImage, if_neg himage] at h
    cases h
  rw [PrelinkedKext.readImage, if_pos himage] at h
  refine ⟨himage.1, ?_⟩
  rw [← hbuf', ← hsize']
  dsimp only at h
  split_ifs at h with hsyms
  -- a copy is only made where the header has symbols and an identifier
  split at h
  case h_2 => cases h
  case h_1 k' hload =>
    rw [hload]
    split at h
    case h_2 => cases h
    case h_1 k'' c' hread =>
      obtain rfl := Option.some.inj h
      exact readSymbols_inside (congrArg Prod.snd hread)

end Inside

/-- **Images and copies**: an image that is returned is in the file buffer, and the symbols that are
copied are in the image. -/
theorem initFromPrelinked_inside (mem : Mem) (OSUnserializeXML : CString → Option PrelinkDict)
    (create : ℕ → Addr) (uuids : Bool) (m : Prelink) (st : Statics)
    (hfile : 2 ^ 63 ≤ m.file_buf.toNat) :
    (∀ identifier imageSize slide missing,
      let found := (findImage mem OSUnserializeXML identifier imageSize slide missing st m).2.2
      found.image = 0 ∨ Inside m.file_buf m.size found.image found.imageSize.toNat) ∧
    ∀ k objectId c, k.objectId = some objectId →
      (initFromPrelinked OSUnserializeXML create uuids mem k (some m) st).copied = some c →
      let found := (findKext OSUnserializeXML mem objectId k st m).2.2
      Inside m.file_buf m.size found.image found.imageSize.toNat ∧
        block c.src c.size ⊆ block found.image found.imageSize.toNat := by
  refine ⟨findImage_inside hfile, fun k objectId c hid hc => ?_⟩
  simp only [initFromPrelinked, hid] at hc
  obtain ⟨hne, hcopy⟩ := readImage_inside hc
  exact ⟨(findImage_inside hfile objectId k.file_buf_size k.prelink_vmaddr false).resolve_left hne,
    hcopy⟩

/-- A header with a byte of symbols, and the symbols, in an image that lies at `0x1000` in the file
buffer. -/
def prelinkMem : Mem := fun a =>
  let k := (a - 0xFFFFFF8000001000).toNat
  if k = 8192 then 0xAA
  else
    [0xCF, 0xFA, 0xED, 0xFE, 7, 0, 0, 1, 3, 0, 0, 0, 6, 0, 0, 0,
      2, 0, 0, 0, 96, 0, 0, 0, 0, 0, 0, 0, 0, 0, 0, 0,
      0x19, 0, 0, 0, 72, 0, 0, 0, 95, 95, 76, 73, 78, 75, 69, 68, 73, 84, 0, 0, 0, 0, 0, 0,
      0, 0, 0, 0, 0, 0, 0, 0, 0, 0, 0, 0, 0, 0, 0, 0,
      0, 32, 0, 0, 0, 0, 0, 0, 1, 0, 0, 0, 0, 0, 0, 0, 0, 0, 0, 0, 0, 0, 0, 0,
      0, 0, 0, 0, 0, 0, 0, 0,
      2, 0, 0, 0, 24, 0, 0, 0, 0, 32, 0, 0, 0, 0, 0, 0, 1, 32, 0, 0, 0, 0, 0, 0].getD k 0

/-- A kernel whose dictionary has the image. -/
def prelinkKernel : Prelink where
  isKernel := true
  file_buf := 0xFFFFFF8000000000
  file_buf_size := 0x10000
  prelink_dict := some ⟨some [none, some ⟨some [97], some 0x6000, some 0, some 0x2001⟩], false⟩
  prelink_addr := 0xFFFFFF8000000800
  prelink_vmaddr := 0x5800

/-- The image ends behind its symbols, which are copied. -/
theorem initFromPrelinked_inside_kernel : ∃ found c,
    (findKext (fun _ => none) prelinkMem [97] ⟨some [97], {}, 0, 0, 0, false, (0, 0), 0⟩ {}
      prelinkKernel).2.2 = found ∧
    (initFromPrelinked (fun _ => none) (fun _ => 0x1000) false prelinkMem
      ⟨some [97], {}, 0, 0, 0, false, (0, 0), 0⟩ (some prelinkKernel) {}).copied = some c ∧
    found.image = 0xFFFFFF8000001000 ∧ c.src = 0xFFFFFF8000003000 ∧
    block c.src c.size ⊆ block found.image found.imageSize.toNat := by
  have hcopied : (initFromPrelinked (fun _ => none) (fun _ => 0x1000) false prelinkMem
      ⟨some [97], {}, 0, 0, 0, false, (0, 0), 0⟩ (some prelinkKernel) {}).copied =
        some ⟨0x1000, 0xFFFFFF8000003000, 1⟩ := by decide
  have hinside := (initFromPrelinked_inside prelinkMem (fun _ => none) (fun _ => 0x1000) false
    prelinkKernel {} (by decide)).2 ⟨some [97], {}, 0, 0, 0, false, (0, 0), 0⟩ [97] _ rfl hcopied
  exact ⟨_, _, rfl, hcopied, by decide, rfl, hinside.2⟩

end Lilu.MachInfo
