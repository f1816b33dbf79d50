import Lilu.Prelude.Probe
import Lilu.Mach.Header
import Lilu.Patcher.Route

/-!
# Finding a section

A section is looked for in a buffer with an image of 32 or 64 bits, or with a fat file. Its load
commands and the headers of its sections are checked against the end of the buffer. The sums that
are compared there are pointers, and wrap; and what is read of a command may have more bytes than
the command says it has.

## Main definitions

* `Format`: where a segment command and its sections have what is read of them
* `findSectionBounds`: the search
* `CommandInside`: what is read of a command is in the buffer, and so is the section that is found

## Main results

* `meets_findInCommands`: where the search in an image reads, and what it finds
* `findSectionBounds_sound_iff`: when the search reads in the buffer and finds a section in it
-/

namespace Lilu.MachInfo

open Lilu.Kext (CString)
open Lilu.Patcher (Addr Mem)
open Probe (Within Meets word span compare)

/-! ## Formats -/

/-- Where a segment command and the header of a section have the fields that are read, and the size
of each of the two. Addresses and sizes have `width` bits. -/
structure Format where
  width : ℕ
  segmentSize : ℕ
  nsects : ℕ
  sectionSize : ℕ
  size : ℕ
  offset : ℕ
  width_pos : 8 ≤ width

/-- `segment_command` and `section`. -/
def format32 : Format where
  width := 32
  segmentSize := 56
  nsects := 48
  sectionSize := 68
  size := 36
  offset := 40
  width_pos := by decide

/-- `segment_command_64` and `section_64`. -/
def format64 : Format where
  width := 64
  segmentSize := 72
  nsects := 64
  sectionSize := 80
  size := 40
  offset := 48
  width_pos := by decide

def LC_SEGMENT : BitVec 32 := 0x1
def LC_SEGMENT_64 : BitVec 32 := 0x19

/-- The format of a segment command. -/
def formatOf (cmd : BitVec 32) : Option Format :=
  if cmd = LC_SEGMENT then some format32
  else if cmd = LC_SEGMENT_64 then some format64
  else none

/-! ## The search -/

/-- What is returned; nothing is found if the size is zero. -/
structure Bounds where
  vmsegment : Addr := 0
  vmsection : Addr := 0
  sectionptr : Addr := 0
  sectionSize : Addr := 0
  deriving DecidableEq

/-- An address or a size. -/
def wordOf (f : Format) (a : Addr) : Probe Addr Addr := do
  let x ← word f.width a
  pure (x.setWidth 64)

/-- `OSSwapInt32`. -/
def OSSwapInt32 (x : BitVec 32) : BitVec 32 :=
  BitVec.ofNat 32 (leNat (bytes x).reverse)

section Search

variable (ptr endaddr : Addr) (segmentName sectionName : CString)

/-- The section that has the name, if it ends in the buffer. -/
def foundSection (f : Format) (cmd sect : Addr) : Probe Addr Bounds := do
  let offset ← word 32 (sect + BitVec.ofNat 64 f.offset)
  let size ← wordOf f (sect + BitVec.ofNat 64 f.size)
  -- the sum is a pointer, and wraps
  let sptr := ptr + offset.setWidth 64
  if sptr + size > endaddr then pure {}
  else
    let vmsegment ← wordOf f (cmd + 24)
    let vmsection ← wordOf f (sect + 32)
    pure ⟨vmsegment, vmsection, sptr, size⟩

/-- The loop over the sections of a segment. -/
def findSection (f : Format) (cmd : Addr) : ℕ → Addr → Probe Addr (Option Bounds)
  | 0, _ => pure none
  | n + 1, sect => do
    if ← compare (span sect 16) sectionName then
      let b ← foundSection ptr endaddr f cmd sect
      pure (some b)
    else findSection f cmd n (sect + BitVec.ofNat 64 f.sectionSize)

/-- A segment that has the name: its sections have to end in the buffer. -/
def findInSegment (f : Format) (cmd : Addr) : Probe Addr (Option Bounds) := do
  -- the command may be too short for the field
  let nsects ← word 32 (cmd + BitVec.ofNat 64 f.nsects)
  let sect := cmd + BitVec.ofNat 64 f.segmentSize
  if sect + BitVec.ofNat 64 (f.sectionSize * nsects.toNat) > endaddr then pure (some {})
  else findSection ptr endaddr sectionName f cmd nsects.toNat sect

/-- What is done with a command; `none` if the search goes on behind it. -/
def findInCommand (cmd : Addr) : Probe Addr (Option Bounds) := do
  let type ← word 32 cmd
  match formatOf type with
  | none => pure none
  | some f => do
    if ← compare (span (cmd + 8) 16) segmentName then
      findInSegment ptr endaddr sectionName f cmd
    else pure none

/-- The loop over the commands. -/
def findInCommands : ℕ → Addr → Probe Addr Bounds
  | 0, _ => pure {}
  | n + 1, cmd =>
    if cmd.toNat % 4 ≠ 0 then pure {}
    else if cmd + 8 > endaddr then pure {}
    else do
      -- the sum above may have wrapped, so that the command need not be in the buffer
      let cmdsize ← word 32 (cmd + 4)
      if cmd + cmdsize.setWidth 64 > endaddr then pure {}
      else
        match ← findInCommand ptr endaddr segmentName sectionName cmd with
        | some b => pure b
        | none => findInCommands n (cmd + cmdsize.setWidth 64)

end Search

def MH_MAGIC : BitVec 32 := 0xFEEDFACE
def MH_MAGIC_64 : BitVec 32 := 0xFEEDFACF

/-- Whether a magic number is that of a fat header. -/
def isFat (magic : BitVec 32) : Bool :=
  magic.toNat = FAT_CIGAM ∨ magic.toNat = FAT_MAGIC

/-- Where the load commands begin: behind the header, or with it if it is none. -/
def headerSize (magic : BitVec 32) : Addr :=
  if magic = MH_MAGIC_64 then 32
  else if magic = MH_MAGIC then 28
  else 0

/-- A number of a fat header. -/
def fatNumber (magic : BitVec 32) (a : Addr) : Probe Addr (BitVec 32) := do
  let x ← word 32 a
  pure (if magic.toNat = FAT_CIGAM then OSSwapInt32 x else x)

/-- The offset and the size of the first image for a processor. -/
def findArch (magic : BitVec 32) (cpu : BitVec 32) :
    ℕ → Addr → Probe Addr (Option (BitVec 32 × BitVec 32))
  | 0, _ => pure none
  | n + 1, farch => do
    let rcpu ← fatNumber magic farch
    if rcpu = cpu then
      let off ← fatNumber magic (farch + 8)
      let sz ← fatNumber magic (farch + 12)
      pure (some (off, sz))
    else findArch magic cpu n (farch + 20)

/-- `findSectionBounds`. The image in a fat file is searched for no processor, so that another fat
header is not followed. -/
def findSectionBounds (ptr sourceSize : Addr) (segmentName sectionName : CString) (cpu : BitVec 32) :
    Probe Addr Bounds :=
  if ptr.toNat % 4 ≠ 0 ∨ sourceSize.toNat < HeaderSize then pure {}
  else do
    let magic ← word 32 ptr
    if isFat magic then
      if cpu = 0 then pure {}
      else do
        let num ← fatNumber magic (ptr + 4)
        if num.toNat * 20 > HeaderSize - 20 then pure {}
        else
          match ← findArch magic cpu num.toNat (ptr + 8) with
          | none => pure {}
          | some (off, sz) =>
            -- both have 32 bits, so that this sum does not wrap
            if off.toNat + sz.toNat > sourceSize.toNat then pure {}
            else
              -- the size of the image is not used any more
              findSectionBounds (ptr + off.setWidth 64) (sourceSize - off.setWidth 64) segmentName
                sectionName 0
    else do
      let ncmds ← word 32 (ptr + 16)
      findInCommands ptr (ptr + sourceSize) segmentName sectionName ncmds.toNat
        (ptr + headerSize magic)
termination_by if cpu = 0 then 0 else 1
decreasing_by simp_all

/-! ## What is read of an image -/

/-- Some bytes are in the buffer. -/
def Inside (ptr sourceSize a : Addr) (n : ℕ) : Prop :=
  ptr.toNat ≤ a.toNat ∧ a.toNat + n ≤ ptr.toNat + sourceSize.toNat

section Conditions

variable (mem : Mem) (ptr sourceSize image : Addr) (segmentName sectionName : CString)

/-- Whether a name is found at an address: `strncmp` compares it with its terminating zero, as far
as 16 bytes go. -/
def named (a : Addr) (name : CString) : Bool :=
  ((span a 16).zip (name ++ [0])).all fun q => mem q.1 == q.2

/-- The name of `n` bytes at an address is in the buffer, as far as it is compared: up to the first
byte that differs. -/
def NameRead (n : ℕ) (a : Addr) (name : CString) : Prop :=
  ∀ i < n, i ≤ name.length → load mem a i = name.take i →
    Inside ptr sourceSize (a + BitVec.ofNat 64 i) 1

/-- The address or the size at an address. -/
def wordAt (f : Format) (a : Addr) : Addr :=
  (read f.width mem a).setWidth 64

/-- The start of the section with a header. -/
def startOf (f : Format) (sect : Addr) : Addr :=
  image + (read 32 mem (sect + BitVec.ofNat 64 f.offset)).setWidth 64

/-- The size of the section with a header. -/
def sizeOf (f : Format) (sect : Addr) : Addr :=
  wordAt mem f (sect + BitVec.ofNat 64 f.size)

/-- The offset and the size of a section are in the buffer; and if its end, that may have wrapped,
is not behind that of the buffer, then the addresses of the segment and the section are, and so is
the section. -/
structure SectionInside (f : Format) (cmd sect : Addr) : Prop where
  offset : Inside ptr sourceSize (sect + BitVec.ofNat 64 f.offset) 4
  size : Inside ptr sourceSize (sect + BitVec.ofNat 64 f.size) (f.width / 8)
  found : ¬ startOf mem image f sect + sizeOf mem f sect > ptr + sourceSize →
    Inside ptr sourceSize (cmd + 24) (f.width / 8) ∧
    Inside ptr sourceSize (sect + 32) (f.width / 8) ∧
    (sizeOf mem f sect ≠ 0 →
      Inside ptr sourceSize (startOf mem image f sect) (sizeOf mem f sect).toNat)

/-- The headers of the sections that are looked at, up to the one that has the name. -/
def sectionsFrom (f : Format) : ℕ → Addr → List Addr
  | 0, _ => []
  | n + 1, sect =>
    sect ::
      if named mem sect sectionName then []
      else sectionsFrom f n (sect + BitVec.ofNat 64 f.sectionSize)

/-- The number of sections of a segment. -/
def nsectsAt (f : Format) (cmd : Addr) : ℕ :=
  (read 32 mem (cmd + BitVec.ofNat 64 f.nsects)).toNat

/-- The headers of the sections of a segment, if their end, that may have wrapped, is not behind
that of the buffer. -/
def sectionsOf (f : Format) (cmd : Addr) : Option (List Addr) :=
  let sect := cmd + BitVec.ofNat 64 f.segmentSize
  if sect + BitVec.ofNat 64 (f.sectionSize * nsectsAt mem f cmd) > ptr + sourceSize then none
  else some (sectionsFrom mem sectionName f (nsectsAt mem f cmd) sect)

/-- The number of sections of a segment is in the buffer, and so is what is read of each section
that is looked at. -/
structure SegmentInside (f : Format) (cmd : Addr) : Prop where
  nsects : Inside ptr sourceSize (cmd + BitVec.ofNat 64 f.nsects) 4
  sections : ∀ sects ∈ sectionsOf mem ptr sourceSize sectionName f cmd, ∀ sect ∈ sects,
    NameRead mem ptr sourceSize 16 sect sectionName ∧
    (named mem sect sectionName → SectionInside mem ptr sourceSize image f cmd sect)

/-- What is read of a command is in the buffer, and so is the section that is found with it. -/
structure CommandInside (cmd : Addr) : Prop where
  cmdsize : Inside ptr sourceSize (cmd + 4) 4
  type : ¬ cmd + (read 32 mem (cmd + 4)).setWidth 64 > ptr + sourceSize → Inside ptr sourceSize cmd 4
  segment : ¬ cmd + (read 32 mem (cmd + 4)).setWidth 64 > ptr + sourceSize →
    ∀ f ∈ formatOf (read 32 mem cmd), NameRead mem ptr sourceSize 16 (cmd + 8) segmentName ∧
    (named mem (cmd + 8) segmentName → SegmentInside mem ptr sourceSize image sectionName f cmd)

/-- Whether the search ends at a command: with the sections of the segment if they do not fit, or at
the one that has the name. -/
def endsAt (cmd : Addr) : Bool :=
  match formatOf (read 32 mem cmd) with
  | none => false
  | some f =>
    named mem (cmd + 8) segmentName &&
      match sectionsOf mem ptr sourceSize sectionName f cmd with
      | none => true
      | some sects => sects.any (named mem · sectionName)

/-- The commands that the loop comes to. -/
def commandsFrom : ℕ → Addr → List Addr
  | 0, _ => []
  | n + 1, cmd =>
    if cmd.toNat % 4 ≠ 0 then []
    else if cmd + 8 > ptr + sourceSize then []
    else
      let next := cmd + (read 32 mem (cmd + 4)).setWidth 64
      cmd ::
        if next > ptr + sourceSize ∨ endsAt mem ptr sourceSize segmentName sectionName cmd then []
        else commandsFrom n next

/-- The number of images of a fat file. -/
def nfatArch (p : Addr) : ℕ :=
  ((fatNumber (read 32 mem p) (p + 4)).run mem).toNat

/-- The image that the search comes to: the buffer's own, or that of the processor in a fat file. -/
inductive ImageAt : Addr → Addr → BitVec 32 → Addr → Prop
  | own {p size : Addr} {cpu : BitVec 32} (haligned : p.toNat % 4 = 0)
      (hsize : HeaderSize ≤ size.toNat) (hfat : ¬ isFat (read 32 mem p)) : ImageAt p size cpu p
  | inFat {p size image : Addr} {cpu off sz : BitVec 32} (haligned : p.toNat % 4 = 0)
      (hsize : HeaderSize ≤ size.toNat) (hfat : isFat (read 32 mem p)) (hcpu : cpu ≠ 0)
      (hnum : nfatArch mem p * 20 ≤ HeaderSize - 20)
      (harch : (findArch (read 32 mem p) cpu (nfatArch mem p) (p + 8)).run mem = some (off, sz))
      (hend : off.toNat + sz.toNat ≤ size.toNat)
      (himage : ImageAt (p + off.setWidth 64) (size - off.setWidth 64) 0 image) :
      ImageAt p size cpu image

/-- The commands of an image. -/
def commandsOf (image : Addr) : List Addr :=
  commandsFrom mem ptr sourceSize segmentName sectionName (read 32 mem (image + 16)).toNat
    (image + headerSize (read 32 mem image))

/-- What is read of each command that the search comes to is in the buffer, and so is the section
that is found. -/
def SearchInside (p size : Addr) (cpu : BitVec 32) : Prop :=
  ∀ i, ImageAt mem p size cpu i → ∀ cmd ∈ commandsOf mem ptr sourceSize segmentName sectionName i,
    CommandInside mem ptr sourceSize i segmentName sectionName cmd

end Conditions

/-! ## Where the search reads -/

section Search

variable {mem : Mem} {ptr sourceSize image cmd sect a : Addr} {f : Format} {n : ℕ}
  {segmentName sectionName name : CString}

@[simp] theorem run_wordOf : (wordOf f a).run mem = wordAt mem f a := by
  rw [wordOf, Probe.run_bind, Probe.run_word, Probe.run_pure, wordAt]

theorem run_compareName (name : CString) :
    (compare (span a 16) name).run mem = named mem a name :=
  Probe.run_compare_all

/-! ### Where it ends -/

theorem isSome_findSection : ((findSection image (ptr + sourceSize) sectionName f cmd n sect).run
    mem).isSome = (sectionsFrom mem sectionName f n sect).any (named mem · sectionName) := by
  induction n generalizing sect with
  | zero => rfl
  | succ n ih =>
    rw [findSection, Probe.run_bind, run_compareName, Probe.run_ite, sectionsFrom, List.any_cons]
    by_cases hnamed : named mem sect sectionName = true
    · rw [if_pos hnamed, hnamed, Bool.true_or, Probe.run_bind, Probe.run_pure, Option.isSome_some]
    · rw [if_neg hnamed, if_neg hnamed, ih]
      rw [Bool.not_eq_true] at hnamed
      rw [hnamed, Bool.false_or]

theorem isSome_findInSegment : ((findInSegment image (ptr + sourceSize) sectionName f cmd).run
    mem).isSome = match sectionsOf mem ptr sourceSize sectionName f cmd with
      | none => true
      | some sects => sects.any (named mem · sectionName) := by
  rw [findInSegment, Probe.run_bind, Probe.run_word, Probe.run_ite, ← nsectsAt, sectionsOf]
  split_ifs with hend
  · simp
  · simp only [isSome_findSection]

/-- Whether the search ends at a command. -/
theorem isSome_findInCommand : ((findInCommand image (ptr + sourceSize) segmentName sectionName
    cmd).run mem).isSome = endsAt mem ptr sourceSize segmentName sectionName cmd := by
  rw [findInCommand, Probe.run_bind, Probe.run_word, endsAt]
  cases formatOf (read 32 mem cmd) with
  | none => rfl
  | some f =>
    dsimp only
    rw [Probe.run_bind, run_compareName, Probe.run_ite]
    by_cases hnamed : named mem (cmd + 8) segmentName = true
    · rw [if_pos hnamed, isSome_findInSegment, hnamed, Bool.true_and]
    · rw [if_neg hnamed]
      rw [Bool.not_eq_true] at hnamed
      rw [hnamed, Bool.false_and]
      rfl

/-- A section that is found is in the buffer. -/
def Good (ptr sourceSize : Addr) (b : Bounds) : Prop :=
  b.sectionSize ≠ 0 → Inside ptr sourceSize b.sectionptr b.sectionSize.toNat

theorem good_empty : Good ptr sourceSize {} :=
  fun h => absurd rfl h

/-- What is found is good, if anything is. -/
def GoodIfAny (ptr sourceSize : Addr) (o : Option Bounds) : Prop :=
  ∀ b ∈ o, Good ptr sourceSize b

theorem goodIfAny_none : GoodIfAny ptr sourceSize none :=
  fun b hb => absurd hb (by simp)

-- the buffer does not wrap
variable (hbuf : ptr.toNat + sourceSize.toNat ≤ 2 ^ 64)
include hbuf

theorem block_inside_iff (hn : 0 < n) :
    block a n ⊆ block ptr sourceSize.toNat ↔ Inside ptr sourceSize a n :=
  block_subset_block_iff hbuf sourceSize.isLt hn

theorem within_word32 : Within (block ptr sourceSize.toNat) mem (word 32 a) ↔
    Inside ptr sourceSize a 4 := by
  rw [Probe.within_word, block_inside_iff hbuf (by decide)]

theorem within_wordOf : Within (block ptr sourceSize.toNat) mem (wordOf f a) ↔
    Inside ptr sourceSize a (f.width / 8) := by
  have hpos : 0 < f.width / 8 := Nat.div_pos f.width_pos (by decide)
  rw [wordOf, Probe.within_bind, Probe.within_word, block_inside_iff hbuf hpos]
  exact and_iff_left (Probe.within_pure _)

theorem within_compareName : Within (block ptr sourceSize.toNat) mem (compare (span a n) name) ↔
    NameRead mem ptr sourceSize n a name := by
  have hone : ∀ x, x ∈ block ptr sourceSize.toNat ↔ Inside ptr sourceSize x 1 := by
    intro x
    rw [mem_block_iff hbuf, Inside]
    omega
  simp only [span, Probe.within_compare_range, hone]
  rfl

theorem meets_foundSection : Meets (block ptr sourceSize.toNat) mem (Good ptr sourceSize)
      (foundSection image (ptr + sourceSize) f cmd sect) ↔
    SectionInside mem ptr sourceSize image f cmd sect := by
  rw [foundSection, Probe.meets_bind, within_word32 hbuf, Probe.run_word, Probe.meets_bind,
    within_wordOf hbuf, run_wordOf, ← startOf, ← sizeOf]
  by_cases hend : startOf mem image f sect + sizeOf mem f sect > ptr + sourceSize
  -- the section is rejected, so that nothing is found
  · rw [if_pos hend, Probe.meets_pure]
    constructor
    · rintro ⟨hoffset, hsize, -⟩
      exact ⟨hoffset, hsize, fun h => absurd hend h⟩
    · rintro ⟨hoffset, hsize, -⟩
      exact ⟨hoffset, hsize, good_empty⟩
  -- the addresses are read, and the section is what is found
  · rw [if_neg hend, Probe.meets_bind, within_wordOf hbuf, Probe.meets_bind, within_wordOf hbuf,
      Probe.meets_pure]
    constructor
    · rintro ⟨hoffset, hsize, hfound⟩
      exact ⟨hoffset, hsize, fun _ => hfound⟩
    · rintro ⟨hoffset, hsize, hfound⟩
      exact ⟨hoffset, hsize, hfound hend⟩

theorem meets_findSection : Meets (block ptr sourceSize.toNat) mem (GoodIfAny ptr sourceSize)
      (findSection image (ptr + sourceSize) sectionName f cmd n sect) ↔
    ∀ s ∈ sectionsFrom mem sectionName f n sect, NameRead mem ptr sourceSize 16 s sectionName ∧
      (named mem s sectionName → SectionInside mem ptr sourceSize image f cmd s) := by
  -- Induction on the sections left: the one with the name is the last that is read.
  induction n generalizing sect with
  | zero =>
    rw [findSection, Probe.meets_pure]
    exact iff_of_true goodIfAny_none (fun s hs => absurd hs List.not_mem_nil)
  | succ n ih =>
    rw [findSection, Probe.meets_bind, within_compareName hbuf, run_compareName, sectionsFrom,
      List.forall_mem_cons, and_assoc]
    refine and_congr_right fun _ => ?_
    by_cases hnamed : named mem sect sectionName = true
    · rw [if_pos hnamed, if_pos hnamed, Probe.meets_bind, Probe.meets_pure, ← meets_foundSection hbuf]
      constructor
      · rintro ⟨hwithin, hgood⟩
        exact ⟨fun _ => ⟨hwithin, hgood _ rfl⟩, fun s hs => absurd hs List.not_mem_nil⟩
      · rintro ⟨hmeets, -⟩
        refine ⟨(hmeets hnamed).1, fun b hb => ?_⟩
        obtain rfl := Option.some.inj hb
        exact (hmeets hnamed).2
    · rw [if_neg hnamed, if_neg hnamed, ih]
      exact (and_iff_right fun h => absurd h hnamed).symm

theorem meets_findInSegment : Meets (block ptr sourceSize.toNat) mem (GoodIfAny ptr sourceSize)
      (findInSegment image (ptr + sourceSize) sectionName f cmd) ↔
    SegmentInside mem ptr sourceSize image sectionName f cmd := by
  rw [findInSegment, Probe.meets_bind, within_word32 hbuf, Probe.run_word, ← nsectsAt]
  by_cases hend : cmd + BitVec.ofNat 64 f.segmentSize +
      BitVec.ofNat 64 (f.sectionSize * nsectsAt mem f cmd) > ptr + sourceSize
  -- the headers of the sections do not fit, which ends the search
  · have hnone : sectionsOf mem ptr sourceSize sectionName f cmd = none := if_pos hend
    rw [if_pos hend, Probe.meets_pure]
    constructor
    · rintro ⟨hnsects, -⟩
      exact ⟨hnsects, fun sects h => absurd h (by simp [hnone])⟩
    · rintro ⟨hnsects, -⟩
      refine ⟨hnsects, fun b hb => ?_⟩
      obtain rfl := Option.some.inj hb
      exact good_empty
  · have hsome : sectionsOf mem ptr sourceSize sectionName f cmd =
        some (sectionsFrom mem sectionName f (nsectsAt mem f cmd)
          (cmd + BitVec.ofNat 64 f.segmentSize)) := if_neg hend
    rw [if_neg hend, meets_findSection hbuf]
    constructor
    · rintro ⟨hnsects, hsections⟩
      refine ⟨hnsects, fun sects h => ?_⟩
      obtain rfl := Option.some.inj (hsome.symm.trans h)
      exact hsections
    · rintro ⟨hnsects, hsections⟩
      exact ⟨hnsects, hsections _ hsome⟩

theorem meets_findInCommand : Meets (block ptr sourceSize.toNat) mem (GoodIfAny ptr sourceSize)
      (findInCommand image (ptr + sourceSize) segmentName sectionName cmd) ↔
    Inside ptr sourceSize cmd 4 ∧ ∀ f ∈ formatOf (read 32 mem cmd),
      NameRead mem ptr sourceSize 16 (cmd + 8) segmentName ∧
      (named mem (cmd + 8) segmentName →
        SegmentInside mem ptr sourceSize image sectionName f cmd) := by
  rw [findInCommand, Probe.meets_bind, within_word32 hbuf, Probe.run_word]
  refine and_congr_right fun _ => ?_
  cases formatOf (read 32 mem cmd) with
  | none => exact iff_of_true (Probe.meets_pure.mpr goodIfAny_none) (fun f hf => absurd hf (by simp))
  | some f =>
    dsimp only
    rw [Probe.meets_bind, within_compareName hbuf, run_compareName]
    simp only [Option.mem_def, Option.some.injEq, forall_eq']
    refine and_congr_right fun _ => ?_
    by_cases hnamed : named mem (cmd + 8) segmentName = true
    · rw [if_pos hnamed, meets_findInSegment hbuf]
      exact ⟨fun h _ => h, fun h => h hnamed⟩
    · rw [if_neg hnamed, Probe.meets_pure]
      exact iff_of_true goodIfAny_none fun h => absurd h hnamed

/-- What is asked of a command that says that it ends in the buffer. -/
theorem meets_command_iff
    (hfits : ¬ cmd + (read 32 mem (cmd + 4)).setWidth 64 > ptr + sourceSize) :
    Inside ptr sourceSize (cmd + 4) 4 ∧ Meets (block ptr sourceSize.toNat) mem
        (GoodIfAny ptr sourceSize)
        (findInCommand image (ptr + sourceSize) segmentName sectionName cmd) ↔
      CommandInside mem ptr sourceSize image segmentName sectionName cmd := by
  rw [meets_findInCommand hbuf]
  constructor
  · rintro ⟨hcmdsize, htype, hsegment⟩
    exact ⟨hcmdsize, fun _ => htype, fun _ => hsegment⟩
  · rintro ⟨hcmdsize, htype, hsegment⟩
    exact ⟨hcmdsize, htype hfits, hsegment hfits⟩

/-- **The search in an image** reads in the buffer, and finds a section in it, if and only if that
is so with each command that it comes to. -/
theorem meets_findInCommands : Meets (block ptr sourceSize.toNat) mem (Good ptr sourceSize)
      (findInCommands image (ptr + sourceSize) segmentName sectionName n cmd) ↔
    ∀ c ∈ commandsFrom mem ptr sourceSize segmentName sectionName n cmd,
      CommandInside mem ptr sourceSize image segmentName sectionName c := by
  have hempty : Meets (block ptr sourceSize.toNat) mem (Good ptr sourceSize) (pure {}) ↔
      ∀ c ∈ ([] : List Addr), CommandInside mem ptr sourceSize image segmentName sectionName c :=
    iff_of_true (Probe.meets_pure.mpr good_empty) fun c hc => absurd hc List.not_mem_nil
  -- Induction on the commands left; the checks of the loop cut the list of commands as they do it.
  induction n generalizing cmd with
  | zero => exact hempty
  | succ n ih =>
    rw [findInCommands, commandsFrom]
    by_cases haligned : cmd.toNat % 4 ≠ 0
    · rw [if_pos haligned, if_pos haligned]
      exact hempty
    rw [if_neg haligned, if_neg haligned]
    by_cases hbegin : cmd + 8 > ptr + sourceSize
    · rw [if_pos hbegin, if_pos hbegin]
      exact hempty
    rw [if_neg hbegin, if_neg hbegin, Probe.meets_bind, within_word32 hbuf, Probe.run_word]
    dsimp only
    -- a command that says that it does not end in the buffer is the last, and only its size is read
    by_cases hfits : cmd + (read 32 mem (cmd + 4)).setWidth 64 > ptr + sourceSize
    · rw [if_pos hfits, if_pos (.inl hfits), List.forall_mem_singleton, Probe.meets_pure]
      constructor
      · rintro ⟨hcmdsize, -⟩
        exact ⟨hcmdsize, fun h => absurd hfits h, fun h => absurd hfits h⟩
      · rintro ⟨hcmdsize, -, -⟩
        exact ⟨hcmdsize, good_empty⟩
    have hends := @isSome_findInCommand mem ptr sourceSize image cmd segmentName sectionName
    rw [if_neg hfits, Probe.meets_bind, List.forall_mem_cons, ← and_assoc,
      ← meets_command_iff hbuf hfits]
    have hmeets : Meets (block ptr sourceSize.toNat) mem (GoodIfAny ptr sourceSize)
          (findInCommand image (ptr + sourceSize) segmentName sectionName cmd) ↔
        Within (block ptr sourceSize.toNat) mem
            (findInCommand image (ptr + sourceSize) segmentName sectionName cmd) ∧
          GoodIfAny ptr sourceSize
            ((findInCommand image (ptr + sourceSize) segmentName sectionName cmd).run mem) := Iff.rfl
    rw [hmeets]
    cases hrun : (findInCommand image (ptr + sourceSize) segmentName sectionName cmd).run mem with
    | none =>
      rw [hrun] at hends
      -- the search goes on behind the command
      rw [if_neg (not_or.mpr ⟨hfits, by simp [← hends]⟩), and_iff_left goodIfAny_none]
      exact and_congr_right fun _ => ih
    | some b =>
      rw [hrun] at hends
      -- the search ends here, and what is found is what the command leads to
      rw [if_pos (.inr hends.symm), Probe.meets_pure]
      constructor
      · rintro ⟨⟨hcmdsize, hwithin⟩, hgood⟩
        refine ⟨⟨hcmdsize, hwithin, fun b' hb => ?_⟩, fun c hc => absurd hc List.not_mem_nil⟩
        obtain rfl := Option.some.inj hb
        exact hgood
      · rintro ⟨⟨hcmdsize, hwithin, hgood⟩, -⟩
        exact ⟨⟨hcmdsize, hwithin⟩, hgood b rfl⟩

/-! ### Fat files -/

/-- What is left of the buffer from an address on. -/
structure Suffix (ptr sourceSize p size : Addr) : Prop where
  le : ptr.toNat ≤ p.toNat
  end_eq : p.toNat + size.toNat = ptr.toNat + sourceSize.toNat

variable {p size : Addr} {magic cpu off : BitVec 32} {k : ℕ}

omit hbuf in
theorem Suffix.refl : Suffix ptr sourceSize ptr sourceSize :=
  ⟨le_rfl, rfl⟩

omit hbuf in
theorem Suffix.add_eq (h : Suffix ptr sourceSize p size) : p + size = ptr + sourceSize := by
  apply BitVec.eq_of_toNat_eq
  rw [BitVec.toNat_add, BitVec.toNat_add, h.end_eq]

theorem Suffix.advance (h : Suffix ptr sourceSize p size) (hoff : off.toNat < size.toNat) :
    Suffix ptr sourceSize (p + off.setWidth 64) (size - off.setWidth 64) := by
  have hle := h.le
  have hend := h.end_eq
  -- the offset is below what is left, so that no pointer wraps
  have hwide : (off.setWidth 64).toNat = off.toNat := by
    rw [BitVec.toNat_setWidth]
    exact Nat.mod_eq_of_lt (off.isLt.trans (by decide))
  have hp : (p + off.setWidth 64).toNat = p.toNat + off.toNat := by
    rw [BitVec.toNat_add, hwide]
    exact Nat.mod_eq_of_lt (by omega)
  have hsize : (size - off.setWidth 64).toNat = size.toNat - off.toNat := by
    rw [BitVec.toNat_sub_of_le, hwide]
    rw [BitVec.le_def, hwide]
    exact hoff.le
  exact ⟨by omega, by omega⟩

/-- What is read of a header is in the buffer. -/
theorem Suffix.inside (h : Suffix ptr sourceSize p size) (hsize : HeaderSize ≤ size.toNat)
    (hn : 0 < n) (hk : k + n ≤ HeaderSize) : Inside ptr sourceSize (p + BitVec.ofNat 64 k) n := by
  have hle := h.le
  have hend := h.end_eq
  have hadd : (p + BitVec.ofNat 64 k).toNat = p.toNat + k := by
    rw [BitVec.toNat_add, BitVec.toNat_ofNat]
    unfold HeaderSize at *
    omega
  rw [Inside, hadd]
  omega

theorem within_fatNumber : Within (block ptr sourceSize.toNat) mem (fatNumber magic a) ↔
    Inside ptr sourceSize a 4 := by
  rw [fatNumber, Probe.within_bind, within_word32 hbuf]
  exact and_iff_left (Probe.within_pure _)

/-- The loop over the images of a fat file reads in its header. -/
theorem within_findArch (h : Suffix ptr sourceSize p size) (hsize : HeaderSize ≤ size.toNat)
    (hk : k + 20 * n ≤ HeaderSize) :
    Within (block ptr sourceSize.toNat) mem (findArch magic cpu n (p + BitVec.ofNat 64 k)) := by
  induction n generalizing k with
  | zero => exact Probe.within_pure _
  | succ n ih =>
    have hadd : ∀ j, p + BitVec.ofNat 64 k + BitVec.ofNat 64 j = p + BitVec.ofNat 64 (k + j) := by
      intro j
      rw [BitVec.ofNat_add, BitVec.add_assoc]
    have hoff := h.inside hbuf hsize (by decide) (show k + 8 + 4 ≤ HeaderSize by omega)
    have hsz := h.inside hbuf hsize (by decide) (show k + 12 + 4 ≤ HeaderSize by omega)
    rw [← hadd] at hoff hsz
    rw [findArch, Probe.within_bind, within_fatNumber hbuf, Probe.within_ite]
    -- the image is this one, or one behind it
    refine ⟨h.inside hbuf hsize (by decide) (by omega), fun _ => ?_, fun _ => ?_⟩
    · rw [Probe.within_bind, within_fatNumber hbuf, Probe.within_bind, within_fatNumber hbuf]
      exact ⟨hoff, hsz, Probe.within_pure _⟩
    · have hrest := @ih (k + 20) (by omega)
      rwa [← hadd] at hrest

omit hbuf in
/-- Where there is no image, nothing is searched. -/
theorem meets_empty (hno : ∀ i, ¬ ImageAt mem p size cpu i) :
    Meets (block ptr sourceSize.toNat) mem (Good ptr sourceSize) (pure {}) ↔
      SearchInside mem ptr sourceSize segmentName sectionName p size cpu :=
  iff_of_true (Probe.meets_pure.mpr good_empty) fun i hi => absurd hi (hno i)

omit hbuf in
theorem meets_invalid (hheader : p.toNat % 4 ≠ 0 ∨ size.toNat < HeaderSize) :
    Meets (block ptr sourceSize.toNat) mem (Good ptr sourceSize)
        (findSectionBounds p size segmentName sectionName cpu) ↔
      SearchInside mem ptr sourceSize segmentName sectionName p size cpu := by
  rw [findSectionBounds, if_pos hheader]
  refine meets_empty fun i hi => ?_
  cases hi <;> omega

omit hbuf in
/-- The commands of a fat file are those of the image that is found in it. -/
theorem searchInside_inFat {sz : BitVec 32} (haligned : p.toNat % 4 = 0)
    (hsize : HeaderSize ≤ size.toNat) (hfat : isFat (read 32 mem p)) (hcpu : cpu ≠ 0)
    (hnum : nfatArch mem p * 20 ≤ HeaderSize - 20)
    (harch : (findArch (read 32 mem p) cpu (nfatArch mem p) (p + 8)).run mem = some (off, sz))
    (hend : off.toNat + sz.toNat ≤ size.toNat) :
    SearchInside mem ptr sourceSize segmentName sectionName p size cpu ↔
      SearchInside mem ptr sourceSize segmentName sectionName (p + off.setWidth 64)
        (size - off.setWidth 64) 0 := by
  constructor
  · exact fun hall i hi => hall i (.inFat haligned hsize hfat hcpu hnum harch hend hi)
  · intro hall i hi
    cases hi with
    | own _ _ hfat' => exact absurd hfat hfat'
    | inFat _ _ _ _ _ harch' _ hi' =>
      obtain ⟨rfl, rfl⟩ := Prod.mk.inj (Option.some.inj (harch.symm.trans harch'))
      exact hall i hi'

/-- The search in an image that is not fat. -/
theorem meets_own (h : Suffix ptr sourceSize p size) (haligned : p.toNat % 4 = 0)
    (hsize : HeaderSize ≤ size.toNat) (hfat : ¬ isFat (read 32 mem p)) :
    Meets (block ptr sourceSize.toNat) mem (Good ptr sourceSize) (do
        let ncmds ← word 32 (p + 16)
        findInCommands p (p + size) segmentName sectionName ncmds.toNat
          (p + headerSize (read 32 mem p))) ↔
      SearchInside mem ptr sourceSize segmentName sectionName p size cpu := by
  have hncmds : Inside ptr sourceSize (p + 16) 4 := h.inside hbuf hsize (by decide) (by decide)
  rw [Probe.meets_bind, within_word32 hbuf, and_iff_right hncmds, Probe.run_word, h.add_eq,
    meets_findInCommands hbuf]
  constructor
  · intro hall i hi
    cases hi with
    | own => exact hall
    | inFat _ _ hfat' => exact absurd hfat' hfat
  · exact fun hall => hall p (.own haligned hsize hfat)

/-- **One level of the search**: an image is searched; of a fat file, so is the image that is
found. -/
theorem meets_level (h : Suffix ptr sourceSize p size)
    (hrest : cpu ≠ 0 → ∀ p' size', Suffix ptr sourceSize p' size' →
      (Meets (block ptr sourceSize.toNat) mem (Good ptr sourceSize)
          (findSectionBounds p' size' segmentName sectionName 0) ↔
        SearchInside mem ptr sourceSize segmentName sectionName p' size' 0)) :
    Meets (block ptr sourceSize.toNat) mem (Good ptr sourceSize)
        (findSectionBounds p size segmentName sectionName cpu) ↔
      SearchInside mem ptr sourceSize segmentName sectionName p size cpu := by
  by_cases hheader : p.toNat % 4 ≠ 0 ∨ size.toNat < HeaderSize
  · exact meets_invalid hheader
  obtain ⟨haligned, hsize⟩ : p.toNat % 4 = 0 ∧ HeaderSize ≤ size.toNat := by omega
  have hmagic : Inside ptr sourceSize (p + 0#64) 4 := h.inside hbuf hsize (by decide) (by decide)
  rw [BitVec.add_zero] at hmagic
  rw [findSectionBounds, if_neg hheader, Probe.meets_bind, within_word32 hbuf,
    and_iff_right hmagic, Probe.run_word]
  by_cases hfat : ¬ isFat (read 32 mem p) = true
  · rw [if_neg hfat]
    exact meets_own hbuf h haligned hsize hfat
  rw [not_not] at hfat
  rw [if_pos hfat]
  by_cases hcpu : cpu = 0
  · rw [if_pos hcpu]
    refine meets_empty fun i hi => ?_
    cases hi with
    | own _ _ hfat' => exact hfat' hfat
    | inFat _ _ _ hcpu' => exact hcpu' hcpu
  have hnfat : Inside ptr sourceSize (p + 4) 4 := h.inside hbuf hsize (by decide) (by decide)
  rw [if_neg hcpu, Probe.meets_bind, within_fatNumber hbuf, and_iff_right hnfat, ← nfatArch]
  by_cases hnum : nfatArch mem p * 20 > HeaderSize - 20
  · rw [if_pos hnum]
    refine meets_empty fun i hi => ?_
    cases hi with
    | own _ _ hfat' => exact hfat' hfat
    | inFat _ _ _ _ hnum' => omega
  -- with the images that it has the fat header is in what is surely there
  have hfull : HeaderSize = 8192 := rfl
  have harchs : Within (block ptr sourceSize.toNat) mem
      (findArch (read 32 mem p) cpu (nfatArch mem p) (p + 8)) :=
    within_findArch (k := 8) hbuf h hsize (by omega)
  rw [if_neg hnum, Probe.meets_bind, and_iff_right harchs]
  cases harch : (findArch (read 32 mem p) cpu (nfatArch mem p) (p + 8)).run mem with
  | none =>
    refine meets_empty fun i hi => ?_
    cases hi with
    | own _ _ hfat' => exact hfat' hfat
    | inFat _ _ _ _ _ harch' => exact absurd (harch.symm.trans harch') (by simp)
  | some arch =>
    obtain ⟨off, sz⟩ := arch
    dsimp only
    by_cases hend : off.toNat + sz.toNat > size.toNat
    · rw [if_pos hend]
      refine meets_empty fun i hi => ?_
      cases hi with
      | own _ _ hfat' => exact hfat' hfat
      | inFat _ _ _ _ _ harch' hend' =>
        obtain ⟨rfl, rfl⟩ := Prod.mk.inj (Option.some.inj (harch.symm.trans harch'))
        omega
    · rw [if_neg hend, searchInside_inFat haligned hsize hfat hcpu (not_lt.mp hnum) harch
        (not_lt.mp hend)]
      rcases Nat.lt_or_ge off.toNat size.toNat with hlt | hge
      · exact hrest hcpu _ _ (h.advance hbuf hlt)
      · -- nothing is left of the buffer
        have hwhole : size = off.setWidth 64 := by bv_omega
        refine meets_invalid (.inr ?_)
        rw [hwhole, BitVec.sub_self]
        decide

theorem meets_findSectionBounds (h : Suffix ptr sourceSize p size) :
    Meets (block ptr sourceSize.toNat) mem (Good ptr sourceSize)
        (findSectionBounds p size segmentName sectionName cpu) ↔
      SearchInside mem ptr sourceSize segmentName sectionName p size cpu := by
  -- The image in a fat file is searched for no processor, so that two levels are all.
  refine meets_level hbuf h fun _ p' size' h' => ?_
  exact meets_level hbuf h' fun h0 => absurd rfl h0

/-- **Finding a section**: in a buffer that does not wrap, the search reads in the buffer, and a
section that it finds is in the buffer, if and only if what it reads of each command that it comes
to is, with the section that the command leads to. What is checked of a command is not enough for
that. -/
theorem findSectionBounds_sound_iff :
    (Within (block ptr sourceSize.toNat) mem
        (findSectionBounds ptr sourceSize segmentName sectionName cpu) ∧
      Good ptr sourceSize
        ((findSectionBounds ptr sourceSize segmentName sectionName cpu).run mem)) ↔
      SearchInside mem ptr sourceSize segmentName sectionName ptr sourceSize cpu :=
  meets_findSectionBounds hbuf .refl

end Search

/-- A buffer of zeros has no commands. -/
theorem findSectionBounds_sound_zeros :
    Within (block (0x10000 : Addr) (8192 : Addr).toNat) (fun _ => 0)
        (findSectionBounds 0x10000 8192 TEXT TEXT 7) ∧
      Good 0x10000 8192 ((findSectionBounds 0x10000 8192 TEXT TEXT 7).run fun _ => 0) := by
  refine (findSectionBounds_sound_iff (by decide)).mpr fun i hi c hc => ?_
  have hzero : ∀ a : Addr, read 32 (fun _ => 0) a = 0 := fun _ => rfl
  rw [commandsOf, hzero] at hc
  exact absurd hc List.not_mem_nil

/-- An image at `0x10000` with a segment `__TEXT` of one section of that name, whose offset is 16
and whose size is `2 ^ 64 - 16`. -/
def hugeSection : Mem := fun a =>
  let k := (a - 0x10000).toNat
  if k < 4 then [0xCF, 0xFA, 0xED, 0xFE].getD k 0
  else if k = 16 then 1
  else if k = 32 then 0x19
  else if k = 36 then 152
  else if 40 ≤ k ∧ k < 46 then TEXT.getD (k - 40) 0
  else if k = 96 then 1
  else if 104 ≤ k ∧ k < 110 then TEXT.getD (k - 104) 0
  else if k = 144 then 0xF0
  else if 145 ≤ k ∧ k < 152 then 0xFF
  else if k = 152 then 16
  else 0

/-- Its end wraps, so that it passes for one in the buffer. -/
theorem not_findSectionBounds_sound_huge : ¬ ∀ (mem : Mem) (ptr sourceSize : Addr)
    (segmentName sectionName : CString) (cpu : BitVec 32),
    ptr.toNat + sourceSize.toNat ≤ 2 ^ 64 →
      Within (block ptr sourceSize.toNat) mem
          (findSectionBounds ptr sourceSize segmentName sectionName cpu) ∧
        Good ptr sourceSize
          ((findSectionBounds ptr sourceSize segmentName sectionName cpu).run mem) := by
  intro h
  have hfound : (findSectionBounds 0x10000 8192 TEXT TEXT 7).run hugeSection =
      ⟨0, 0, 0x10010, 0xFFFFFFFFFFFFFFF0⟩ := by
    rw [findSectionBounds]
    decide +kernel
  have hgood := (h hugeSection 0x10000 8192 TEXT TEXT 7 (by decide)).2
  rw [hfound] at hgood
  exact absurd (hgood (by decide)).2 (by decide)

end Lilu.MachInfo
