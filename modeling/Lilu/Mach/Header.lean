import Lilu.Prelude.Bytes
import Lilu.Kext.Listener

/-!
# Mach-O headers

The first `HeaderSize` bytes of an image are read to a buffer. Its load commands follow the header
one after another, each with its own size; the walk over them ends at a command that is not aligned
or reaches past the buffer.

## Main definitions

* `u32`, `u64`, `swap32`: the numbers at an offset
* `loadCommands`: the offsets of the commands that the walk comes to
* `getUUID`, `processMachHeader`: what is taken from them
* `archOffset`: the offset of the native image in a fat file
-/

namespace Lilu.MachInfo

open Lilu.Kext (CString strncmp)

/-- The bytes from the start of a buffer on, with those that lie behind it. -/
abbrev Buffer := ℕ → UInt8

/-- The size of the header buffer: two pages. -/
def HeaderSize : ℕ := 8192

def bytesAt (b : Buffer) (o n : ℕ) : List UInt8 :=
  (List.range n).map fun k => b (o + k)

def u32 (b : Buffer) (o : ℕ) : ℕ := leNat (bytesAt b o 4)

def u64 (b : Buffer) (o : ℕ) : ℕ := leNat (bytesAt b o 8)

/-- The number with its bytes swapped. -/
def swap32 (b : Buffer) (o : ℕ) : ℕ := leNat (bytesAt b o 4).reverse

/-- The first `size` bytes are replaced; those behind stay. -/
def copy (b : Buffer) (size : ℕ) (bytes : ℕ → UInt8) : Buffer :=
  fun k => if k < size then bytes k else b k

theorem copy_of_lt {b : Buffer} {size k : ℕ} {bytes : ℕ → UInt8} (h : k < size) :
    copy b size bytes k = bytes k :=
  if_pos h

/-! ## Load commands -/

def MachMagicNative : ℕ := 0xFEEDFACF
def MachCpuTypeNative : ℕ := 0x01000007
def SegmentTypeNative : ℕ := 0x19
def LC_SYMTAB : ℕ := 0x2
def LC_UUID : ℕ := 0x1B

/-- The offsets of the load commands from `off` on: `n` at most, up to the first that is not aligned
or reaches past the buffer. -/
def loadCommands (header : Buffer) : ℕ → ℕ → List ℕ
  | 0, _ => []
  | n + 1, off =>
    if off % 4 ≠ 0 then []
    else if off + 8 > HeaderSize ∨ off + u32 header (off + 4) > HeaderSize then []
    else off :: loadCommands header n (off + u32 header (off + 4))

/-- The load commands of a header: their number is at 16, the first one behind the header's 32
bytes. -/
def commands (header : Buffer) : List ℕ :=
  loadCommands header (u32 header 16) 32

/-- The two halves of the first `LC_UUID` command's UUID. -/
def getUUID (header : Buffer) : Option (ℕ × ℕ) :=
  ((commands header).find? fun o => u32 header o = LC_UUID).map fun o =>
    (u64 header (o + 8), u64 header (o + 16))

/-- What is taken from the load commands. -/
structure Symbols where
  disk_text_addr : ℕ := 0
  sym_fileoff : ℕ := 0
  sym_size : ℕ := 0
  symboltable_fileoff : ℕ := 0
  symboltable_nr_symbols : ℕ := 0
  stringtable_fileoff : ℕ := 0
  stringtable_size : ℕ := 0
  deriving DecidableEq

/-- The name of the segment command at an offset. -/
def segname (header : Buffer) (o : ℕ) : CString :=
  (bytesAt header (o + 8) 16).takeWhile (· ≠ 0)

/-- The bytes of `__TEXT` and `__LINKEDIT`. -/
def TEXT : CString := [95, 95, 84, 69, 88, 84]
def LINKEDIT : CString := [95, 95, 76, 73, 78, 75, 69, 68, 73, 84]

/-- What a load command adds. -/
def processCommand (header : Buffer) (s : Symbols) (o : ℕ) : Symbols :=
  if u32 header o = SegmentTypeNative then
    if strncmp (segname header o) TEXT 16 then
      { s with disk_text_addr := u64 header (o + 24) }
    else if strncmp (segname header o) LINKEDIT 16 then
      { s with sym_fileoff := u64 header (o + 40), sym_size := u64 header (o + 48) }
    else s
  else if u32 header o = LC_SYMTAB then
    { s with
      symboltable_fileoff := u32 header (o + 8)
      symboltable_nr_symbols := u32 header (o + 12)
      stringtable_fileoff := u32 header (o + 16)
      stringtable_size := u32 header (o + 20) }
  else s

def processMachHeader (s : Symbols) (header : Buffer) : Symbols :=
  (commands header).foldl (processCommand header) s

/-! ## Fat files -/

def FAT_MAGIC : ℕ := 0xCAFEBABE
def FAT_CIGAM : ℕ := 0xBEBAFECA

/-- A number of a fat header, in the file's byte order. -/
def fatWord (buffer : Buffer) (o : ℕ) : ℕ :=
  if u32 buffer 0 = FAT_CIGAM then swap32 buffer o else u32 buffer o

/-- The offset of the first native image of a fat file. Its header has 8 bytes, an architecture
has 20. -/
def archOffset (buffer : Buffer) : Option ℕ :=
  let num := fatWord buffer 4
  if num * 20 > HeaderSize - 20 then none
  else
    ((List.range num).find? fun i => fatWord buffer (i * 20 + 8) = MachCpuTypeNative).map fun i =>
      fatWord buffer (i * 20 + 8 + 8)

end Lilu.MachInfo
