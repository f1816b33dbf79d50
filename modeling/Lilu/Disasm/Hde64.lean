import Lilu.Prelude.Probe

/-!
# The length of an instruction

`hde64_disasm` reads an instruction by a table that tells for each opcode what follows it. The
variables of the function are a state that its parts change one after the other. A part asks for
bytes of the code and of the table.

## Main definitions

* `Hde64s`: what is found out about an instruction
* `Vars`: the variables of the function
* `hde64Disasm`: the function, and its parts under the names of what they are for
-/

namespace Lilu.Disasm

open Probe (byte)

/-! ## The table -/

def C_MODRM : UInt8 := 0x01
def C_IMM8 : UInt8 := 0x02
def C_IMM16 : UInt8 := 0x04
def C_IMM_P66 : UInt8 := 0x10
def C_REL8 : UInt8 := 0x20
def C_REL32 : UInt8 := 0x40
def C_GROUP : UInt8 := 0x80
def C_ERROR : UInt8 := 0xff

def PRE_NONE : UInt8 := 0x01
def PRE_F2 : UInt8 := 0x02
def PRE_F3 : UInt8 := 0x04
def PRE_66 : UInt8 := 0x08
def PRE_67 : UInt8 := 0x10
def PRE_LOCK : UInt8 := 0x20
def PRE_SEG : UInt8 := 0x40

def DELTA_OPCODES : ℕ := 0x4a
def DELTA_FPU_REG : ℕ := 0xfd
def DELTA_FPU_MODRM : ℕ := 0x104
def DELTA_PREFIXES : ℕ := 0x13c
def DELTA_OP_LOCK_OK : ℕ := 0x1ae
def DELTA_OP2_LOCK_OK : ℕ := 0x1c6
def DELTA_OP_ONLY_MEM : ℕ := 0x1d8
def DELTA_OP2_ONLY_MEM : ℕ := 0x1e7

def hde64Table : List UInt8 :=
  [0xa5, 0xaa, 0xa5, 0xb8, 0xa5, 0xaa, 0xa5, 0xaa, 0xa5, 0xb8, 0xa5, 0xb8, 0xa5, 0xb8, 0xa5,
   0xb8, 0xc0, 0xc0, 0xc0, 0xc0, 0xc0, 0xc0, 0xc0, 0xc0, 0xac, 0xc0, 0xcc, 0xc0, 0xa1, 0xa1,
   0xa1, 0xa1, 0xb1, 0xa5, 0xa5, 0xa6, 0xc0, 0xc0, 0xd7, 0xda, 0xe0, 0xc0, 0xe4, 0xc0, 0xea,
   0xea, 0xe0, 0xe0, 0x98, 0xc8, 0xee, 0xf1, 0xa5, 0xd3, 0xa5, 0xa5, 0xa1, 0xea, 0x9e, 0xc0,
   0xc0, 0xc2, 0xc0, 0xe6, 0x03, 0x7f, 0x11, 0x7f, 0x01, 0x7f, 0x01, 0x3f, 0x01, 0x01, 0xab,
   0x8b, 0x90, 0x64, 0x5b, 0x5b, 0x5b, 0x5b, 0x5b, 0x92, 0x5b, 0x5b, 0x76, 0x90, 0x92, 0x92,
   0x5b, 0x5b, 0x5b, 0x5b, 0x5b, 0x5b, 0x5b, 0x5b, 0x5b, 0x5b, 0x5b, 0x5b, 0x6a, 0x73, 0x90,
   0x5b, 0x52, 0x52, 0x52, 0x52, 0x5b, 0x5b, 0x5b, 0x5b, 0x77, 0x7c, 0x77, 0x85, 0x5b, 0x5b,
   0x70, 0x5b, 0x7a, 0xaf, 0x76, 0x76, 0x5b, 0x5b, 0x5b, 0x5b, 0x5b, 0x5b, 0x5b, 0x5b, 0x5b,
   0x5b, 0x5b, 0x86, 0x01, 0x03, 0x01, 0x04, 0x03, 0xd5, 0x03, 0xd5, 0x03, 0xcc, 0x01, 0xbc,
   0x03, 0xf0, 0x03, 0x03, 0x04, 0x00, 0x50, 0x50, 0x50, 0x50, 0xff, 0x20, 0x20, 0x20, 0x20,
   0x01, 0x01, 0x01, 0x01, 0xc4, 0x02, 0x10, 0xff, 0xff, 0xff, 0x01, 0x00, 0x03, 0x11, 0xff,
   0x03, 0xc4, 0xc6, 0xc8, 0x02, 0x10, 0x00, 0xff, 0xcc, 0x01, 0x01, 0x01, 0x00, 0x00, 0x00,
   0x00, 0x01, 0x01, 0x03, 0x01, 0xff, 0xff, 0xc0, 0xc2, 0x10, 0x11, 0x02, 0x03, 0x01, 0x01,
   0x01, 0xff, 0xff, 0xff, 0x00, 0x00, 0x00, 0xff, 0x00, 0x00, 0xff, 0xff, 0xff, 0xff, 0x10,
   0x10, 0x10, 0x10, 0x02, 0x10, 0x00, 0x00, 0xc6, 0xc8, 0x02, 0x02, 0x02, 0x02, 0x06, 0x00,
   0x04, 0x00, 0x02, 0xff, 0x00, 0xc0, 0xc2, 0x01, 0x01, 0x03, 0x03, 0x03, 0xca, 0x40, 0x00,
   0x0a, 0x00, 0x04, 0x00, 0x00, 0x00, 0x00, 0x7f, 0x00, 0x33, 0x01, 0x00, 0x00, 0x00, 0x00,
   0x00, 0x00, 0xff, 0xbf, 0xff, 0xff, 0x00, 0x00, 0x00, 0x00, 0x07, 0x00, 0x00, 0xff, 0x00,
   0x00, 0x00, 0x00, 0x00, 0x00, 0x00, 0x00, 0x00, 0x00, 0x00, 0x00, 0x00, 0x00, 0xff, 0xff,
   0x00, 0x00, 0x00, 0xbf, 0x00, 0x00, 0x00, 0x00, 0x00, 0x00, 0x00, 0x00, 0x7f, 0x00, 0x00,
   0xff, 0x40, 0x40, 0x40, 0x40, 0x41, 0x49, 0x40, 0x40, 0x40, 0x40, 0x4c, 0x42, 0x40, 0x40,
   0x40, 0x40, 0x40, 0x40, 0x40, 0x40, 0x4f, 0x44, 0x53, 0x40, 0x40, 0x40, 0x44, 0x57, 0x43,
   0x5c, 0x40, 0x60, 0x40, 0x40, 0x40, 0x40, 0x40, 0x40, 0x40, 0x40, 0x40, 0x40, 0x40, 0x40,
   0x40, 0x40, 0x64, 0x66, 0x6e, 0x6b, 0x40, 0x40, 0x6a, 0x46, 0x40, 0x40, 0x44, 0x46, 0x40,
   0x40, 0x5b, 0x44, 0x40, 0x40, 0x00, 0x00, 0x00, 0x00, 0x06, 0x06, 0x06, 0x06, 0x01, 0x06,
   0x06, 0x02, 0x06, 0x06, 0x00, 0x06, 0x00, 0x0a, 0x0a, 0x00, 0x00, 0x00, 0x02, 0x07, 0x07,
   0x06, 0x02, 0x0d, 0x06, 0x06, 0x06, 0x0e, 0x05, 0x05, 0x02, 0x02, 0x00, 0x00, 0x04, 0x04,
   0x04, 0x04, 0x05, 0x06, 0x06, 0x06, 0x00, 0x00, 0x00, 0x0e, 0x00, 0x00, 0x08, 0x00, 0x10,
   0x00, 0x18, 0x00, 0x20, 0x00, 0x28, 0x00, 0x30, 0x00, 0x80, 0x01, 0x82, 0x01, 0x86, 0x00,
   0xf6, 0xcf, 0xfe, 0x3f, 0xab, 0x00, 0xb0, 0x00, 0xb1, 0x00, 0xb3, 0x00, 0xba, 0xf8, 0xbb,
   0x00, 0xc0, 0x00, 0xc1, 0x00, 0xc7, 0xbf, 0x62, 0xff, 0x00, 0x8d, 0xff, 0x00, 0xc4, 0xff,
   0x00, 0xc5, 0xff, 0x00, 0xff, 0xff, 0xeb, 0x01, 0xff, 0x0e, 0x12, 0x08, 0x00, 0x13, 0x09,
   0x00, 0x16, 0x08, 0x00, 0x17, 0x09, 0x00, 0x2b, 0x09, 0x00, 0xae, 0xff, 0x07, 0xb2, 0xff,
   0x00, 0xb4, 0xff, 0x00, 0xb5, 0xff, 0x00, 0xc3, 0x01, 0x00, 0xc7, 0xff, 0xbf, 0xe7, 0x08,
   0x00, 0xf0, 0x02, 0x00]

/-! ## What is found out -/

def F_MODRM : BitVec 32 := 0x00000001
def F_SIB : BitVec 32 := 0x00000002
def F_IMM8 : BitVec 32 := 0x00000004
def F_IMM16 : BitVec 32 := 0x00000008
def F_IMM32 : BitVec 32 := 0x00000010
def F_IMM64 : BitVec 32 := 0x00000020
def F_DISP8 : BitVec 32 := 0x00000040
def F_DISP16 : BitVec 32 := 0x00000080
def F_DISP32 : BitVec 32 := 0x00000100
def F_RELATIVE : BitVec 32 := 0x00000200
def F_ERROR : BitVec 32 := 0x00001000
def F_ERROR_OPCODE : BitVec 32 := 0x00002000
def F_ERROR_LENGTH : BitVec 32 := 0x00004000
def F_ERROR_LOCK : BitVec 32 := 0x00008000
def F_ERROR_OPERAND : BitVec 32 := 0x00010000
def F_PREFIX_REX : BitVec 32 := 0x40000000

/-- An instruction; `imm` and `disp` are the bytes of the unions. -/
structure Hde64s where
  len : UInt8 := 0
  p_rep : UInt8 := 0
  p_lock : UInt8 := 0
  p_seg : UInt8 := 0
  p_66 : UInt8 := 0
  p_67 : UInt8 := 0
  rex : UInt8 := 0
  rex_w : UInt8 := 0
  rex_r : UInt8 := 0
  rex_x : UInt8 := 0
  rex_b : UInt8 := 0
  opcode : UInt8 := 0
  opcode2 : UInt8 := 0
  modrm : UInt8 := 0
  modrm_mod : UInt8 := 0
  modrm_reg : UInt8 := 0
  modrm_rm : UInt8 := 0
  sib : UInt8 := 0
  sib_scale : UInt8 := 0
  sib_index : UInt8 := 0
  sib_base : UInt8 := 0
  imm : List UInt8 := List.replicate 8 0
  disp : List UInt8 := List.replicate 4 0
  flags : BitVec 32 := 0
  deriving DecidableEq, Repr

/-- Writing to a union. -/
def overwrite (old new : List UInt8) : List UInt8 :=
  new ++ old.drop new.length

/-- The variables of the function; `p` counts from the start of the code, and `ht` from the start of
the table. -/
structure Vars where
  p : ℕ := 0
  c : UInt8 := 0
  x : UInt8 := 0
  cflags : UInt8 := 0
  opcode : UInt8 := 0
  pref : UInt8 := 0
  ht : ℕ := 0
  m_mod : UInt8 := 0
  m_reg : UInt8 := 0
  m_rm : UInt8 := 0
  disp_size : ℕ := 0
  op64 : ℕ := 0
  hs : Hde64s := {}
  deriving DecidableEq, Repr

namespace Vars

def flag (s : Vars) (F : BitVec 32) : Vars :=
  { s with hs := { s.hs with flags := s.hs.flags ||| F } }

def flagIf (s : Vars) (c : Prop) [Decidable c] (F : BitVec 32) : Vars :=
  if c then s.flag F else s

end Vars

/-- Where a byte is: in the code, or in the table. -/
inductive Place where
  | code (i : ℕ)
  | table (i : ℕ)
  deriving DecidableEq, Repr

abbrev Read := Probe Place

/-- The code, and the table beside it. -/
def memory (code : ℕ → UInt8) : Place → UInt8
  | .code i => code i
  | .table i => hde64Table.getD i 0

/-- `*p++` -/
def next (s : Vars) : Read Vars := do
  let c ← byte (.code s.p)
  pure { s with c, p := s.p + 1 }

/-! ## Prefixes and opcodes -/

/-- What a byte does if it is a prefix. -/
def asPrefix (s : Vars) : Option Vars :=
  if s.c = 0xf3 then some { s with hs := { s.hs with p_rep := s.c }, pref := s.pref ||| PRE_F3 }
  else if s.c = 0xf2 then some { s with hs := { s.hs with p_rep := s.c }, pref := s.pref ||| PRE_F2 }
  else if s.c = 0xf0 then
    some { s with hs := { s.hs with p_lock := s.c }, pref := s.pref ||| PRE_LOCK }
  else if s.c ∈ [0x26, 0x2e, 0x36, 0x3e, 0x64, 0x65] then
    some { s with hs := { s.hs with p_seg := s.c }, pref := s.pref ||| PRE_SEG }
  else if s.c = 0x66 then some { s with hs := { s.hs with p_66 := s.c }, pref := s.pref ||| PRE_66 }
  else if s.c = 0x67 then some { s with hs := { s.hs with p_67 := s.c }, pref := s.pref ||| PRE_67 }
  else none

/-- `for (x = 16; x; x--)` -/
def prefixes : ℕ → Vars → Read Vars
  | 0, s => pure s
  | x + 1, s => do
    let s ← next s
    match asPrefix s with
    | some s => prefixes x s
    | none => pure s

/-- `pref_done` -/
def prefDone (s : Vars) : Vars :=
  { s with
    hs := { s.hs with flags := BitVec.ofNat 32 s.pref.toNat <<< 23 }
    pref := if s.pref = 0 then PRE_NONE else s.pref }

/-- Whether a byte is a REX prefix. -/
def isRex (c : UInt8) : Bool :=
  c &&& 0xf0 == 0x40

/-- A move of eight bytes follows. -/
def wideMove (s : Vars) : Read Vars :=
  if s.hs.rex_w ≠ 0 then do
    let b ← byte (.code s.p)
    pure (if b &&& 0xf8 = 0xb8 then { s with op64 := s.op64 + 1 } else s)
  else pure s

/-- The REX prefix, and the opcode behind it. -/
def rexPrefix (s : Vars) : Read Vars := do
  let c := s.c
  let s := s.flag F_PREFIX_REX
  let s ← wideMove { s with hs := { s.hs with rex_w := (c &&& 0xf) >>> 3 } }
  next { s with
    hs := { s.hs with rex_r := (c &&& 7) >>> 2, rex_x := (c &&& 3) >>> 1, rex_b := c &&& 1 } }

/-- The byte of the table for an opcode. -/
def lookup (ht : ℕ) (opcode : UInt8) : Read UInt8 := do
  let row ← byte (.table (ht + opcode.toNat / 4))
  byte (.table (ht + (row.toNat + opcode.toNat % 4)))

/-- `error_opcode` -/
def errorOpcode (s : Vars) : Vars :=
  { s.flag (F_ERROR ||| F_ERROR_OPCODE) with cflags := if s.opcode &&& 0xfd = 0x24 then 1 else 0 }

/-- The second byte of an opcode, or what an address of eight bytes means. -/
def secondByte (s : Vars) : Read Vars :=
  let s := { s with hs := { s.hs with opcode := s.c } }
  if s.c = 0x0f then do
    let s ← next s
    pure { s with hs := { s.hs with opcode2 := s.c }, ht := s.ht + DELTA_OPCODES }
  else if 0xa0 ≤ s.c ∧ s.c ≤ 0xa3 then
    pure { s with
      op64 := s.op64 + 1
      pref := if s.pref &&& PRE_67 ≠ 0 then s.pref ||| PRE_66 else s.pref &&& ~~~PRE_66 }
  else pure s

def lookupFlags (s : Vars) : Read Vars := do
  let cflags ← lookup s.ht s.opcode
  pure (if cflags = C_ERROR then errorOpcode s else { s with cflags })

/-- The opcode and its flags. -/
def opcodeFlags (s : Vars) : Read Vars := do
  let s ← secondByte s
  lookupFlags { s with opcode := s.c }

/-- From the REX prefix to the opcode's flags; there is only one REX prefix. -/
def opcodes (s : Vars) : Read Vars :=
  if isRex s.c then do
    let s ← rexPrefix s
    if isRex s.c then pure (errorOpcode { s with opcode := s.c }) else opcodeFlags s
  else opcodeFlags s

/-- `C_GROUP` -/
def group (s : Vars) : Read Vars :=
  if s.cflags &&& C_GROUP ≠ 0 then do
    let t0 ← byte (.table (s.ht + (s.cflags &&& 0x7f).toNat))
    let t1 ← byte (.table (s.ht + (s.cflags &&& 0x7f).toNat + 1))
    pure { s with cflags := t0, x := t1 }
  else pure { s with x := 0 }

/-- The prefixes that an opcode of two bytes may not have. -/
def prefixCheck (s : Vars) : Read Vars :=
  if s.hs.opcode2 ≠ 0 then do
    let t ← lookup DELTA_PREFIXES s.opcode
    pure ({ s with ht := DELTA_PREFIXES }.flagIf (t &&& s.pref ≠ 0) (F_ERROR ||| F_ERROR_OPCODE))
  else pure s

/-! ## The ModRM byte -/

/-- The ModRM byte and its parts. -/
def modrmByte (s : Vars) : Read Vars := do
  let s ← next (s.flag F_MODRM)
  let s := { s with m_mod := s.c >>> 6, m_rm := s.c &&& 7, m_reg := (s.c &&& 0x3f) >>> 3 }
  let s := { s with
    hs := { s.hs with
      modrm := s.c, modrm_mod := s.m_mod, modrm_rm := s.m_rm, modrm_reg := s.m_reg } }
  pure (s.flagIf (s.x ≠ 0 ∧ (s.x <<< s.m_reg) &&& 0x80 ≠ 0) (F_ERROR ||| F_ERROR_OPCODE))

/-- What the table says about an opcode of the floating point unit. -/
def fpuFlags (s : Vars) (t : ℕ) : Read UInt8 :=
  if s.m_mod = 3 then do
    let b ← byte (.table (DELTA_FPU_MODRM + t * 8 + s.m_reg.toNat))
    pure (b <<< s.m_rm)
  else do
    let b ← byte (.table (DELTA_FPU_REG + t))
    pure (b <<< s.m_reg)

/-- The opcodes of the floating point unit. -/
def fpuCheck (s : Vars) : Read Vars :=
  if s.hs.opcode2 = 0 ∧ 0xd9 ≤ s.opcode ∧ s.opcode ≤ 0xdf then do
    let t ← fpuFlags s (s.opcode - 0xd9).toNat
    pure (s.flagIf (t &&& 0x80 ≠ 0) (F_ERROR ||| F_ERROR_OPCODE))
  else pure s

/-- A search in the table, in steps of so many bytes: where the byte behind the one that is found is,
or none at the end. -/
def search (tableEnd step : ℕ) (op : UInt8) : ℕ → ℕ → Read (Option ℕ)
  | 0, _ => pure none
  | n + 1, ht =>
    if ht ≠ tableEnd then do
      if (← byte (.table ht)) = op then pure (some (ht + 1)) else search tableEnd step op n (ht + step)
    else pure none

/-- The opcodes that may be locked. -/
def lockEntry (s : Vars) : Read (Option ℕ) :=
  if s.hs.opcode2 ≠ 0 then
    search DELTA_OP_ONLY_MEM 2 s.opcode (DELTA_OP_ONLY_MEM - DELTA_OP2_LOCK_OK) DELTA_OP2_LOCK_OK
  else
    search DELTA_OP2_LOCK_OK 2 (s.opcode &&& 0xfe) (DELTA_OP2_LOCK_OK - DELTA_OP_LOCK_OK)
      DELTA_OP_LOCK_OK

/-- Whether the instruction may be locked. -/
def lockable (s : Vars) : Read Bool := do
  match ← lockEntry s with
  | some ht => do
    let b ← byte (.table ht)
    pure ((b <<< s.m_reg) &&& 0x80 == 0)
  | none => pure false

def lockCheck (s : Vars) : Read Vars :=
  if s.pref &&& PRE_LOCK ≠ 0 then
    if s.m_mod = 3 then pure (s.flag (F_ERROR ||| F_ERROR_LOCK))
    else do
      let ok ← lockable s
      pure (s.flagIf (ok = false) (F_ERROR ||| F_ERROR_LOCK))
  else pure s

/-- The opcodes whose operand is in memory. -/
def onlyMemEntry (s : Vars) : Read (Option ℕ) :=
  if s.hs.opcode2 ≠ 0 then
    search hde64Table.length 3 s.opcode (hde64Table.length - DELTA_OP2_ONLY_MEM) DELTA_OP2_ONLY_MEM
  else
    search DELTA_OP2_ONLY_MEM 3 s.opcode (DELTA_OP2_ONLY_MEM - DELTA_OP_ONLY_MEM) DELTA_OP_ONLY_MEM

/-- Whether an operand that is a register had to be in memory. -/
def onlyMem (s : Vars) : Read Bool := do
  match ← onlyMemEntry s with
  | some ht => do
    let b ← byte (.table ht)
    if b &&& s.pref ≠ 0 then do
      let b ← byte (.table (ht + 1))
      pure ((b <<< s.m_reg) &&& 0x80 == 0)
    else pure false
  | none => pure false

/-- The operands of the other opcodes: whether there is an error. -/
def memoryOperand (s : Vars) : Bool :=
  if s.hs.opcode2 ≠ 0 then
    if s.opcode = 0x50 ∨ s.opcode = 0xd7 ∨ s.opcode = 0xf7 then s.pref &&& (PRE_NONE ||| PRE_66) != 0
    else if s.opcode = 0xd6 then s.pref &&& (PRE_F2 ||| PRE_F3) != 0
    else s.opcode == 0xc5
  else false

def operandError (s : Vars) (error : Bool) : Vars :=
  s.flagIf (error = true) (F_ERROR ||| F_ERROR_OPERAND)

/-- The registers that an opcode may not have, and the operands in memory. -/
def operandCheck (s : Vars) : Read Vars :=
  if s.hs.opcode2 ≠ 0 ∧ (s.opcode = 0x20 ∨ s.opcode = 0x22) then
    pure (operandError { s with m_mod := 3 } (s.m_reg > 4 || s.m_reg == 1))
  else if s.hs.opcode2 ≠ 0 ∧ (s.opcode = 0x21 ∨ s.opcode = 0x23) then
    pure (operandError { s with m_mod := 3 } (s.m_reg == 4 || s.m_reg == 5))
  else if s.hs.opcode2 = 0 ∧ s.opcode = 0x8c then pure (operandError s (s.m_reg > 5))
  else if s.hs.opcode2 = 0 ∧ s.opcode = 0x8e then
    pure (operandError s (s.m_reg == 1 || s.m_reg > 5))
  else if s.m_mod = 3 then do pure (operandError s (← onlyMem s))
  else pure (operandError s (memoryOperand s))

/-- The immediate operands that depend on the ModRM byte. -/
def moreFlags (s : Vars) : Vars :=
  if s.m_reg ≤ 1 then
    if s.opcode = 0xf6 then { s with cflags := s.cflags ||| C_IMM8 }
    else if s.opcode = 0xf7 then { s with cflags := s.cflags ||| C_IMM_P66 } else s
  else s

/-- `switch (m_mod)` -/
def dispSize (s : Vars) : ℕ :=
  if s.m_mod = 0 then
    if s.pref &&& PRE_67 ≠ 0 then if s.m_rm = 6 then 2 else s.disp_size
    else if s.m_rm = 5 then 4 else s.disp_size
  else if s.m_mod = 1 then 1
  else if s.m_mod = 2 then if s.pref &&& PRE_67 ≠ 0 then 2 else 4
  else s.disp_size

/-- The SIB byte, which was read already. -/
def sibByte (s : Vars) : Vars :=
  if s.m_mod ≠ 3 ∧ s.m_rm = 4 then
    let s := s.flag F_SIB
    { s with
      p := s.p + 1
      hs := { s.hs with
        sib := s.c, sib_scale := s.c >>> 6, sib_index := (s.c &&& 0x3f) >>> 3, sib_base := s.c &&& 7 }
      disp_size := if s.c &&& 7 = 5 ∧ s.m_mod &&& 1 = 0 then 4 else s.disp_size }
  else s

/-- The bytes from `p` on. -/
def bytesAt (s : Vars) (n : ℕ) : Read (List UInt8) :=
  Probe.bytes ((List.range n).map fun k => Place.code (s.p + k))

/-- `switch (disp_size)` -/
def displacement (s : Vars) : Read Vars :=
  if s.disp_size = 1 ∨ s.disp_size = 2 ∨ s.disp_size = 4 then do
    let s := s.flag (if s.disp_size = 1 then F_DISP8 else if s.disp_size = 2 then F_DISP16 else F_DISP32)
    let bs ← bytesAt s s.disp_size
    pure { s with hs := { s.hs with disp := overwrite s.hs.disp bs }, p := s.p + s.disp_size }
  else pure { s with p := s.p + s.disp_size }

/-- What the ModRM byte brings with it: the byte behind it is read in any case. -/
def addressing (s : Vars) : Read Vars := do
  let s ← next s
  let s := moreFlags s
  let s := sibByte { s with disp_size := dispSize s }
  displacement { s with p := s.p - 1 }

/-- `C_MODRM` -/
def modrm (s : Vars) : Read Vars :=
  if s.cflags &&& C_MODRM ≠ 0 then do
    let s ← modrmByte s
    let s ← fpuCheck s
    let s ← lockCheck s
    let s ← operandCheck s
    addressing s
  else pure (s.flagIf (s.pref &&& PRE_LOCK ≠ 0) (F_ERROR ||| F_ERROR_LOCK))

/-! ## Immediate operands -/

/-- An operand of so many bytes. -/
def immediate (F : BitVec 32) (n : ℕ) (s : Vars) : Read Vars := do
  let s := s.flag F
  let bs ← bytesAt s n
  pure { s with hs := { s.hs with imm := overwrite s.hs.imm bs }, p := s.p + n }

def immediateIf (c : Prop) [Decidable c] (F : BitVec 32) (n : ℕ) (s : Vars) : Read Vars :=
  if c then immediate F n s else pure s

/-- From `imm16_ok` or behind it to `rel32_ok`. -/
def afterP66 (imm16 : Bool) (s : Vars) : Read Vars := do
  let s ← immediateIf (imm16 = true ∨ s.cflags &&& C_IMM16 ≠ 0) F_IMM16 2 s
  let s ← immediateIf (s.cflags &&& C_IMM8 ≠ 0) F_IMM8 1 s
  if s.cflags &&& C_REL32 ≠ 0 then immediate (F_IMM32 ||| F_RELATIVE) 4 s
  else if s.cflags &&& C_REL8 ≠ 0 then immediate (F_IMM8 ||| F_RELATIVE) 1 s
  else pure s

def immediates (s : Vars) : Read Vars :=
  if s.cflags &&& C_IMM_P66 ≠ 0 then
    if s.cflags &&& C_REL32 ≠ 0 then
      if s.pref &&& PRE_66 ≠ 0 then immediate (F_IMM16 ||| F_RELATIVE) 2 s
      else immediate (F_IMM32 ||| F_RELATIVE) 4 s
    else if s.op64 ≠ 0 then do afterP66 false (← immediate F_IMM64 8 s)
    else if s.pref &&& PRE_66 = 0 then do afterP66 false (← immediate F_IMM32 4 s)
    else afterP66 true s
  else afterP66 false s

/-- `disasm_done` -/
def disasmDone (s : Vars) : Hde64s :=
  let len := UInt8.ofNat s.p
  if len > 15 then { s.hs with flags := s.hs.flags ||| (F_ERROR ||| F_ERROR_LENGTH), len := 15 }
  else { s.hs with len }

/-- `hde64_disasm` -/
def hde64Disasm : Read Hde64s := do
  let s ← prefixes 16 {}
  let s ← opcodes (prefDone s)
  let s ← group s
  let s ← prefixCheck s
  let s ← modrm s
  let s ← immediates s
  pure (disasmDone s)

end Lilu.Disasm
