import Lilu.Disasm.Instruction
import Lilu.Patcher.Route

/-!
# Whole instructions from an address on

The patcher moves the instructions at the entry of a function out of the way of a jump, as many as
the jump has bytes for. It relies on the disassembler for where they end, and the disassembler keeps
what it relies on.

## Main definitions

* `quickInstructionSize`: the bytes of some whole instructions
* `Instructions`: where the instructions from a place on begin and end
* `hde`: the disassembler, as the patcher knows it

## Main results

* `meets_quickInstructionSize`: the first end of an instruction behind the minimum, if there is one
* `quickInstructionSize_copied`: it is the same for a copy
-/

namespace Lilu.Disasm

open Probe (byte Within Meets)

variable {code code' : ℕ → UInt8} {a b c n min : ℕ}

/-! ## The loop -/

/-- Places from another one on. -/
def Place.shift (k : ℕ) : Place → Place
  | .code i => .code (k + i)
  | .table i => .table i

/-- The instruction at a place. -/
def hdeDisasm (a : ℕ) : Read Hde64s :=
  hde64Disasm.via (Place.shift a)

/-- Whole instructions from `total` on. -/
def sizeFrom (min : ℕ) : ℕ → ℕ → Read ℕ
  | 0, _ => pure 0
  | fuel + 1, total => do
    let hs ← hdeDisasm total
    if hs.has F_ERROR then pure 0
    else if total + hs.len.toNat < min then sizeFrom min fuel (total + hs.len.toNat)
    else pure (total + hs.len.toNat)

/-- `quickInstructionSize`: every instruction has a byte, so that no more turns are needed. -/
def quickInstructionSize (min : ℕ) : Read ℕ :=
  sizeFrom min (min + 1) 0

/-! ## Instructions -/

/-- The instruction that begins at a place. -/
def instructionAt (code : ℕ → UInt8) (a : ℕ) : Hde64s :=
  hde64Disasm.run (memory fun i => code (a + i))

/-- Whole instructions, from one place to another. -/
inductive Instructions (code : ℕ → UInt8) : ℕ → ℕ → Prop where
  | none (a : ℕ) : Instructions code a a
  | more {a b : ℕ} (hno : (instructionAt code a).has F_ERROR = false)
      (h : Instructions code (a + (instructionAt code a).len.toNat) b) : Instructions code a b

theorem memory_shift (a : ℕ) : (fun x => memory code (Place.shift a x)) =
    memory fun i => code (a + i) := by
  funext x
  cases x with
  | code i => rfl
  | table i => rfl

theorem run_hdeDisasm : (hdeDisasm a).run (memory code) = instructionAt code a := by
  rw [hdeDisasm, Probe.run_via, memory_shift]
  rfl

theorem len_bounds (code : ℕ → UInt8) (a : ℕ) :
    0 < (instructionAt code a).len.toNat ∧ (instructionAt code a).len.toNat ≤ 15 :=
  (hde64_safe fun i => code (a + i)).2

theorem meets_hdeDisasm (h : a + 32 ≤ n) :
    Meets (Inside n) (memory code) (· = instructionAt code a) (hdeDisasm a) := by
  refine ⟨?_, run_hdeDisasm⟩
  rw [hdeDisasm, Probe.within_via, memory_shift]
  intro x hx
  rcases (hde64_safe fun i => code (a + i)).1 x hx with ⟨i, hi, rfl⟩ | ⟨i, hi, rfl⟩
  · exact code_mem (by omega)
  · exact table_mem hi

theorem Instructions.le (h : Instructions code a b) : a ≤ b := by
  induction h with
  | none a => exact le_rfl
  | more hno h ih => omega

/-- Instructions that begin at the same place have the same ends. -/
theorem Instructions.tail (h : Instructions code a b) (hlt : a < b) :
    (instructionAt code a).has F_ERROR = false ∧
      Instructions code (a + (instructionAt code a).len.toNat) b := by
  cases h with
  | none => exact absurd hlt (lt_irrefl _)
  | more hno h => exact ⟨hno, h⟩

theorem Instructions.snoc (h : Instructions code a b)
    (hno : (instructionAt code b).has F_ERROR = false) :
    Instructions code a (b + (instructionAt code b).len.toNat) := by
  induction h with
  | none a => exact .more hno (.none _)
  | more hno' h ih => exact .more hno' (ih hno)

/-- A size is the first end of an instruction that is no less than the minimum; it is zero if what
begins before that cannot be decoded. -/
structure SizeOf (code : ℕ → UInt8) (min a size : ℕ) : Prop where
  found : size ≠ 0 → Instructions code a size ∧ a < size ∧ min ≤ size ∧ size < max min 1 + 15 ∧
    ∀ b, Instructions code a b → a < b → min ≤ b → size ≤ b
  failed : size = 0 ↔ ∃ b, Instructions code a b ∧ (a < b → b < min) ∧
    (instructionAt code b).has F_ERROR = true

theorem meets_sizeFrom {fuel total : ℕ} (hfuel : min < total + fuel) (hn : min + 32 ≤ n)
    (htotal : total < min ∨ total = 0) :
    Meets (Inside n) (memory code) (SizeOf code min total) (sizeFrom min fuel total) := by
  induction fuel generalizing total with
  | zero => omega
  | succ fuel ih =>
    obtain ⟨hpos, h15⟩ := len_bounds code total
    rw [sizeFrom]
    refine Probe.Meets.bind (meets_hdeDisasm (by omega)) ?_
    rintro _ rfl
    cases hno : (instructionAt code total).has F_ERROR with
    | true =>
      rw [if_pos rfl, Probe.meets_pure]
      refine ⟨fun h => absurd rfl h, iff_of_true rfl ⟨total, .none _, ?_, hno⟩⟩
      exact fun h => absurd h (lt_irrefl _)
    | false =>
      rw [if_neg Bool.false_ne_true]
      -- an instruction that cannot be decoded is not the first
      have hlater : ∀ b, Instructions code total b → (instructionAt code b).has F_ERROR = true →
          total < b := by
        intro b hins herr
        refine hins.le.lt_of_ne ?_
        rintro rfl
        exact absurd (hno.symm.trans herr) Bool.false_ne_true
      split_ifs with hlt
      · -- there are more instructions
        refine (ih (by omega) (.inl hlt)).imp fun size hsize => ⟨fun hne => ?_, ?_⟩
        · obtain ⟨hins, hgt, hmin, hmax, hleast⟩ := hsize.found hne
          refine ⟨.more hno hins, by omega, hmin, hmax, fun b hb hab hminb => ?_⟩
          exact hleast b (hb.tail hab).2 (by omega) hminb
        · rw [hsize.failed]
          constructor
          · rintro ⟨b, hins, hb, herr⟩
            refine ⟨b, .more hno hins, fun _ => ?_, herr⟩
            rcases hins.le.lt_or_eq with h | rfl
            · exact hb h
            · exact hlt
          · rintro ⟨b, hins, hb, herr⟩
            have hlt' := hlater b hins herr
            exact ⟨b, (hins.tail hlt').2, fun _ => hb hlt', herr⟩
      · refine Probe.meets_pure.mpr ⟨fun _ => ?_, iff_of_false (by omega) ?_⟩
        · refine ⟨.more hno (.none _), by omega, by omega, by omega, fun b hb hab _ => ?_⟩
          exact (hb.tail hab).2.le
        · rintro ⟨b, hins, hb, herr⟩
          have hlt' := hlater b hins herr
          have := (hins.tail hlt').2.le
          have := hb hlt'
          omega

/-- **Whole instructions**: `quickInstructionSize` gives the first end of an instruction that is no
less than the minimum, and zero if an instruction before it cannot be decoded; it reads no more than
32 bytes behind the minimum. -/
theorem meets_quickInstructionSize (code : ℕ → UInt8) (min : ℕ) :
    Meets (Inside (min + 32)) (memory code) (SizeOf code min 0) (quickInstructionSize min) :=
  meets_sizeFrom (by omega) le_rfl (.inr rfl)

/-! ## Copies -/

/-- Bytes that agree up to the end of an instruction. -/
theorem instructionAt_congr (hno : (instructionAt code a).has F_ERROR = false)
    (h : ∀ i < a + (instructionAt code a).len.toNat, code' i = code i) :
    instructionAt code' a = instructionAt code a := by
  exact hde64_congr hno fun i hi => h (a + i) (Nat.add_lt_add_left hi a)

theorem run_sizeFrom (code : ℕ → UInt8) (min fuel total : ℕ) :
    (sizeFrom min (fuel + 1) total).run (memory code) =
      if (instructionAt code total).has F_ERROR then 0
      else if total + (instructionAt code total).len.toNat < min then
        (sizeFrom min fuel (total + (instructionAt code total).len.toNat)).run (memory code)
      else total + (instructionAt code total).len.toNat := by
  rw [sizeFrom, Probe.run_bind, run_hdeDisasm, Probe.run_ite, Probe.run_ite]
  rfl

theorem le_sizeFrom {fuel total : ℕ} (hne : (sizeFrom min fuel total).run (memory code) ≠ 0) :
    total ≤ (sizeFrom min fuel total).run (memory code) := by
  induction fuel generalizing total with
  | zero => exact absurd rfl hne
  | succ fuel ih =>
    rw [run_sizeFrom] at hne ⊢
    split_ifs at hne ⊢
    · exact absurd rfl hne
    · exact (Nat.le_add_right _ _).trans (ih hne)
    · exact Nat.le_add_right _ _

theorem run_sizeFrom_congr {fuel total : ℕ}
    (hne : (sizeFrom min fuel total).run (memory code) ≠ 0)
    (h : ∀ i < (sizeFrom min fuel total).run (memory code), code' i = code i) :
    (sizeFrom min fuel total).run (memory code') = (sizeFrom min fuel total).run (memory code) := by
  induction fuel generalizing total with
  | zero => rfl
  | succ fuel ih =>
    rw [run_sizeFrom] at hne h
    rw [run_sizeFrom, run_sizeFrom]
    cases hno : (instructionAt code total).has F_ERROR with
    | true =>
      rw [hno, if_pos rfl] at hne
      exact absurd rfl hne
    | false =>
      rw [hno, if_neg Bool.false_ne_true] at hne h
      by_cases hlt : total + (instructionAt code total).len.toNat < min
      · rw [if_pos hlt] at hne h
        -- the first instruction is the same, and then the others are
        have hfirst := instructionAt_congr hno fun i hi => h i (hi.trans_le (le_sizeFrom hne))
        rw [hfirst, hno, if_neg Bool.false_ne_true, if_neg Bool.false_ne_true, if_pos hlt, if_pos hlt]
        exact ih hne h
      · rw [if_neg hlt] at h
        rw [instructionAt_congr hno h, hno, if_neg Bool.false_ne_true, if_neg Bool.false_ne_true,
          if_neg hlt, if_neg hlt]

/-! ## The jumps of the patcher -/

/-- The state behind an opcode of one byte. -/
def plain (c : UInt8) : Vars where
  p := 1
  c := c
  x := if flagsAt 0 c &&& C_GROUP ≠ 0 then
    hde64Table.getD ((flagsAt 0 c &&& 0x7f).toNat + 1) 0 else 0
  cflags := groupFlags 0 (flagsAt 0 c)
  opcode := c
  pref := PRE_NONE
  hs := { opcode := c }

/-- An opcode that is none of those with a meaning of their own. -/
structure Plain (c : UInt8) : Prop where
  notPrefix : isPrefix c = false
  notRex : isRex c = false
  notLong : c ≠ 0x0f
  notMove : ¬ (0xa0 ≤ c ∧ c ≤ 0xa3)
  noError : flagsAt 0 c ≠ C_ERROR

theorem run_begin_plain {c : UInt8} (hc : Plain c) (h0 : code 0 = c) :
    begin.run (memory code) = plain c := by
  have hprefix : asPrefix { p := 1, c := c } = none := by
    cases hp : asPrefix { p := 1, c := c } with
    | none => rfl
    | some s' => exact absurd (asPrefix_some hp).1 (by rw [hc.notPrefix]; exact Bool.false_ne_true)
  have hfirst : (prefixes 16 {}).run (memory code) = { p := 1, c := c } := by
    have hnext : (next {}).run (memory code) = { p := 1, c := c } := by
      rw [← h0]
      rfl
    rw [prefixes, Probe.run_bind, hnext, hprefix]
    rfl
  have hdone : prefDone { p := 1, c := c } = { p := 1, c := c, pref := PRE_NONE } := by
    have hflags : BitVec.ofNat 32 (0 : UInt8).toNat <<< 23 = 0#32 := by decide
    rw [prefDone]
    dsimp only
    rw [hflags]
    rfl
  have hsecond : (secondByte { p := 1, c := c, pref := PRE_NONE }).run (memory code) =
      { p := 1, c := c, pref := PRE_NONE, hs := { opcode := c } } := by
    rw [secondByte]
    dsimp only
    rw [if_neg hc.notLong, if_neg hc.notMove]
    rfl
  have hlookup : (lookup 0 c).run (memory code) = flagsAt 0 c := (meets_lookup (n := 0) (.inl rfl)).2
  have hopcode : (opcodes { p := 1, c := c, pref := PRE_NONE }).run (memory code) =
      { p := 1, c := c, cflags := flagsAt 0 c, opcode := c, pref := PRE_NONE, hs := { opcode := c } } := by
    rw [opcodes]
    dsimp only
    rw [hc.notRex, if_neg Bool.false_ne_true, opcodeFlags, Probe.run_bind, hsecond, lookupFlags]
    dsimp only
    rw [Probe.run_bind, hlookup, if_neg hc.noError]
    rfl
  rw [begin, Probe.run_bind, hfirst, hdone, Probe.run_bind, hopcode, Probe.run_bind, group]
  dsimp only
  rw [plain, groupFlags]
  by_cases hgroup : flagsAt 0 c &&& C_GROUP ≠ 0
  · rw [if_pos hgroup, if_pos hgroup, if_pos hgroup]
    simp only [Probe.run_bind, Probe.run_byte, Probe.run_pure, Nat.zero_add, prefixCheck]
    rfl
  · rw [if_neg hgroup, if_neg hgroup, if_neg hgroup]
    rfl

theorem plain_relative : Plain 0xe9 :=
  ⟨by decide, by decide, by decide, by decide, by decide +kernel⟩

theorem plain_indirect : Plain 0xff :=
  ⟨by decide, by decide, by decide, by decide, by decide +kernel⟩

/-- A relative jump. -/
theorem decode_relative (h0 : code 0 = 0xe9) :
    decode.run (memory code) = withImm code (plain 0xe9) (F_IMM32 ||| F_RELATIVE, 4) := by
  have hmodrm : (modrm (plain 0xe9)).run (memory code) = plain 0xe9 := by
    have hno : ¬ (plain 0xe9).cflags &&& C_MODRM ≠ 0 := by decide +kernel
    rw [modrm, if_neg hno]
    rfl
  have hkinds : immKinds (plain 0xe9).cflags ((plain 0xe9).op64 ≠ 0)
      ((plain 0xe9).pref &&& PRE_66 ≠ 0) = [(F_IMM32 ||| F_RELATIVE, 4)] := by
    decide +kernel
  rw [decode, Probe.run_bind, Probe.run_bind, run_begin_plain plain_relative h0, hmodrm,
    run_immediates, hkinds]
  rfl

/-- The state behind the ModRM byte of an indirect jump. -/
def indirect : Vars :=
  { plain 0xff with
    p := 2
    c := 0x25
    m_rm := 5
    m_reg := 4
    hs := { opcode := 0xff, modrm := 0x25, modrm_rm := 5, modrm_reg := 4, flags := F_MODRM } }

theorem run_checks_indirect : (checks indirect).run (memory code) = indirect := by
  have hlock : (lockCheck indirect).run (memory code) = indirect := by
    have hno : ¬ indirect.pref &&& PRE_LOCK ≠ 0 := by decide +kernel
    rw [lockCheck, if_neg hno]
    rfl
  have hfpu : (fpuCheck indirect).run (memory code) = indirect := by
    have hno : ¬ (indirect.hs.opcode2 = 0 ∧ 0xd9 ≤ indirect.opcode ∧ indirect.opcode ≤ 0xdf) := by
      decide +kernel
    rw [fpuCheck, if_neg hno]
    rfl
  have hsame : operandError indirect (memoryOperand indirect) = indirect := by decide +kernel
  rw [checks, Probe.run_bind, hfpu, Probe.run_bind, hlock, operandCheck, if_neg (by decide +kernel),
    if_neg (by decide +kernel), if_neg (by decide +kernel), if_neg (by decide +kernel),
    if_neg (by decide +kernel), hsame]
  rfl

/-- An indirect jump. -/
theorem decode_indirect (h0 : code 0 = 0xff) (h1 : code 1 = 0x25) : ∃ c,
    decode.run (memory code) = withDisp code { indirect with c, disp_size := 4 } := by
  have hbyte : (modrmByte (plain 0xff)).run (memory code) = indirect := by
    have hnext : (next ((plain 0xff).flag F_MODRM)).run (memory code) =
        { (plain 0xff).flag F_MODRM with c := 0x25, p := 2 } := by
      rw [← h1]
      rfl
    rw [modrmByte, Probe.run_bind, hnext]
    dsimp only
    rw [Probe.run_pure]
    decide +kernel
  have hmodrm : (plain 0xff).cflags &&& C_MODRM ≠ 0 := by decide +kernel
  have hbehind (c : UInt8) : behindModrm indirect c = { indirect with c := c, disp_size := 4 } := by
    have hzero : behindModrm indirect 0 = { indirect with c := 0, disp_size := 4 } := by
      decide +kernel
    rw [behindModrm_congr (by decide +kernel) 0 c, hzero]
  have hkinds (c : UInt8) : immKinds (withDisp code { indirect with c, disp_size := 4 }).cflags
      ((withDisp code { indirect with c, disp_size := 4 }).op64 ≠ 0)
      ((withDisp code { indirect with c, disp_size := 4 }).pref &&& PRE_66 ≠ 0) = [] := by
    show immKinds indirect.cflags (indirect.op64 ≠ 0) (indirect.pref &&& PRE_66 ≠ 0) = []
    decide +kernel
  refine ⟨code indirect.p, ?_⟩
  rw [decode, Probe.run_bind, Probe.run_bind, run_begin_plain plain_indirect h0, run_modrm _ hmodrm,
    hbyte, run_checks_indirect, run_addressing rfl, run_immediates, hbehind, hkinds]
  rfl

/-! ## The disassembler of the patcher -/

/-- The bytes from an address on. -/
def codeAt (m : Patcher.Mem) (a : Patcher.Addr) (i : ℕ) : UInt8 :=
  m (a + BitVec.ofNat 64 i)

/-- The length of the instruction at an address. -/
def lenAt (m : Patcher.Mem) (a : Patcher.Addr) : Option ℕ :=
  let hs := hde64Disasm.run (memory (codeAt m a))
  if hs.has F_ERROR then none else some hs.len.toNat

theorem lenAt_eq_some {m : Patcher.Mem} {a : Patcher.Addr} {n : ℕ} : lenAt m a = some n ↔
    (hde64Disasm.run (memory (codeAt m a))).has F_ERROR = false ∧
      (hde64Disasm.run (memory (codeAt m a))).len.toNat = n := by
  rw [lenAt]
  split_ifs with h
  · simp only [h, Bool.true_eq_false, false_and]
  · rw [Option.some.injEq, Bool.not_eq_true] at *
    exact (and_iff_right h).symm

theorem lenAt_of_decode {m : Patcher.Mem} {a : Patcher.Addr} {s : Vars} {n : ℕ}
    (h : decode.run (memory (codeAt m a)) = s) (hp : s.p = n) (h15 : n ≤ 15)
    (hno : s.hs.has F_ERROR = false) : lenAt m a = some n := by
  subst hp
  rw [lenAt_eq_some, run_hde64, h, disasmDone_eq (by omega), if_pos h15]
  refine ⟨hno, ?_⟩
  dsimp only
  rw [UInt8.toNat_ofNat']
  omega

/-- The disassembler, as the patcher knows it. -/
def hde : Patcher.Decoder where
  len := lenAt
  pos := by
    intro m a n h
    rw [← (lenAt_eq_some.mp h).2]
    exact (hde64_safe (codeAt m a)).2.1
  le_fifteen := by
    intro m a n h
    rw [← (lenAt_eq_some.mp h).2]
    exact (hde64_safe (codeAt m a)).2.2
  len_indirect := by
    intro m a h0 h1
    have hlen : codeAt m a 0 = 0xff ∧ codeAt m a 1 = 0x25 := ⟨by rw [codeAt, BitVec.add_zero, h0], h1⟩
    obtain ⟨c, hc⟩ := decode_indirect hlen.1 hlen.2
    have hflags : (indirect.hs.flags ||| dispFlag 4) &&& F_ERROR = 0#32 := by decide +kernel
    exact lenAt_of_decode hc (n := 6) rfl (by decide) (bne_eq_false_iff_eq.mpr hflags)
  len_relative := by
    intro m a h0
    have h : codeAt m a 0 = 0xe9 := by rw [codeAt, BitVec.add_zero, h0]
    have hflags : ((plain 0xe9).hs.flags ||| (F_IMM32 ||| F_RELATIVE)) &&& F_ERROR = 0#32 := by
      decide +kernel
    exact lenAt_of_decode (decode_relative h) (n := 5) rfl (by decide)
      (bne_eq_false_iff_eq.mpr hflags)

theorem codeAt_add (m : Patcher.Mem) (addr : Patcher.Addr) (total : ℕ) :
    codeAt m (addr + BitVec.ofNat 64 total) = fun i => codeAt m addr (total + i) := by
  funext i
  rw [codeAt, codeAt, BitVec.add_assoc, ← BitVec.ofNat_add]

/-- **The patcher's loop is the disassembler's**, on the bytes from an address on. -/
theorem quickInstructionSize_eq (m : Patcher.Mem) (addr : Patcher.Addr) (min : ℕ) :
    Patcher.quickInstructionSize hde m addr min =
      (quickInstructionSize min).run (memory (codeAt m addr)) := by
  have hfrom (fuel total : ℕ) :
      Patcher.instructionsFrom hde m min fuel (addr + BitVec.ofNat 64 total) total =
        (sizeFrom min fuel total).run (memory (codeAt m addr)) := by
    induction fuel generalizing total with
    | zero => rfl
    | succ fuel ih =>
      have hinst : hde64Disasm.run (memory (codeAt m (addr + BitVec.ofNat 64 total))) =
          instructionAt (codeAt m addr) total := by
        rw [instructionAt, codeAt_add]
      have hlen : hde.len m (addr + BitVec.ofNat 64 total) =
          if (instructionAt (codeAt m addr) total).has F_ERROR then none
          else some (instructionAt (codeAt m addr) total).len.toNat := by
        rw [← hinst]
        rfl
      rw [Patcher.instructionsFrom, hlen, run_sizeFrom]
      cases (instructionAt (codeAt m addr) total).has F_ERROR with
      | true => rfl
      | false =>
        simp only [Bool.false_eq_true, if_false]
        rw [BitVec.add_assoc, ← BitVec.ofNat_add, ih]
  have hzero := hfrom (min + 1) 0
  rw [BitVec.add_zero] at hzero
  exact hzero

end Lilu.Disasm
