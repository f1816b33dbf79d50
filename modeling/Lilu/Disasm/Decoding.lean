import Lilu.Disasm.Hde64

/-!
# What a decoded instruction is made of
-/

namespace Lilu.Disasm

open Probe (byte Within Meets)

/-! ## Flags -/

/-- Whether a flag is set. -/
def Hde64s.has (hs : Hde64s) (F : BitVec 32) : Bool :=
  hs.flags &&& F != 0#32

/-- There is an error. -/
def Vars.Errs (s : Vars) : Prop :=
  s.hs.has F_ERROR = true

section Flags

variable {s : Vars} {F G : BitVec 32} {c : Prop} [Decidable c]

theorem has_flag : (s.flag G).hs.has F = (s.hs.has F || (G &&& F != 0#32)) := by
  rw [Bool.eq_iff_iff, Bool.or_eq_true, Hde64s.has, Hde64s.has, bne_iff_ne, bne_iff_ne, bne_iff_ne]
  show (s.hs.flags ||| G) &&& F ≠ 0#32 ↔ _
  rw [BitVec.and_or_distrib_right, ne_eq, BitVec.or_eq_zero_iff, not_and_or]

end Flags

/-! ## Reading -/

/-- Places in the table, and in the first `n` bytes of the code. -/
def Inside (n : ℕ) : Set Place :=
  {x | (∃ i < n, x = .code i) ∨ ∃ i < hde64Table.length, x = .table i}

variable {code : ℕ → UInt8} {n n' : ℕ} {s : Vars}

theorem inside_mono (h : n ≤ n') : Inside n ⊆ Inside n' := by
  rintro x (⟨i, hi, rfl⟩ | hx)
  · exact .inl ⟨i, by omega, rfl⟩
  · exact .inr hx

theorem code_mem {i : ℕ} (h : i < n) : Place.code i ∈ Inside n :=
  .inl ⟨i, h, rfl⟩

theorem table_mem {i : ℕ} (h : i < hde64Table.length) : Place.table i ∈ Inside n :=
  .inr ⟨i, h, rfl⟩

theorem meets_next (code : ℕ → UInt8) (h : s.p < n) : Meets (Inside n) (memory code)
    (fun s' => s' = { s with c := code s.p, p := s.p + 1 }) (next s) := by
  rw [next, Probe.meets_bind, Probe.within_byte, Probe.meets_pure]
  exact ⟨code_mem h, rfl⟩

/-! ## Prefixes -/

/-- Whether a byte is a legacy prefix. -/
def isPrefix (c : UInt8) : Bool :=
  c = 0xf3 ∨ c = 0xf2 ∨ c = 0xf0 ∨ c ∈ [0x26, 0x2e, 0x36, 0x3e, 0x64, 0x65] ∨ c = 0x66 ∨ c = 0x67

/-- What no prefix changes. -/
structure Fresh (s : Vars) : Prop where
  ht : s.ht = 0
  disp_size : s.disp_size = 0
  op64 : s.op64 = 0
  flags : s.hs.flags = 0
  opcode2 : s.hs.opcode2 = 0
  imm : s.hs.imm.length = 8
  disp : s.hs.disp.length = 4

theorem asPrefix_some {s' : Vars} (h : asPrefix s = some s') :
    isPrefix s.c = true ∧ s'.p = s.p ∧ s'.c = s.c ∧
      (s.pref &&& 0x80 = 0 → s'.pref &&& 0x80 = 0) ∧ (Fresh s → Fresh s') := by
  have hbit (q : UInt8) (hq : q &&& 0x80 = 0) (h : s.pref &&& 0x80 = 0) :
      (s.pref ||| q) &&& 0x80 = 0 := by
    rw [← UInt8.toBitVec_inj] at *
    simp only [UInt8.toBitVec_and, UInt8.toBitVec_or] at *
    rw [BitVec.and_or_distrib_right, h, hq]
    rfl
  rw [asPrefix] at h
  split_ifs at h with h₁ h₂ h₃ h₄ h₅ h₆
  all_goals
    cases h
    refine ⟨?_, rfl, rfl, hbit _ (by decide), fun hs => ⟨hs.1, hs.2, hs.3, hs.4, hs.5, hs.6, hs.7⟩⟩
  all_goals simp only [isPrefix, *, true_or, or_true, decide_true]

theorem isPrefix_of_none (h : asPrefix s = none) : isPrefix s.c = false := by
  rw [asPrefix] at h
  split_ifs at h with h₁ h₂ h₃ h₄ h₅ h₆
  simp only [isPrefix, h₁, h₂, h₃, h₄, h₅, h₆, or_self, decide_false]

/-- The prefixes were read, and one byte more. -/
structure Prefixed (code : ℕ → UInt8) (s : Vars) : Prop where
  pos : 0 < s.p
  c_eq : s.c = code (s.p - 1)
  before : ∀ i < s.p - 1, isPrefix (code i) = true
  pref : s.pref &&& 0x80 = 0
  last : isPrefix s.c = true → 16 ≤ s.p
  fresh : Fresh s

/-- **The prefixes.** -/
theorem meets_prefixes {x : ℕ} (hx : 0 < x) (hbefore : ∀ i < s.p, isPrefix (code i) = true)
    (hpref : s.pref &&& 0x80 = 0) (hs : Fresh s) (h : s.p + x = 16) (hn : 16 ≤ n) :
    Meets (Inside n) (memory code) (fun s' => Prefixed code s' ∧ s'.p ≤ 16) (prefixes x s) := by
  induction x generalizing s with
  | zero => exact absurd hx (lt_irrefl 0)
  | succ x ih =>
    rw [prefixes]
    refine (meets_next code (by omega)).bind fun s' hs' => ?_
    subst hs'
    cases hprefix : asPrefix { s with c := code s.p, p := s.p + 1 } with
    | none =>
      have hlast : isPrefix (code s.p) = false := isPrefix_of_none hprefix
      refine Probe.meets_pure.mpr ⟨⟨Nat.succ_pos _, rfl, hbefore, hpref, ?_, ?_⟩, ?_⟩
      · rw [hlast]
        exact fun h => absurd h Bool.false_ne_true
      · exact ⟨hs.1, hs.2, hs.3, hs.4, hs.5, hs.6, hs.7⟩
      · exact (show s.p + 1 ≤ 16 by omega)
    | some s' =>
      obtain ⟨hc, hp, hc', hpref', hfresh⟩ := asPrefix_some hprefix
      replace hp : s'.p = s.p + 1 := hp
      have hfresh' := hfresh ⟨hs.1, hs.2, hs.3, hs.4, hs.5, hs.6, hs.7⟩
      cases x with
      | zero =>
        -- that was the last one
        refine Probe.meets_pure.mpr
          ⟨⟨by omega, ?_, ?_, hpref' hpref, fun _ => by omega, hfresh'⟩, by omega⟩
        · rw [hc', hp]
          rfl
        · rw [hp]
          exact hbefore
      | succ x =>
        have hbefore' : ∀ i < s'.p, isPrefix (code i) = true := by
          intro i hi
          rcases Nat.lt_succ_iff_lt_or_eq.mp (hp ▸ hi) with hlt | rfl
          · exact hbefore i hlt
          · exact hc
        exact ih (Nat.succ_pos x) hbefore' (hpref' hpref) hfresh' (by omega)

/-! ## What was read -/

/-- The bytes of the code from `a` up to `b`. -/
def part (code : ℕ → UInt8) (a b : ℕ) : List UInt8 :=
  (List.range (b - a)).map fun k => code (a + k)

theorem part_append {a b c : ℕ} (hab : a ≤ b) (hbc : b ≤ c) :
    part code a b ++ part code b c = part code a c := by
  obtain ⟨i, rfl⟩ := Nat.exists_eq_add_of_le hab
  obtain ⟨j, rfl⟩ := Nat.exists_eq_add_of_le hbc
  rw [part, part, part, Nat.add_sub_cancel_left, Nat.add_sub_cancel_left, Nat.add_assoc,
    Nat.add_sub_cancel_left, List.range_add, List.map_append, List.map_map]
  refine congrArg _ (List.map_congr_left fun k _ => ?_)
  rw [Function.comp_apply, Nat.add_assoc]

theorem part_self (a : ℕ) : part code a a = [] := by
  rw [part, Nat.sub_self]
  rfl

theorem part_succ (a : ℕ) : part code a (a + 1) = [code a] := by
  rw [part, Nat.add_sub_cancel_left]
  rfl

namespace Hde64s

/-- The REX prefix. -/
def rexByte (hs : Hde64s) : UInt8 :=
  (0x40 : UInt8) ||| hs.rex_w <<< 3 ||| hs.rex_r <<< 2 ||| hs.rex_x <<< 1 ||| hs.rex_b

/-- The REX prefix and the opcode. -/
def head (hs : Hde64s) : List UInt8 :=
  (if hs.has F_PREFIX_REX then [hs.rexByte] else []) ++
    (if hs.opcode = 0x0f then [hs.opcode, hs.opcode2] else [hs.opcode])

/-- The SIB byte and the displacement. -/
def operand (hs : Hde64s) : List UInt8 :=
  (if hs.has F_SIB then [hs.sib] else []) ++
    (if hs.has F_DISP8 then hs.disp.take 1
      else if hs.has F_DISP16 then hs.disp.take 2
      else if hs.has F_DISP32 then hs.disp.take 4 else [])

/-- The ModRM byte and what it brings with it. -/
def address (hs : Hde64s) : List UInt8 :=
  if hs.has F_MODRM then hs.modrm :: hs.operand else []

/-- How many bytes the immediate operands have. -/
def immSize (hs : Hde64s) : ℕ :=
  (if hs.has F_IMM64 then 8 else 0) + (if hs.has F_IMM32 then 4 else 0) +
    (if hs.has F_IMM16 then 2 else 0) + if hs.has F_IMM8 then 1 else 0

end Hde64s

theorem forall_byte {P : UInt8 → Prop} (h : ∀ i : Fin 256, P (UInt8.ofNat i)) (c : UInt8) : P c := by
  have := h ⟨c.toNat, c.toNat_lt⟩
  rwa [UInt8.ofNat_toNat] at this

/-! ## The REX prefix -/

/-- What a REX prefix says. -/
def withRex (c : UInt8) (hs : Hde64s) : Hde64s :=
  { hs with
    flags := hs.flags ||| F_PREFIX_REX
    rex_w := (c &&& 0xf) >>> 3
    rex_r := (c &&& 7) >>> 2
    rex_x := (c &&& 3) >>> 1
    rex_b := c &&& 1 }

theorem rexByte_withRex {c : UInt8} (hc : isRex c = true) (hs : Hde64s) :
    (withRex c hs).rexByte = c := by
  have hbyte : ∀ c : UInt8, isRex c = true → (0x40 : UInt8) ||| ((c &&& 0xf) >>> 3) <<< 3 |||
      ((c &&& 7) >>> 2) <<< 2 ||| ((c &&& 3) >>> 1) <<< 1 ||| (c &&& 1) = c :=
    forall_byte (by decide +kernel)
  exact hbyte c hc

theorem has_withRex {c : UInt8} {hs : Hde64s} : (withRex c hs).has F_PREFIX_REX = true := by
  rw [withRex, Hde64s.has]
  dsimp only
  rw [BitVec.and_or_distrib_right, BitVec.and_self, bne_iff_ne, ne_eq, BitVec.or_eq_zero_iff]
  exact fun h => absurd h.2 (by decide)

theorem meets_wideMove (h : s.p < n) : Meets (Inside n) (memory code)
    (fun s' => ∃ op64, s' = { s with op64 := op64 }) (wideMove s) := by
  rw [wideMove]
  split_ifs
  · rw [Probe.meets_bind, Probe.within_byte, Probe.meets_pure]
    refine ⟨code_mem h, ?_⟩
    split_ifs
    · exact ⟨_, rfl⟩
    · exact ⟨s.op64, rfl⟩
  · exact Probe.meets_pure.mpr ⟨s.op64, rfl⟩

theorem meets_rexPrefix (h : s.p < n) : Meets (Inside n) (memory code)
    (fun s' => ∃ op64, s' = { s with
      c := code s.p, p := s.p + 1, op64 := op64, hs := withRex s.c s.hs }) (rexPrefix s) := by
  rw [rexPrefix]
  dsimp only
  refine Probe.Meets.bind (meets_wideMove (n := n) h) ?_
  rintro _ ⟨op64, rfl⟩
  refine Probe.Meets.imp (meets_next code ?_) ?_
  · exact h
  · rintro s' rfl
    exact ⟨op64, rfl⟩

/-! ## The table -/

/-- The byte of the table for an opcode. -/
def flagsAt (ht : ℕ) (opcode : UInt8) : UInt8 :=
  let row := hde64Table.getD (ht + opcode.toNat / 4) 0
  hde64Table.getD (ht + (row.toNat + opcode.toNat % 4)) 0

/-- What may stand in the table's flags, but for groups. -/
def knownFlags : List UInt8 :=
  [0, C_MODRM, C_IMM8, C_MODRM ||| C_IMM8, C_IMM16, C_IMM16 ||| C_IMM8, C_IMM_P66,
    C_IMM_P66 ||| C_MODRM, C_REL8, C_IMM_P66 ||| C_REL32]

theorem length_table : hde64Table.length = 529 := by
  decide +kernel

/-- Where the rows for the prefixes of opcodes begin. -/
theorem row_prefixes : ∀ r < 64, (hde64Table.getD (DELTA_PREFIXES + r) 0).toNat ≤ 0x6e := by
  decide +kernel

theorem meets_lookup {ht : ℕ} {opcode : UInt8}
    (h : ht = 0 ∨ ht = DELTA_OPCODES ∨ ht = DELTA_PREFIXES) :
    Meets (Inside n) (memory code) (fun c => c = flagsAt ht opcode) (lookup ht opcode) := by
  have hop := opcode.toNat_lt
  have hrow := (hde64Table.getD (ht + opcode.toNat / 4) 0).toNat_lt
  have hlen := length_table
  rw [lookup, Probe.meets_bind, Probe.within_byte, Probe.run_byte]
  refine ⟨table_mem ?_, Probe.within_byte.mpr (table_mem ?_), rfl⟩
  · rcases h with rfl | rfl | rfl
    · omega
    · rw [DELTA_OPCODES]
      omega
    · rw [DELTA_PREFIXES]
      omega
  · show ht + ((hde64Table.getD (ht + opcode.toNat / 4) 0).toNat + _) < _
    rcases h with rfl | rfl | rfl
    · omega
    · rw [DELTA_OPCODES] at *
      omega
    · have := row_prefixes (opcode.toNat / 4) (by omega)
      rw [DELTA_PREFIXES] at *
      omega

/-- **The table's flags**: an error, known flags, or a group with known flags. -/
theorem flagsAt_known (two : Bool) (opcode : UInt8) :
    let ht := if two then DELTA_OPCODES else 0
    let c := flagsAt ht opcode
    c = C_ERROR ∨
      (if c &&& C_GROUP ≠ 0 then hde64Table.getD (ht + (c &&& 0x7f).toNat) 0 else c) ∈ knownFlags ∧
      (opcode = 0xf6 ∨ opcode = 0xf7 →
        (if c &&& C_GROUP ≠ 0 then hde64Table.getD (ht + (c &&& 0x7f).toNat) 0 else c) ≤ C_MODRM) := by
  revert opcode
  cases two with
  | false => exact forall_byte (by decide +kernel)
  | true => exact forall_byte (by decide +kernel)

/-! ## The opcode -/

/-- The flags for what follows the opcode. -/
def laterFlags : BitVec 32 := 0x3ff

/-- What holds after the opcode, whether it is known or not. -/
structure Begun (s : Vars) : Prop where
  pos : 0 < s.p
  le : s.p ≤ 18
  ht : s.ht = 0 ∨ s.ht = DELTA_OPCODES
  disp_size : s.disp_size = 0
  low : s.hs.flags &&& laterFlags = 0#32
  imm : s.hs.imm.length = 8
  disp : s.hs.disp.length = 4

/-- From the first byte that is no legacy prefix on, the bytes so far are those of a list. -/
structure Spelled (code : ℕ → UInt8) (p : ℕ) (bs : List UInt8) (n : ℕ) : Prop where
  before : ∀ i < n, isPrefix (code i) = true
  last : isPrefix (code n) = true → 15 ≤ n
  lt : n < p
  part_eq : part code n p = bs

theorem Spelled.append {p q : ℕ} {bs : List UInt8} (h : Spelled code p bs n) (hq : p ≤ q) :
    Spelled code q (bs ++ part code p q) n :=
  ⟨h.before, h.last, h.lt.trans_le hq, by rw [← h.part_eq, part_append h.lt.le hq]⟩

/-- The flags of an opcode, or those of its group. -/
def groupFlags (ht : ℕ) (c : UInt8) : UInt8 :=
  if c &&& C_GROUP ≠ 0 then hde64Table.getD (ht + (c &&& 0x7f).toNat) 0 else c

/-- The flags are known, and those of the opcodes that may get more are few. -/
def Known (opcode cflags : UInt8) : Prop :=
  cflags ∈ knownFlags ∧ (opcode = 0xf6 ∨ opcode = 0xf7 → cflags ≤ C_MODRM)

/-- The opcode was read. -/
structure Headed (code : ℕ → UInt8) (s : Vars) : Prop extends Begun s where
  head : ¬ s.Errs → ∃ n, Spelled code s.p s.hs.head n

/-- The opcode was looked up. -/
structure Coded (code : ℕ → UInt8) (s : Vars) : Prop extends Headed code s where
  known : Known s.opcode (groupFlags s.ht s.cflags)

theorem errs_flag {F : BitVec 32} (h : F &&& F_ERROR ≠ 0#32) : (s.flag F).Errs := by
  rw [Vars.Errs, has_flag, Bool.or_eq_true, bne_iff_ne]
  exact .inr h

theorem low_or {hs F : BitVec 32} (h : hs &&& laterFlags = 0#32) (hF : F &&& laterFlags = 0#32) :
    (hs ||| F) &&& laterFlags = 0#32 := by
  rw [BitVec.and_or_distrib_right, h, hF]
  rfl

/-- The flags of no opcode. -/
theorem known_plain {opcode c : UInt8} (h : c = 0 ∨ c = 1) (ht : ℕ) :
    Known opcode (groupFlags ht c) := by
  rcases h with rfl | rfl
  · rw [groupFlags, if_neg (by decide)]
    exact ⟨by decide, fun _ => by decide⟩
  · rw [groupFlags, if_neg (by decide)]
    exact ⟨by decide, fun _ => by decide⟩

theorem coded_errorOpcode (h : Begun s) : Coded code (errorOpcode s) := by
  have herr : (errorOpcode s).Errs := errs_flag (s := s) (by decide)
  have hcflags : (errorOpcode s).cflags = 0 ∨ (errorOpcode s).cflags = 1 := by
    rw [errorOpcode]
    dsimp only
    split_ifs
    · exact .inr rfl
    · exact .inl rfl
  exact
    { pos := h.pos
      le := h.le
      ht := h.ht
      disp_size := h.disp_size
      low := low_or h.low (by decide)
      imm := h.imm
      disp := h.disp
      head := fun hno => absurd herr hno
      known := known_plain hcflags _ }

theorem known_flagsAt {ht : ℕ} {opcode : UInt8} (h : ht = 0 ∨ ht = DELTA_OPCODES)
    (hne : flagsAt ht opcode ≠ C_ERROR) : Known opcode (groupFlags ht (flagsAt ht opcode)) := by
  rcases h with rfl | rfl
  · exact (flagsAt_known false opcode).resolve_left hne
  · exact (flagsAt_known true opcode).resolve_left hne

theorem meets_lookupFlags (h : Headed code s) :
    Meets (Inside n) (memory code) (Coded code) (lookupFlags s) := by
  have hht : s.ht = 0 ∨ s.ht = DELTA_OPCODES ∨ s.ht = DELTA_PREFIXES := by
    rcases h.ht with h | h
    · exact .inl h
    · exact .inr (.inl h)
  refine Probe.Meets.bind (meets_lookup hht) ?_
  rintro _ rfl
  rw [Probe.meets_pure]
  split_ifs with hc
  · exact coded_errorOpcode h.toBegun
  · exact
      { pos := h.pos
        le := h.le
        ht := h.ht
        disp_size := h.disp_size
        low := h.low
        imm := h.imm
        disp := h.disp
        head := h.head
        known := known_flagsAt h.ht hc }

/-- The prefixes were read, and the opcode's first byte. -/
structure Started (code : ℕ → UInt8) (s : Vars) : Prop where
  pos : 0 < s.p
  le : s.p ≤ 17
  ht : s.ht = 0
  disp_size : s.disp_size = 0
  low : s.hs.flags &&& laterFlags = 0#32
  imm : s.hs.imm.length = 8
  disp : s.hs.disp.length = 4
  opcode2 : s.hs.opcode2 = 0
  head : ∃ n, Spelled code s.p ((if s.hs.has F_PREFIX_REX then [s.hs.rexByte] else []) ++ [s.c]) n

theorem Started.begun (h : Started code s) : Begun s :=
  ⟨h.pos, h.le.trans (by omega), .inl h.ht, h.disp_size, h.low, h.imm, h.disp⟩

theorem Started.headed {op64 : ℕ} {pref : UInt8} (h : Started code s) (hc : s.c ≠ 0x0f) :
    Headed code { s with op64, pref, hs := { s.hs with opcode := s.c } } := by
  obtain ⟨k, hk⟩ := h.head
  refine ⟨⟨h.pos, h.le.trans (by omega), .inl h.ht, h.disp_size, h.low, h.imm, h.disp⟩,
    fun _ => ⟨k, ?_⟩⟩
  rw [Hde64s.head]
  dsimp only
  rw [if_neg hc]
  exact hk

theorem meets_secondByte (h : Started code s) (hn : 18 ≤ n) :
    Meets (Inside n) (memory code) (Headed code) (secondByte s) := by
  obtain ⟨k, hk⟩ := h.head
  have hp := h.le
  rw [secondByte]
  dsimp only
  split_ifs with hc
  · -- an opcode of two bytes
    refine Probe.Meets.bind (meets_next code (by show s.p < n; omega)) ?_
    rintro _ rfl
    rw [Probe.meets_pure]
    refine ⟨⟨Nat.succ_pos _, by show s.p + 1 ≤ 18; omega, .inr ?_, h.disp_size, h.low, h.imm,
      h.disp⟩, fun _ => ⟨k, ?_⟩⟩
    · show s.ht + DELTA_OPCODES = _
      rw [h.ht, zero_add]
    · have happ := hk.append (Nat.le_succ s.p)
      rw [part_succ, List.append_assoc, hc] at happ
      rw [Hde64s.head]
      dsimp only
      rw [hc]
      exact happ
  all_goals exact Probe.meets_pure.mpr (h.headed hc)

theorem meets_opcodeFlags (h : Started code s) (hn : 18 ≤ n) :
    Meets (Inside n) (memory code) (Coded code) (opcodeFlags s) := by
  refine Probe.Meets.bind (meets_secondByte h hn) fun s' hs' => ?_
  exact meets_lookupFlags ⟨⟨hs'.pos, hs'.le, hs'.ht, hs'.disp_size, hs'.low, hs'.imm, hs'.disp⟩,
    hs'.head⟩

/-- The flags of the prefixes are none of the others. -/
theorem flags_prefDone (q : UInt8) : (BitVec.ofNat 32 q.toNat <<< 23) &&& laterFlags = 0#32 ∧
    (BitVec.ofNat 32 q.toNat <<< 23) &&& F_ERROR = 0#32 ∧
    (q &&& 0x80 = 0 → (BitVec.ofNat 32 q.toNat <<< 23) &&& F_PREFIX_REX = 0#32) := by
  revert q
  exact forall_byte (by decide +kernel)

theorem low_prefDone (s : Vars) : (prefDone s).hs.flags &&& laterFlags = 0#32 := by
  rw [prefDone]
  exact (flags_prefDone s.pref).1

theorem rex_prefDone (h : s.pref &&& 0x80 = 0) : (prefDone s).hs.has F_PREFIX_REX = false := by
  rw [prefDone, Hde64s.has, bne_eq_false_iff_eq]
  exact (flags_prefDone s.pref).2.2 h

theorem Prefixed.spelled (h : Prefixed code s) : Spelled code s.p [s.c] (s.p - 1) := by
  have hpos := h.pos
  refine ⟨h.before, fun hlast => ?_, by omega, ?_⟩
  · rw [← h.c_eq] at hlast
    have := h.last hlast
    omega
  · rw [h.c_eq, ← part_succ, Nat.sub_add_cancel hpos]

theorem Prefixed.started (h : Prefixed code s) (hp : s.p ≤ 16) : Started code (prefDone s) := by
  have hlow := low_prefDone s
  have hrex := rex_prefDone h.pref
  rw [prefDone] at hlow hrex ⊢
  have hspelled : ∃ n, Spelled code s.p ([] ++ [s.c]) n := ⟨s.p - 1, h.spelled⟩
  refine ⟨h.pos, hp.trans (by omega), h.fresh.ht, h.fresh.disp_size, hlow, ?_, ?_, ?_, ?_⟩
  · exact h.fresh.imm
  · exact h.fresh.disp
  · exact h.fresh.opcode2
  · rw [hrex, if_neg Bool.false_ne_true]
    exact hspelled

theorem Started.rex (h : Started code s) (hp : s.p ≤ 16) (hno : s.hs.has F_PREFIX_REX = false)
    (hrex : isRex s.c = true) (op64 : ℕ) :
    Started code { s with c := code s.p, p := s.p + 1, op64 := op64, hs := withRex s.c s.hs } := by
  obtain ⟨k, hk⟩ := h.head
  rw [hno, if_neg Bool.false_ne_true, List.nil_append] at hk
  have happ := hk.append (Nat.le_succ s.p)
  rw [part_succ] at happ
  refine ⟨Nat.succ_pos _, Nat.succ_le_succ hp, h.ht, h.disp_size, low_or h.low (by decide), h.imm,
    h.disp, h.opcode2, k, ?_⟩
  rw [if_pos has_withRex, rexByte_withRex hrex]
  exact happ

/-- **The opcode**, with or without a REX prefix. -/
theorem meets_opcodes (h : Prefixed code s) (hp : s.p ≤ 16) (hn : 18 ≤ n) :
    Meets (Inside n) (memory code) (Coded code) (opcodes (prefDone s)) := by
  have hstarted := h.started hp
  have hno := rex_prefDone h.pref
  replace hp : (prefDone s).p ≤ 16 := by
    rw [prefDone]
    exact hp
  generalize prefDone s = s at *
  rw [opcodes]
  split_ifs with hrex
  · refine Probe.Meets.bind (meets_rexPrefix (show s.p < n by omega)) ?_
    rintro _ ⟨op64, rfl⟩
    have hnext := hstarted.rex hp hno hrex op64
    split_ifs
    · -- a second one
      refine Probe.meets_pure.mpr (coded_errorOpcode ?_)
      exact ⟨hnext.pos, hnext.begun.le, .inl hnext.ht, hnext.disp_size, hnext.low, hnext.imm,
        hnext.disp⟩
    · exact meets_opcodeFlags hnext hn
  · exact meets_opcodeFlags hstarted hn

/-! ## Groups and the prefixes of opcodes -/

/-- The opcode was read, and it is known what follows it. -/
structure Grouped (code : ℕ → UInt8) (s : Vars) : Prop where
  pos : 0 < s.p
  le : s.p ≤ 18
  disp_size : s.disp_size = 0
  low : s.hs.flags &&& laterFlags = 0#32
  imm : s.hs.imm.length = 8
  disp : s.hs.disp.length = 4
  head : ¬ s.Errs → ∃ n, Spelled code s.p s.hs.head n
  known : Known s.opcode s.cflags

theorem meets_group (h : Coded code s) : Meets (Inside n) (memory code) (Grouped code) (group s) := by
  have hknown := h.known
  have hc : (s.cflags &&& 0x7f).toNat ≤ 0x7f := by
    rw [UInt8.toNat_and]
    exact Nat.and_le_right
  have hht : s.ht ≤ DELTA_OPCODES := by
    rcases h.ht with h | h
    · exact h ▸ Nat.zero_le _
    · exact h.le
  rw [DELTA_OPCODES] at hht
  rw [group]
  rw [groupFlags] at hknown
  split_ifs at hknown ⊢ with hgroup
  · rw [Probe.meets_bind, Probe.within_byte, Probe.meets_bind, Probe.within_byte, Probe.meets_pure,
      Probe.run_byte]
    refine ⟨table_mem ?_, table_mem ?_, ?_⟩
    · rw [length_table]
      omega
    · rw [length_table]
      omega
    · exact ⟨h.pos, h.le, h.disp_size, h.low, h.imm, h.disp, h.head, hknown⟩
  · rw [Probe.meets_pure]
    exact ⟨h.pos, h.le, h.disp_size, h.low, h.imm, h.disp, h.head, hknown⟩

end Lilu.Disasm
