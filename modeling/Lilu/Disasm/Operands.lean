import Lilu.Disasm.Decoding

/-!
# The operands of an instruction

Behind the opcode come the ModRM byte with the address, and the immediate operands. The many checks
on the way only set flags for errors, so that the bytes of an instruction are those of its parts,
whatever was checked.
-/

namespace Lilu.Disasm

open Probe (byte Within Meets)

variable {code : ℕ → UInt8} {n : ℕ} {s s' s'' : Vars}

/-! ## Checks -/

/-- The flags of an error, if there is one. -/
structure ErrorFlags (E : BitVec 32) : Prop where
  low : E &&& laterFlags = 0#32
  rex : E &&& F_PREFIX_REX = 0#32
  error : E = 0#32 ∨ E &&& F_ERROR ≠ 0#32

/-- A check sets the flags of an error, if anything, and goes through the table. -/
def Checked (s s' : Vars) : Prop :=
  ∃ ht m_mod E, ErrorFlags E ∧
    s' = { s with ht := ht, m_mod := m_mod, hs := { s.hs with flags := s.hs.flags ||| E } }

theorem errorFlags_zero : ErrorFlags 0#32 :=
  ⟨by decide, by decide, .inl rfl⟩

theorem ErrorFlags.or {E F : BitVec 32} (hE : ErrorFlags E) (hF : ErrorFlags F) :
    ErrorFlags (E ||| F) := by
  refine ⟨low_or hE.low hF.low, ?_, ?_⟩
  · rw [BitVec.and_or_distrib_right, hE.rex, hF.rex]
    rfl
  · rcases hE.error with rfl | hne
    · rw [BitVec.zero_or]
      exact hF.error
    · refine .inr fun h => hne ?_
      rw [BitVec.and_or_distrib_right, BitVec.or_eq_zero_iff] at h
      exact h.1

theorem Checked.refl (s : Vars) (ht : ℕ) (m_mod : UInt8) :
    Checked s { s with ht := ht, m_mod := m_mod } :=
  ⟨ht, m_mod, 0#32, errorFlags_zero, by rw [BitVec.or_zero]⟩

theorem Checked.trans (h : Checked s s') (h' : Checked s' s'') : Checked s s'' := by
  obtain ⟨ht, m_mod, E, hE, rfl⟩ := h
  obtain ⟨ht', m_mod', F, hF, rfl⟩ := h'
  refine ⟨ht', m_mod', E ||| F, hE.or hF, ?_⟩
  rw [← BitVec.or_assoc]

theorem Checked.flagIf {c : Prop} [Decidable c] {E : BitVec 32} (h : Checked s s')
    (hE : ErrorFlags E) : Checked s (s'.flagIf c E) := by
  obtain ⟨ht, m_mod, F, hF, rfl⟩ := h
  rw [Vars.flagIf]
  split_ifs
  · refine ⟨ht, m_mod, F ||| E, hF.or hE, ?_⟩
    rw [Vars.flag, ← BitVec.or_assoc]
  · exact ⟨ht, m_mod, F, hF, rfl⟩

theorem checked_flagIf {c : Prop} [Decidable c] {E : BitVec 32} (hE : ErrorFlags E) :
    Checked s (s.flagIf c E) :=
  (Checked.refl s s.ht s.m_mod).flagIf hE

theorem errorFlags_opcode : ErrorFlags (F_ERROR ||| F_ERROR_OPCODE) :=
  ⟨by decide, by decide, by decide⟩

theorem errorFlags_lock : ErrorFlags (F_ERROR ||| F_ERROR_LOCK) :=
  ⟨by decide, by decide, by decide⟩

theorem errorFlags_operand : ErrorFlags (F_ERROR ||| F_ERROR_OPERAND) :=
  ⟨by decide, by decide, by decide⟩

theorem meets_prefixCheck : Meets (Inside n) (memory code) (Checked s) (prefixCheck s) := by
  rw [prefixCheck]
  split_ifs
  · refine Probe.Meets.bind (meets_lookup (.inr (.inr rfl))) ?_
    rintro _ -
    exact Probe.meets_pure.mpr ((Checked.refl s DELTA_PREFIXES s.m_mod).flagIf errorFlags_opcode)
  · exact Probe.meets_pure.mpr (Checked.refl s s.ht s.m_mod)

theorem meets_fpuCheck (hreg : s.m_reg ≤ 7) :
    Meets (Inside n) (memory code) (Checked s) (fpuCheck s) := by
  have hlen := length_table
  replace hreg : s.m_reg.toNat ≤ 7 := hreg
  rw [fpuCheck]
  split_ifs with h
  · have ht : (s.opcode - 0xd9).toNat ≤ 6 := by
      have := (UInt8.toNat_sub_of_le _ _ h.2.1)
      have h₂ : s.opcode.toNat ≤ 0xdf := h.2.2
      rw [this]
      show s.opcode.toNat - 0xd9 ≤ 6
      omega
    have hflags : Within (Inside n) (memory code) (fpuFlags s (s.opcode - 0xd9).toNat) := by
      rw [fpuFlags]
      split_ifs
      · rw [Probe.within_bind, Probe.within_byte, DELTA_FPU_MODRM]
        exact ⟨table_mem (by omega), Probe.within_pure _⟩
      · rw [Probe.within_bind, Probe.within_byte, DELTA_FPU_REG]
        exact ⟨table_mem (by omega), Probe.within_pure _⟩
    rw [Probe.meets_bind]
    exact ⟨hflags, Probe.meets_pure.mpr (checked_flagIf errorFlags_opcode)⟩
  · exact Probe.meets_pure.mpr (Checked.refl s s.ht s.m_mod)

/-- **A search in the table** stays there, and what is behind the byte that is found does so too. -/
theorem meets_search {tableEnd step k : ℕ} {op : UInt8} {ht : ℕ} (h : ht + k * step = tableEnd)
    (hstep : 0 < step) (hend : tableEnd ≤ hde64Table.length) {fuel : ℕ} :
    Meets (Inside n) (memory code) (fun r => ∀ q, r = some q → q + step ≤ tableEnd + 1)
      (search tableEnd step op fuel ht) := by
  induction fuel generalizing ht k with
  | zero =>
    refine Probe.meets_pure.mpr fun q hq => ?_
    cases hq
  | succ fuel ih =>
    rw [search]
    split_ifs with hne
    · cases k with
      | zero =>
        rw [Nat.zero_mul] at h
        exact absurd h hne
      | succ k =>
        rw [Nat.succ_mul] at h
        rw [Probe.meets_bind, Probe.within_byte]
        refine ⟨table_mem (by omega), ?_⟩
        split_ifs
        · refine Probe.meets_pure.mpr fun q hq => ?_
          cases hq
          omega
        · exact ih (k := k) (by omega)
    · refine Probe.meets_pure.mpr fun q hq => ?_
      cases hq

theorem within_lockable : Within (Inside n) (memory code) (lockable s) := by
  have hlen := length_table
  have hentry : Meets (Inside n) (memory code) (fun r => ∀ q, r = some q → q < hde64Table.length)
      (lockEntry s) := by
    rw [lockEntry]
    split_ifs
    · refine (meets_search (k := 9) (by decide) (by decide) (by rw [hlen]; decide)).imp ?_
      intro r hr q hq
      have := hr q hq
      rw [DELTA_OP_ONLY_MEM] at this
      omega
    · refine (meets_search (k := 12) (by decide) (by decide) (by rw [hlen]; decide)).imp ?_
      intro r hr q hq
      have := hr q hq
      rw [DELTA_OP2_LOCK_OK] at this
      omega
  rw [lockable, Probe.within_bind]
  refine ⟨hentry.1, ?_⟩
  cases hfound : (lockEntry s).run (memory code) with
  | none => exact Probe.within_pure _
  | some q =>
    dsimp only
    rw [Probe.within_bind, Probe.within_byte]
    exact ⟨table_mem (hentry.2 q hfound), Probe.within_pure _⟩

theorem meets_lockCheck : Meets (Inside n) (memory code) (Checked s) (lockCheck s) := by
  rw [lockCheck]
  split_ifs
  · exact Probe.meets_pure.mpr ⟨s.ht, s.m_mod, _, errorFlags_lock, rfl⟩
  · rw [Probe.meets_bind]
    exact ⟨within_lockable, Probe.meets_pure.mpr (checked_flagIf errorFlags_lock)⟩
  · exact Probe.meets_pure.mpr (Checked.refl s s.ht s.m_mod)

theorem within_onlyMem : Within (Inside n) (memory code) (onlyMem s) := by
  have hlen := length_table
  have hentry : Meets (Inside n) (memory code)
      (fun r => ∀ q, r = some q → q + 1 < hde64Table.length) (onlyMemEntry s) := by
    rw [onlyMemEntry]
    split_ifs
    · refine (meets_search (k := 14) (by rw [hlen]; decide) (by decide) le_rfl).imp ?_
      intro r hr q hq
      have := hr q hq
      omega
    · refine (meets_search (k := 5) (by decide) (by decide) (by rw [hlen]; decide)).imp ?_
      intro r hr q hq
      have := hr q hq
      rw [DELTA_OP2_ONLY_MEM] at this
      omega
  rw [onlyMem, Probe.within_bind]
  refine ⟨hentry.1, ?_⟩
  cases hfound : (onlyMemEntry s).run (memory code) with
  | none => exact Probe.within_pure _
  | some q =>
    have hq := hentry.2 q hfound
    dsimp only
    rw [Probe.within_bind, Probe.within_byte, Probe.within_ite]
    refine ⟨table_mem (by omega), fun _ => ?_, fun _ => Probe.within_pure _⟩
    rw [Probe.within_bind, Probe.within_byte]
    exact ⟨table_mem hq, Probe.within_pure _⟩

theorem meets_operandCheck : Meets (Inside n) (memory code) (Checked s) (operandCheck s) := by
  have hself (m_mod : UInt8) (error : Bool) : Checked s (operandError { s with m_mod } error) :=
    (Checked.refl s s.ht m_mod).flagIf errorFlags_operand
  rw [operandCheck]
  split_ifs
  · exact Probe.meets_pure.mpr (hself 3 _)
  · exact Probe.meets_pure.mpr (hself 3 _)
  · exact Probe.meets_pure.mpr (hself s.m_mod _)
  · exact Probe.meets_pure.mpr (hself s.m_mod _)
  · rw [Probe.meets_bind]
    exact ⟨within_onlyMem, Probe.meets_pure.mpr (hself s.m_mod _)⟩
  · exact Probe.meets_pure.mpr (hself s.m_mod _)

/-! ## What flags say -/

theorem has_of_low {hs : Hde64s} {F : BitVec 32} (hF : laterFlags &&& F = F) :
    hs.has F = (hs.flags &&& laterFlags &&& F != 0#32) := by
  rw [Hde64s.has, BitVec.and_assoc, hF]

theorem head_or (hs : Hde64s) {E : BitVec 32} (hE : E &&& F_PREFIX_REX = 0#32) :
    ({ hs with flags := hs.flags ||| E } : Hde64s).head = hs.head := by
  rw [Hde64s.head, Hde64s.head, Hde64s.has, Hde64s.has]
  dsimp only
  rw [BitVec.and_or_distrib_right, hE, BitVec.or_zero]
  rfl

/-- No flag is taken back. -/
theorem Vars.Errs.or {E : BitVec 32} (h : ¬ (s.flag E).Errs) : ¬ s.Errs := by
  intro hs
  rw [Vars.Errs, has_flag, Bool.or_eq_true, not_or] at h
  exact h.1 hs

theorem Grouped.checked (h : Grouped code s) (hc : Checked s s') : Grouped code s' := by
  obtain ⟨ht, m_mod, E, hE, rfl⟩ := hc
  refine ⟨h.pos, h.le, h.disp_size, low_or h.low hE.low, h.imm, h.disp, fun hno => ?_, h.known⟩
  obtain ⟨k, hk⟩ := h.head (Vars.Errs.or (s := s) (E := E) hno)
  dsimp only
  rw [head_or _ hE.rex]
  exact ⟨k, hk⟩

/-! ## The ModRM byte -/

/-- The ModRM byte was read. -/
structure Modded (code : ℕ → UInt8) (s : Vars) : Prop where
  pos : 0 < s.p
  le : s.p ≤ 19
  disp_size : s.disp_size = 0
  reg : s.m_reg ≤ 7
  low : s.hs.flags &&& laterFlags = F_MODRM
  imm : s.hs.imm.length = 8
  disp : s.hs.disp.length = 4
  modrm : ¬ s.Errs → ∃ n, Spelled code s.p (s.hs.head ++ [s.hs.modrm]) n
  known : Known s.opcode s.cflags

theorem Modded.checked (h : Modded code s) (hc : Checked s s') : Modded code s' := by
  obtain ⟨ht, m_mod, E, hE, rfl⟩ := hc
  have hlow : (s.hs.flags ||| E) &&& laterFlags = F_MODRM := by
    rw [BitVec.and_or_distrib_right, h.low, hE.low, BitVec.or_zero]
  refine ⟨h.pos, h.le, h.disp_size, h.reg, hlow, h.imm, h.disp, fun hno => ?_, h.known⟩
  obtain ⟨k, hk⟩ := h.modrm (Vars.Errs.or (s := s) (E := E) hno)
  dsimp only
  rw [head_or _ hE.rex]
  exact ⟨k, hk⟩

theorem reg_le (c : UInt8) : (c &&& 0x3f) >>> 3 ≤ 7 := by
  revert c
  exact forall_byte (by decide +kernel)

theorem meets_modrmByte (h : Grouped code s) (hn : 19 ≤ n) :
    Meets (Inside n) (memory code) (Modded code) (modrmByte s) := by
  have hle := h.le
  rw [modrmByte]
  refine Probe.Meets.bind (meets_next code (show s.p < n by omega)) ?_
  rintro _ rfl
  rw [Probe.meets_pure]
  refine Modded.checked ?_ (checked_flagIf errorFlags_opcode)
  have hlow : (s.hs.flags ||| F_MODRM) &&& laterFlags = F_MODRM := by
    rw [BitVec.and_or_distrib_right, h.low, BitVec.zero_or]
    decide
  refine ⟨Nat.succ_pos _, Nat.succ_le_succ hle, h.disp_size, reg_le _, hlow, h.imm, h.disp,
    fun hno => ?_, h.known⟩
  obtain ⟨k, hk⟩ := h.head (Vars.Errs.or (s := s) (E := F_MODRM) hno)
  have happ := hk.append (Nat.le_succ s.p)
  rw [part_succ, ← head_or _ (E := F_MODRM) (by decide)] at happ
  exact ⟨k, happ⟩

/-! ## The address -/

/-- The flag of a displacement. -/
def dispFlag (d : ℕ) : BitVec 32 :=
  if d = 1 then F_DISP8 else if d = 2 then F_DISP16 else if d = 4 then F_DISP32 else 0#32

/-- Displacements have one, two or four bytes. -/
def IsDisp (d : ℕ) : Prop :=
  d = 0 ∨ d = 1 ∨ d = 2 ∨ d = 4

theorem length_part {a k : ℕ} : (part code a (a + k)).length = k := by
  rw [part, List.length_map, List.length_range, Nat.add_sub_cancel_left]

theorem take_overwrite (old new : List UInt8) : (overwrite old new).take new.length = new := by
  rw [overwrite, List.take_left']
  rfl

theorem length_overwrite {old new : List UInt8} (h : new.length ≤ old.length) :
    (overwrite old new).length = old.length := by
  rw [overwrite, List.length_append, List.length_drop, Nat.add_sub_cancel' h]

theorem meets_bytesAt {k : ℕ} (h : s.p + k ≤ n) :
    Meets (Inside n) (memory code) (· = part code s.p (s.p + k)) (bytesAt s k) := by
  constructor
  · rw [bytesAt, Probe.within_bytes]
    intro x hx
    obtain ⟨i, hi, rfl⟩ := List.mem_map.mp hx
    rw [List.mem_range] at hi
    exact code_mem (by omega)
  · rw [bytesAt, Probe.run_bytes, part, Nat.add_sub_cancel_left, List.map_map]
    rfl

/-- With a displacement. -/
def withDisp (code : ℕ → UInt8) (s : Vars) : Vars :=
  { s with
    p := s.p + s.disp_size
    hs := { s.hs with
      flags := s.hs.flags ||| dispFlag s.disp_size
      disp := overwrite s.hs.disp (part code s.p (s.p + s.disp_size)) } }

theorem meets_displacement (hd : IsDisp s.disp_size) (h : s.p + s.disp_size ≤ n) :
    Meets (Inside n) (memory code) (· = withDisp code s) (displacement s) := by
  rw [displacement]
  by_cases hsize : s.disp_size = 1 ∨ s.disp_size = 2 ∨ s.disp_size = 4
  · have hflag : (if s.disp_size = 1 then F_DISP8 else if s.disp_size = 2 then F_DISP16
        else F_DISP32) = dispFlag s.disp_size := by
      rcases hsize with h | h | h <;> rw [h] <;> rfl
    rw [if_pos hsize, hflag]
    refine Probe.Meets.bind (meets_bytesAt (s := s.flag _) h) ?_
    rintro _ rfl
    exact Probe.meets_pure.mpr rfl
  · have hzero : s.disp_size = 0 := hd.resolve_right hsize
    rw [if_neg hsize, Probe.meets_pure, withDisp, hzero, dispFlag, if_neg (by decide), if_neg (by decide), if_neg (by decide),
      BitVec.or_zero, Nat.add_zero, part_self]
    rfl

theorem isDisp_dispSize (h : s.disp_size = 0) : IsDisp (dispSize s) := by
  have hzero : IsDisp s.disp_size := .inl h
  rw [dispSize]
  split_ifs
  · exact .inr (.inr (.inl rfl))
  · exact hzero
  · exact .inr (.inr (.inr rfl))
  · exact hzero
  · exact .inr (.inl rfl)
  · exact .inr (.inr (.inl rfl))
  · exact .inr (.inr (.inr rfl))
  · exact hzero

/-- The address of an instruction, by its flags. -/
theorem address_of_low {hs : Hde64s} {sib : Bool} {d : ℕ} (hd : IsDisp d)
    (h : hs.flags &&& laterFlags = F_MODRM ||| (if sib then F_SIB else 0#32) ||| dispFlag d) :
    hs.address = hs.modrm :: ((if sib then [hs.sib] else []) ++ hs.disp.take d) := by
  rw [Hde64s.address, Hde64s.operand, has_of_low (by decide), has_of_low (by decide),
    has_of_low (by decide), has_of_low (by decide), has_of_low (by decide), h]
  rcases hd with rfl | rfl | rfl | rfl
  all_goals cases sib <;> rfl

/-- An instruction without a ModRM byte has no address. -/
theorem address_of_low_zero {hs : Hde64s} (h : hs.flags &&& laterFlags = 0#32) :
    hs.address = [] := by
  rw [Hde64s.address, has_of_low (by decide), h]
  rfl

/-- The flags of immediate operands. -/
def immFlags : BitVec 32 := F_IMM8 ||| F_IMM16 ||| F_IMM32 ||| F_IMM64 ||| F_RELATIVE

/-- Everything up to the immediate operands was read. -/
structure Addressed (code : ℕ → UInt8) (s : Vars) : Prop where
  pos : 0 < s.p
  le : s.p ≤ 24
  low : s.hs.flags &&& immFlags = 0#32
  imm : s.hs.imm.length = 8
  address : ¬ s.Errs → ∃ n, Spelled code s.p (s.hs.head ++ s.hs.address) n
  known : s.cflags ∈ knownFlags

theorem known_moreFlags (h : Known s.opcode s.cflags) : (moreFlags s).cflags ∈ knownFlags := by
  have hsmall : ∀ c : UInt8, c ≤ C_MODRM → c ||| C_IMM8 ∈ knownFlags ∧ c ||| C_IMM_P66 ∈ knownFlags :=
    forall_byte (by decide +kernel)
  rw [moreFlags]
  split_ifs with hreg h6 h7
  · exact (hsmall _ (h.2 (.inl h6))).1
  · exact (hsmall _ (h.2 (.inr h7))).2
  · exact h.1
  · exact h.1

/-- The SIB byte is the byte that was read, if there is one. -/
theorem sibByte_eq (hd : IsDisp s.disp_size) : ∃ (b : Bool) (d : ℕ) (v x y z : UInt8),
    IsDisp d ∧ (b = true → v = s.c) ∧ sibByte s = { s with
      p := s.p + b.toNat
      disp_size := d
      hs := { s.hs with
        sib := v, sib_scale := x, sib_index := y, sib_base := z
        flags := s.hs.flags ||| if b then F_SIB else 0#32 } } := by
  rw [sibByte]
  by_cases hsib : s.m_mod ≠ 3 ∧ s.m_rm = 4
  · rw [if_pos hsib]
    refine ⟨true, if s.c &&& 7 = 5 ∧ s.m_mod &&& 1 = 0 then 4 else s.disp_size, _, _, _, _, ?_,
      fun _ => rfl, rfl⟩
    split_ifs
    · exact .inr (.inr (.inr rfl))
    · exact hd
  · rw [if_neg hsib]
    refine ⟨false, s.disp_size, s.hs.sib, s.hs.sib_scale, s.hs.sib_index, s.hs.sib_base, hd, ?_, ?_⟩
    · exact fun h => absurd h Bool.false_ne_true
    · rw [if_neg Bool.false_ne_true, BitVec.or_zero]
      rfl

/-- The bytes of a SIB byte and a displacement. -/
theorem part_operand {a d : ℕ} {v : UInt8} (b : Bool) (hv : b = true → v = code a) :
    (if b then [v] else []) ++ part code (a + b.toNat) (a + b.toNat + d) =
      part code a (a + b.toNat + d) := by
  cases b with
  | false => rfl
  | true =>
    rw [if_pos rfl, hv rfl, ← part_succ]
    exact part_append (Nat.le_succ a) (Nat.le_add_right _ _)

theorem low_address {f : BitVec 32} {b : Bool} {d : ℕ} (h : f &&& laterFlags = F_MODRM)
    (hd : IsDisp d) :
    (f ||| (if b then F_SIB else 0#32) ||| dispFlag d) &&& laterFlags =
      F_MODRM ||| (if b then F_SIB else 0#32) ||| dispFlag d := by
  rw [BitVec.and_or_distrib_right, BitVec.and_or_distrib_right, h]
  rcases hd with rfl | rfl | rfl | rfl
  all_goals cases b <;> rfl

theorem low_imm {f : BitVec 32} {b : Bool} {d : ℕ} (hd : IsDisp d)
    (h : f &&& laterFlags = F_MODRM ||| (if b then F_SIB else 0#32) ||| dispFlag d) :
    f &&& immFlags = 0#32 := by
  have hsub : laterFlags &&& immFlags = immFlags := by decide
  rw [← hsub, ← BitVec.and_assoc, h]
  rcases hd with rfl | rfl | rfl | rfl
  all_goals cases b <;> rfl

theorem rex_address {b : Bool} {d : ℕ} (hd : IsDisp d) :
    ((if b then F_SIB else 0#32) ||| dispFlag d) &&& F_PREFIX_REX = 0#32 := by
  rcases hd with rfl | rfl | rfl | rfl
  all_goals cases b <;> rfl

/-- The state behind a ModRM byte, with the byte that comes next. -/
def behindModrm (s : Vars) (c : UInt8) : Vars :=
  let s := moreFlags { s with c, p := s.p + 1 }
  let s := sibByte { s with disp_size := dispSize s }
  { s with p := s.p - 1 }

theorem moreFlags_next (s : Vars) (c : UInt8) : moreFlags { s with c, p := s.p + 1 } =
    { s with c := c, p := s.p + 1, cflags := (moreFlags s).cflags } := by
  rw [moreFlags, moreFlags]
  dsimp only
  split_ifs
  all_goals rfl

theorem behindModrm_eq (h : s.disp_size = 0) (c : UInt8) : ∃ (b : Bool) (d : ℕ) (v x y z : UInt8),
    IsDisp d ∧ (b = true → v = c) ∧ behindModrm s c = { s with
      c := c
      p := s.p + b.toNat
      disp_size := d
      cflags := (moreFlags s).cflags
      hs := { s.hs with
        sib := v, sib_scale := x, sib_index := y, sib_base := z
        flags := s.hs.flags ||| if b then F_SIB else 0#32 } } := by
  rw [behindModrm, moreFlags_next]
  generalize (moreFlags s).cflags = cflags
  dsimp only
  have hdisp := isDisp_dispSize (s := { s with c, p := s.p + 1, cflags }) h
  generalize dispSize { s with c, p := s.p + 1, cflags } = d at hdisp ⊢
  obtain ⟨b, d, v, x, y, z, hd, hv, hsib⟩ :=
    sibByte_eq (s := { s with c, p := s.p + 1, cflags, disp_size := d }) hdisp
  refine ⟨b, d, v, x, y, z, hd, hv, ?_⟩
  rw [hsib]
  dsimp only
  rw [Nat.add_right_comm, Nat.add_sub_cancel]

/-- **The address**: the bytes behind the ModRM byte are the SIB byte and the displacement. -/
theorem meets_addressing (h : Modded code s) (hn : 24 ≤ n) :
    Meets (Inside n) (memory code) (Addressed code) (addressing s) := by
  have hle := h.le
  obtain ⟨b, d, v, x, y, z, hd, hv, heq⟩ := behindModrm_eq h.disp_size (code s.p)
  have hb : b.toNat ≤ 1 := Bool.toNat_le b
  have hd4 : d ≤ 4 := by
    rcases hd with rfl | rfl | rfl | rfl <;> omega
  have hdisp : Meets (Inside n) (memory code) (· = withDisp code (behindModrm s (code s.p)))
      (displacement (behindModrm s (code s.p))) := by
    rw [heq]
    exact meets_displacement hd (by dsimp only; omega)
  rw [addressing]
  refine Probe.Meets.bind (meets_next code (show s.p < n by omega)) ?_
  rintro _ rfl
  refine hdisp.imp ?_
  rintro _ rfl
  rw [heq]
  have hlow := low_address (b := b) h.low hd
  refine ⟨?_, ?_, low_imm hd hlow, h.imm, fun hno => ?_, known_moreFlags h.known⟩
  · exact (show 0 < s.p + b.toNat + d by have := h.pos; omega)
  · exact (show s.p + b.toNat + d ≤ 24 by omega)
  · rw [withDisp]
    dsimp only
    rw [BitVec.or_assoc] at hlow ⊢
    obtain ⟨k, hk⟩ := h.modrm (Vars.Errs.or (s := s) (E := (if b then F_SIB else 0#32) ||| dispFlag d)
      (by rwa [Vars.Errs, Vars.flag, ← BitVec.or_assoc]))
    have happ := hk.append (Nat.le_add_right s.p (b.toNat + d))
    rw [← Nat.add_assoc, ← part_operand b hv, List.append_assoc] at happ
    have htake := take_overwrite s.hs.disp (part code (s.p + b.toNat) (s.p + b.toNat + d))
    rw [length_part] at htake
    rw [address_of_low hd (by rw [hlow, BitVec.or_assoc])]
    dsimp only
    rw [htake]
    have hhead := head_or s.hs (rex_address (b := b) hd)
    rw [← hhead] at happ
    exact ⟨k, happ⟩

/-- Without a ModRM byte. -/
theorem Grouped.addressed (h : Grouped code s) : Addressed code s := by
  have hle := h.le
  refine ⟨h.pos, by omega, ?_, h.imm, fun hno => ?_, h.known.1⟩
  · have hsub : laterFlags &&& immFlags = immFlags := by decide
    rw [← hsub, ← BitVec.and_assoc, h.low, BitVec.zero_and]
  · rw [address_of_low_zero h.low, List.append_nil]
    exact h.head hno

/-- **The ModRM byte** and what it brings with it. -/
theorem meets_modrm (h : Grouped code s) (hn : 24 ≤ n) :
    Meets (Inside n) (memory code) (Addressed code) (modrm s) := by
  rw [modrm]
  split_ifs
  · refine Probe.Meets.bind (meets_modrmByte h (by omega)) fun s₁ h₁ => ?_
    refine Probe.Meets.bind (meets_fpuCheck h₁.reg) fun s₂ h₂ => ?_
    refine Probe.Meets.bind meets_lockCheck fun s₃ h₃ => ?_
    refine Probe.Meets.bind meets_operandCheck fun s₄ h₄ => ?_
    exact meets_addressing (((h₁.checked h₂).checked h₃).checked h₄) hn
  · exact Probe.meets_pure.mpr (h.checked (checked_flagIf errorFlags_lock)).addressed

/-! ## Immediate operands -/

/-- With an immediate operand. -/
def withImm (code : ℕ → UInt8) (s : Vars) (q : BitVec 32 × ℕ) : Vars :=
  { s with
    p := s.p + q.2
    hs := { s.hs with
      flags := s.hs.flags ||| q.1
      imm := overwrite s.hs.imm (part code s.p (s.p + q.2)) } }

theorem meets_immediate {F : BitVec 32} {k : ℕ} (h : s.p + k ≤ n) :
    Meets (Inside n) (memory code) (· = withImm code s (F, k)) (immediate F k s) := by
  rw [immediate]
  refine Probe.Meets.bind (meets_bytesAt (s := s.flag F) h) ?_
  rintro _ rfl
  exact Probe.meets_pure.mpr rfl

/-- The immediate operands behind one that depends on the operand size. -/
def restKinds (imm16 : Bool) (cflags : UInt8) : List (BitVec 32 × ℕ) :=
  (if imm16 = true ∨ cflags &&& C_IMM16 ≠ 0 then [(F_IMM16, 2)] else []) ++
    (if cflags &&& C_IMM8 ≠ 0 then [(F_IMM8, 1)] else []) ++
    (if cflags &&& C_REL32 ≠ 0 then [(F_IMM32 ||| F_RELATIVE, 4)]
      else if cflags &&& C_REL8 ≠ 0 then [(F_IMM8 ||| F_RELATIVE, 1)] else [])

/-- The immediate operands: they depend on the operand size. -/
def immKinds (cflags : UInt8) (op64 p66 : Bool) : List (BitVec 32 × ℕ) :=
  if cflags &&& C_IMM_P66 ≠ 0 then
    if cflags &&& C_REL32 ≠ 0 then
      if p66 then [(F_IMM16 ||| F_RELATIVE, 2)] else [(F_IMM32 ||| F_RELATIVE, 4)]
    else if op64 then (F_IMM64, 8) :: restKinds false cflags
    else if p66 then restKinds true cflags
    else (F_IMM32, 4) :: restKinds false cflags
  else restKinds false cflags

/-- How many bytes some immediate operands have. -/
def sizeOf (ks : List (BitVec 32 × ℕ)) : ℕ :=
  (ks.map Prod.snd).sum

theorem p_foldl (code : ℕ → UInt8) (s : Vars) (ks : List (BitVec 32 × ℕ)) :
    (ks.foldl (withImm code) s).p = s.p + sizeOf ks := by
  induction ks generalizing s with
  | nil => rfl
  | cons q ks ih => rw [List.foldl_cons, ih, sizeOf, sizeOf, List.map_cons, List.sum_cons, withImm,
      Nat.add_assoc]

theorem meets_immediateIf {c : Prop} [Decidable c] {F : BitVec 32} {k : ℕ}
    (h : s.p + sizeOf (if c then [(F, k)] else []) ≤ n) :
    Meets (Inside n) (memory code) (· = (if c then [(F, k)] else []).foldl (withImm code) s)
      (immediateIf c F k s) := by
  rw [immediateIf]
  split_ifs at h ⊢
  · exact meets_immediate h
  · exact Probe.meets_pure.mpr rfl

theorem sizeOf_append (ks ks' : List (BitVec 32 × ℕ)) :
    sizeOf (ks ++ ks') = sizeOf ks + sizeOf ks' := by
  rw [sizeOf, sizeOf, sizeOf, List.map_append, List.sum_append]

theorem cflags_foldl (ks : List (BitVec 32 × ℕ)) :
    (ks.foldl (withImm code) s).cflags = s.cflags := by
  induction ks generalizing s with
  | nil => rfl
  | cons q ks ih => rw [List.foldl_cons, ih, withImm]

theorem meets_afterP66 {imm16 : Bool} (h : s.p + sizeOf (restKinds imm16 s.cflags) ≤ n) :
    Meets (Inside n) (memory code) (· = (restKinds imm16 s.cflags).foldl (withImm code) s)
      (afterP66 imm16 s) := by
  rw [restKinds, sizeOf_append, sizeOf_append] at h
  rw [afterP66, restKinds, List.foldl_append, List.foldl_append]
  -- the first may be there, and then the second
  refine Probe.Meets.bind (meets_immediateIf (by omega)) fun s₁ h₁ => ?_
  have hp₁ : s₁.p = _ := (congrArg Vars.p h₁).trans (p_foldl code _ _)
  have hc₁ : s₁.cflags = s.cflags := (congrArg Vars.cflags h₁).trans (cflags_foldl _)
  rw [← h₁, hc₁]
  refine Probe.Meets.bind (meets_immediateIf (by rw [hp₁]; omega)) fun s₂ h₂ => ?_
  have hp₂ : s₂.p = _ := (congrArg Vars.p h₂).trans (p_foldl code _ _)
  have hc₂ : s₂.cflags = s.cflags := (congrArg Vars.cflags h₂).trans ((cflags_foldl _).trans hc₁)
  rw [← h₂, hc₂]
  -- and one of the others
  replace h : s₂.p + sizeOf (if s.cflags &&& C_REL32 ≠ 0 then [(F_IMM32 ||| F_RELATIVE, 4)]
      else if s.cflags &&& C_REL8 ≠ 0 then [(F_IMM8 ||| F_RELATIVE, 1)] else []) ≤ n := by omega
  split_ifs at h ⊢
  · exact meets_immediate h
  · exact meets_immediate h
  · exact Probe.meets_pure.mpr rfl

theorem meets_immediate_rest {F : BitVec 32} {k : ℕ}
    (h : s.p + sizeOf ((F, k) :: restKinds false s.cflags) ≤ n) :
    Meets (Inside n) (memory code)
      (· = ((F, k) :: restKinds false s.cflags).foldl (withImm code) s)
      (immediate F k s >>= afterP66 false) := by
  rw [sizeOf, List.map_cons, List.sum_cons, ← Nat.add_assoc] at h
  refine Probe.Meets.bind (meets_immediate ((Nat.le_add_right _ _).trans h)) ?_
  rintro _ rfl
  exact meets_afterP66 h

/-- **The immediate operands** are those that the flags tell. -/
theorem meets_immediates
    (h : s.p + sizeOf (immKinds s.cflags (s.op64 ≠ 0) (s.pref &&& PRE_66 ≠ 0)) ≤ n) :
    Meets (Inside n) (memory code)
      (· = (immKinds s.cflags (s.op64 ≠ 0) (s.pref &&& PRE_66 ≠ 0)).foldl (withImm code) s)
      (immediates s) := by
  rw [immKinds] at h ⊢
  rw [immediates]
  simp only [decide_eq_true_eq] at h ⊢
  split_ifs at h ⊢
  · exact meets_immediate h
  · exact meets_immediate h
  · exact meets_immediate_rest h
  · exact meets_afterP66 h
  · exact meets_immediate_rest h
  · contradiction
  · exact meets_afterP66 h

/-- All immediate operands that there are. -/
def immCases : List (List (BitVec 32 × ℕ)) :=
  [[], [(F_IMM8, 1)], [(F_IMM8 ||| F_RELATIVE, 1)], [(F_IMM16, 2)], [(F_IMM16 ||| F_RELATIVE, 2)],
    [(F_IMM32, 4)], [(F_IMM32 ||| F_RELATIVE, 4)], [(F_IMM64, 8)], [(F_IMM16, 2), (F_IMM8, 1)]]

theorem immKinds_mem : ∀ c ∈ knownFlags, ∀ op64 p66, immKinds c op64 p66 ∈ immCases := by
  decide +kernel

/-! ## Whole instructions -/

theorem address_or (hs : Hde64s) {E : BitVec 32}
    (hE : E &&& (F_MODRM ||| F_SIB ||| F_DISP8 ||| F_DISP16 ||| F_DISP32) = 0#32) :
    ({ hs with flags := hs.flags ||| E } : Hde64s).address = hs.address := by
  have hsame (F : BitVec 32)
      (hF : (F_MODRM ||| F_SIB ||| F_DISP8 ||| F_DISP16 ||| F_DISP32) &&& F = F) :
      ({ hs with flags := hs.flags ||| E } : Hde64s).has F = hs.has F := by
    rw [Hde64s.has, Hde64s.has]
    dsimp only
    rw [BitVec.and_or_distrib_right, ← hF, ← BitVec.and_assoc E, hE, BitVec.zero_and,
      BitVec.or_zero]
  rw [Hde64s.address, Hde64s.address, Hde64s.operand, Hde64s.operand, hsame _ (by decide),
    hsame _ (by decide), hsame _ (by decide), hsame _ (by decide), hsame _ (by decide)]

/-- The flags of some immediate operands. -/
def kindFlags (ks : List (BitVec 32 × ℕ)) : BitVec 32 :=
  ks.foldr (fun q F => q.1 ||| F) 0#32

theorem hs_foldl (code : ℕ → UInt8) (s : Vars) (ks : List (BitVec 32 × ℕ)) :
    ∃ imm, (ks.foldl (withImm code) s).hs =
    { s.hs with flags := s.hs.flags ||| kindFlags ks, imm := imm } := by
  induction ks generalizing s with
  | nil =>
    refine ⟨s.hs.imm, ?_⟩
    rw [List.foldl_nil, kindFlags, List.foldr_nil, BitVec.or_zero]
  | cons q ks ih =>
    obtain ⟨imm, himm⟩ := ih (withImm code s q)
    refine ⟨imm, ?_⟩
    rw [List.foldl_cons, himm, withImm, kindFlags, kindFlags, List.foldr_cons, ← BitVec.or_assoc]

/-- How many bytes the immediate operands have, by their flags. -/
def immSizeOf (F : BitVec 32) : ℕ :=
  (if F &&& F_IMM64 ≠ 0#32 then 8 else 0) + (if F &&& F_IMM32 ≠ 0#32 then 4 else 0) +
    (if F &&& F_IMM16 ≠ 0#32 then 2 else 0) + if F &&& F_IMM8 ≠ 0#32 then 1 else 0

theorem immSizeOf_kindFlags : ∀ ks ∈ immCases, immSizeOf (kindFlags ks) = sizeOf ks := by
  decide +kernel

theorem sizeOf_le : ∀ ks ∈ immCases, sizeOf ks ≤ 8 := by
  decide +kernel

theorem kindFlags_sub : ∀ ks ∈ immCases, kindFlags ks &&& ~~~immFlags = 0#32 := by
  decide +kernel

theorem immSize_eq (hs : Hde64s) : hs.immSize = immSizeOf hs.flags := by
  simp only [Hde64s.immSize, immSizeOf, Hde64s.has, bne_iff_ne]

/-- Only one instruction has two immediate operands. -/
theorem single_of_mem {ks : List (BitVec 32 × ℕ)} (h : ks ∈ immCases)
    (hboth : ¬ (kindFlags ks &&& F_IMM16 ≠ 0#32 ∧ kindFlags ks &&& F_IMM8 ≠ 0#32)) :
    ks = [] ∨ ∃ q, ks = [q] := by
  rcases ks with - | ⟨q, - | ⟨r, ks⟩⟩
  · exact .inl rfl
  · exact .inr ⟨q, rfl⟩
  · simp only [immCases, List.mem_cons, List.cons.injEq, reduceCtorEq, and_false, false_or,
      List.not_mem_nil, or_false] at h
    obtain ⟨rfl, rfl, rfl⟩ := h
    exact absurd ⟨by decide, by decide⟩ hboth

/-- The whole instruction was read. -/
structure Decoded (code : ℕ → UInt8) (p : ℕ) (hs : Hde64s) : Prop where
  pos : 0 < p
  le : p ≤ 32
  spelled : hs.has F_ERROR = false → ∃ n imm, Spelled code p (hs.head ++ hs.address ++ imm) n ∧
    imm.length = hs.immSize ∧
    (hs.has F_IMM16 = false ∨ hs.has F_IMM8 = false → imm = hs.imm.take hs.immSize)

theorem has_eq_of_zero (hs : Hde64s) {E F : BitVec 32} (hE : E &&& F = 0#32) :
    ({ hs with flags := hs.flags ||| E } : Hde64s).has F = hs.has F := by
  rw [Hde64s.has, Hde64s.has]
  dsimp only
  rw [BitVec.and_or_distrib_right, hE, BitVec.or_zero]

theorem immSizeOf_or {f E : BitVec 32} (h : f &&& immFlags = 0#32) :
    immSizeOf (f ||| E) = immSizeOf E := by
  have hsame (F : BitVec 32) (hF : immFlags &&& F = F) : (f ||| E) &&& F = E &&& F := by
    rw [BitVec.and_or_distrib_right, ← hF, ← BitVec.and_assoc f, h, BitVec.zero_and,
      BitVec.zero_or]
  rw [immSizeOf, immSizeOf, hsame _ (by decide), hsame _ (by decide), hsame _ (by decide),
    hsame _ (by decide)]

theorem Addressed.decoded {ks : List (BitVec 32 × ℕ)} (h : Addressed code s) (hks : ks ∈ immCases) :
    Decoded code (ks.foldl (withImm code) s).p (ks.foldl (withImm code) s).hs := by
  have hpos := h.pos
  have hle := h.le
  have hsize := sizeOf_le ks hks
  have hp := p_foldl code s ks
  have hother (F : BitVec 32) (hF : ~~~immFlags &&& F = F) : kindFlags ks &&& F = 0#32 := by
    rw [← hF, ← BitVec.and_assoc, kindFlags_sub ks hks, BitVec.zero_and]
  obtain ⟨imm, himm⟩ := hs_foldl code s ks
  have himmSize : (ks.foldl (withImm code) s).hs.immSize = sizeOf ks := by
    rw [himm, immSize_eq]
    dsimp only
    rw [immSizeOf_or h.low, immSizeOf_kindFlags ks hks]
  refine ⟨by omega, by omega, fun hno => ?_⟩
  obtain ⟨k, hk⟩ : ∃ k, Spelled code s.p (s.hs.head ++ s.hs.address) k := by
    refine h.address fun herr => ?_
    rw [himm] at hno
    have hsame := has_eq_of_zero { s.hs with imm := imm } (hother F_ERROR (by decide))
    have := hsame.symm.trans hno
    exact absurd (herr.symm.trans this) (by decide)
  refine ⟨k, part code s.p (s.p + sizeOf ks), ?_, ?_, fun hone => ?_⟩
  · have happ := hk.append (Nat.le_add_right s.p (sizeOf ks))
    rw [← hp] at happ
    have hhead : (ks.foldl (withImm code) s).hs.head = s.hs.head := by
      rw [himm]
      exact head_or { s.hs with imm := imm } (hother _ (by decide))
    have haddress : (ks.foldl (withImm code) s).hs.address = s.hs.address := by
      rw [himm]
      exact address_or { s.hs with imm := imm } (hother _ (by decide))
    rw [hhead, haddress, ← hp]
    exact happ
  · rw [length_part, himmSize]
  · rw [himmSize]
    have hlow : ∀ F, immFlags &&& F = F → (s.hs.flags ||| kindFlags ks) &&& F = kindFlags ks &&& F := by
      intro F hF
      rw [BitVec.and_or_distrib_right, ← hF, ← BitVec.and_assoc s.hs.flags, h.low, BitVec.zero_and,
        BitVec.zero_or]
    rw [himm, Hde64s.has, Hde64s.has, bne_eq_false_iff_eq, bne_eq_false_iff_eq] at hone
    dsimp only at hone
    rw [hlow _ (by decide), hlow _ (by decide)] at hone
    have hboth : ¬ (kindFlags ks &&& F_IMM16 ≠ 0#32 ∧ kindFlags ks &&& F_IMM8 ≠ 0#32) := by
      rintro ⟨h16, h8⟩
      rcases hone with hone | hone
      · exact h16 hone
      · exact h8 hone
    rcases single_of_mem hks hboth with rfl | ⟨q, rfl⟩
    · rw [sizeOf, List.map_nil, List.sum_nil, Nat.add_zero, part_self, List.take_zero]
    · have htake := take_overwrite s.hs.imm (part code s.p (s.p + q.2))
      rw [length_part] at htake
      exact htake.symm

theorem meets_end (h : Addressed code s) (hn : 32 ≤ n) :
    Meets (Inside n) (memory code) (fun s' => Decoded code s'.p s'.hs) (immediates s) := by
  have hks := immKinds_mem s.cflags h.known (s.op64 ≠ 0) (s.pref &&& PRE_66 ≠ 0)
  have hsize := sizeOf_le _ hks
  have hle := h.le
  refine (meets_immediates (by omega)).imp ?_
  rintro _ rfl
  exact h.decoded hks

end Lilu.Disasm
