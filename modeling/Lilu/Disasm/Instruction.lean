import Lilu.Disasm.Operands

/-!
# Whole instructions

`hde64_disasm` reads no more than 32 bytes, whatever they are. When it reports no error, the bytes of
the instruction are its legacy prefixes and then what was found out about it, and no other byte
matters. A copy of an instruction is thus the same instruction.
-/

namespace Lilu.Disasm

open Probe (byte Within Meets)

variable {code code' : ℕ → UInt8} {n : ℕ} {s s' : Vars}

/-! ## All bytes -/

/-- Up to the prefixes of opcodes. -/
def begin : Read Vars := do
  let s ← prefixes 16 {}
  let s ← opcodes (prefDone s)
  let s ← group s
  prefixCheck s

theorem meets_begin : Meets (Inside 18) (memory code) (Grouped code) begin := by
  have hstart : Meets (Inside 18) (memory code) (fun s => Prefixed code s ∧ s.p ≤ 16)
      (prefixes 16 {}) :=
    meets_prefixes (by decide) (fun i hi => absurd hi (Nat.not_lt_zero i)) (by decide)
      ⟨rfl, rfl, rfl, rfl, rfl, rfl, rfl⟩ (by decide) (by decide)
  refine Probe.Meets.bind hstart ?_
  rintro s₁ ⟨h₁, hp₁⟩
  refine Probe.Meets.bind (meets_opcodes h₁ hp₁ le_rfl) fun s₂ h₂ => ?_
  refine Probe.Meets.bind (meets_group h₂) fun s₃ h₃ => ?_
  exact meets_prefixCheck.imp fun s₄ h₄ => h₃.checked h₄

/-- The state that an instruction is read to. -/
def decode : Read Vars := do
  let s ← begin
  let s ← modrm s
  immediates s

theorem run_hde64 (m : Place → UInt8) : hde64Disasm.run m = disasmDone (decode.run m) := by
  rw [hde64Disasm, decode, begin]
  simp only [Probe.run_bind, Probe.run_pure]

theorem within_hde64 {S : Set Place} {m : Place → UInt8} :
    Within S m hde64Disasm ↔ Within S m decode := by
  rw [hde64Disasm, decode, begin]
  simp only [Probe.within_bind, Probe.run_bind, Probe.within_pure, and_true, and_assoc]

/-- **An instruction is decoded**, from any bytes. -/
theorem meets_decode (code : ℕ → UInt8) :
    Meets (Inside 32) (memory code) (fun s => Decoded code s.p s.hs) decode := by
  have hbegin : Meets (Inside 32) (memory code) (Grouped code) begin :=
    ⟨meets_begin.1.mono (inside_mono (by decide)), meets_begin.2⟩
  refine Probe.Meets.bind hbegin fun s₁ h₁ => ?_
  refine Probe.Meets.bind (meets_modrm h₁ (by decide)) fun s₂ h₂ => ?_
  exact meets_end h₂ le_rfl

theorem disasmDone_eq (hp : s.p ≤ 32) : disasmDone s =
    if s.p ≤ 15 then { s.hs with len := UInt8.ofNat s.p }
    else { s.hs with flags := s.hs.flags ||| (F_ERROR ||| F_ERROR_LENGTH), len := 15 } := by
  have hlen : (UInt8.ofNat s.p).toNat = s.p := by
    rw [UInt8.toNat_ofNat']
    omega
  have hiff : UInt8.ofNat s.p > 15 ↔ ¬ s.p ≤ 15 := by
    rw [gt_iff_lt, UInt8.lt_iff_toNat_lt, hlen]
    exact Nat.not_le.symm
  rw [disasmDone]
  dsimp only
  rw [if_congr hiff rfl rfl, ite_not]

/-- Without an error, the length is where the pointer ends. -/
theorem done_of_no_error (hp : s.p ≤ 32) (hno : (disasmDone s).has F_ERROR = false) :
    disasmDone s = { s.hs with len := UInt8.ofNat s.p } ∧ (UInt8.ofNat s.p).toNat = s.p ∧
      s.p ≤ 15 := by
  rw [disasmDone_eq hp] at hno ⊢
  split_ifs at hno ⊢ with h15
  · refine ⟨rfl, ?_, h15⟩
    rw [UInt8.toNat_ofNat']
    omega
  · -- too long instructions are errors
    rw [Hde64s.has, bne_eq_false_iff_eq] at hno
    dsimp only at hno
    rw [BitVec.and_or_distrib_right, BitVec.or_eq_zero_iff] at hno
    exact absurd hno.2 (by decide)

/-- **Every input is read safely**: the disassembler reads only the first 32 bytes of the code, and
its table, and the length of an instruction is from one byte to fifteen. -/
theorem hde64_safe (code : ℕ → UInt8) : Meets (Inside 32) (memory code)
    (fun hs => 1 ≤ hs.len ∧ hs.len ≤ 15) hde64Disasm := by
  obtain ⟨hread, hdecoded⟩ := meets_decode code
  refine ⟨within_hde64.mpr hread, ?_⟩
  have hpos := hdecoded.pos
  rw [run_hde64, disasmDone_eq hdecoded.le]
  split_ifs with hp
  · have hlen : (UInt8.ofNat (decode.run (memory code)).p).toNat = (decode.run (memory code)).p := by
      rw [UInt8.toNat_ofNat']
      omega
    dsimp only
    rw [UInt8.le_iff_toNat_le, UInt8.le_iff_toNat_le, hlen]
    exact ⟨hpos, hp⟩
  · have h15 : (1 : UInt8) ≤ 15 ∧ (15 : UInt8) ≤ 15 := by decide
    exact h15

/-- **The bytes of an instruction**: without an error, they are legacy prefixes, as many as there are,
the REX prefix, the opcode, the ModRM byte, the SIB byte, the displacement and the immediate operands,
as they were found out. -/
theorem hde64_layout (code : ℕ → UInt8)
    (hno : (hde64Disasm.run (memory code)).has F_ERROR = false) :
    let hs := hde64Disasm.run (memory code)
    ∃ n imm, part code 0 hs.len.toNat = part code 0 n ++ (hs.head ++ hs.address ++ imm) ∧
      (∀ i < n, isPrefix (code i) = true) ∧ isPrefix (code n) = false ∧
      imm.length = hs.immSize ∧
      (hs.has F_IMM16 = false ∨ hs.has F_IMM8 = false → imm = hs.imm.take hs.immSize) := by
  obtain ⟨-, hdecoded⟩ := meets_decode code
  rw [run_hde64] at hno ⊢
  obtain ⟨hdone, hlen, hle⟩ := done_of_no_error hdecoded.le hno
  rw [hdone] at hno ⊢
  obtain ⟨n, imm, hspelled, hsize, himm⟩ := hdecoded.spelled hno
  have hlt := hspelled.lt
  refine ⟨n, imm, ?_, hspelled.before, ?_, hsize, himm⟩
  · dsimp only
    rw [hlen, ← part_append (Nat.zero_le n) hlt.le, hspelled.part_eq]
    rfl
  · rw [← Bool.not_eq_true]
    exact fun hlast => absurd (hspelled.last hlast) (by omega)

/-- An instruction that makes room on the stack. -/
def subRsp (i : ℕ) : UInt8 :=
  [0x48, 0x83, 0xec, 0x10].getD i 0xcc

theorem hde64_layout_subRsp : ∃ n, part subRsp 0 4 = part subRsp 0 n ++ [0x48, 0x83, 0xec, 0x10] := by
  have hno : (hde64Disasm.run (memory subRsp)).has F_ERROR = false := by decide +kernel
  have hparts : (hde64Disasm.run (memory subRsp)).len = 4 ∧
      (hde64Disasm.run (memory subRsp)).head = [0x48, 0x83] ∧
      (hde64Disasm.run (memory subRsp)).address = [0xec] ∧
      (hde64Disasm.run (memory subRsp)).has F_IMM16 = false ∧
      (hde64Disasm.run (memory subRsp)).imm.take (hde64Disasm.run (memory subRsp)).immSize = [0x10] := by
    decide +kernel
  obtain ⟨n, imm, hlayout, -, -, -, himm⟩ := hde64_layout subRsp hno
  obtain ⟨hlen, hhead, haddress, h16, htake⟩ := hparts
  rw [hlen, hhead, haddress, himm (.inl h16), htake] at hlayout
  exact ⟨n, hlayout⟩

/-! ## No other byte matters -/

/-- The table, and the first `n` bytes of the code. -/
def Below (n : ℕ) : Set Place :=
  {x | ∀ i, x = .code i → i < n}

/-- A part of the disassembler that goes on from `p`, and reads up to where it ends. -/
structure Steady (code : ℕ → UInt8) (p : ℕ) (x : Read Vars) : Prop where
  le : p ≤ (x.run (memory code)).p
  within : Within (Below (x.run (memory code)).p) (memory code) x

theorem table_below {i : ℕ} : Place.table i ∈ Below n := by
  intro j hj
  cases hj

theorem code_below {i : ℕ} (h : i < n) : Place.code i ∈ Below n := by
  intro j hj
  cases hj
  exact h

theorem below_mono {n' : ℕ} (h : n ≤ n') : Below n ⊆ Below n' :=
  fun _ hx i hi => (hx i hi).trans_le h

theorem inside_below : Inside n ⊆ Below n := by
  rintro x (⟨i, hi, rfl⟩ | ⟨i, -, rfl⟩)
  · exact code_below hi
  · exact table_below

/-- Codes that agree are memories that do. -/
theorem eqOn_below (h : ∀ i < n, code' i = code i) :
    Set.EqOn (memory code') (memory code) (Below n) := by
  intro y hy
  cases y with
  | code i => exact h i (hy i rfl)
  | table i => rfl

section Steady

variable {p : ℕ} {x : Read Vars} {f : Vars → Read Vars}

theorem Steady.congr (h : Steady code p x)
    (hcode : ∀ i < (x.run (memory code)).p, code' i = code i) :
    x.run (memory code') = x.run (memory code) :=
  (h.within.congr (eqOn_below hcode)).1

theorem steady_pure (h : p ≤ s.p) : Steady code p (pure s) :=
  ⟨h, Probe.within_pure _⟩

theorem Steady.bind (h : Steady code p x)
    (hf : Steady code (x.run (memory code)).p (f (x.run (memory code)))) :
    Steady code p (x >>= f) := by
  refine ⟨?_, ?_⟩
  · rw [Probe.run_bind]
    exact h.le.trans hf.le
  · rw [Probe.run_bind, Probe.within_bind]
    exact ⟨h.within.mono (below_mono hf.le), hf.within⟩

theorem steady_of_meets {P : Vars → Prop} (h : Meets (Inside n) (memory code) P x)
    (hP : ∀ s', P s' → s'.p = n) (hp : p ≤ n) : Steady code p x := by
  have hn := hP _ h.2
  exact ⟨hn ▸ hp, h.1.mono (hn ▸ inside_below)⟩

end Steady

theorem steady_next : Steady code s.p (next s) := by
  refine steady_of_meets (meets_next code (Nat.lt_succ_self s.p)) ?_ (Nat.le_succ s.p)
  rintro _ rfl
  rfl

theorem steady_prefixes {x : ℕ} : Steady code s.p (prefixes x s) := by
  induction x generalizing s with
  | zero => exact steady_pure le_rfl
  | succ x ih =>
    rw [prefixes]
    refine steady_next.bind ?_
    cases hprefix : asPrefix ((next s).run (memory code)) with
    | none => exact steady_pure le_rfl
    | some s' =>
      rw [← (asPrefix_some hprefix).2.1]
      exact ih

theorem steady_rexPrefix : Steady code s.p (rexPrefix s) := by
  refine steady_of_meets (meets_rexPrefix (Nat.lt_succ_self s.p)) ?_ (Nat.le_succ s.p)
  rintro _ ⟨op64, rfl⟩
  rfl

theorem steady_opcodeFlags : Steady code s.p (opcodeFlags s) := by
  have hflags (s : Vars) : Steady code s.p (lookupFlags s) := by
    rw [lookupFlags, lookup]
    refine ⟨?_, ?_⟩
    · rw [Probe.run_bind, Probe.run_pure]
      split_ifs
      · exact le_rfl
      · exact le_rfl
    · rw [Probe.within_bind, Probe.within_bind, Probe.within_byte, Probe.within_byte]
      exact ⟨⟨table_below, table_below⟩, Probe.within_pure _⟩
  have hsecond : Steady code s.p (secondByte s) := by
    rw [secondByte]
    dsimp only
    split_ifs
    · exact (steady_next (s := { s with hs := { s.hs with opcode := s.c } })).bind (steady_pure le_rfl)
    all_goals exact steady_pure le_rfl
  exact hsecond.bind (hflags { (secondByte s).run (memory code) with
    opcode := ((secondByte s).run (memory code)).c })

theorem steady_opcodes : Steady code s.p (opcodes s) := by
  rw [opcodes]
  split_ifs
  · refine steady_rexPrefix.bind ?_
    split_ifs
    · exact steady_pure le_rfl
    · exact steady_opcodeFlags
  · exact steady_opcodeFlags

theorem steady_group : Steady code s.p (group s) := by
  rw [group]
  split_ifs
  · refine ⟨le_rfl, ?_⟩
    rw [Probe.within_bind, Probe.within_byte, Probe.within_bind, Probe.within_byte]
    exact ⟨table_below, table_below, Probe.within_pure _⟩
  · exact steady_pure le_rfl

theorem Checked.p_eq (h : Checked s s') : s'.p = s.p := by
  obtain ⟨ht, m_mod, E, -, rfl⟩ := h
  rfl

/-- What a check reads is in the table. -/
theorem steady_of_checked {x : Read Vars} (h : Meets (Inside s.p) (memory code) (Checked s) x) :
    Steady code s.p x :=
  steady_of_meets h (fun _ hs' => hs'.p_eq) le_rfl

theorem withDisp_congr (h : ∀ i < (withDisp code s).p, code' i = code i) (c : UInt8) :
    withDisp code' { s with c } = { withDisp code s with c } := by
  have hpart : part code' s.p (s.p + s.disp_size) = part code s.p (s.p + s.disp_size) := by
    refine List.map_congr_left fun k hk => h _ ?_
    rw [List.mem_range, Nat.add_sub_cancel_left] at hk
    exact Nat.add_lt_add_left hk s.p
  rw [withDisp, withDisp]
  dsimp only
  rw [hpart]

theorem run_addressing (h : s.disp_size = 0) :
    (addressing s).run (memory code) = withDisp code (behindModrm s (code s.p)) := by
  obtain ⟨b, d, v, x, y, z, hd, -, heq⟩ := behindModrm_eq h (code s.p)
  have hdisp : IsDisp (behindModrm s (code s.p)).disp_size := by
    rw [heq]
    exact hd
  exact (meets_displacement hdisp le_rfl).2

/-- The byte behind a ModRM byte does not matter, if it is no SIB byte. -/
theorem behindModrm_congr (hsib : ¬ (s.m_mod ≠ 3 ∧ s.m_rm = 4)) (c c' : UInt8) :
    behindModrm s c' = { behindModrm s c with c := c' } := by
  rw [behindModrm, behindModrm, moreFlags_next, moreFlags_next, sibByte, sibByte]
  dsimp only
  rw [if_neg hsib, if_neg hsib]
  rfl

theorem behindModrm_p (hsib : s.m_mod ≠ 3 ∧ s.m_rm = 4) (c : UInt8) :
    (behindModrm s c).p = s.p + 1 := by
  rw [behindModrm, moreFlags_next, sibByte]
  dsimp only
  rw [if_pos hsib]
  rfl

theorem addressing_congr (hd : s.disp_size = 0)
    (h : ∀ i < ((addressing s).run (memory code)).p, code' i = code i) :
    ∃ c, (addressing s).run (memory code') = { (addressing s).run (memory code) with c := c } := by
  rw [run_addressing hd] at h
  rw [run_addressing hd, run_addressing hd]
  by_cases hsib : s.m_mod ≠ 3 ∧ s.m_rm = 4
  · -- the byte behind is the SIB byte
    have hlt : s.p < (withDisp code (behindModrm s (code s.p))).p := by
      have hle : (behindModrm s (code s.p)).p ≤ (withDisp code (behindModrm s (code s.p))).p :=
        Nat.le_add_right _ _
      rw [behindModrm_p hsib] at hle
      exact hle
    rw [h s.p hlt]
    exact ⟨_, withDisp_congr h _⟩
  · rw [behindModrm_congr hsib (code s.p) (code' s.p)]
    exact ⟨code' s.p, withDisp_congr h _⟩

theorem le_addressing (code : ℕ → UInt8) (hd : s.disp_size = 0) : s.p ≤ ((addressing s).run (memory code)).p := by
  obtain ⟨b, d, v, x, y, z, -, -, heq⟩ := behindModrm_eq hd (code s.p)
  rw [run_addressing hd, withDisp, heq]
  dsimp only
  omega

theorem steady_modrmByte : Steady code s.p (modrmByte s) := by
  rw [modrmByte]
  refine (steady_next (s := s.flag F_MODRM)).bind (steady_pure (Nat.le_of_eq ?_))
  rw [(checked_flagIf errorFlags_opcode).p_eq]

/-- The checks between the ModRM byte and the address. -/
def checks (s : Vars) : Read Vars := do
  let s ← fpuCheck s
  let s ← lockCheck s
  operandCheck s

theorem meets_checks (h : Modded code s) : Meets (Inside n) (memory code)
    (fun s' => Checked s s' ∧ Modded code s') (checks s) := by
  refine Probe.Meets.bind (meets_fpuCheck h.reg) fun s₁ h₁ => ?_
  refine Probe.Meets.bind meets_lockCheck fun s₂ h₂ => ?_
  refine meets_operandCheck.imp fun s₃ h₃ => ?_
  have hall := (h₁.trans h₂).trans h₃
  exact ⟨hall, h.checked hall⟩

theorem run_modrm (m : Place → UInt8) (hmodrm : s.cflags &&& C_MODRM ≠ 0) : (modrm s).run m =
    (addressing ((checks ((modrmByte s).run m)).run m)).run m := by
  rw [modrm, if_pos hmodrm, checks]
  simp only [Probe.run_bind]

theorem modrm_congr (h : Grouped code s)
    (hcode : ∀ i < ((modrm s).run (memory code)).p, code' i = code i) :
    s.p ≤ ((modrm s).run (memory code)).p ∧
      ∃ c, (modrm s).run (memory code') = { (modrm s).run (memory code) with c := c } := by
  by_cases hmodrm : s.cflags &&& C_MODRM ≠ 0
  · rw [run_modrm _ hmodrm] at hcode
    rw [run_modrm _ hmodrm, run_modrm _ hmodrm]
    have hbyte : Modded code ((modrmByte s).run (memory code)) := (meets_modrmByte h le_rfl).2
    have hsteady : Steady code s.p (modrmByte s) := steady_modrmByte
    have hchecks := (meets_checks (n := 0) hbyte).2
    have hsteady' := steady_of_meets (meets_checks hbyte) (fun _ hs' => hs'.1.p_eq) le_rfl
    have hp := hchecks.1.p_eq
    have hle := le_addressing code hchecks.2.disp_size
    -- up to the address, the same is read
    have hrun := hsteady.congr fun i hi => hcode i (by omega)
    have hrun' := hsteady'.congr fun i hi => hcode i (hi.trans_le hle)
    rw [hrun, hrun']
    exact ⟨by have := hsteady.le; omega, addressing_congr hchecks.2.disp_size hcode⟩
  · rw [modrm, if_neg hmodrm]
    exact ⟨(checked_flagIf errorFlags_lock).p_eq.ge, _, rfl⟩

/-- The state with another byte in `c`. -/
theorem foldl_congr {ks : List (BitVec 32 × ℕ)} (h : ∀ i < s.p + sizeOf ks, code' i = code i)
    (c : UInt8) :
    ks.foldl (withImm code') { s with c } = { ks.foldl (withImm code) s with c } := by
  induction ks generalizing s with
  | nil => rfl
  | cons q ks ih =>
    rw [sizeOf, List.map_cons, List.sum_cons, ← Nat.add_assoc] at h
    have hpart : part code' s.p (s.p + q.2) = part code s.p (s.p + q.2) := by
      refine List.map_congr_left fun k hk => h _ ?_
      rw [List.mem_range, Nat.add_sub_cancel_left] at hk
      omega
    have hfirst : withImm code' { s with c } q = { withImm code s q with c } := by
      rw [withImm, withImm]
      dsimp only
      rw [hpart]
    rw [List.foldl_cons, List.foldl_cons, hfirst]
    exact ih h

theorem run_immediates (s : Vars) (code : ℕ → UInt8) : (immediates s).run (memory code) =
    (immKinds s.cflags (s.op64 ≠ 0) (s.pref &&& PRE_66 ≠ 0)).foldl (withImm code) s :=
  (meets_immediates le_rfl).2

theorem immediates_congr (h : ∀ i < ((immediates s).run (memory code)).p, code' i = code i)
    (c : UInt8) : ((immediates { s with c }).run (memory code')) =
      { (immediates s).run (memory code) with c } := by
  rw [run_immediates, p_foldl] at h
  rw [run_immediates, run_immediates]
  exact foldl_congr h c

theorem le_immediates (code : ℕ → UInt8) (s : Vars) : s.p ≤ ((immediates s).run (memory code)).p := by
  rw [run_immediates, p_foldl]
  exact Nat.le_add_right _ _

theorem steady_begin : Steady code 0 begin := by
  have hdone (s : Vars) : (prefDone s).p = s.p := by
    rw [prefDone]
  rw [begin]
  refine Steady.bind (steady_prefixes (s := {})) (Steady.bind ?_ ?_)
  · rw [← hdone]
    exact steady_opcodes
  · exact Steady.bind steady_group (steady_of_checked meets_prefixCheck)

theorem decode_congr (h : ∀ i < (decode.run (memory code)).p, code' i = code i) :
    ∃ c, decode.run (memory code') = { decode.run (memory code) with c := c } := by
  have hgrouped : Grouped code (begin.run (memory code)) := meets_begin.2
  rw [decode, Probe.run_bind, Probe.run_bind] at h
  rw [decode, Probe.run_bind, Probe.run_bind, Probe.run_bind, Probe.run_bind]
  have hle := le_immediates code ((modrm (begin.run (memory code))).run (memory code))
  obtain ⟨hle', c, hmodrm⟩ := modrm_congr hgrouped fun i hi => h i (hi.trans_le hle)
  have hbegin := steady_begin.congr fun i hi => h i ((hi.trans_le hle').trans_le hle)
  rw [hbegin, hmodrm]
  exact ⟨c, immediates_congr h c⟩

/-- **No other byte matters**: when an instruction is decoded without an error, whatever begins with
its bytes is decoded the same. -/
theorem hde64_congr (hno : (hde64Disasm.run (memory code)).has F_ERROR = false)
    (h : ∀ i < (hde64Disasm.run (memory code)).len.toNat, code' i = code i) :
    hde64Disasm.run (memory code') = hde64Disasm.run (memory code) := by
  rw [run_hde64] at hno h
  obtain ⟨hdone, hlen, -⟩ := done_of_no_error (meets_decode code).2.le hno
  rw [hdone] at h
  obtain ⟨c, hc⟩ := decode_congr fun i hi => h i (hlen.symm ▸ hi)
  rw [run_hde64, run_hde64, hc]
  rfl

end Lilu.Disasm
