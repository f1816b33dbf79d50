import Mathlib.Tactic
import Lilu.Patcher.Written

/-!
# Erasing coverage instructions

Before a function is routed, the `inc` instructions of code coverage at its entry are overwritten.
The eraser follows the lengths of instructions, from the entry on, also when a jump stands there:
behind a long jump it takes the bytes of the target for instructions.

## Main definitions

* `hits`: the walk over the instructions comes to one that it may overwrite

## Main results

* `eraseFrom_eqOn`: what is erased is close to the entry
* `intact_iff`: exactly when a jump survives
-/

namespace Lilu.Patcher

variable {env : Env} {s s' : State} {u : Unit} {addr : Addr} {limit : ℤ} {count size : ℕ}

/-! ## One turn -/

/-- The memory with the instruction overwritten. -/
def erased (addr : Addr) (m : Mem) : Mem :=
  store m addr (List.replicate incInstSize nop)

theorem eraseInst_cases (h : Returns (eraseInst env addr size) s u s') :
    (¬ IsInc s.mem addr size ∧ s' = s) ∨
    (IsInc s.mem addr size ∧ env.answer s.asked = false ∧
      ∃ brackets, s' = { s with asked := s.asked + 1, brackets := brackets }) ∨
    (IsInc s.mem addr size ∧ env.answer s.asked = true ∧
      ∃ brackets, s' = { s with mem := erased addr s.mem, asked := s.asked + 1,
                                brackets := brackets }) := by
  simp only [eraseInst, returns_bind, returns_get] at h
  obtain ⟨_, _, ⟨rfl, rfl⟩, h⟩ := h
  by_cases hinc : IsInc s.mem addr size
  · rw [if_pos hinc, returns_bind] at h
    obtain ⟨granted, s₁, hlift, h⟩ := h
    obtain ⟨rfl, _, rfl⟩ := lift_cases hlift
    cases hgranted : env.answer s.asked with
    | false =>
      rw [hgranted] at h
      obtain ⟨-, rfl⟩ := returns_pure.mp h
      exact .inr (.inl ⟨hinc, rfl, _, rfl⟩)
    | true =>
      rw [hgranted, if_pos rfl] at h
      simp only [returns_bind, returns_modify, returns_pure] at h
      obtain ⟨_, _, rfl, _, s₂, hdrop, -, rfl⟩ := h
      obtain ⟨_, rfl⟩ := drop_cases hdrop
      exact .inr (.inr ⟨hinc, rfl, _, rfl⟩)
  · rw [if_neg hinc] at h
    obtain ⟨-, rfl⟩ := returns_pure.mp h
    exact .inl ⟨hinc, rfl⟩

/-- A turn ends the walk, or goes on behind the instruction. -/
theorem eraseFrom_cases {total : ℤ}
    (h : Returns (eraseFrom env limit (count + 1) addr total) s u s') :
    (quickInstructionSize env.hde s.mem addr 1 = 0 ∧ s' = s) ∨
    ∃ s₁, Returns (eraseInst env addr (quickInstructionSize env.hde s.mem addr 1)) s () s₁ ∧
      quickInstructionSize env.hde s.mem addr 1 ≠ 0 ∧
      ((0 < limit ∧ limit ≤ total + quickInstructionSize env.hde s.mem addr 1) ∧ s' = s₁ ∨
        ¬ (0 < limit ∧ limit ≤ total + quickInstructionSize env.hde s.mem addr 1) ∧
        Returns (eraseFrom env limit count
          (addr + BitVec.ofNat 64 (quickInstructionSize env.hde s.mem addr 1))
          (total + quickInstructionSize env.hde s.mem addr 1)) s₁ u s') := by
  simp only [eraseFrom, returns_bind, returns_get] at h
  obtain ⟨_, _, ⟨rfl, rfl⟩, h⟩ := h
  by_cases hzero : quickInstructionSize env.hde s.mem addr 1 = 0
  · rw [if_pos hzero] at h
    obtain ⟨-, rfl⟩ := returns_pure.mp h
    exact .inl ⟨hzero, rfl⟩
  · rw [if_neg hzero, returns_bind] at h
    obtain ⟨_, s₁, hinst, h⟩ := h
    refine .inr ⟨s₁, hinst, hzero, ?_⟩
    by_cases hlimit : 0 < limit ∧ limit ≤ total + quickInstructionSize env.hde s.mem addr 1
    · rw [if_pos hlimit] at h
      obtain ⟨-, rfl⟩ := returns_pure.mp h
      exact .inl ⟨hlimit, rfl⟩
    · rw [if_neg hlimit] at h
      exact .inr ⟨hlimit, h⟩

/-- The eraser changes the memory, and asks. -/
theorem eraseFrom_rest {total : ℤ} (h : Returns (eraseFrom env limit count addr total) s u s') :
    ∃ mem asked brackets, s' = { s with mem := mem, asked := asked, brackets := brackets } := by
  induction count generalizing addr total s with
  | zero =>
    obtain ⟨-, rfl⟩ := returns_pure.mp h
    exact ⟨_, _, _, rfl⟩
  | succ count ih =>
    obtain ⟨-, rfl⟩ | ⟨s₁, hinst, -, hend⟩ := eraseFrom_cases h
    · exact ⟨_, _, _, rfl⟩
    · have hfirst : ∃ mem asked brackets,
          s₁ = { s with mem := mem, asked := asked, brackets := brackets } := by
        obtain ⟨-, rfl⟩ | ⟨-, -, _, rfl⟩ | ⟨-, -, _, rfl⟩ := eraseInst_cases hinst
        · exact ⟨_, _, _, rfl⟩
        · exact ⟨_, _, _, rfl⟩
        · exact ⟨_, _, _, rfl⟩
      obtain ⟨_, _, _, rfl⟩ := hfirst
      obtain ⟨-, rfl⟩ | ⟨-, hrest⟩ := hend
      · exact ⟨_, _, _, rfl⟩
      · obtain ⟨_, _, _, rfl⟩ := ih hrest
        exact ⟨_, _, _, rfl⟩

/-! ## What is overwritten -/

theorem erased_of_mem {m : Mem} {x : Addr} (h : x ∈ block addr incInstSize) :
    erased addr m x = nop := by
  have hlt : (x - addr).toNat < (List.replicate incInstSize nop).length := by
    rw [List.length_replicate]
    exact h
  rw [erased, store_of_mem hlt, List.getElem_replicate]

theorem erased_of_notMem {m : Mem} {x : Addr} (h : x ∉ block addr incInstSize) :
    erased addr m x = m x :=
  store_of_notMem (by rwa [List.length_replicate])

/-- A turn writes `nop`s over one instruction. -/
theorem eraseInst_mem (h : Returns (eraseInst env addr size) s u s') (x : Addr) :
    s'.mem x = s.mem x ∨ x ∈ block addr incInstSize ∧ s'.mem x = nop := by
  obtain ⟨-, rfl⟩ | ⟨-, -, _, rfl⟩ | ⟨-, -, _, rfl⟩ := eraseInst_cases h
  · exact .inl rfl
  · exact .inl rfl
  · by_cases hx : x ∈ block addr incInstSize
    · exact .inr ⟨hx, erased_of_mem hx⟩
    · exact .inl (erased_of_notMem hx)

/-- What the eraser writes is a `nop`, in an instruction that starts below the limit. -/
theorem eraseFrom_mem {l total : ℕ} (hl : total < l)
    (h : Returns (eraseFrom env l count addr total) s u s') (x : Addr) :
    s'.mem x = s.mem x ∨ x ∈ block addr (l - total + 6) ∧ s'.mem x = nop := by
  induction count generalizing addr total s with
  | zero =>
    obtain ⟨-, rfl⟩ := returns_pure.mp h
    exact .inl rfl
  | succ count ih =>
    obtain ⟨-, rfl⟩ | ⟨s₁, hinst, -, hend⟩ := eraseFrom_cases h
    · exact .inl rfl
    · have hfirst : s₁.mem x = s.mem x ∨ x ∈ block addr (l - total + 6) ∧ s₁.mem x = nop := by
        obtain hsame | ⟨hx, hnop⟩ := eraseInst_mem hinst x
        · exact .inl hsame
        · exact .inr ⟨block_mono (by rw [incInstSize]; omega) hx, hnop⟩
      obtain ⟨-, rfl⟩ | ⟨hlimit, hrest⟩ := hend
      · exact hfirst
      · generalize quickInstructionSize env.hde s.mem addr 1 = size at hlimit hrest
        have hnext : total + size < l := by omega
        obtain hsame | ⟨hx, hnop⟩ := ih hnext (by exact_mod_cast hrest)
        · rw [hsame]
          exact hfirst
        · exact .inr ⟨block_add_subset (by omega) hx, hnop⟩

/-- A walk from the entry stays close to it. -/
theorem eraseCoverageInstPrefix_mem {l : ℕ} (hl : 0 < l)
    (h : Returns (eraseCoverageInstPrefix env addr count l) s u s') (x : Addr) :
    s'.mem x = s.mem x ∨ x ∈ block addr (l + 6) ∧ s'.mem x = nop :=
  eraseFrom_mem hl h x

/-! ## When something is overwritten -/

/-- The walk over the instructions in a memory comes to an `inc` that it may overwrite. -/
def hits (env : Env) (m : Mem) (limit : ℤ) : ℕ → ℕ → Addr → ℤ → Bool
  | 0, _, _, _ => false
  | count + 1, asked, addr, total =>
    let size := quickInstructionSize env.hde m addr 1
    if size = 0 then false
    else if IsInc m addr size ∧ env.answer asked then true
    else if 0 < limit ∧ limit ≤ total + size then false
    else
      hits env m limit count (if IsInc m addr size then asked + 1 else asked)
        (addr + BitVec.ofNat 64 size) (total + size)

theorem eraseInst_misses (h : Returns (eraseInst env addr size) s u s')
    (hinc : ¬ (IsInc s.mem addr size ∧ env.answer s.asked = true)) :
    s'.mem = s.mem ∧ s'.asked = if IsInc s.mem addr size then s.asked + 1 else s.asked := by
  obtain ⟨hno, rfl⟩ | ⟨hyes, -, _, rfl⟩ | ⟨hyes, hgranted, -⟩ := eraseInst_cases h
  · exact ⟨rfl, (if_neg hno).symm⟩
  · exact ⟨rfl, (if_pos hyes).symm⟩
  · exact absurd ⟨hyes, hgranted⟩ hinc

/-- Without such an instruction nothing changes. -/
theorem eraseFrom_of_not_hits {total : ℤ}
    (h : Returns (eraseFrom env limit count addr total) s u s')
    (hhits : hits env s.mem limit count s.asked addr total = false) : s'.mem = s.mem := by
  induction count generalizing addr total s with
  | zero =>
    obtain ⟨-, rfl⟩ := returns_pure.mp h
    rfl
  | succ count ih =>
    obtain ⟨-, rfl⟩ | ⟨s₁, hinst, hsize, hend⟩ := eraseFrom_cases h
    · rfl
    · rw [hits] at hhits
      generalize quickInstructionSize env.hde s.mem addr 1 = size at hhits hinst hsize hend
      rw [if_neg hsize] at hhits
      by_cases hinc : IsInc s.mem addr size ∧ env.answer s.asked = true
      · rw [if_pos hinc] at hhits
        cases hhits
      · rw [if_neg hinc] at hhits
        have hmem := eraseInst_misses hinst hinc
        obtain ⟨-, rfl⟩ | ⟨hlimit, hrest⟩ := hend
        · exact hmem.1
        · rw [if_neg hlimit] at hhits
          rw [← hmem.1]
          apply ih hrest
          rwa [hmem.1, hmem.2]

/-- The first such instruction is lost. -/
theorem eraseFrom_of_hits {l total : ℕ} (hl : total < l)
    (h : Returns (eraseFrom env l count addr total) s u s')
    (hhits : hits env s.mem l count s.asked addr total = true) :
    ∃ p < l - total, s.mem (addr + BitVec.ofNat 64 p) = 0x48 ∧
      s'.mem (addr + BitVec.ofNat 64 p) = nop := by
  induction count generalizing addr total s with
  | zero => cases hhits
  | succ count ih =>
    rw [hits] at hhits
    obtain ⟨hzero, -⟩ | ⟨s₁, hinst, hsize, hend⟩ := eraseFrom_cases h
    · rw [if_pos hzero] at hhits
      cases hhits
    · generalize quickInstructionSize env.hde s.mem addr 1 = size at hhits hinst hsize hend
      rw [if_neg hsize] at hhits
      by_cases hinc : IsInc s.mem addr size ∧ env.answer s.asked = true
      · -- the byte at the instruction is a `nop` now, and stays one
        have hfirst : s.mem addr = 0x48 := by
          have hload : load s.mem addr (1 + 2) = [0x48] ++ [0xFF, 0x05] := hinc.1.2
          rw [load_add] at hload
          simpa [load] using (List.append_inj hload rfl).1
        have hnop : s₁.mem addr = nop := by
          obtain ⟨hno, -⟩ | ⟨-, hno, -⟩ | ⟨-, -, _, rfl⟩ := eraseInst_cases hinst
          · exact absurd hinc.1 hno
          · exact absurd hinc.2 (by rw [hno]; decide)
          · exact erased_of_mem (self_mem_block (by decide))
        refine ⟨0, by omega, ?_⟩
        have haddr : addr + BitVec.ofNat 64 0 = addr := BitVec.add_zero addr
        rw [haddr]
        refine ⟨hfirst, ?_⟩
        obtain ⟨-, rfl⟩ | ⟨hlimit, hrest⟩ := hend
        · exact hnop
        · have hnext : total + size < l := by omega
          obtain hsame | ⟨-, hagain⟩ := eraseFrom_mem hnext (by exact_mod_cast hrest) addr
          · exact hsame.trans hnop
          · exact hagain
      · rw [if_neg hinc] at hhits
        have hmem := eraseInst_misses hinst hinc
        obtain ⟨hlimit, rfl⟩ | ⟨hlimit, hrest⟩ := hend
        · rw [if_pos hlimit] at hhits
          cases hhits
        · rw [if_neg hlimit] at hhits
          have hnext : total + size < l := by omega
          rw [← hmem.2, ← hmem.1] at hhits
          obtain ⟨p, hp, hold, hnew⟩ := ih hnext (by exact_mod_cast hrest) (by exact_mod_cast hhits)
          refine ⟨size + p, by omega, ?_⟩
          have haddr : addr + BitVec.ofNat 64 (size + p) =
              addr + BitVec.ofNat 64 size + BitVec.ofNat 64 p := by
            rw [BitVec.ofNat_add, BitVec.add_assoc]
          rw [haddr, ← hmem.1]
          exact ⟨hold, hnew⟩

/-! ## Jumps under the eraser -/

variable {entry dest : Addr} {j : Jump} {m m' : Mem}

/-- The eraser takes the instruction of a jump for what it is. -/
theorem quickInstructionSize_of_len {hde : Decoder} {n : ℕ} (h : hde.len m addr = some n) :
    quickInstructionSize hde m addr 1 = n := by
  have hpos := hde.pos h
  rw [quickInstructionSize, instructionsFrom, h]
  dsimp only
  rw [if_neg (by omega), Nat.zero_add]

/-- A jump is no `inc`, and the walk goes on behind its instruction. -/
theorem eraseFrom_jump {n : ℕ} (hlen : env.hde.len s.mem entry = some n) (hn : n < 7)
    (h : Returns (eraseCoverageInstPrefix env entry 5 longJump) s u s') :
    Returns (eraseFrom env longJump 4 (entry + BitVec.ofNat 64 n) n) s u s' ∧
      hits env s.mem longJump 5 s.asked entry 0 =
        hits env s.mem longJump 4 s.asked (entry + BitVec.ofNat 64 n) n := by
  have hsize := quickInstructionSize_of_len hlen
  have hpos := env.hde.pos hlen
  have hinc : ¬ IsInc s.mem entry n := fun hinc => absurd hinc.1 (by rw [incInstSize]; omega)
  have hlimit : ¬ (0 < (longJump : ℤ) ∧ (longJump : ℤ) ≤ 0 + n) := by
    rw [longJump]
    omega
  constructor
  · obtain ⟨hzero, -⟩ | ⟨s₁, hinst, -, hend⟩ := eraseFrom_cases h
    · omega
    · rw [hsize] at hinst hend
      obtain ⟨-, rfl⟩ | ⟨hno, -⟩ | ⟨hno, -⟩ := eraseInst_cases hinst
      · obtain ⟨hyes, -⟩ | ⟨-, hrest⟩ := hend
        · exact absurd hyes hlimit
        · rwa [zero_add] at hrest
      · exact absurd hno hinc
      · exact absurd hno hinc
  · rw [hits, hsize, if_neg (by omega), if_neg (fun hyes => hinc hyes.1), if_neg hlimit, if_neg hinc,
      zero_add]

/-- Behind the instruction of a jump, close to the entry, is all that the eraser reaches. -/
theorem eqOn_of_jump {n : ℕ} (hlen : env.hde.len s.mem entry = some n) (hn : n < 7)
    (h : Returns (eraseCoverageInstPrefix env entry 5 longJump) s u s') :
    Set.EqOn s'.mem s.mem (block (entry + BitVec.ofNat 64 n) (20 - n))ᶜ := by
  intro x hx
  obtain ⟨hrest, -⟩ := eraseFrom_jump hlen hn h
  have hlt : n < longJump := by
    rw [longJump]
    omega
  obtain hsame | ⟨hmem, -⟩ := eraseFrom_mem hlt hrest x
  · exact hsame
  · refine absurd (block_mono ?_ hmem) hx
    rw [longJump]
    omega

/-- The eraser goes around the instruction of an indirect jump. -/
theorem eqOn_of_indirect (h₀ : s.mem entry = 0xFF) (h₁ : s.mem (entry + 1) = 0x25)
    (h : Returns (eraseCoverageInstPrefix env entry 5 longJump) s u s') :
    Set.EqOn s'.mem s.mem (block entry 6) := by
  have hlen := env.hde.len_indirect h₀ h₁
  have hbehind : Disjoint (block entry 6) (block (entry + BitVec.ofNat 64 mediumJump) 14) :=
    disjoint_block_add le_rfl (by decide)
  exact fun x hx => eqOn_of_jump hlen (by decide) h (Set.disjoint_left.mp hbehind hx)

/-- The target of a long jump is lost exactly when an `inc` is found in it. -/
theorem long_intact_iff (hj : Jump.long.Stands entry dest s.mem)
    (h : Returns (eraseCoverageInstPrefix env entry 5 longJump) s u s') :
    (readChain s'.mem entry).1 = (readChain s.mem entry).1 ↔
      hits env s.mem longJump 5 s.asked entry 0 = false := by
  obtain ⟨h₀, h₁, hdisp⟩ := hj.indirect (by simp)
  have hlen := env.hde.len_indirect h₀ h₁
  have hcode := eqOn_of_indirect h₀ h₁ h
  have hread : readChain s'.mem entry = (read 64 s'.mem (entry + 6), some .Long) := by
    refine Jump.readChain_of_long ?_ ?_ ?_
    · exact (hcode (self_mem_block (by decide))).trans h₀
    · exact (hcode (@add_mem_block 64 entry 1 6 (by decide))).trans h₁
    · exact (read_congr (hcode.mono (block_add_subset (le_refl 6)))).trans hdisp
  rw [hread, Jump.readChain_of_long h₀ h₁ hdisp]
  constructor
  · intro htarget
    by_contra hhits
    rw [Bool.not_eq_false] at hhits
    obtain ⟨hrest, hwalk⟩ := eraseFrom_jump hlen (by decide) h
    rw [hwalk] at hhits
    -- an overwritten byte is one of the eight of the target
    obtain ⟨p, hp, hold, hnew⟩ := eraseFrom_of_hits (by decide) hrest hhits
    have hload := congrArg (·[p]?) (load_of_read (by decide) htarget)
    have hp' : p < 64 / 8 := hp
    simp only [getElem?_load hp', Option.some.injEq] at hload
    exact absurd (hnew.symm.trans (hload.trans hold)) (by decide)
  · intro hhits
    rw [eraseFrom_of_not_hits h hhits]

/-- A relative or slotted jump is never touched. -/
theorem stands_of_short (hj : j.Stands entry dest s.mem) (hlong : j ≠ .long)
    (hslot : ∀ a, j = .medium a → Disjoint (block a 8) (block entry 20))
    (h : Returns (eraseCoverageInstPrefix env entry 5 longJump) s u s') :
    j.Stands entry dest s'.mem := by
  apply hj.congr
  intro x hx
  cases j with
  | short =>
    have hlen := env.hde.len_relative hj.relative.1
    have hbehind : Disjoint (block entry smallJump) (block (entry + BitVec.ofNat 64 smallJump) 15) :=
      disjoint_block_add le_rfl (by decide)
    exact eqOn_of_jump hlen (by decide) h (Set.disjoint_left.mp hbehind hx)
  | medium a =>
    obtain ⟨h₀, h₁, -⟩ := hj.indirect (by simp)
    obtain hentry | hslot' := hx
    · exact eqOn_of_indirect h₀ h₁ h hentry
    · refine eqOn_of_jump (env.hde.len_indirect h₀ h₁) (by decide) h fun hreached => ?_
      exact Set.disjoint_left.mp (hslot a rfl) hslot' (block_add_subset (le_refl 20) hreached)
  | long => exact absurd rfl hlong

/-- **Intact jumps**: the eraser leaves a jump of the patcher intact unless it is a long one, and
the walk over its target as if it were instructions comes to an `inc` that may be overwritten. -/
theorem intact_iff (hj : j.Stands entry dest s.mem) (hr : j.Reaches entry dest)
    (hslot : ∀ a, j = .medium a → Disjoint (block a 8) (block entry 20))
    (h : Returns (eraseCoverageInstPrefix env entry 5 longJump) s u s') :
    (readChain s'.mem entry).1 = (readChain s.mem entry).1 ↔
      (j = .long → hits env s.mem longJump 5 s.asked entry 0 = false) := by
  by_cases hlong : j = .long
  · subst hlong
    rw [long_intact_iff hj h]
    exact ⟨fun hhits _ => hhits, fun hhits => hhits rfl⟩
  · have hsame := stands_of_short hj hlong hslot h
    rw [hsame.reads hr, hj.reads hr]
    exact iff_of_true rfl fun hl => absurd hl hlong

/-- A handler whose address starts with the bytes of an `inc`. -/
def incHandler : Addr := 0xFFFFFF7F8A05FF48

/-- A function with an instruction of two bytes where the last byte of a long jump will be. -/
def unrouted : State :=
  { nops with mem := store nops.mem 0x100D [0xFF, 0xC0] }

/-- The function with the jump to the handler. -/
def routedHandler : State :=
  { unrouted with mem := Jump.long.write 0x1000 incHandler unrouted.mem }

theorem intact_iff_handler : ∃ s',
    Returns (eraseCoverageInstPrefix sampleEnv 0x1000 5 longJump) routedHandler () s' ∧
      ((readChain s'.mem 0x1000).1 = (readChain routedHandler.mem 0x1000).1 ↔
        (Jump.long = .long → hits sampleEnv routedHandler.mem longJump 5 0 0x1000 0 = false)) :=
  ⟨_, rfl, @intact_iff sampleEnv routedHandler _ () 0x1000 incHandler .long
    (@Jump.stands_write unrouted.mem 0x1000 incHandler .long trivial) trivial (by simp) rfl⟩

/-- The function with a route to the handler, and then with another request for it. -/
def afterRoute : State :=
  (routeFunctionInternal sampleEnv { entry := 0x1000, dest := incHandler } unrouted).2

def afterRequest : State :=
  (eraseCoverageInstPrefix sampleEnv 0x1000 5 longJump afterRoute).2

/-- A route to this handler does not survive the next request for the function. -/
theorem not_intact_handler :
    ¬ ∀ (env : Env) (r : RouteArgs) (s s₁ s₂ : State) (trampoline : Addr) (j : Jump),
      SlotsFit s r → (∀ a, j = .medium a → Disjoint (block a 8) (block r.entry 20)) →
      Returns (routeFunctionInternal env r) s (.routed trampoline j) s₁ →
      Returns (eraseCoverageInstPrefix env r.entry 5 longJump) s₁ () s₂ →
      (readChain s₂.mem r.entry).1 = (readChain s₁.mem r.entry).1 := by
  intro h
  have hroute : (routeFunctionInternal sampleEnv { entry := 0x1000, dest := incHandler } unrouted).1 =
      .ok (.routed 0 .long) := by decide +kernel
  have herase : (eraseCoverageInstPrefix sampleEnv 0x1000 5 longJump afterRoute).1 = .ok () := by
    decide +kernel
  have hlost : (readChain afterRequest.mem 0x1000).1 ≠ (readChain afterRoute.mem 0x1000).1 := by
    decide +kernel
  exact hlost (h sampleEnv { entry := 0x1000, dest := incHandler } unrouted afterRoute afterRequest 0
    .long (by rintro id i ⟨⟩) (by simp) (Prod.ext hroute rfl) (Prod.ext herase rfl))

end Lilu.Patcher
