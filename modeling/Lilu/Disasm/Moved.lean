import Lilu.Disasm.InstructionSize
import Lilu.Patcher.Area

/-!
# Moved instructions

The entry of a function is moved to a trampoline, up to the end of an instruction. There it is read
like it was in the function, so that the instructions in a trampoline end where its jump begins.

## Main results

* `quickInstructionSize_copied`: copies have the size of what was copied
* `moved_instructions`: the trampolines of any run of requests
-/

namespace Lilu.Disasm

open Patcher (Mem Addr State Env Trampoline Returns createTrampoline trampolineAt trampolineFor
  tempExecutableMemorySize)

variable {m m' : Mem} {addr addr' : Addr} {min a b : ℕ} {code code' : ℕ → UInt8}

/-! ## Copies -/

/-- Memories that hold the same bytes are the same code. -/
theorem codeAt_of_load {n : ℕ} (h : load m' addr' n = load m addr n) :
    ∀ i < n, codeAt m' addr' i = codeAt m addr i := by
  intro i hi
  have hget := congrArg (·[i]?) h
  simp only [getElem?_load hi] at hget
  exact Option.some.inj hget

/-- **Copies have the size of what was copied**: where the bytes of whole instructions were copied
to, the patcher finds as many bytes of whole instructions. -/
theorem quickInstructionSize_copied
    (hne : Patcher.quickInstructionSize hde m addr min ≠ 0)
    (h : load m' addr' (Patcher.quickInstructionSize hde m addr min) =
      load m addr (Patcher.quickInstructionSize hde m addr min)) :
    Patcher.quickInstructionSize hde m' addr' min = Patcher.quickInstructionSize hde m addr min := by
  rw [quickInstructionSize_eq] at hne
  have hcode := codeAt_of_load h
  rw [quickInstructionSize_eq] at hcode
  rw [quickInstructionSize_eq, quickInstructionSize_eq]
  exact run_sizeFrom_congr hne hcode

/-- The entry of a function at an address: it pushes a register, and makes room on the stack. -/
def entryAt (addr : Addr) (other : UInt8) : Mem := fun x =>
  [0x55, 0x48, 0x89, 0xe5, 0x48, 0x83, 0xec, 0x10].getD (x - addr).toNat other

theorem size_entry : Patcher.quickInstructionSize hde (entryAt 0x1000 0xcc) 0x1000 5 = 8 := by
  decide +kernel

theorem quickInstructionSize_copied_entry :
    Patcher.quickInstructionSize hde (entryAt 0x8000 0x66) 0x8000 5 = 8 := by
  have hne : Patcher.quickInstructionSize hde (entryAt 0x1000 0xcc) 0x1000 5 ≠ 0 := by
    rw [size_entry]
    decide
  have hload : load (entryAt 0x8000 0x66) 0x8000
        (Patcher.quickInstructionSize hde (entryAt 0x1000 0xcc) 0x1000 5) =
      load (entryAt 0x1000 0xcc) 0x1000
        (Patcher.quickInstructionSize hde (entryAt 0x1000 0xcc) 0x1000 5) := by
    rw [size_entry]
    decide +kernel
  exact (quickInstructionSize_copied hne hload).trans size_entry

theorem Instructions.congr (h : Instructions code a b) (hcode : ∀ i < b, code' i = code i) :
    Instructions code' a b := by
  induction h with
  | none a => exact .none a
  | more hno h ih =>
    -- the instruction ends before the last one does
    have hsame := instructionAt_congr hno fun i hi => hcode i (hi.trans_le h.le)
    refine .more ?_ ?_
    · rw [hsame]
      exact hno
    · rw [hsame]
      exact ih hcode

/-! ## Trampolines -/

/-- Bytes that are whole instructions. -/
def Whole (bs : List UInt8) : Prop :=
  Instructions (fun i => bs.getD i 0) 0 bs.length

theorem whole_load : Whole (load m addr b) ↔ Instructions (codeAt m addr) 0 b := by
  have hcode : ∀ i < b, codeAt m addr i = (load m addr b).getD i 0 := by
    intro i hi
    rw [List.getD_eq_getElem?_getD, getElem?_load hi]
    rfl
  rw [Whole, length_load]
  constructor
  · exact fun h => h.congr hcode
  · exact fun h => h.congr fun i hi => (hcode i hi).symm

/-- The bytes that are moved are whole instructions. -/
theorem whole_quickInstructionSize (hne : Patcher.quickInstructionSize hde m addr min ≠ 0) :
    Whole (load m addr (Patcher.quickInstructionSize hde m addr min)) := by
  rw [quickInstructionSize_eq] at hne
  rw [whole_load, quickInstructionSize_eq]
  exact ((meets_quickInstructionSize (codeAt m addr) min).2.found hne).1

/-- The function of a trampoline is none of the trampolines. -/
def Outside (env : Env) (t : Trampoline) : Prop :=
  Disjoint (block env.tempExecutableMemory tempExecutableMemorySize)
    (block t.func t.prologue.length)

section Runs

variable {env : Env} {s₀ s : State} {ts : List Trampoline}

theorem whole_of_builds (henv : env.hde = hde) (hclear : Patcher.Clear env s₀)
    (hrun : Patcher.Builds env s₀ ts s) (hout : ∀ t ∈ ts, Outside env t) :
    ∀ t ∈ ts, Whole t.prologue := by
  induction hrun with
  | nil => exact fun t ht => absurd ht List.not_mem_nil
  | elsewhere _ _ _ ih => exact ih hout
  | @request ts s s' hrun opcodes func min trampoline hwrap hreturns ih =>
    have htidy := (hrun.tidy hclear).request hwrap hreturns
    obtain ⟨htrampoline, -, hbuilt⟩ | ⟨hzero, -⟩ := Patcher.createTrampoline_cases hreturns
    · split_ifs at hout htidy ⊢ with hzero
      · exact ih hout
      · intro t ht
        rcases List.mem_append.mp ht with hold | hnew
        · exact ih (fun t ht => hout t (List.mem_append_left _ ht)) t hold
        · obtain rfl := List.mem_singleton.mp hnew
          -- the opcodes are in the area, and the function is not
          have hin := htidy.inside ht
          have hsub : block (trampolineAt env s) opcodes.length ⊆
              (trampolineFor env opcodes func min s).cells :=
            block_mono (by rw [Patcher.trampolineFor_size]; omega)
          have hapart : Disjoint (block (trampolineAt env s) opcodes.length)
              (block func (Patcher.quickInstructionSize env.hde s.mem func min)) := by
            have := (hout _ ht).mono_left (hsub.trans hin)
            rwa [trampolineFor, length_load] at this
          rw [trampolineFor, load_store_disjoint hapart, henv]
          exact whole_quickInstructionSize (henv ▸ hbuilt.movable.1)
    · rw [if_pos hzero] at hout ⊢
      exact ih hout

/-- **Moved instructions**: in every run of requests from an array of zeros, the bytes that were
moved to a trampoline are whole instructions there, and the jump back stands right behind them. -/
theorem moved_instructions (henv : env.hde = hde)
    (hzero : ∀ x ∈ block env.tempExecutableMemory tempExecutableMemorySize, s₀.mem x = 0)
    (hrun : Patcher.Builds env s₀ ts s) (hout : ∀ t ∈ ts, Outside env t) :
    ∀ t ∈ ts, Instructions (codeAt s.mem (t.address + BitVec.ofNat 64 t.opcodes.length)) 0
        t.prologue.length ∧
      Patcher.readChain s.mem t.jumpAt = (t.rest, some t.jump.type) := by
  have hclear : Patcher.Clear env s₀ := fun k _ hk => hzero _ (add_mem_block hk)
  intro t ht
  have hstands := (hrun.tidy hclear).stands t ht
  refine ⟨?_, hstands.reads⟩
  rw [← whole_load, hstands.prologue_eq]
  exact whole_of_builds henv hclear hrun hout t ht

end Runs

/-- A patcher with this disassembler that gets everything it asks for. -/
def sampleEnv : Env :=
  { Patcher.sampleEnv with hde }

theorem size_nops :
    Patcher.quickInstructionSize hde Patcher.nopsAndZeros.mem 0x1000 5 = 5 := by
  decide +kernel

theorem moved_instructions_nops : ∃ t s, Patcher.Builds sampleEnv Patcher.nopsAndZeros [t] s ∧
    t.prologue.length = 5 ∧
    Instructions (codeAt s.mem (t.address + BitVec.ofNat 64 t.opcodes.length)) 0
      t.prologue.length := by
  have hzero : ∀ x ∈ block sampleEnv.tempExecutableMemory tempExecutableMemorySize,
      Patcher.nopsAndZeros.mem x = 0 := fun x hx => Patcher.zero_nopsAndZeros hx
  have hwrap : Patcher.NoWrap sampleEnv [] 0x1000 5 Patcher.nopsAndZeros := by
    show 0 + (Patcher.quickInstructionSize hde Patcher.nopsAndZeros.mem 0x1000 5 + _ + 0) < _
    rw [size_nops]
    decide
  obtain ⟨trampoline, s, hreturns⟩ : ∃ a s,
      Returns (createTrampoline sampleEnv [] 0x1000 5) Patcher.nopsAndZeros a s := by
    rcases Patcher.returns_or_stops (createTrampoline sampleEnv [] 0x1000 5) Patcher.nopsAndZeros
      with h | ⟨e, hstops⟩
    · exact h
    · exact absurd hstops
        (Patcher.createTrampoline_returns (fun k _ hk => hzero _ (add_mem_block hk)) hwrap)
  have hne : trampoline ≠ 0 := by
    intro h0
    rcases Patcher.createTrampoline_left hreturns with ⟨heq, -⟩ | ⟨-, hno, -⟩
    · exact absurd (heq.symm.trans h0) (by decide)
    · -- everything is granted
      refine hno ⟨?_, fun _ _ => rfl⟩
      show Patcher.Movable _ _ (Patcher.quickInstructionSize hde Patcher.nopsAndZeros.mem 0x1000 5)
      rw [size_nops]
      exact ⟨by decide, by decide, by decide⟩
  have hrun := Patcher.Builds.nil.request [] 0x1000 5 trampoline hwrap hreturns
  rw [if_neg hne] at hrun
  have hlen : (trampolineFor sampleEnv [] 0x1000 5 Patcher.nopsAndZeros).prologue.length = 5 :=
    length_load.trans size_nops
  have hout : ∀ t ∈ [] ++ [trampolineFor sampleEnv [] 0x1000 5 Patcher.nopsAndZeros],
      Outside sampleEnv t := by
    intro t ht
    obtain rfl := List.mem_singleton.mp ht
    rw [Outside, hlen]
    refine Set.disjoint_left.mpr fun x hx hx' => ?_
    have h1 := mem_block.mp hx
    have h2 := mem_block.mp hx'
    simp only [sampleEnv, Patcher.sampleEnv, trampolineFor, tempExecutableMemorySize] at h1 h2
    bv_omega
  exact ⟨_, s, hrun, hlen, (moved_instructions rfl hzero hrun hout _ (List.mem_singleton.mpr rfl)).1⟩

end Lilu.Disasm
