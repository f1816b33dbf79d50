import Mathlib.Tactic
import Lilu.Prelude.Memory
import Lilu.Kext.Listener

/-!
# The state of the routing code

The patcher writes jumps into functions that are running. What it works on is the memory, the
area for its trampolines, the undo log `kpatches`, and the address slots of the loaded images.
Whatever may fail outside of it (lifting the write protection, an allocation) is answered by an
oracle that every question advances.

## Main definitions

* `Decoder`: instruction lengths, with what the code relies on
* `Patch`, `MachInfo`, `State`, `Env`: undo records, slots, the state, and what is around it
* `PatcherM`: programs that change the state, and may panic or do what is undefined
* `Returns x s a s'`: the program `x` started in `s` ends with the value `a` in `s'`

## Main results

* `returns_bind`: a program of two parts, by its parts
-/

namespace Lilu.Patcher

open Kext (Error)

/-- `mach_vm_address_t`. -/
abbrev Addr := BitVec 64

/-- The bytes at all addresses. -/
abbrev Mem := Addr → UInt8

/-! ## Data -/

/-- Jump instruction sizes. -/
def smallJump : ℕ := 5
def longJump : ℕ := 14
def mediumJump : ℕ := 6

/-- First bytes of the jumps: `jmp rel32`, and `jmp qword ptr [rip + disp32]`. -/
def smallJumpPrefix : BitVec 8 := 0xE9
def longJumpPrefix : BitVec 16 := 0x25FF

def pageSize : ℕ := 4096
def tempExecutableMemorySize : ℕ := 4096

/-- Jump type for routing. -/
inductive JumpType where
  | Auto
  | Long
  | Short
  | Medium
  deriving DecidableEq, Repr

/-- What `hde_disasm` says about the lengths of instructions, `none` being a decoding failure: no
instruction is empty or longer than 15 bytes, and the jumps that are written here are instructions
of the length they are written with. -/
structure Decoder where
  len : Mem → Addr → Option ℕ
  pos : ∀ {m a n}, len m a = some n → 0 < n
  le_fifteen : ∀ {m a n}, len m a = some n → n ≤ 15
  len_indirect : ∀ {m : Mem} {a}, m a = 0xFF → m (a + 1) = 0x25 → len m a = some mediumJump
  len_relative : ∀ {m : Mem} {a}, m a = 0xE9 → len m a = some smallJump

/-- `Patch::All`: bytes to write at an address, and those that were there. The objects are told
apart by their number. -/
structure Patch where
  number : ℕ
  address : Addr
  original : List UInt8
  replaced : List UInt8
  same_size : original.length = replaced.length

/-- The part of an image's data that routing uses: the free address slots behind its header. -/
structure MachInfo where
  address_slots : Addr
  address_slots_end : Addr
  deriving DecidableEq, Repr

/-- What happened to the write protection: an attempt to lift it, or setting it again. -/
inductive Bracket where
  | lift (granted : Bool)
  | drop
  deriving DecidableEq, Repr

/-- The patcher. The fields from `asked` on record what happened; the code does not read them. -/
structure State where
  mem : Mem
  code : Error := .NoError
  tempExecutableMemoryOff : ℕ := 0
  kpatches : List Patch := []
  kinfos : List MachInfo
  /-- The bytes of the union `patch`. -/
  patch : List UInt8 := List.replicate 16 0
  /-- The variables that `org` pointers lead to. -/
  orgs : ℕ → Addr := fun _ => 0
  /-- How many questions the oracle has answered. -/
  asked : ℕ := 0
  /-- How many patch objects were created. -/
  created : ℕ := 0
  /-- The patch objects that were deleted, once for each time. -/
  deleted : List ℕ := []
  brackets : List Bracket := []
  /-- How often a route has ended with `EINVAL`. -/
  failures : ℕ := 0
  /-- How often the patches of a route could not be stored for later removal. -/
  lost : ℕ := 0
  /-- What stands for an original function: the trampolines, and the targets of earlier routes. -/
  originals : List Addr := []

/-- What is around the patcher. -/
structure Env where
  hde : Decoder
  /-- The address of the array `tempExecutableMemory`. -/
  tempExecutableMemory : Addr
  /-- Whether the write protection is lifted or an allocation succeeds, question by question. -/
  answer : ℕ → Bool
  /-- The running address of an image's symbol, zero when there is none. -/
  solve : ℕ → Kext.CString → Addr

/-! ## Programs -/

/-- A program that does not return; `unfinished` when the fuel for a loop is used up. -/
inductive Stop where
  | panic
  | undefined
  | unfinished
  deriving DecidableEq, Repr

/-- Programs over the state, which is known also where they stop. -/
abbrev PatcherM := ExceptT Stop (StateM State)

/-- The program ends with a value in a state. -/
def Returns {α : Type} (x : PatcherM α) (s : State) (a : α) (s' : State) : Prop :=
  x s = (.ok a, s')

section Returns

variable {α β : Type} {s s' : State} {a b : α}

@[simp] theorem returns_pure : Returns (pure a) s b s' ↔ a = b ∧ s = s' := by
  constructor
  · intro h
    cases h
    exact ⟨rfl, rfl⟩
  · rintro ⟨rfl, rfl⟩
    rfl

/-- A program of two parts, by its parts. -/
theorem returns_bind {x : PatcherM α} {f : α → PatcherM β} {b : β} :
    Returns (x >>= f) s b s' ↔ ∃ a s₁, Returns x s a s₁ ∧ Returns (f a) s₁ b s' := by
  have hbind : (x >>= f) s = ExceptT.bindCont f (x s).1 (x s).2 := rfl
  rw [Returns, hbind]
  rcases hx : x s with ⟨e | a, s₁⟩
  · constructor
    · intro h
      cases h
    · rintro ⟨a, s₁, ha, -⟩
      rw [Returns, hx] at ha
      cases ha
  · constructor
    · intro h
      exact ⟨a, s₁, hx, h⟩
    · rintro ⟨a', s₁', ha, hf⟩
      rw [Returns, hx] at ha
      cases ha
      exact hf

@[simp] theorem returns_get {s₁ : State} : Returns get s s₁ s' ↔ s = s₁ ∧ s = s' := by
  constructor
  · intro h
    cases h
    exact ⟨rfl, rfl⟩
  · rintro ⟨rfl, rfl⟩
    rfl

@[simp] theorem returns_modify {f : State → State} {u : Unit} :
    Returns (modify f) s u s' ↔ f s = s' := by
  constructor
  · intro h
    cases h
    rfl
  · rintro rfl
    rfl

@[simp] theorem not_returns_throw {e : Stop} : ¬ Returns (throw e) s a s' := by
  intro h
  cases h

theorem Returns.unique {x : PatcherM α} {s₁ : State} (h : Returns x s a s')
    (h₁ : Returns x s b s₁) : a = b ∧ s' = s₁ := by
  rw [Returns, h] at h₁
  cases h₁
  exact ⟨rfl, rfl⟩

end Returns

end Lilu.Patcher
