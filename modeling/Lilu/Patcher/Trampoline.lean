import Mathlib.Tactic
import Lilu.Patcher.Cases

/-!
# Trampolines

A trampoline holds the instructions that a route moves out of a function, behind opcodes of its own
if there are any, and a jump behind them that leads to the rest of the function.

## Main definitions

* `Movable`: the instructions can be moved, and there is room for them
* `Built`, `Unbuilt`, `Left`: what a call of `createTrampoline` has changed

## Main results

* `quickInstructionSize_bounds`: how many bytes are moved
* `createTrampoline_left`, `createTrampoline_cases`: a trampoline is built, or not
-/

namespace Lilu.Patcher

open Kext (Error)

variable {env : Env} {s s' : State}

/-! ## Instruction lengths -/

theorem instructionsFrom_bounds (hde : Decoder) (m : Mem) (min : ℕ) :
    ∀ {fuel : ℕ} {addr : Addr} {total : ℕ}, instructionsFrom hde m min fuel addr total ≠ 0 →
      min ≤ instructionsFrom hde m min fuel addr total ∧
        instructionsFrom hde m min fuel addr total ≤ max min total + 15 := by
  intro fuel
  induction fuel with
  | zero => exact fun h => absurd rfl h
  | succ fuel ih =>
    intro addr total h
    rw [instructionsFrom] at h ⊢
    cases hlen : hde.len m addr with
    | none =>
      rw [hlen] at h
      exact absurd rfl h
    | some len =>
      have hle := hde.le_fifteen hlen
      rw [hlen] at h
      dsimp only at h ⊢
      split_ifs at h ⊢ with hmin
      · obtain ⟨hlow, hhigh⟩ := ih h
        exact ⟨hlow, by omega⟩
      · omega

/-- **Prologues**: the moved instructions are no fewer bytes than asked for, and fewer than one
instruction more. -/
theorem quickInstructionSize_bounds {hde : Decoder} {m : Mem} {addr : Addr} {min : ℕ}
    (h : quickInstructionSize hde m addr min ≠ 0) :
    min ≤ quickInstructionSize hde m addr min ∧
      quickInstructionSize hde m addr min ≤ min + 15 := by
  obtain ⟨hlow, hhigh⟩ := instructionsFrom_bounds hde m min h
  exact ⟨hlow, by rwa [Nat.max_zero] at hhigh⟩

/-! ## Building a trampoline -/

variable {opcodes : List UInt8} {func trampoline : Addr} {min off : ℕ}

/-- The place of the next trampoline. -/
def trampolineAt (env : Env) (s : State) : Addr :=
  env.tempExecutableMemory + BitVec.ofNat 64 s.tempExecutableMemoryOff

/-- The memory with the opcodes and the first `off` bytes of a function in a trampoline. -/
def copied (opcodes : List UInt8) (func : Addr) (off : ℕ) (trampoline : Addr) (m : Mem) : Mem :=
  store (store m trampoline opcodes) (trampoline + BitVec.ofNat 64 opcodes.length)
    (load (store m trampoline opcodes) func off)

/-- The jump behind the copied instructions. -/
def backJump (opcodes : List UInt8) (func : Addr) (off : ℕ) (trampoline : Addr) : Jump :=
  .select (backRoute (trampoline + BitVec.ofNat 64 opcodes.length) func off).absolute 0

/-- The instructions can be moved, and there is room for them. -/
def Movable (s : State) (opnum off : ℕ) : Prop :=
  off ≠ 0 ∧ off ≤ pageSize - longJump ∧ s.used opnum off < tempExecutableMemorySize

/-- Without a slot a jump is read back wherever it leads. -/
theorem reaches_select (r : RouteArgs) : (Jump.select r.absolute 0).Reaches r.entry r.dest := by
  rw [Jump.select, if_neg (not_not.mpr rfl)]
  split_ifs with habsolute
  · trivial
  · by_contra hfar
    have hdecide : decide (Near (r.dest - (r.entry + 5))) = false := decide_eq_false hfar
    exact habsolute (by rw [RouteArgs.absolute, hdecide]; rfl)

/-- A trampoline has been built. -/
structure Built (env : Env) (opcodes : List UInt8) (func : Addr) (off : ℕ) (s s' : State) :
    Prop where
  movable : Movable s opcodes.length off
  mem_eq : s'.mem =
    (backJump opcodes func off (trampolineAt env s)).write
      (trampolineAt env s + BitVec.ofNat 64 opcodes.length + BitVec.ofNat 64 off)
      (func + BitVec.ofNat 64 off) (copied opcodes func off (trampolineAt env s) s.mem)
  off_eq : s'.tempExecutableMemoryOff = s.used opcodes.length off
  kpatches_eq : s'.kpatches = s.kpatches
  kinfos_eq : s'.kinfos = s.kinfos
  orgs_eq : s'.orgs = s.orgs
  failures_eq : s'.failures = s.failures
  lost_eq : s'.lost = s.lost
  originals_eq : s'.originals = s.originals ++ [trampolineAt env s]

/-- No trampoline has been built. -/
structure Unbuilt (env : Env) (opcodes : List UInt8) (func : Addr) (off : ℕ) (s s' : State) :
    Prop where
  mem_eq : s'.mem = s.mem ∨ (Movable s opcodes.length off ∧
    s'.mem = copied opcodes func off (trampolineAt env s) s.mem)
  kpatches_eq : s'.kpatches = s.kpatches
  kinfos_eq : s'.kinfos = s.kinfos
  orgs_eq : s'.orgs = s.orgs
  lost_eq : s'.lost = s.lost

/-- A route that wraps nothing and knows no image uses no slot. -/
theorem Finds.bare {create : Addr → ℕ → PatcherM Addr} {r : RouteArgs} {o : Option Original}
    (h : Finds create r s o s') (hwrap : r.buildWrapper = false) (hinfo : r.info = none)
    (hrevertible : r.revertible = false) : o = some ⟨0, 0, false⟩ ∧ s' = s := by
  cases h with
  | redirect hchain hprev htype hmedium hslot =>
    rw [hwrap] at hslot ⊢
    cases hslot with
    | taken hid => exact absurd (hid.symm.trans hinfo) (by simp)
    | none =>
      refine ⟨rfl, ?_⟩
      rw [if_neg (by simp), List.append_nil]
  | plain => exact ⟨by rw [hrevertible], rfl⟩
  | wrap _ hwrap' => exact absurd (hwrap.symm.trans hwrap') (by decide)
  | refuse _ hwrap' => exact absurd (hwrap.symm.trans hwrap') (by decide)

/-- The route behind the copied instructions is refused, or its jump is written. -/
theorem backRoute_cases {create : Addr → ℕ → PatcherM Addr} {route : Route} {prologue : Addr}
    (h : Returns (routeWith create env (backRoute prologue func off)) s route s') :
    (¬ Granted env s ((backRoute prologue func off).needs
        (.select (backRoute prologue func off).absolute 0)) ∧ Refused s s') ∨
      (Granted env s ((backRoute prologue func off).needs
        (.select (backRoute prologue func off).absolute 0)) ∧
        Installed (backRoute prologue func off) (.select (backRoute prologue func off).absolute 0)
          false s s') := by
  cases routeWith_cases h with
  | outOfRange htype => exact absurd htype (by simp [backRoute])
  | noOriginal _ hfinds => exact absurd (hfinds.bare rfl rfl rfl).1 (by simp)
  | refused _ hfinds hgranted hrefused =>
    obtain ⟨ho, rfl⟩ := hfinds.bare rfl rfl rfl
    obtain rfl := Option.some.inj ho
    exact .inl ⟨hgranted, hrefused⟩
  | installed _ hfinds hgranted hinstalled =>
    obtain ⟨ho, rfl⟩ := hfinds.bare rfl rfl rfl
    obtain rfl := Option.some.inj ho
    exact .inr ⟨hgranted, hinstalled⟩

/-- How much a trampoline asks for. -/
def trampolineNeeds (env : Env) (opcodes : List UInt8) (func : Addr) (off : ℕ) (s : State) : ℕ :=
  1 + (backRoute (trampolineAt env s + BitVec.ofNat 64 opcodes.length) func off).needs
    (backJump opcodes func off (trampolineAt env s))

theorem granted_one_add {n : ℕ} : Granted env s (1 + n) ↔
    env.answer s.asked = true ∧ Granted env { s with asked := s.asked + 1 } n := by
  constructor
  · intro h
    refine ⟨h 0 (by omega), fun k hk => ?_⟩
    rw [Nat.add_assoc]
    exact h (1 + k) (by omega)
  · rintro ⟨h₀, h⟩ k hk
    rcases k with _ | k
    · exact h₀
    · rw [Nat.add_comm k, ← Nat.add_assoc]
      exact h k (by omega)

/-- What a call that builds nothing leaves in the area: nothing, or the offset behind a request that
does not fit, or the instructions without their jump. -/
inductive Left (env : Env) (opcodes : List UInt8) (func : Addr) (off : ℕ) (s s' : State) : Prop where
  | untouched (hmem : s'.mem = s.mem)
      (hoff : s'.tempExecutableMemoryOff = s.tempExecutableMemoryOff)
  | full (hfull : tempExecutableMemorySize ≤ s.used opcodes.length off) (hmem : s'.mem = s.mem)
      (hoff : s'.tempExecutableMemoryOff = s.used opcodes.length off)
  | spent (hmovable : Movable s opcodes.length off)
      (hmem : s'.mem = copied opcodes func off (trampolineAt env s) s.mem)
      (hoff : s'.tempExecutableMemoryOff = s.used opcodes.length off)

theorem createTrampoline_left
    (h : Returns (createTrampoline env opcodes func min) s trampoline s') :
    (trampoline = trampolineAt env s ∧
      Granted env s (trampolineNeeds env opcodes func
        (quickInstructionSize env.hde s.mem func min) s) ∧
      Built env opcodes func (quickInstructionSize env.hde s.mem func min) s s') ∨
    (trampoline = 0 ∧
      ¬ (Movable s opcodes.length (quickInstructionSize env.hde s.mem func min) ∧
        Granted env s (trampolineNeeds env opcodes func
          (quickInstructionSize env.hde s.mem func min) s)) ∧
      Unbuilt env opcodes func (quickInstructionSize env.hde s.mem func min) s s' ∧
      Left env opcodes func (quickInstructionSize env.hde s.mem func min) s s') := by
  rw [createTrampoline, returns_bind] at h
  obtain ⟨granted, s₁, hlift, h⟩ := h
  obtain ⟨rfl, _, rfl⟩ := lift_cases hlift
  by_cases hgranted : env.answer s.asked = true
  · rw [if_pos hgranted] at h
    simp only [returns_bind, returns_get] at h
    obtain ⟨_, _, ⟨rfl, rfl⟩, h⟩ := h
    dsimp only at h
    generalize quickInstructionSize env.hde s.mem func min = off at h ⊢
    -- The decoder found no whole instructions, or too many of them: nothing is touched.
    by_cases hoff : off = 0 ∨ pageSize - longJump < off
    · rw [if_pos hoff] at h
      simp only [setError, returns_bind, returns_modify, returns_pure] at h
      obtain ⟨_, s₁, hdrop, _, _, rfl, rfl, rfl⟩ := h
      obtain ⟨_, rfl⟩ := drop_cases hdrop
      refine .inr ⟨rfl, fun hall => ?_, ⟨.inl rfl, rfl, rfl, rfl, rfl⟩, .untouched rfl rfl⟩
      exact hoff.elim hall.1.1 (not_lt.mpr hall.1.2.1)
    · rw [if_neg hoff, returns_bind] at h
      rw [not_or, not_lt] at hoff
      obtain ⟨_, s₁, hused, h⟩ := h
      obtain rfl := returns_modify.mp hused
      -- The offset is advanced before the room is tested, and stays so.
      by_cases hfull : tempExecutableMemorySize ≤ s.used opcodes.length off
      · rw [if_pos (by exact hfull)] at h
        simp only [setError, returns_bind, returns_modify, returns_pure] at h
        obtain ⟨_, s₁, hdrop, _, _, rfl, rfl, rfl⟩ := h
        obtain ⟨_, rfl⟩ := drop_cases hdrop
        refine .inr ⟨rfl, fun hall => ?_, ⟨.inl rfl, rfl, rfl, rfl, rfl⟩, .full hfull rfl rfl⟩
        exact not_lt.mpr hfull hall.1.2.2
      · rw [if_neg (by exact hfull)] at h
        have hmovable : Movable s opcodes.length off := ⟨hoff.1, hoff.2, not_le.mp hfull⟩
        simp only [clearError, setError, returns_bind, returns_modify, returns_get] at h
        obtain ⟨_, _, rfl, _, _, rfl, _, s₁, hdrop, _, _, rfl, route, s₂, hback, h⟩ := h
        obtain ⟨_, rfl⟩ := drop_cases hdrop
        obtain ⟨_, _, ⟨rfl, rfl⟩, h⟩ := h
        -- The error code was cleared before the jump behind the instructions, so it tells whether
        -- that jump was written.
        obtain ⟨hrefused, hr⟩ | ⟨hgranted', hi⟩ := backRoute_cases hback
        · rw [if_neg hr.code_ne] at h
          obtain ⟨rfl, rfl⟩ := returns_pure.mp h
          refine .inr ⟨rfl, fun hall => hrefused (granted_one_add.mp hall.2).2,
            ⟨.inr ⟨hmovable, hr.mem_eq⟩, hr.kpatches_eq, hr.kinfos_eq, hr.orgs_eq, hr.lost_eq⟩,
            .spent hmovable hr.mem_eq hr.off_eq⟩
        · rw [if_pos hi.code_eq] at h
          simp only [returns_bind, returns_modify, returns_pure] at h
          obtain ⟨_, _, rfl, rfl, rfl⟩ := h
          obtain ⟨hkpatches, hlost, -⟩ := hi.not_kept (by simp)
          refine .inl ⟨rfl, granted_one_add.mpr ⟨hgranted, hgranted'⟩, ⟨hmovable, ?_, hi.off_eq,
            hkpatches, hi.kinfos_eq, hi.orgs_eq, hi.failures_eq, hlost, ?_⟩⟩
          · have hreaches := reaches_select
              (backRoute (trampolineAt env s + BitVec.ofNat 64 opcodes.length) func off)
            obtain hmem | hmem := hi.mem_eq
            · exact hmem.trans (Jump.wide_eq_write _ hreaches)
            · exact hmem.trans (Jump.pieces_eq_write _)
          · exact congrArg (· ++ _) hi.originals_eq
  · rw [if_neg hgranted] at h
    simp only [setError, returns_bind, returns_modify, returns_pure] at h
    obtain ⟨_, _, rfl, rfl, rfl⟩ := h
    refine .inr ⟨rfl, fun hall => hgranted ?_, ⟨.inl rfl, rfl, rfl, rfl, rfl⟩, .untouched rfl rfl⟩
    exact hall.2 0 (Nat.lt_of_lt_of_le Nat.one_pos (Nat.le_add_right 1 _))

/-- **Building a trampoline**: either the instructions are there with a jump behind them, or
nothing has changed but the area for trampolines. -/
theorem createTrampoline_cases
    (h : Returns (createTrampoline env opcodes func min) s trampoline s') :
    (trampoline = trampolineAt env s ∧
      Granted env s (trampolineNeeds env opcodes func
        (quickInstructionSize env.hde s.mem func min) s) ∧
      Built env opcodes func (quickInstructionSize env.hde s.mem func min) s s') ∨
    (trampoline = 0 ∧
      ¬ (Movable s opcodes.length (quickInstructionSize env.hde s.mem func min) ∧
        Granted env s (trampolineNeeds env opcodes func
          (quickInstructionSize env.hde s.mem func min) s)) ∧
      Unbuilt env opcodes func (quickInstructionSize env.hde s.mem func min) s s') :=
  (createTrampoline_left h).imp_right fun ⟨hzero, hnot, hunbuilt, _⟩ => ⟨hzero, hnot, hunbuilt⟩

/-! ## The memory around a trampoline -/

/-- Without a slot a jump occupies the bytes at its entry only. -/
theorem cells_select (absolute : Bool) (entry : Addr) :
    (Jump.select absolute 0).cells entry = block entry (Jump.select absolute 0).size := by
  rw [Jump.select, if_neg (not_not.mpr rfl)]
  split_ifs <;> rfl

theorem copied_eqOn_block (t : Addr) (m : Mem) :
    Set.EqOn (copied opcodes func off t m) m (block t (opcodes.length + off))ᶜ := by
  intro x hx
  rw [copied, store_of_notMem, store_of_notMem]
  · exact fun hmem => hx (block_mono (Nat.le_add_right _ _) hmem)
  · rw [length_load]
    exact fun hmem => hx (block_add_subset le_rfl hmem)

/-- A new trampoline takes the opcodes, the instructions and at most a long jump. -/
theorem Built.eqOn_block (h : Built env opcodes func off s s') : Set.EqOn s'.mem s.mem
    (block (trampolineAt env s) (opcodes.length + off + longJump))ᶜ := by
  intro x hx
  have hcopied : x ∉ block (trampolineAt env s) (opcodes.length + off) :=
    fun hmem => hx (block_mono (Nat.le_add_right _ _) hmem)
  rw [h.mem_eq, Jump.write_eqOn _ ?_, copied_eqOn_block _ _ hcopied]
  intro hjump
  rw [backJump, cells_select, BitVec.add_assoc, ← BitVec.ofNat_add] at hjump
  exact hx (block_add_subset (Nat.add_le_add_left (Jump.size_le _) _) hjump)

end Lilu.Patcher
