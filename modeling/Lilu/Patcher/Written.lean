import Mathlib.Tactic
import Lilu.Patcher.Trampoline

/-!
# What a route leaves behind

A route that does not fail has written its jump: it is read back with its kind and its target,
whichever way it was written, and nothing else has changed but the new trampoline.

## Main definitions

* `SlotsFit`: the next address slot is near the function and not in it
* `trampolineArea`: where trampolines are

## Main results

* `routed_write`: a route that does not fail, as a jump on top of a memory with its trampoline
* `route_exact`: the jump is read back, and nothing else changes
-/

namespace Lilu.Patcher

variable {env : Env} {s s' : State} {r : RouteArgs} {trampoline : Addr} {jump : Jump}

/-! ## Displacements -/

/-- A displacement fits into 32 bits if it is less than 2 GiB either way. -/
theorem near_iff {diff : Addr} : Near diff ↔ -2 ^ 31 ≤ diff.toInt ∧ diff.toInt < 2 ^ 31 := by
  have hcut : ((diff.setWidth 32).signExtend 64).toInt = Int.bmod diff.toNat (2 ^ 32) := by
    rw [BitVec.toInt_signExtend_of_le (by decide), BitVec.toInt_setWidth]
  have hdiff : diff.toInt = Int.bmod diff.toNat (2 ^ 64) := BitVec.toInt_eq_toNat_bmod diff
  have hlt := diff.isLt
  rw [Near, ← BitVec.toInt_inj, hcut, hdiff, Int.bmod_def, Int.bmod_def]
  omega

/-! ## Places -/

/-- The bytes that a new trampoline takes. -/
def newTrampoline (env : Env) (s : State) (off : ℕ) : Set Addr :=
  block (trampolineAt env s) (off + longJump)

/-- The array of the trampolines, and the page before it, where one can start when the offset into
the array has run over. -/
def trampolineArea (env : Env) : Set Addr :=
  block (env.tempExecutableMemory - BitVec.ofNat 64 pageSize) (pageSize + tempExecutableMemorySize)

theorem newTrampoline_subset {off : ℕ} (h : Movable s 0 off) :
    newTrampoline env s off ⊆ trampolineArea env := by
  obtain ⟨-, hoff, hused⟩ := h
  intro x hx
  rw [newTrampoline, mem_block, trampolineAt] at hx
  rw [State.used] at hused
  rw [trampolineArea, mem_block]
  have hsplit : x - (env.tempExecutableMemory - BitVec.ofNat 64 pageSize) =
      x - (env.tempExecutableMemory + BitVec.ofNat 64 s.tempExecutableMemoryOff) +
        BitVec.ofNat 64 s.tempExecutableMemoryOff + BitVec.ofNat 64 pageSize := by
    bv_omega
  rw [hsplit, BitVec.toNat_add, BitVec.toNat_add, BitVec.toNat_ofNat, BitVec.toNat_ofNat]
  simp only [pageSize, longJump, tempExecutableMemorySize] at *
  omega

/-! ## The memory around a trampoline -/

section Around

variable {func : Addr} {off : ℕ}

theorem copied_eqOn (t : Addr) (m : Mem) :
    Set.EqOn (copied [] func off t m) m (block t off)ᶜ := by
  have heq := @copied_eqOn_block [] func off t m
  rwa [List.length_nil, Nat.zero_add] at heq

theorem Built.eqOn (h : Built env [] func off s s') :
    Set.EqOn s'.mem s.mem (newTrampoline env s off)ᶜ := by
  have heq := h.eqOn_block
  rwa [List.length_nil, Nat.zero_add] at heq

theorem Unbuilt.eqOn (h : Unbuilt env [] func off s s') :
    s'.mem = s.mem ∨ Movable s 0 off ∧ Set.EqOn s'.mem s.mem (newTrampoline env s off)ᶜ := by
  obtain hmem | ⟨hmovable, hmem⟩ := h.mem_eq
  · exact .inl hmem
  -- The instructions were copied, but the jump behind them was not written.
  · refine .inr ⟨hmovable, fun x hx => ?_⟩
    rw [hmem]
    exact copied_eqOn _ _ fun hmem => hx (block_mono (Nat.le_add_right _ _) hmem)

end Around

/-! ## Finding the original -/

section Finding

variable {o : Option Original} {original : Original}

/-- The next free slot of the image is near the function and not in it. -/
def SlotsFit (s : State) (r : RouteArgs) : Prop :=
  ∀ id i, r.info = some id → s.kinfos[id]? = some i → i.HasSlot →
    (Jump.medium i.address_slots).Reaches r.entry r.dest

/-- A route wraps a function that was not routed before. -/
def Wraps (s : State) (r : RouteArgs) : Prop :=
  r.buildWrapper = true ∧ (readChain s.mem r.entry).1 = 0

instance (s : State) (r : RouteArgs) : Decidable (Wraps s r) :=
  inferInstanceAs (Decidable (_ ∧ _))

/-- A slot in use is one that the image had. -/
theorem Finds.slot {create : Addr → ℕ → PatcherM Addr} (h : Finds create r s (some original) s') :
    original.addressSlot = 0 ∨
      ∃ id i, r.info = some id ∧ s.kinfos[id]? = some i ∧ i.HasSlot ∧
        original.addressSlot = i.address_slots := by
  cases h with
  | redirect _ _ _ _ hslot =>
    cases hslot with
    | taken hinfo hid hslot => exact .inr ⟨_, _, hinfo, hid, hslot, rfl⟩
    | none => exact .inl rfl
  | plain => exact .inl rfl
  | wrap _ _ _ hslot =>
    cases hslot with
    | taken hinfo hid hslot => exact .inr ⟨_, _, hinfo, hid, hslot, rfl⟩
    | none => exact .inl rfl

theorem Finds.reaches {create : Addr → ℕ → PatcherM Addr} (hfit : SlotsFit s r)
    (h : Finds create r s (some original) s') :
    (Jump.select r.absolute original.addressSlot).Reaches r.entry r.dest := by
  -- Without a slot the jump reaches as the type of the route says, with one as the slot lies.
  obtain hzero | ⟨id, i, hinfo, hid, hfree, hslot⟩ := h.slot
  · rw [hzero]
    exact reaches_select r
  · by_cases hzero : original.addressSlot = 0
    · rw [hzero]
      exact reaches_select r
    · rw [Jump.select, if_pos hzero, hslot]
      exact hfit id i hinfo hid hfree

theorem TakesSlot.mem_eq {info : Option ℕ} {slot : Addr} (h : TakesSlot info s slot s') :
    s'.mem = s.mem := by
  cases h <;> rfl

theorem TakesSlot.off_eq {info : Option ℕ} {slot : Addr} (h : TakesSlot info s slot s') :
    s'.tempExecutableMemoryOff = s.tempExecutableMemoryOff := by
  cases h <;> rfl

/-- How many bytes of the function a new trampoline for the jump holds. -/
def moved (env : Env) (s : State) (r : RouteArgs) (jump : Jump) : ℕ :=
  quickInstructionSize env.hde s.mem r.entry jump.size

theorem newTrampoline_congr {off : ℕ}
    (hoff : s'.tempExecutableMemoryOff = s.tempExecutableMemoryOff) :
    newTrampoline env s' off = newTrampoline env s off := by
  rw [newTrampoline, newTrampoline, trampolineAt, trampolineAt, hoff]

theorem movable_congr {off : ℕ} (hoff : s'.tempExecutableMemoryOff = s.tempExecutableMemoryOff) :
    Movable s' 0 off ↔ Movable s 0 off := by
  rw [Movable, Movable, State.used, State.used, hoff]

/-- The instructions at the entry of a function that is wrapped can be moved. -/
theorem Finds.movable (h : Finds (createTrampoline env []) r s (some original) s')
    (hw : Wraps s r) : Movable s 0 (moved env s r (.select r.absolute original.addressSlot)) := by
  cases h with
  | redirect hchain => exact absurd hw.2 hchain
  | plain _ hwrap => exact absurd (hwrap.symm.trans hw.1) (by decide)
  | wrap _ _ _ hslot hmade hne =>
    obtain ⟨-, -, hbuilt⟩ | ⟨hzero, -⟩ := createTrampoline_cases hmade
    · have hmovable := hbuilt.movable
      rw [hslot.mem_eq] at hmovable
      exact (movable_congr hslot.off_eq).mp hmovable
    · exact absurd hzero hne

/-- The memory with the original: a route that wraps has put a trampoline into it. -/
theorem Finds.eqOn (h : Finds (createTrampoline env []) r s (some original) s') :
    s'.mem = s.mem ∨ Wraps s r ∧ Set.EqOn s'.mem s.mem
      (newTrampoline env s (moved env s r (.select r.absolute original.addressSlot)))ᶜ := by
  cases h with
  | redirect _ _ _ _ hslot => exact .inl hslot.mem_eq
  | plain => exact .inl rfl
  | wrap hchain hwrap _ hslot hmade hne =>
    obtain ⟨-, -, hbuilt⟩ | ⟨hzero, -⟩ := createTrampoline_cases hmade
    · have heq := hbuilt.eqOn
      rw [hslot.mem_eq, newTrampoline_congr hslot.off_eq] at heq
      exact .inr ⟨⟨hwrap, hchain⟩, heq⟩
    · exact absurd hzero hne

/-- Outside of the area for trampolines finding the original changes nothing. -/
theorem Finds.eqOn_area {o : Option Original} (h : Finds (createTrampoline env []) r s o s') :
    Set.EqOn s'.mem s.mem (trampolineArea env)ᶜ := by
  cases o with
  | some original =>
    obtain hmem | ⟨hwraps, heq⟩ := h.eqOn
    · exact fun x _ => congrFun hmem x
    · exact heq.mono (Set.compl_subset_compl.mpr (newTrampoline_subset (h.movable hwraps)))
  | none =>
    cases h with
    | refuse _ _ _ hslot hmade =>
      rw [← hslot.mem_eq]
      obtain ⟨-, -, hbuilt⟩ | ⟨-, -, hunbuilt⟩ := createTrampoline_cases hmade
      · exact hbuilt.eqOn.mono (Set.compl_subset_compl.mpr (newTrampoline_subset hbuilt.movable))
      · obtain hmem | ⟨hmovable, heq⟩ := hunbuilt.eqOn
        · exact fun x _ => congrFun hmem x
        · exact heq.mono (Set.compl_subset_compl.mpr (newTrampoline_subset hmovable))

end Finding

/-! ## Routes -/

theorem withOrg_mem {org : Option ℕ} {t : Addr} : (s.withOrg org t).mem = s.mem := by
  cases org <;> rfl

/-- A route that does not fail, as a jump that is written on top of what finding the original has
left. -/
theorem routed_cases (h : Returns (routeFunctionInternal env r) s (.routed trampoline jump) s') :
    ∃ original s₁, Finds (createTrampoline env []) r s (some original) s₁ ∧
      trampoline = original.trampoline ∧ jump = .select r.absolute original.addressSlot ∧
      Installed r jump original.revertible (s₁.withOrg r.org trampoline) s' := by
  cases routeWith_cases h with
  | installed _ hfinds _ hinstalled => exact ⟨_, _, hfinds, rfl, rfl, hinstalled⟩

/-- The memory is the one with the original, with the jump in it. -/
theorem routed_write (hfit : SlotsFit s r)
    (h : Returns (routeFunctionInternal env r) s (.routed trampoline jump) s') :
    ∃ original s₁, Finds (createTrampoline env []) r s (some original) s₁ ∧
      jump = .select r.absolute original.addressSlot ∧ jump.Reaches r.entry r.dest ∧
      s'.mem = jump.write r.entry r.dest s₁.mem := by
  obtain ⟨original, s₁, hfinds, -, rfl, hi⟩ := routed_cases h
  have hreaches := hfinds.reaches hfit
  refine ⟨original, s₁, hfinds, rfl, hreaches, ?_⟩
  -- The wide store and the patches write the same bytes.
  obtain hmem | hmem := hi.mem_eq
  · rw [hmem, Jump.wide_eq_write _ hreaches, withOrg_mem]
  · rw [hmem, Jump.pieces_eq_write, withOrg_mem]

/-- **A route that does not fail**: its jump is read back from the entry, with the kind that was
written. When it is written the memory `m` differs from before in a new trampoline only; the wide
store and the patches leave the same memory, which differs from `m` in the jump and its slot
only. -/
theorem route_exact (hfit : SlotsFit s r)
    (h : Returns (routeFunctionInternal env r) s (.routed trampoline jump) s') :
    readChain s'.mem r.entry = (r.dest, some jump.type) ∧
      ∃ m, (∀ x, (Wraps s r → x ∉ newTrampoline env s (moved env s r jump)) → m x = s.mem x) ∧
        s'.mem = jump.pieces r.entry r.dest m ∧
        (∀ patch, s'.mem = jump.wide r.entry r.dest m patch) ∧
        ∀ x, x ∉ jump.cells r.entry → s'.mem x = m x := by
  obtain ⟨original, s₁, hfinds, hjump, hreaches, hmem⟩ := routed_write hfit h
  refine ⟨?_, s₁.mem, ?_, ?_, fun patch => ?_, ?_⟩
  · rw [hmem]
    exact (Jump.stands_write hreaches).reads hreaches
  · intro x htrampoline
    obtain hsame | ⟨hwraps, heq⟩ := hfinds.eqOn
    · exact congrFun hsame x
    · rw [← hjump] at heq
      exact heq (htrampoline hwraps)
  · rw [hmem, Jump.pieces_eq_write]
  · rw [hmem, Jump.wide_eq_write _ hreaches]
  · intro x hx
    rw [hmem, Jump.write_eqOn _ hx]

/-! ## Examples -/

/-- A decoder that knows the instructions of the examples: `nop`, the two jumps, `inc` of a quadword
at an address relative to `rip`, and `inc` of a register. -/
def Decoder.sample : Decoder where
  len m a :=
    if m a = 0x90 then some 1
    else if m a = 0xE9 then some smallJump
    else if m a = 0xFF ∧ m (a + 1) = 0x25 then some mediumJump
    else if m a = 0x48 ∧ m (a + 1) = 0xFF ∧ m (a + 2) = 0x05 then some 7
    else if m a = 0xFF ∧ m (a + 1) = 0xC0 then some 2
    else none
  pos := by
    intro m a n h
    split_ifs at h <;> obtain rfl := Option.some.inj h <;> decide
  le_fifteen := by
    intro m a n h
    split_ifs at h <;> obtain rfl := Option.some.inj h <;> decide
  len_indirect := by
    intro m a h₀ h₁
    rw [if_neg (by rw [h₀]; decide), if_neg (by rw [h₀]; decide), if_pos ⟨h₀, h₁⟩]
  len_relative := by
    intro m a h
    rw [if_neg (by rw [h]; decide), if_pos h]

/-- A patcher that gets everything it asks for. -/
def sampleEnv : Env where
  hde := .sample
  tempExecutableMemory := 0x8000
  answer := fun _ => true
  solve := fun _ _ => 0x1000

/-- A memory of `nop`s, and an image with a page of address slots. -/
def nops : State where
  mem := fun _ => 0x90
  kinfos := [⟨0x2000, 0x3000⟩]

/-- A route to a handler that is far away. -/
def farWrapper : RouteArgs where
  entry := 0x1000
  dest := 0xFFFFFF7F80001230
  buildWrapper := true
  info := some 0

theorem slotsFit_nops : SlotsFit nops farWrapper := by
  rintro id i ⟨⟩ hid -
  obtain rfl := Option.some.inj hid
  refine ⟨by decide, Set.disjoint_left.mpr fun x hx hx' => ?_⟩
  rw [mem_block] at hx hx'
  simp only [farWrapper] at hx'
  bv_omega

theorem route_exact_slotted : ∃ trampoline s',
    Returns (routeFunctionInternal sampleEnv farWrapper) nops
        (.routed trampoline (.medium 0x2000)) s' ∧
      readChain s'.mem 0x1000 = (0xFFFFFF7F80001230, some .Medium) :=
  ⟨_, _, rfl, (@route_exact sampleEnv nops _ farWrapper _ (.medium 0x2000) slotsFit_nops rfl).1⟩

/-- The bytes of the jump and its slot are not all that a route may change: one that wraps writes a
trampoline. -/
theorem not_unchanged_wrapper :
    ¬ ∀ (env : Env) (r : RouteArgs) (s s' : State) (trampoline : Addr) (jump : Jump),
      SlotsFit s r → r.dest ≠ 0 →
      Returns (routeFunctionInternal env r) s (.routed trampoline jump) s' →
      readChain s'.mem r.entry = (r.dest, some jump.type) ∧
        ∀ x, x ∉ jump.cells r.entry → s'.mem x = s.mem x := by
  intro h
  have hunchanged := (h sampleEnv farWrapper nops _ _ (.medium 0x2000) slotsFit_nops
    (by decide) rfl).2 0x8006
  have houtside : (0x8006 : Addr) ∉ (Jump.medium 0x2000).cells farWrapper.entry := by
    rintro (hmem | hmem)
    · exact absurd hmem (by rw [mem_block]; decide)
    · exact absurd hmem (by rw [mem_block]; decide)
  exact absurd (hunchanged houtside) (by decide +kernel)

end Lilu.Patcher
