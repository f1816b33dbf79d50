import Mathlib.Tactic
import Lilu.Patcher.Stops

/-!
# The area for trampolines

Trampolines are built one behind another in an array. The offset into it only grows, and it grows
before the room is checked. In every run of requests the trampolines stay apart and keep what was
written to them, and the rest of the array stays zero, which is why the jump of a new trampoline is
never taken for a second route. A request that does not fit takes all that is left.

## Main definitions

* `Clear`: the bytes behind the offset are zero
* `Trampoline`, `Trampoline.Stands`: what a call has returned, and its bytes in memory
* `Builds`: runs of requests
* `State.free`: how many bytes the next request may have

## Main results

* `createTrampoline_returns`: with zeros behind the offset no request panics
* `Builds.tidy`: trampolines stay apart and keep their bytes
* `free_kept_iff`: what a request that does not fit costs
-/

namespace Lilu.Patcher

variable {env : Env} {s s₀ s₁ s' : State} {e : Stop} {opcodes : List UInt8} {func : Addr}
  {min off n : ℕ} {t trampoline : Addr}

/-! ## Requests do not panic -/

/-- The address at an offset into the array. -/
def areaAt (env : Env) (k : ℕ) : Addr :=
  env.tempExecutableMemory + BitVec.ofNat 64 k

/-- The bytes behind the offset are zero. -/
def Clear (env : Env) (s : State) : Prop :=
  ∀ k, s.tempExecutableMemoryOff ≤ k → k < tempExecutableMemorySize → s.mem (areaAt env k) = 0

/-- The offset does not wrap around. -/
def NoWrap (env : Env) (opcodes : List UInt8) (func : Addr) (min : ℕ) (s : State) : Prop :=
  s.tempExecutableMemoryOff +
    (quickInstructionSize env.hde s.mem func min + longJump + opcodes.length) < 2 ^ 64

instance : Decidable (NoWrap env opcodes func min s) :=
  inferInstanceAs (Decidable (_ < _))

theorem readChain_of_zero {m : Mem} {a : Addr} (h : m a = 0) : readChain m a = (0, none) := by
  have hnone : (readChain m a).2 = none := by
    rw [readChain_snd_eq_none_iff, h]
    exact ⟨fun hno => absurd hno.1 (by decide), by decide⟩
  rw [readChain] at hnone ⊢
  split_ifs at hnone ⊢
  rfl

/-- Objects that exist can be written. -/
theorem writeJump_returns {entry : Addr} {jump : Jump} {opcode argument disp : Option Patch}
    (hop : opcode.isSome) (harg : argument.isSome) (hdisp : jump ≠ .short → disp.isSome) :
    Avoids e (writeJump entry jump opcode argument disp) := by
  obtain ⟨opcode, rfl⟩ := Option.isSome_iff_exists.mp hop
  obtain ⟨argument, rfl⟩ := Option.isSome_iff_exists.mp harg
  have hpatch : ∀ p : Patch, Avoids e (Patch.patch (some p)) := fun p => avoids_modify _
  have hentry : Avoids e (writeEntry entry (some opcode) (some argument)) :=
    (avoids_modify _).ite ((hpatch _).bind fun _ => hpatch _)
  cases jump with
  | short => exact hentry
  | medium addressSlot =>
    obtain ⟨disp, rfl⟩ := Option.isSome_iff_exists.mp (hdisp (by simp))
    exact (hpatch _).bind fun _ => hentry
  | long =>
    obtain ⟨disp, rfl⟩ := Option.isSome_iff_exists.mp (hdisp (by simp))
    apply (avoids_modify _).ite
    apply (hpatch _).bind
    intro _
    exact (hpatch _).bind fun _ => hpatch _

/-- A jump without a slot that nobody undoes is written or refused. -/
theorem install_returns {r : RouteArgs} {o : Original} (hslot : o.addressSlot = 0)
    (hrevertible : o.revertible = false) : Avoids e (install env r o) := by
  apply (avoids_modify _).bind
  intro _
  apply (composed_createPatches _ _ _).never_stops.bind
  rintro ⟨opcode, argument, disp⟩
  intro s h
  dsimp only at h
  split_ifs at h with hnull
  · exact (composed_giveUp _ _ _ _).never_stops _ h
  · refine ((avoids_mayWrite _).bind fun granted => Avoids.ite ?_ (composed_giveUp _ _ _ _).never_stops) _ h
    simp only [Bool.or_eq_true, Bool.and_eq_true, not_or, not_and, Bool.not_eq_true,
      Option.isNone_eq_false_iff] at hnull
    obtain ⟨⟨hop, harg⟩, hdisp⟩ := hnull
    rw [hslot, commit]
    -- without a slot only a long jump has a third object, and a long jump is absolute
    refine (writeJump_returns hop harg fun hne => hdisp ?_).bind fun _ => ?_
    · by_contra habsolute
      rw [Bool.not_eq_true] at habsolute
      exact hne (by rw [habsolute]; rfl)
    · rw [hrevertible]
      have hafter : Avoids e (afterWrite env r.kernelRoute false opcode argument disp) :=
        ((avoids_setKernelWriting _).bind fun _ => avoids_pure _).ite (avoids_pure _)
      apply hafter.bind
      intro kept
      apply (avoids_pure _).ite
      exact (composed_deletePatches _ _ _).never_stops.bind fun _ => avoids_pure _

/-- The jump behind the instructions is never a second route where there are zeros. -/
theorem backRoute_returns {create : Addr → ℕ → PatcherM Addr} {prologue : Addr}
    (hzero : s.mem (prologue + BitVec.ofNat 64 off) = 0) :
    ¬ Stops (routeWith create env (backRoute prologue func off)) s e := by
  have horiginal : Returns (original create (backRoute prologue func off)) s
      (some ⟨0, 0, false⟩) s := by
    simp only [original, returns_bind, returns_get]
    refine ⟨_, _, ⟨rfl, rfl⟩, ?_⟩
    have hchain : readChain s.mem (backRoute prologue func off).entry = (0, none) :=
      readChain_of_zero hzero
    rw [hchain]
    exact returns_pure.mpr ⟨rfl, rfl⟩
  intro h
  rw [routeWith, if_neg (by simp [backRoute]), stops_bind] at h
  obtain h | ⟨o, s₁, ho, h⟩ := h
  · exact horiginal.not_stops h
  · obtain ⟨rfl, -⟩ := ho.unique horiginal
    exact (avoids_modify _).bind (fun _ => install_returns rfl rfl) s₁ h

/-- The end of the copied instructions, with the room behind it. -/
theorem copied_end {m : Mem} (hfit : opcodes.length + off < 2 ^ 64) (t : Addr) :
    copied opcodes func off t m
        (t + BitVec.ofNat 64 opcodes.length + BitVec.ofNat 64 off) =
      m (t + BitVec.ofNat 64 (opcodes.length + off)) := by
  rw [BitVec.add_assoc, ← BitVec.ofNat_add]
  apply copied_eqOn_block
  have hapart : Disjoint (block t (opcodes.length + off))
      (block (t + BitVec.ofNat 64 (opcodes.length + off)) 1) :=
    disjoint_block_add le_rfl (by omega)
  exact Set.disjoint_right.mp hapart (self_mem_block Nat.one_pos)

/-- **No panic**: as long as there are zeros behind the offset, every request for a trampoline
returns. -/
theorem createTrampoline_returns (hclear : Clear env s) (hwrap : NoWrap env opcodes func min s) :
    ¬ Stops (createTrampoline env opcodes func min) s e := by
  have hfail : ∀ code, Avoids e (do
      let _ ← setKernelWriting env false
      setError code
      pure (0 : Addr)) := fun code =>
    (avoids_setKernelWriting _).bind fun _ => (avoids_modify _).bind fun _ => avoids_pure _
  rw [createTrampoline, (avoids_setKernelWriting _).stops_bind]
  rintro ⟨granted, s₁, hlift, h⟩
  obtain ⟨rfl, _, rfl⟩ := lift_cases hlift
  split_ifs at h with hgranted
  · rw [avoids_get.stops_bind] at h
    obtain ⟨_, _, hs, h⟩ := h
    obtain ⟨rfl, rfl⟩ := returns_get.mp hs
    dsimp only at h
    rw [NoWrap] at hwrap
    -- from here on only the length of the moved instructions matters
    generalize quickInstructionSize env.hde s.mem func min = off at h hwrap
    split_ifs at h with hoff hfull
    · exact hfail _ _ h
    · exact (avoids_modify _).bind (fun _ => hfail _) _ h
    · rw [(avoids_modify _).stops_bind] at h
      obtain ⟨_, _, hoffset, h⟩ := h
      obtain rfl := returns_modify.mp hoffset
      -- the steps up to the route behind the instructions all return
      rw [(avoids_modify _).stops_bind] at h
      obtain ⟨_, _, hopcodes, h⟩ := h
      obtain rfl := returns_modify.mp hopcodes
      rw [(avoids_modify _).stops_bind] at h
      obtain ⟨_, _, hprologue, h⟩ := h
      obtain rfl := returns_modify.mp hprologue
      rw [(avoids_setKernelWriting _).stops_bind] at h
      obtain ⟨_, _, hdrop, h⟩ := h
      obtain ⟨_, rfl⟩ := drop_cases hdrop
      rw [clearError, setError, (avoids_modify _).stops_bind] at h
      obtain ⟨_, _, hcode, h⟩ := h
      obtain rfl := returns_modify.mp hcode
      rw [stops_bind] at h
      obtain h | ⟨_, s₁, -, h⟩ := h
      · refine backRoute_returns ?_ h
        -- the route begins in the array, behind all that was written
        have hroom : s.tempExecutableMemoryOff + (opcodes.length + off) <
            tempExecutableMemorySize := by
          have hused : s.used opcodes.length off =
              s.tempExecutableMemoryOff + (off + longJump + opcodes.length) :=
            Nat.mod_eq_of_lt hwrap
          have hlt : s.used opcodes.length off < tempExecutableMemorySize := not_le.mp hfull
          omega
        apply (copied_end (m := s.mem) (by omega) (trampolineAt env s)).trans
        rw [trampolineAt, BitVec.add_assoc, ← BitVec.ofNat_add]
        exact hclear _ (Nat.le_add_right _ _) hroom
      · refine avoids_get.bind (fun s => Avoids.ite ?_ (avoids_pure _)) s₁ h
        exact (avoids_modify _).bind fun _ => avoids_pure _
  · exact ((avoids_modify _).bind fun _ => avoids_pure _) _ h

/-! ## Places in the area -/

/-- Places in the array that do not meet. -/
theorem disjoint_areaAt {o o' k : ℕ} (h : o + k ≤ o') (hw : o' + n ≤ 2 ^ 64) :
    Disjoint (block (areaAt env o) k) (block (areaAt env o') n) := by
  have hnext : areaAt env o' = areaAt env o + BitVec.ofNat 64 (o' - o) := by
    rw [areaAt, areaAt, BitVec.add_assoc, ← BitVec.ofNat_add, Nat.add_sub_cancel' (by omega)]
  rw [hnext]
  exact disjoint_block_add (by omega) (by omega)

/-- What a request changes: the offset grows, and only bytes between the old and the new offset are
written. -/
theorem createTrampoline_frame (hwrap : NoWrap env opcodes func min s)
    (h : Returns (createTrampoline env opcodes func min) s trampoline s') :
    ∃ n ≤ opcodes.length + quickInstructionSize env.hde s.mem func min + longJump,
      s'.tempExecutableMemoryOff = s.tempExecutableMemoryOff + n ∧
      (s'.mem = s.mem ∨ s.tempExecutableMemoryOff + n < tempExecutableMemorySize ∧
        Set.EqOn s'.mem s.mem (block (trampolineAt env s) n)ᶜ) := by
  rw [NoWrap] at hwrap
  have hcases := createTrampoline_left h
  generalize quickInstructionSize env.hde s.mem func min = off at hwrap hcases
  have hused : s.used opcodes.length off =
      s.tempExecutableMemoryOff + (opcodes.length + off + longJump) := by
    rw [State.used, Nat.mod_eq_of_lt hwrap]
    omega
  obtain ⟨-, -, hbuilt⟩ | ⟨-, -, -, hleft⟩ := hcases
  · refine ⟨_, le_rfl, hbuilt.off_eq.trans hused, .inr ⟨?_, ?_⟩⟩
    · exact hused ▸ hbuilt.movable.2.2
    · exact hbuilt.eqOn_block
  · cases hleft with
    | untouched hmem hoff => exact ⟨0, Nat.zero_le _, hoff, .inl hmem⟩
    | full _ hmem hoff => exact ⟨_, le_rfl, hoff.trans hused, .inl hmem⟩
    | spent hmovable hmem hoff =>
      refine ⟨_, le_rfl, hoff.trans hused, .inr ⟨?_, fun x hx => ?_⟩⟩
      · exact hused ▸ hmovable.2.2
      · rw [hmem]
        exact copied_eqOn_block _ _ fun hcopied => hx (block_mono (Nat.le_add_right _ _) hcopied)

theorem Clear.request (hclear : Clear env s) (hwrap : NoWrap env opcodes func min s)
    (h : Returns (createTrampoline env opcodes func min) s trampoline s') : Clear env s' := by
  obtain ⟨n, -, hoff, hmem⟩ := createTrampoline_frame hwrap h
  intro k hk hsize
  rw [hoff] at hk
  obtain hmem | ⟨hfit, heq⟩ := hmem
  · rw [hmem]
    exact hclear k (by omega) hsize
  · have hsmall : tempExecutableMemorySize ≤ 2 ^ 64 := by decide
    have hapart : Disjoint (block (trampolineAt env s) n) (block (areaAt env k) 1) :=
      disjoint_areaAt hk (by omega)
    rw [heq (Set.disjoint_right.mp hapart (self_mem_block Nat.one_pos))]
    exact hclear k (by omega) hsize

/-! ## Trampolines -/

/-- A trampoline that was returned, with the bytes that were copied from the function. -/
structure Trampoline where
  address : Addr
  opcodes : List UInt8
  func : Addr
  prologue : List UInt8

namespace Trampoline

def size (t : Trampoline) : ℕ :=
  t.opcodes.length + t.prologue.length + longJump

/-- The bytes that are reserved for it. -/
def cells (t : Trampoline) : Set Addr :=
  block t.address t.size

/-- Where its jump is. -/
def jumpAt (t : Trampoline) : Addr :=
  t.address + BitVec.ofNat 64 t.opcodes.length + BitVec.ofNat 64 t.prologue.length

/-- Where the copied bytes end in the function. -/
def rest (t : Trampoline) : Addr :=
  t.func + BitVec.ofNat 64 t.prologue.length

def jump (t : Trampoline) : Jump :=
  backJump t.opcodes t.func t.prologue.length t.address

/-- The opcodes, the copied bytes and the jump are in memory. -/
structure Stands (t : Trampoline) (m : Mem) : Prop where
  opcodes_eq : load m t.address t.opcodes.length = t.opcodes
  prologue_eq : load m (t.address + BitVec.ofNat 64 t.opcodes.length) t.prologue.length = t.prologue
  jump_stands : t.jump.Stands t.jumpAt t.rest m

/-- The jump leads to the end of the copied bytes in the function. -/
theorem Stands.reads {t : Trampoline} {m : Mem} (h : t.Stands m) :
    readChain m t.jumpAt = (t.rest, some t.jump.type) :=
  h.jump_stands.reads (reaches_select (backRoute _ _ _))

theorem jumpAt_eq (t : Trampoline) :
    t.jumpAt = t.address + BitVec.ofNat 64 (t.opcodes.length + t.prologue.length) := by
  rw [jumpAt, BitVec.add_assoc, ← BitVec.ofNat_add]

theorem jump_cells (t : Trampoline) : t.jump.cells t.jumpAt = block t.jumpAt t.jump.size :=
  cells_select _ _

theorem Stands.congr {t : Trampoline} {m m' : Mem} (h : t.Stands m)
    (heq : Set.EqOn m' m t.cells) : t.Stands m' where
  opcodes_eq := by
    refine (load_congr (heq.mono (block_mono ?_))).trans h.opcodes_eq
    rw [size]
    omega
  prologue_eq := by
    refine (load_congr (heq.mono (block_add_subset ?_))).trans h.prologue_eq
    rw [size]
    omega
  jump_stands := by
    apply h.jump_stands.congr
    rw [jump_cells, jumpAt_eq]
    exact heq.mono (block_add_subset (Nat.add_le_add_left (Jump.size_le _) _))

end Trampoline

/-- The trampoline for a request. The opcodes are in place when the instructions are copied. -/
def trampolineFor (env : Env) (opcodes : List UInt8) (func : Addr) (min : ℕ) (s : State) :
    Trampoline where
  address := trampolineAt env s
  opcodes := opcodes
  func := func
  prologue := load (store s.mem (trampolineAt env s) opcodes) func
    (quickInstructionSize env.hde s.mem func min)

theorem trampolineFor_size : (trampolineFor env opcodes func min s).size =
    opcodes.length + quickInstructionSize env.hde s.mem func min + longJump := by
  rw [Trampoline.size, trampolineFor, length_load]

/-- A new trampoline has its bytes. -/
theorem Built.stands (hwrap : NoWrap env opcodes func min s)
    (h : Built env opcodes func (quickInstructionSize env.hde s.mem func min) s s') :
    (trampolineFor env opcodes func min s).Stands s'.mem := by
  have hmem := h.mem_eq
  rw [NoWrap] at hwrap
  have hlen : (trampolineFor env opcodes func min s).prologue.length =
      quickInstructionSize env.hde s.mem func min := length_load
  generalize hoff : quickInstructionSize env.hde s.mem func min = off at hwrap hmem hlen
  have hreaches : (trampolineFor env opcodes func min s).jump.Reaches
      (trampolineFor env opcodes func min s).jumpAt (trampolineFor env opcodes func min s).rest :=
    reaches_select (backRoute _ _ _)
  have hwrite : s'.mem = (trampolineFor env opcodes func min s).jump.write
      (trampolineFor env opcodes func min s).jumpAt (trampolineFor env opcodes func min s).rest
      (copied opcodes func off (trampolineAt env s) s.mem) := by
    rw [hmem, Trampoline.jump, Trampoline.jumpAt, Trampoline.rest, hlen]
    rfl
  -- the jump is behind what was copied
  have hbefore : ∀ x ∈ block (trampolineAt env s) (opcodes.length + off),
      s'.mem x = copied opcodes func off (trampolineAt env s) s.mem x := by
    intro x hx
    rw [hwrite]
    apply Jump.write_eqOn
    rw [Trampoline.jump_cells, Trampoline.jumpAt_eq, hlen]
    have hsize := (trampolineFor env opcodes func min s).jump.size_le
    have hapart : Disjoint (block (trampolineAt env s) (opcodes.length + off))
        (block (trampolineAt env s + BitVec.ofNat 64 (opcodes.length + off))
          (trampolineFor env opcodes func min s).jump.size) :=
      disjoint_block_add le_rfl (by rw [longJump] at hwrap; omega)
    exact Set.disjoint_left.mp hapart hx
  have hnext : Disjoint (block (trampolineAt env s) opcodes.length)
      (block (trampolineAt env s + BitVec.ofNat 64 opcodes.length) off) :=
    disjoint_block_add le_rfl (by omega)
  constructor
  · have hopcodes : load s'.mem (trampolineAt env s) opcodes.length =
        load (copied opcodes func off (trampolineAt env s) s.mem) (trampolineAt env s)
          opcodes.length :=
      load_congr fun x hx => hbefore x (block_mono (Nat.le_add_right _ _) hx)
    refine hopcodes.trans ?_
    rw [copied, load_store_disjoint (by rw [length_load]; exact hnext.symm)]
    exact load_store (by omega)
  · have hprologue : load s'.mem (trampolineAt env s + BitVec.ofNat 64 opcodes.length) off =
        load (copied opcodes func off (trampolineAt env s) s.mem)
          (trampolineAt env s + BitVec.ofNat 64 opcodes.length) off :=
      load_congr fun x hx => hbefore x (block_add_subset le_rfl hx)
    have hfits : (load (store s.mem (trampolineAt env s) opcodes) func off).length ≤ 2 ^ 64 := by
      rw [length_load]
      omega
    have hcopied := @load_store _ _ (store s.mem (trampolineAt env s) opcodes)
      (trampolineAt env s + BitVec.ofNat 64 opcodes.length) _ hfits
    rw [length_load] at hcopied
    rw [hlen]
    refine (hprologue.trans hcopied).trans ?_
    rw [trampolineFor, hoff]
  · rw [hwrite]
    exact Jump.stands_write hreaches

/-! ## Runs of requests -/

variable {ts : List Trampoline}

/-- Requests that have returned, one after the other, with the trampolines that they have returned.
What happens between them leaves the array alone. -/
inductive Builds (env : Env) (s₀ : State) : List Trampoline → State → Prop where
  | nil : Builds env s₀ [] s₀
  | elsewhere {ts : List Trampoline} {s s' : State} (hrun : Builds env s₀ ts s)
      (hmem : Set.EqOn s'.mem s.mem (block env.tempExecutableMemory tempExecutableMemorySize))
      (hoff : s'.tempExecutableMemoryOff = s.tempExecutableMemoryOff) : Builds env s₀ ts s'
  | request {ts : List Trampoline} {s s' : State} (hrun : Builds env s₀ ts s)
      (opcodes : List UInt8) (func : Addr) (min : ℕ) (trampoline : Addr)
      (hwrap : NoWrap env opcodes func min s)
      (h : Returns (createTrampoline env opcodes func min) s trampoline s') :
      Builds env s₀
        (if trampoline = 0 then ts else ts ++ [trampolineFor env opcodes func min s]) s'

/-- The trampolines are below the offset, apart from each other, and have their bytes. -/
structure Tidy (env : Env) (ts : List Trampoline) (s : State) : Prop where
  clear : Clear env s
  below : ∀ t ∈ ts, ∃ o, t.address = areaAt env o ∧
    o + t.size ≤ s.tempExecutableMemoryOff ∧ o + t.size ≤ tempExecutableMemorySize
  apart : ts.Pairwise fun t t' => Disjoint t.cells t'.cells
  stands : ∀ t ∈ ts, t.Stands s.mem

theorem Tidy.inside (h : Tidy env ts s) {t : Trampoline} (ht : t ∈ ts) :
    t.cells ⊆ block env.tempExecutableMemory tempExecutableMemorySize := by
  obtain ⟨o, haddress, -, hroom⟩ := h.below t ht
  rw [Trampoline.cells, haddress]
  exact block_add_subset hroom

/-- A request leaves the trampolines that are there alone. -/
theorem Tidy.frame (h : Tidy env ts s) (hwrap : NoWrap env opcodes func min s)
    (hreturns : Returns (createTrampoline env opcodes func min) s trampoline s')
    {t : Trampoline} (ht : t ∈ ts) : Set.EqOn s'.mem s.mem t.cells := by
  obtain ⟨n, -, -, hmem | ⟨hfit, heq⟩⟩ := createTrampoline_frame hwrap hreturns
  · exact fun x _ => congrFun hmem x
  · obtain ⟨o, haddress, hlow, -⟩ := h.below t ht
    -- what is written begins at the old offset, where the trampoline has ended
    have hsmall : tempExecutableMemorySize ≤ 2 ^ 64 := by decide
    have hapart : Disjoint t.cells (block (trampolineAt env s) n) := by
      rw [Trampoline.cells, haddress]
      exact disjoint_areaAt hlow (by omega)
    exact fun x hx => heq (Set.disjoint_left.mp hapart hx)

/-- **A step of a run**: a request leaves what is there, and what it returns is apart from it. -/
theorem Tidy.request (h : Tidy env ts s) (hwrap : NoWrap env opcodes func min s)
    (hreturns : Returns (createTrampoline env opcodes func min) s trampoline s') :
    Tidy env (if trampoline = 0 then ts else ts ++ [trampolineFor env opcodes func min s]) s' := by
  obtain ⟨n, -, hoff, -⟩ := createTrampoline_frame hwrap hreturns
  -- what was there is below the old offset, and not touched
  have hold : Tidy env ts s' := by
    refine ⟨h.clear.request hwrap hreturns, fun t ht => ?_, h.apart, fun t ht => ?_⟩
    · obtain ⟨o, haddress, hlow, hroom⟩ := h.below t ht
      exact ⟨o, haddress, by omega, hroom⟩
    · exact (h.stands t ht).congr (h.frame hwrap hreturns ht)
  split_ifs with hzero
  · exact hold
  · obtain ⟨-, -, hbuilt⟩ | ⟨hno, -⟩ := createTrampoline_cases hreturns
    · have hend : s'.tempExecutableMemoryOff =
          s.tempExecutableMemoryOff + (trampolineFor env opcodes func min s).size := by
        rw [hbuilt.off_eq, State.used, trampolineFor_size]
        rw [NoWrap] at hwrap
        rw [Nat.mod_eq_of_lt hwrap]
        omega
      have hfit : s'.tempExecutableMemoryOff < tempExecutableMemorySize :=
        hbuilt.off_eq ▸ hbuilt.movable.2.2
      refine ⟨hold.clear, fun t ht => ?_, ?_, fun t ht => ?_⟩
      · obtain ht | ht := List.mem_append.mp ht
        · exact hold.below t ht
        · obtain rfl := List.mem_singleton.mp ht
          exact ⟨s.tempExecutableMemoryOff, rfl, hend.ge, by omega⟩
      -- the new one begins at the old offset, where the others have ended
      · rw [List.pairwise_append]
        refine ⟨h.apart, List.pairwise_singleton _ _, fun t ht t' ht' => ?_⟩
        obtain rfl := List.mem_singleton.mp ht'
        obtain ⟨o, haddress, hlow, -⟩ := h.below t ht
        have hsmall : tempExecutableMemorySize ≤ 2 ^ 64 := by decide
        rw [Trampoline.cells, haddress]
        exact disjoint_areaAt hlow (by omega)
      · obtain ht | ht := List.mem_append.mp ht
        · exact hold.stands t ht
        · obtain rfl := List.mem_singleton.mp ht
          exact hbuilt.stands hwrap
    · exact absurd hno hzero

theorem Builds.tidy (hclear : Clear env s₀) (hrun : Builds env s₀ ts s) : Tidy env ts s := by
  -- Induction on the run; the step of a request is a lemma of its own.
  induction hrun with
  | nil => exact ⟨hclear, by simp, .nil, by simp⟩
  | @elsewhere ts s s' _ hmem hoff ih =>
    have hsmall : tempExecutableMemorySize ≤ 2 ^ 64 := by decide
    refine ⟨fun k hk hsize => ?_, ?_, ih.apart, fun t ht => ?_⟩
    · have hsame : s'.mem (areaAt env k) = s.mem (areaAt env k) := hmem (add_mem_block hsize)
      rw [hsame]
      exact ih.clear k (hoff ▸ hk) hsize
    · rw [hoff]
      exact ih.below
    · exact (ih.stands t ht).congr (hmem.mono (ih.inside ht))
  | request _ opcodes func min trampoline hwrap hreturns ih => exact ih.request hwrap hreturns

/-- **The area for trampolines**: in every run of requests from an array of zeros, whatever they ask
for and whether they succeed or not, the trampolines that were returned are apart from each other
and inside of the array, and each has its opcodes, what was copied from its function, and a jump to
the end of that. Every further request returns, and changes no byte of them. -/
theorem trampolines_stand
    (hzero : ∀ x ∈ block env.tempExecutableMemory tempExecutableMemorySize, s₀.mem x = 0)
    (hrun : Builds env s₀ ts s) :
    (ts.Pairwise fun t t' => Disjoint t.cells t'.cells) ∧
      (∀ t ∈ ts, t.cells ⊆ block env.tempExecutableMemory tempExecutableMemorySize ∧
        t.Stands s.mem ∧ readChain s.mem t.jumpAt = (t.rest, some t.jump.type)) ∧
      ∀ opcodes func min, NoWrap env opcodes func min s → ∃ a s',
        Returns (createTrampoline env opcodes func min) s a s' ∧
          ∀ t ∈ ts, Set.EqOn s'.mem s.mem t.cells := by
  have htidy := hrun.tidy fun k _ hk => hzero _ (add_mem_block hk)
  refine ⟨htidy.apart, fun t ht => ?_, fun opcodes func min hwrap => ?_⟩
  · have hstands := htidy.stands t ht
    exact ⟨htidy.inside ht, hstands, hstands.reads⟩
  · obtain ⟨a, s', hreturns⟩ | ⟨e, hstops⟩ :=
      returns_or_stops (createTrampoline env opcodes func min) s
    · exact ⟨a, s', hreturns, fun t ht => htidy.frame hwrap hreturns ht⟩
    · exact absurd hstops (createTrampoline_returns htidy.clear hwrap)

/-- A memory of `nop`s with zeros from the array on. -/
def nopsAndZeros : State where
  mem := fun x => if x < 0x8000 then 0x90 else 0
  kinfos := []

theorem zero_nopsAndZeros {x : Addr}
    (hx : x ∈ block sampleEnv.tempExecutableMemory tempExecutableMemorySize) :
    nopsAndZeros.mem x = 0 := by
  rw [mem_block] at hx
  simp only [sampleEnv, tempExecutableMemorySize] at hx
  exact if_neg (by bv_omega)

theorem trampolines_stand_two : ∃ t t' s, Builds sampleEnv nopsAndZeros [t, t'] s ∧
    Disjoint t.cells t'.cells ∧ readChain s.mem t.jumpAt = (t.rest, some t.jump.type) := by
  have hfirst : Builds sampleEnv nopsAndZeros [_] _ :=
    Builds.nil.request [0xCC] 0x1000 5 0x8000 (by decide) rfl
  have hrun : Builds sampleEnv nopsAndZeros [_, _] _ :=
    hfirst.request [] 0x1800 14 0x8014 (by decide) rfl
  obtain ⟨hapart, hstand, -⟩ := trampolines_stand (fun _ => zero_nopsAndZeros) hrun
  refine ⟨_, _, _, hrun, ?_, (hstand _ (by simp)).2.2⟩
  exact (List.pairwise_cons.mp hapart).1 _ (by simp)

/-! ## Room -/

/-- How many bytes the next request may have; the last byte of the array is never used. -/
def State.free (s : State) : ℕ :=
  tempExecutableMemorySize - 1 - s.tempExecutableMemoryOff

/-- A request of `n` bytes fits. -/
def State.Fits (s : State) (n : ℕ) : Prop :=
  s.tempExecutableMemoryOff + n < tempExecutableMemorySize

/-- A request fails because it does not fit: its instructions can be moved, but there is no room. -/
structure TooLarge (env : Env) (opcodes : List UInt8) (func : Addr) (min : ℕ) (s : State) : Prop where
  granted : env.answer s.asked = true
  off_ne : quickInstructionSize env.hde s.mem func min ≠ 0
  off_le : quickInstructionSize env.hde s.mem func min ≤ pageSize - longJump
  full : tempExecutableMemorySize ≤
    s.used opcodes.length (quickInstructionSize env.hde s.mem func min)

/-- Such a request returns zero, with the offset behind it. -/
theorem TooLarge.cases (h : TooLarge env opcodes func min s)
    (hreturns : Returns (createTrampoline env opcodes func min) s trampoline s') :
    trampoline = 0 ∧ s'.mem = s.mem ∧ s'.tempExecutableMemoryOff =
      s.used opcodes.length (quickInstructionSize env.hde s.mem func min) := by
  obtain ⟨hgranted, hne, hle, hfull⟩ := h
  rw [createTrampoline, returns_bind] at hreturns
  obtain ⟨granted, s₁, hlift, hreturns⟩ := hreturns
  obtain ⟨rfl, _, rfl⟩ := lift_cases hlift
  rw [if_pos hgranted] at hreturns
  simp only [returns_bind, returns_get] at hreturns
  obtain ⟨_, _, ⟨rfl, rfl⟩, hreturns⟩ := hreturns
  rw [if_neg (by exact not_or.mpr ⟨hne, not_lt.mpr hle⟩), returns_bind] at hreturns
  obtain ⟨_, s₁, hmod, hreturns⟩ := hreturns
  obtain rfl := returns_modify.mp hmod
  rw [if_pos (by exact hfull)] at hreturns
  simp only [setError, returns_bind, returns_modify, returns_pure] at hreturns
  obtain ⟨_, s₁, hdrop, _, _, rfl, rfl, rfl⟩ := hreturns
  obtain ⟨_, rfl⟩ := drop_cases hdrop
  exact ⟨rfl, rfl, rfl⟩

/-- **What a request costs that does not fit**: the offset moves before the room is checked, so that
no room is left. The room is the same as before, and what fitted before fits, if and only if there
was none. -/
theorem free_kept_iff (h : TooLarge env opcodes func min s)
    (hreturns : Returns (createTrampoline env opcodes func min) s trampoline s') :
    (s'.free = s.free ∧ ∀ n, 0 < n → s.Fits n → s'.Fits n) ↔ s.free = 0 := by
  obtain ⟨-, -, hoff⟩ := h.cases hreturns
  have hfull := h.full
  -- the offset is behind the end of the array now
  rw [← hoff] at hfull
  have hspent : s'.free = 0 := by
    rw [State.free]
    omega
  constructor
  · rintro ⟨hsame, -⟩
    exact hsame ▸ hspent
  · intro hzero
    refine ⟨hspent.trans hzero.symm, fun n hn hfits => ?_⟩
    rw [State.free] at hzero
    rw [State.Fits] at hfits
    omega

/-- 95 bytes are left in the array. -/
def nearlyFull : State :=
  { nops with tempExecutableMemoryOff := 4000 }

/-- A block of 100 opcodes does not fit any more. -/
theorem tooLarge_nearlyFull :
    TooLarge sampleEnv (List.replicate 100 0xCC) 0x1000 5 nearlyFull := by
  constructor <;> decide

theorem free_kept_iff_nearlyFull : ∃ s',
    Returns (createTrampoline sampleEnv (List.replicate 100 0xCC) 0x1000 5) nearlyFull 0 s' ∧
      ((s'.free = nearlyFull.free ∧ ∀ n, 0 < n → nearlyFull.Fits n → s'.Fits n) ↔
        nearlyFull.free = 0) :=
  ⟨_, rfl, free_kept_iff tooLarge_nearlyFull rfl⟩

/-- It takes the room of a trampoline that would have fitted. -/
theorem not_free_kept_nearlyFull :
    ¬ ∀ (env : Env) (opcodes : List UInt8) (func : Addr) (min : ℕ) (s s' : State)
      (trampoline : Addr), TooLarge env opcodes func min s →
      Returns (createTrampoline env opcodes func min) s trampoline s' → s'.free = s.free := by
  intro h
  exact absurd (h sampleEnv _ _ _ nearlyFull _ _ tooLarge_nearlyFull rfl) (by decide)

end Lilu.Patcher
