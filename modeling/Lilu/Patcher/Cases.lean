import Mathlib.Tactic
import Lilu.Patcher.Jump

/-!
# What a route can do

Every step of a route is told once: which state it ends in, and what the oracle has answered. All
invariants are derived from these facts.

## Main definitions

* `Patches`: the patch objects of a jump
* `Refused`, `Installed`: a route that fails, and one that has written its jump
* `Finds`: how the original of a function is found
* `Routes`: what a route does

## Main results

* `install_cases`, `original_cases`, `routeWith_cases`: a route by its parts
-/

namespace Lilu.Patcher

open Kext (Error)

variable {env : Env} {s s' : State} {b : Bool}

/-! ## Small steps -/

theorem ask_cases (h : Returns (ask env) s b s') :
    b = env.answer s.asked ∧ s' = { s with asked := s.asked + 1 } := by
  cases h
  exact ⟨rfl, rfl⟩

theorem lift_cases (h : Returns (setKernelWriting env true) s b s') :
    b = env.answer s.asked ∧
      ∃ brackets, s' = { s with asked := s.asked + 1, brackets := brackets } := by
  cases h
  exact ⟨rfl, _, rfl⟩

theorem drop_cases (h : Returns (setKernelWriting env false) s b s') :
    ∃ brackets, s' = { s with brackets := brackets } := by
  cases h
  exact ⟨_, rfl⟩

/-- A patch object for some bytes at an address, made when the memory was `m`. -/
structure Patch.Made (m : Mem) (address : Addr) (replaced : List UInt8) (p : Patch) : Prop where
  address_eq : p.address = address
  replaced_eq : p.replaced = replaced
  original_eq : p.original = load m address replaced.length

theorem create_cases {address : Addr} {replaced : List UInt8} {p : Option Patch}
    (h : Returns (Patch.create env address replaced) s p s') :
    p.isSome = env.answer s.asked ∧ (∀ q ∈ p, q.Made s.mem address replaced) ∧
      ∃ created, s' = { s with asked := s.asked + 1, created := created } := by
  rw [Patch.create, returns_bind] at h
  obtain ⟨granted, s₁, hask, h⟩ := h
  obtain ⟨rfl, rfl⟩ := ask_cases hask
  cases hgranted : env.answer s.asked with
  | false =>
    rw [hgranted] at h
    cases h
    exact ⟨rfl, by simp, _, rfl⟩
  | true =>
    rw [hgranted] at h
    cases h
    refine ⟨rfl, ?_, _, rfl⟩
    rintro q ⟨⟩
    exact ⟨rfl, rfl, rfl⟩

theorem deleter_cases {p : Option Patch} {u : Unit} (h : Returns (Patch.deleter p) s u s') :
    ∃ deleted, s' = { s with deleted := deleted } := by
  cases p with
  | none =>
    cases h
    exact ⟨_, rfl⟩
  | some p =>
    cases h
    exact ⟨_, rfl⟩

theorem deletePatches_cases {opcode argument disp : Option Patch} {u : Unit}
    (h : Returns (deletePatches opcode argument disp) s u s') :
    ∃ deleted, s' = { s with deleted := deleted } := by
  simp only [deletePatches, returns_bind] at h
  obtain ⟨_, s₁, h₁, _, s₂, h₂, h₃⟩ := h
  obtain ⟨_, rfl⟩ := deleter_cases h₁
  obtain ⟨_, rfl⟩ := deleter_cases h₂
  obtain ⟨_, rfl⟩ := deleter_cases h₃
  exact ⟨_, rfl⟩

theorem eraseAt_cases {i : ℕ} {u : Unit} (h : Returns (eraseAt i) s u s') :
    ∃ kpatches deleted, s' = { s with kpatches := kpatches, deleted := deleted } := by
  simp only [eraseAt, returns_bind, returns_get] at h
  obtain ⟨_, _, ⟨rfl, rfl⟩, h⟩ := h
  cases hi : s.kpatches[i]? with
  | none =>
    rw [hi] at h
    exact absurd h not_returns_throw
  | some p =>
    rw [hi] at h
    cases h
    exact ⟨_, _, rfl⟩

theorem eraseStored_cases {idx : Bool} {u : Unit} (h : Returns (eraseStored idx) s u s') :
    ∃ kpatches deleted, s' = { s with kpatches := kpatches, deleted := deleted } := by
  cases idx with
  | false =>
    cases h
    exact ⟨_, _, rfl⟩
  | true => exact eraseAt_cases h

theorem pushBack_cases {p : Option Patch} (h : Returns (pushBack env p) s b s') :
    ∃ asked kpatches, s' = { s with asked := asked, kpatches := kpatches } ∧
      (b = true ∨ p = none → kpatches = s.kpatches ++ p.toList) := by
  cases p with
  | none =>
    cases h
    exact ⟨_, _, rfl, by simp⟩
  | some p =>
    rw [pushBack, returns_bind] at h
    obtain ⟨granted, s₁, hask, h⟩ := h
    obtain ⟨rfl, rfl⟩ := ask_cases hask
    cases hgranted : env.answer s.asked with
    | false =>
      rw [hgranted] at h
      cases h
      exact ⟨_, _, rfl, by simp⟩
    | true =>
      rw [hgranted] at h
      cases h
      exact ⟨_, _, rfl, fun _ => rfl⟩

/-- An address slot that is handed out is the next one of its image. -/
theorem getAddressSlot_cases {id : ℕ} {a : Addr} (h : Returns (getAddressSlot id) s a s') :
    ∃ info, s.kinfos[id]? = some info ∧
      ((a = info.address_slots ∧ info.HasSlot ∧
          s' = { s with kinfos := s.kinfos.set id info.advance }) ∨
        (a = 0 ∧ s' = s)) := by
  simp only [getAddressSlot, returns_bind, returns_get] at h
  obtain ⟨_, _, ⟨rfl, rfl⟩, h⟩ := h
  cases hi : s.kinfos[id]? with
  | none =>
    rw [hi] at h
    exact absurd h not_returns_throw
  | some info =>
    rw [hi] at h
    dsimp only at h
    refine ⟨info, rfl, ?_⟩
    by_cases hfree : info.HasSlot
    · rw [if_pos hfree] at h
      cases h
      exact .inl ⟨rfl, hfree, rfl⟩
    · rw [if_neg hfree] at h
      cases h
      exact .inr ⟨rfl, rfl⟩

/-! ## Writing a jump -/

variable {entry dest : Addr} {m : Mem} {jump : Jump} {opcode argument disp : Option Patch}

/-- The number of patch objects of a jump. -/
def Jump.objects : Jump → ℕ
  | .short => 2
  | _ => 3

/-- The patch objects of a jump, made when the memory was `m`. -/
structure Patches (entry dest : Addr) (m : Mem) (jump : Jump)
    (opcode argument disp : Option Patch) : Prop where
  opcode_made : ∀ p ∈ opcode, p.Made m entry jump.opcode
  argument_made : ∀ p ∈ argument, p.Made m (entry + BitVec.ofNat 64 jump.opcode.length)
    (bytes (jump.argument entry dest))
  disp_made : ∀ p ∈ disp, ∃ a, jump.dispAt entry = some a ∧ p.Made m a (bytes dest)

theorem createPatches_cases {patches : Option Patch × Option Patch × Option Patch}
    (h : Returns (createPatches env entry dest jump) s patches s') :
    Patches entry dest s.mem jump patches.1 patches.2.1 patches.2.2 ∧
      patches.1.isSome = env.answer s.asked ∧ patches.2.1.isSome = env.answer (s.asked + 1) ∧
      (patches.2.2.isSome ↔ jump ≠ .short ∧ env.answer (s.asked + 2)) ∧
      ∃ created, s' = { s with asked := s.asked + jump.objects, created := created } := by
  simp only [createPatches, returns_bind] at h
  -- Two objects are made for every jump, and a third one, for the destination, unless the jump is
  -- short.
  obtain ⟨opcode, s₁, hop, argument, s₂, harg, h⟩ := h
  obtain ⟨hsome, hmade, _, rfl⟩ := create_cases hop
  obtain ⟨hsome', hmade', _, rfl⟩ := create_cases harg
  cases jump with
  | short =>
    cases h
    exact ⟨⟨hmade, hmade', by simp⟩, hsome, hsome', by simp, _, rfl⟩
  | medium addressSlot =>
    simp only [Jump.dispAt, returns_bind] at h
    obtain ⟨disp, s₃, hdisp, h⟩ := h
    obtain ⟨hsome'', hmade'', _, rfl⟩ := create_cases hdisp
    cases h
    refine ⟨⟨hmade, hmade', fun p hp => ⟨_, rfl, hmade'' p hp⟩⟩, hsome, hsome', ?_, _, rfl⟩
    simpa using Bool.eq_iff_iff.mp hsome''
  | long =>
    simp only [Jump.dispAt, returns_bind] at h
    obtain ⟨disp, s₃, hdisp, h⟩ := h
    obtain ⟨hsome'', hmade'', _, rfl⟩ := create_cases hdisp
    cases h
    refine ⟨⟨hmade, hmade', fun p hp => ⟨_, rfl, hmade'' p hp⟩⟩, hsome, hsome', ?_, _, rfl⟩
    simpa using Bool.eq_iff_iff.mp hsome''

theorem patch_cases {p : Option Patch} {u : Unit} {a : Addr} {bs : List UInt8}
    (hmade : ∀ q ∈ p, q.Made m a bs) (h : Returns (Patch.patch p) s u s') :
    s' = { s with mem := store s.mem a bs } := by
  cases p with
  | none => exact absurd h not_returns_throw
  | some p =>
    obtain ⟨haddress, hreplaced, -⟩ := hmade p rfl
    rw [Patch.patch, returns_modify, haddress, hreplaced] at h
    exact h.symm

theorem writeEntry_cases {u : Unit} {bs cs : List UInt8} {a : Addr}
    (hop : ∀ p ∈ opcode, p.Made m entry bs) (harg : ∀ p ∈ argument, p.Made m a cs)
    (h : Returns (writeEntry entry opcode argument) s u s') :
    s' = { s with mem := store s.mem entry (s.patch.take 8) } ∨
      s' = { s with mem := store (store s.mem entry bs) a cs } := by
  rw [writeEntry] at h
  split_ifs at h
  · exact .inl (returns_modify.mp h).symm
  · rw [returns_bind] at h
    obtain ⟨_, s₁, h₁, h₂⟩ := h
    obtain rfl := patch_cases hop h₁
    exact .inr (patch_cases harg h₂)

/-- The memory changes as by the wide store, or as by the patches. -/
theorem writeJump_cases {u : Unit} (hp : Patches entry dest m jump opcode argument disp)
    (h : Returns (writeJump entry jump opcode argument disp) s u s') :
    s' = { s with mem := store (jump.fill dest s.mem) entry (s.patch.take jump.width) } ∨
      s' = { s with mem := jump.pieces entry dest s.mem } := by
  obtain ⟨hop, harg, hdisp⟩ := hp
  -- The third object lies where the jump reads its destination.
  have hmade : ∀ a, jump.dispAt entry = some a → ∀ p ∈ disp, p.Made m a (bytes dest) := by
    intro a ha p hp
    obtain ⟨a', ha', hp⟩ := hdisp p hp
    rw [ha] at ha'
    obtain rfl := Option.some.inj ha'
    exact hp
  cases jump with
  | short => exact writeEntry_cases hop harg h
  | medium addressSlot =>
    rw [writeJump, returns_bind] at h
    obtain ⟨_, s₁, h₁, h₂⟩ := h
    obtain rfl := patch_cases (hmade _ rfl) h₁
    exact writeEntry_cases hop harg h₂
  | long =>
    rw [writeJump] at h
    split_ifs at h
    · exact .inl (returns_modify.mp h).symm
    · simp only [returns_bind] at h
      obtain ⟨_, s₁, h₁, _, s₂, h₂, h₃⟩ := h
      obtain rfl := patch_cases (hmade _ rfl) h₁
      obtain rfl := patch_cases hop h₂
      exact .inr (patch_cases harg h₃)

/-- Either all patches are kept, or the loss is noted. -/
theorem keepPatches_cases (h : Returns (keepPatches env opcode argument disp) s b s') :
    ∃ asked kpatches deleted lost,
      s' = { s with asked := asked, kpatches := kpatches, deleted := deleted, lost := lost } ∧
        s.lost ≤ lost ∧ (lost = s.lost → b = true ∧
          kpatches = s.kpatches ++ (opcode.toList ++ argument.toList ++ disp.toList)) := by
  simp only [keepPatches, returns_bind] at h
  -- The log grows three times, and each time it can be refused.
  obtain ⟨oidx, s₁, h₁, aidx, s₂, h₂, didx, s₃, h₃, h⟩ := h
  obtain ⟨_, _, rfl, hop⟩ := pushBack_cases h₁
  obtain ⟨_, _, rfl, harg⟩ := pushBack_cases h₂
  obtain ⟨_, _, rfl, hdisp⟩ := pushBack_cases h₃
  split_ifs at h with hall
  · obtain ⟨rfl, rfl⟩ := returns_pure.mp h
    rw [Bool.and_eq_true, Bool.and_eq_true, Bool.or_eq_true, Option.isNone_iff_eq_none] at hall
    refine ⟨_, _, _, _, rfl, le_rfl, fun _ => ⟨rfl, ?_⟩⟩
    rw [hdisp hall.2.symm, harg (.inl hall.1.2), hop (.inl hall.1.1), List.append_assoc,
      List.append_assoc, List.append_assoc]
  · simp only [returns_bind, returns_modify, returns_pure] at h
    obtain ⟨_, s₄, h₄, _, s₅, h₅, _, s₆, h₆, _, _, rfl, rfl, rfl⟩ := h
    obtain ⟨_, _, rfl⟩ := eraseStored_cases h₄
    obtain ⟨_, _, rfl⟩ := eraseStored_cases h₅
    obtain ⟨_, _, rfl⟩ := eraseStored_cases h₆
    exact ⟨_, _, _, _, rfl, Nat.le_succ _, fun hlost => absurd hlost (Nat.succ_ne_self _)⟩

/-! ## Installing a jump -/

/-- The next `n` questions are answered with yes. -/
def Granted (env : Env) (s : State) (n : ℕ) : Prop :=
  ∀ k < n, env.answer (s.asked + k) = true

/-- How much a route asks for before it writes its jump. -/
def RouteArgs.needs (r : RouteArgs) (jump : Jump) : ℕ :=
  jump.objects + if r.kernelRoute then 1 else 0

theorem select_eq_short {absolute : Bool} {a : Addr} (h : Jump.select absolute a = .short) :
    absolute = false := by
  rw [Jump.select] at h
  split_ifs at h with ha habs
  exact Bool.not_eq_true _ ▸ habs

theorem Jump.two_le_objects (jump : Jump) : 2 ≤ jump.objects := by
  cases jump <;> simp [objects]

theorem Jump.objects_of_ne (h : jump ≠ .short) : jump.objects = 3 := by
  cases jump with
  | short => exact absurd rfl h
  | medium a => rfl
  | long => rfl

theorem select_eq_long {absolute : Bool} {a : Addr} (h : Jump.select absolute a = .long) :
    absolute = true := by
  rw [Jump.select] at h
  split_ifs at h with ha habs
  exact habs

/-- The undo log of a jump that was written when the memory was `m`. -/
def Logged (entry dest : Addr) (m : Mem) (jump : Jump) (log : List Patch) : Prop :=
  ∃ opcode argument disp, Patches entry dest m jump opcode argument disp ∧ opcode.isSome ∧
    argument.isSome ∧ (jump ≠ .short → disp.isSome) ∧
    log = opcode.toList ++ argument.toList ++ disp.toList

/-- A route that fails has changed nothing that others can see. -/
structure Refused (s s' : State) : Prop where
  mem_eq : s'.mem = s.mem
  kpatches_eq : s'.kpatches = s.kpatches
  kinfos_eq : s'.kinfos = s.kinfos
  off_eq : s'.tempExecutableMemoryOff = s.tempExecutableMemoryOff
  orgs_eq : s'.orgs = s.orgs
  originals_eq : s'.originals = s.originals
  lost_eq : s'.lost = s.lost
  failures_eq : s'.failures = s.failures + 1
  code_ne : s'.code ≠ .NoError

/-- A jump has been written, and logged if it is to be undone. -/
structure Installed (r : RouteArgs) (jump : Jump) (revertible : Bool) (s s' : State) : Prop where
  mem_eq : s'.mem = jump.wide r.entry r.dest s.mem s.patch ∨
    s'.mem = jump.pieces r.entry r.dest s.mem
  kinfos_eq : s'.kinfos = s.kinfos
  off_eq : s'.tempExecutableMemoryOff = s.tempExecutableMemoryOff
  orgs_eq : s'.orgs = s.orgs
  originals_eq : s'.originals = s.originals
  failures_eq : s'.failures = s.failures
  code_eq : s'.code = s.code
  lost_le : s.lost ≤ s'.lost
  kept : s'.lost = s.lost → r.kernelRoute → revertible →
    ∃ log, s'.kpatches = s.kpatches ++ log ∧ Logged r.entry r.dest s.mem jump log
  not_kept : ¬ (r.kernelRoute ∧ revertible) →
    s'.kpatches = s.kpatches ∧ s'.lost = s.lost ∧ s'.asked = s.asked + r.needs jump

theorem giveUp_cases {e : Error} {route : Route}
    (h : Returns (giveUp e opcode argument disp) s route s') :
    route = .failed ∧
      ∃ deleted, s' = { s with code := e, deleted := deleted, failures := s.failures + 1 } := by
  simp only [giveUp, setError, returnEinval, returns_bind, returns_modify, returns_pure] at h
  obtain ⟨_, _, rfl, _, s₁, hdelete, _, _, rfl, rfl, rfl⟩ := h
  obtain ⟨_, rfl⟩ := deletePatches_cases hdelete
  exact ⟨rfl, _, rfl⟩

theorem afterWrite_cases {kernelRoute revertible : Bool}
    (h : Returns (afterWrite env kernelRoute revertible opcode argument disp) s b s') :
    ∃ asked kpatches deleted brackets lost,
      s' = { s with asked := asked, kpatches := kpatches, deleted := deleted,
                    brackets := brackets, lost := lost } ∧ s.lost ≤ lost ∧
        (kernelRoute → revertible → lost = s.lost →
          kpatches = s.kpatches ++ (opcode.toList ++ argument.toList ++ disp.toList)) ∧
        (¬ (kernelRoute ∧ revertible) → kpatches = s.kpatches ∧ lost = s.lost ∧ asked = s.asked) := by
  cases kernelRoute with
  | false =>
    cases h
    exact ⟨_, _, _, _, _, rfl, le_rfl, by simp, by simp⟩
  | true =>
    rw [afterWrite, if_pos rfl, returns_bind] at h
    obtain ⟨_, s₁, hdrop, h⟩ := h
    obtain ⟨_, rfl⟩ := drop_cases hdrop
    cases revertible with
    | false =>
      cases h
      exact ⟨_, _, _, _, _, rfl, le_rfl, by simp, by simp⟩
    | true =>
      rw [if_pos rfl] at h
      obtain ⟨_, _, _, _, rfl, hle, hkept⟩ := keepPatches_cases h
      exact ⟨_, _, _, _, _, rfl, hle, fun _ _ hlost => (hkept hlost).2, by simp⟩

/-- A slotted jump is not written without its third object. -/
theorem writeJump_disp {u : Unit} {a : Addr}
    (h : Returns (writeJump entry (.medium a) opcode argument disp) s u s') : disp.isSome := by
  cases disp with
  | none =>
    rw [writeJump, returns_bind] at h
    obtain ⟨_, s₁, h₁, -⟩ := h
    exact absurd h₁ not_returns_throw
  | some p => rfl

theorem commit_cases {r : RouteArgs} {o : Original} {route : Route} {patch : List UInt8}
    {asked : ℕ} (h : Returns (commit env r o jump opcode argument disp) s route s')
    (hp : Patches r.entry r.dest s.mem jump opcode argument disp)
    (hunion : s.patch = jump.union r.entry r.dest s.mem patch)
    (hop : opcode.isSome) (harg : argument.isSome) (hlong : jump = .long → disp.isSome)
    (hasked : s.asked = asked + r.needs jump) :
    route = .routed o.trampoline jump ∧ (jump ≠ .short → disp.isSome) ∧
      Installed r jump o.revertible { s with patch := patch, asked := asked } s' := by
  simp only [commit, returns_bind] at h
  obtain ⟨_, s₁, hwrite, kept, s₂, hafter, h⟩ := h
  have hdisp : jump ≠ .short → disp.isSome := by
    intro hshort
    cases jump with
    | short => exact absurd rfl hshort
    | medium a => exact writeJump_disp hwrite
    | long => exact hlong rfl
  -- The objects are deleted or not, and the route ends the same way.
  have hend : route = .routed o.trampoline jump ∧
      ∃ deleted, s' = { s₂ with deleted := deleted } := by
    split_ifs at h
    · obtain ⟨rfl, rfl⟩ := returns_pure.mp h
      exact ⟨rfl, _, rfl⟩
    · rw [returns_bind] at h
      obtain ⟨_, s₃, hdelete, h⟩ := h
      obtain ⟨rfl, rfl⟩ := returns_pure.mp h
      obtain ⟨_, rfl⟩ := deletePatches_cases hdelete
      exact ⟨rfl, _, rfl⟩
  obtain ⟨rfl, _, rfl⟩ := hend
  obtain ⟨_, _, _, _, _, rfl, hle, hkept, hnot⟩ := afterWrite_cases hafter
  refine ⟨rfl, hdisp, ?_⟩
  have hlog : Logged r.entry r.dest s.mem jump
      (opcode.toList ++ argument.toList ++ disp.toList) :=
    ⟨opcode, argument, disp, hp, hop, harg, hdisp, rfl⟩
  obtain rfl | rfl := writeJump_cases hp hwrite
  · refine ⟨.inl ?_, rfl, rfl, rfl, rfl, rfl, rfl, hle, ?_, fun hn =>
        ⟨(hnot hn).1, (hnot hn).2.1, (hnot hn).2.2.trans hasked⟩⟩
    · rw [Jump.wide, ← hunion]
    · exact fun hlost hk hr => ⟨_, hkept hk hr hlost, hlog⟩
  · exact ⟨.inr rfl, rfl, rfl, rfl, rfl, rfl, rfl, hle,
      fun hlost hk hr => ⟨_, hkept hk hr hlost, hlog⟩, fun hn =>
        ⟨(hnot hn).1, (hnot hn).2.1, (hnot hn).2.2.trans hasked⟩⟩

/-- Patch objects are missing only when an allocation was refused. -/
theorem not_granted_of_null {r : RouteArgs} (hjump : jump = .short → r.absolute = false)
    (hop : opcode.isSome = env.answer s.asked) (harg : argument.isSome = env.answer (s.asked + 1))
    (hdisp : disp.isSome = true ↔ jump ≠ .short ∧ env.answer (s.asked + 2) = true)
    (hnull : (opcode.isNone || argument.isNone || r.absolute && disp.isNone) = true) :
    ¬ Granted env s (r.needs jump) := by
  intro hgranted
  have htwo := jump.two_le_objects
  have h₀ : opcode.isSome = true := hop.trans (hgranted 0 (by rw [RouteArgs.needs]; omega))
  have h₁ : argument.isSome = true := harg.trans (hgranted 1 (by rw [RouteArgs.needs]; omega))
  have hdisp' : r.absolute = true ∧ disp = none := by
    simpa [Option.isSome_iff_ne_none.mp h₀, Option.isSome_iff_ne_none.mp h₁] using hnull
  -- Only an absolute route is refused for its third object, and its jump is not short.
  have hshort : jump ≠ .short := by
    intro hshort
    rw [hjump hshort] at hdisp'
    exact absurd hdisp'.1 (by decide)
  have hthree := Jump.objects_of_ne hshort
  have h₂ := hdisp.mpr ⟨hshort, hgranted 2 (by rw [RouteArgs.needs]; omega)⟩
  rw [hdisp'.2] at h₂
  cases h₂

/-- A jump is written only when everything that was asked for was granted. -/
theorem granted_of_objects {r : RouteArgs} (hop' : opcode.isSome = true)
    (harg' : argument.isSome = true) (hdisp' : jump ≠ .short → disp.isSome = true)
    (hop : opcode.isSome = env.answer s.asked) (harg : argument.isSome = env.answer (s.asked + 1))
    (hdisp : disp.isSome = true ↔ jump ≠ .short ∧ env.answer (s.asked + 2) = true)
    (hwrite : r.kernelRoute = true → env.answer (s.asked + jump.objects) = true) :
    Granted env s (r.needs jump) := by
  intro k hk
  rw [RouteArgs.needs] at hk
  -- The first two questions are for the objects of every jump, the third is for the destination,
  -- and the last one of a route in the kernel is for the write protection.
  obtain rfl | rfl | hk₂ : k = 0 ∨ k = 1 ∨ 2 ≤ k := by omega
  · exact hop.symm.trans hop'
  · exact harg.symm.trans harg'
  · by_cases hlast : k = jump.objects
    · subst hlast
      refine hwrite ?_
      by_contra hkernel
      rw [if_neg hkernel] at hk
      exact absurd hk (lt_irrefl _)
    · have hlt : k < jump.objects := by
        split_ifs at hk <;> omega
      have hshort : jump ≠ .short := by
        rintro rfl
        exact absurd hlt (not_lt.mpr hk₂)
      have hthree := Jump.objects_of_ne hshort
      obtain rfl : k = 2 := by omega
      exact (hdisp.mp (hdisp' hshort)).2

theorem mayWrite_cases {kernelRoute : Bool} (h : Returns (mayWrite env kernelRoute) s b s') :
    (b = true ↔ (kernelRoute = true → env.answer s.asked = true)) ∧
      ∃ brackets, s' = { s with asked := s.asked + (if kernelRoute then 1 else 0),
                                brackets := brackets } := by
  cases kernelRoute with
  | false =>
    cases h
    exact ⟨by simp, _, rfl⟩
  | true =>
    obtain ⟨rfl, _, rfl⟩ := lift_cases h
    exact ⟨by simp, _, rfl⟩

theorem install_cases {r : RouteArgs} {o : Original} {route : Route}
    (h : Returns (install env r o) s route s') :
    (route = .failed ∧ ¬ Granted env s (r.needs (.select r.absolute o.addressSlot)) ∧
      Refused s s') ∨
    (route = .routed o.trampoline (.select r.absolute o.addressSlot) ∧
      Granted env s (r.needs (.select r.absolute o.addressSlot)) ∧
      Installed r (.select r.absolute o.addressSlot) o.revertible s s') := by
  have hshort : Jump.select r.absolute o.addressSlot = .short → r.absolute = false :=
    select_eq_short
  have hlong : Jump.select r.absolute o.addressSlot = .long → r.absolute = true :=
    select_eq_long
  simp only [install, returns_bind, returns_modify] at h
  -- Of the jump that is selected only these two facts are needed.
  generalize Jump.select r.absolute o.addressSlot = jump at hshort hlong h ⊢
  obtain ⟨_, s₁, rfl, ⟨opcode, argument, disp⟩, s₂, hcreate, h⟩ := h
  obtain ⟨hp, hop, harg, hdisp, _, rfl⟩ := createPatches_cases hcreate
  dsimp only at hp hop harg hdisp h
  by_cases hnull : (opcode.isNone || argument.isNone || r.absolute && disp.isNone) = true
  · rw [if_pos hnull] at h
    obtain ⟨rfl, _, rfl⟩ := giveUp_cases h
    exact .inl ⟨rfl, not_granted_of_null hshort hop harg hdisp hnull,
      ⟨rfl, rfl, rfl, rfl, rfl, rfl, rfl, rfl, by simp⟩⟩
  · rw [if_neg hnull, returns_bind] at h
    obtain ⟨granted, s₃, hlift, h⟩ := h
    simp only [Bool.or_eq_true, Bool.and_eq_true, not_or, not_and, Bool.not_eq_true,
      Option.isNone_eq_false_iff] at hnull
    obtain ⟨⟨hop', harg'⟩, hdisp'⟩ := hnull
    obtain ⟨hgranted, _, rfl⟩ := mayWrite_cases hlift
    cases granted with
    | false =>
      rw [if_neg (by simp)] at h
      obtain ⟨rfl, _, rfl⟩ := giveUp_cases h
      refine .inl ⟨rfl, ?_, ⟨rfl, rfl, rfl, rfl, rfl, rfl, rfl, rfl, by simp⟩⟩
      intro hall
      -- The question for the write protection follows those for the objects.
      refine absurd (hgranted.mpr fun hkernel => hall jump.objects ?_) (by simp)
      rw [RouteArgs.needs, if_pos hkernel]
      exact Nat.lt_succ_self _
    | true =>
      rw [if_pos rfl] at h
      obtain ⟨rfl, hdisp₁, hi⟩ := commit_cases h hp rfl hop' harg' (fun hj => hdisp' (hlong hj))
        (Nat.add_assoc s.asked jump.objects _)
      refine .inr ⟨rfl, ?_, ⟨hi.mem_eq, hi.kinfos_eq, hi.off_eq, hi.orgs_eq, hi.originals_eq,
        hi.failures_eq, hi.code_eq, hi.lost_le, hi.kept, hi.not_kept⟩⟩
      exact granted_of_objects hop' harg' hdisp₁ hop harg hdisp (hgranted.mp rfl)

/-! ## Finding the original -/

/-- An address slot is handed out by an image, or there is none. -/
inductive TakesSlot (info : Option ℕ) (s : State) : Addr → State → Prop where
  | taken {id : ℕ} {i : MachInfo} (hinfo : info = some id) (hid : s.kinfos[id]? = some i)
      (hslot : i.HasSlot) :
      TakesSlot info s i.address_slots
        { s with kinfos := s.kinfos.set id i.advance }
  | none : TakesSlot info s 0 s

theorem takesSlot_of_returns {id : ℕ} {a : Addr} (h : Returns (getAddressSlot id) s a s') :
    TakesSlot (some id) s a s' := by
  obtain ⟨i, hid, ⟨rfl, hslot, rfl⟩ | ⟨rfl, rfl⟩⟩ := getAddressSlot_cases h
  · exact .taken rfl hid hslot
  · exact .none

variable {create : Addr → ℕ → PatcherM Addr} {r : RouteArgs}

/-- How the original of a function is found: the jump of an earlier route is redirected, the
function is left without an original, or a trampoline is built, or not. -/
inductive Finds (create : Addr → ℕ → PatcherM Addr) (r : RouteArgs) (s : State) :
    Option Original → State → Prop where
  | redirect {slot : Addr} {s' : State}
      (hchain : (readChain s.mem r.entry).1 ≠ 0)
      (hprev : (readChain s.mem r.entry).2 ≠ some .Short)
      (htype : r.jumpType ≠ .Short)
      (hmedium : slot ≠ 0 ↔ (readChain s.mem r.entry).2 = some .Medium)
      (hslot : TakesSlot r.info { s with originals := s.originals ++
        (if r.buildWrapper then [(readChain s.mem r.entry).1] else []) } slot s') :
      Finds create r s
        (some ⟨if r.buildWrapper then (readChain s.mem r.entry).1 else 0, slot, false⟩) s'
  | plain (hchain : (readChain s.mem r.entry).1 = 0) (hwrap : r.buildWrapper = false) :
      Finds create r s (some ⟨0, 0, r.revertible⟩) s
  | wrap {slot trampoline : Addr} {s₁ s' : State}
      (hchain : (readChain s.mem r.entry).1 = 0) (hwrap : r.buildWrapper = true)
      (habsolute : slot ≠ 0 → r.absolute = true)
      (hslot : TakesSlot r.info s slot s₁)
      (hmade : Returns (create r.entry (Jump.select r.absolute slot).size) s₁ trampoline s')
      (hne : trampoline ≠ 0) :
      Finds create r s (some ⟨trampoline, slot, r.revertible⟩) s'
  | refuse {slot : Addr} {s₁ s' : State}
      (hchain : (readChain s.mem r.entry).1 = 0) (hwrap : r.buildWrapper = true)
      (habsolute : slot ≠ 0 → r.absolute = true)
      (hslot : TakesSlot r.info s slot s₁)
      (hmade : Returns (create r.entry (Jump.select r.absolute slot).size) s₁ 0 s') :
      Finds create r s none s'

theorem slotForWrapper_cases {a : Addr} (h : Returns (slotForWrapper r) s a s') :
    TakesSlot r.info s a s' ∧ (a ≠ 0 → r.absolute = true) := by
  rw [slotForWrapper] at h
  cases hinfo : r.info with
  | none =>
    rw [hinfo] at h
    obtain ⟨rfl, rfl⟩ := returns_pure.mp h
    exact ⟨.none, fun hne => absurd rfl hne⟩
  | some id =>
    rw [hinfo] at h
    dsimp only at h
    split_ifs at h with hask
    · exact ⟨takesSlot_of_returns h, fun _ => hask.1⟩
    · obtain ⟨rfl, rfl⟩ := returns_pure.mp h
      exact ⟨.none, fun hne => absurd rfl hne⟩

theorem redirect_cases {o : Option Original} (hchain : (readChain s.mem r.entry).1 ≠ 0)
    (h : Returns (redirect (readChain s.mem r.entry) r) s o s') : Finds create r s o s' := by
  simp only [redirect, returns_bind, returns_modify] at h
  obtain ⟨_, _, rfl, h⟩ := h
  -- A short jump, there already or to be written, stops the kernel.
  by_cases hshort : (readChain s.mem r.entry).2 = some .Short ∨ r.jumpType = .Short
  · rw [if_pos hshort] at h
    exact absurd h not_returns_throw
  rw [if_neg hshort] at h
  rw [not_or] at hshort
  by_cases hmedium : (readChain s.mem r.entry).2 = some .Medium
  · rw [if_pos hmedium] at h
    cases hinfo : r.info with
    | none =>
      rw [hinfo] at h
      exact absurd h not_returns_throw
    | some id =>
      rw [hinfo] at h
      dsimp only at h
      rw [returns_bind] at h
      obtain ⟨slot, s₁, hget, h⟩ := h
      by_cases hzero : slot = 0
      · rw [if_pos hzero] at h
        exact absurd h not_returns_throw
      · rw [if_neg hzero] at h
        obtain ⟨rfl, rfl⟩ := returns_pure.mp h
        exact .redirect hchain hshort.1 hshort.2 ⟨fun _ => hmedium, fun _ => hzero⟩
          (hinfo ▸ takesSlot_of_returns hget)
  · rw [if_neg hmedium] at h
    obtain ⟨rfl, rfl⟩ := returns_pure.mp h
    exact .redirect hchain hshort.1 hshort.2
      ⟨fun hne => absurd rfl hne, fun hm => absurd hm hmedium⟩ .none

theorem select_size {slot : Addr} (habsolute : slot ≠ 0 → r.absolute = true) :
    (if r.absolute then (if slot ≠ 0 then mediumJump else longJump) else smallJump) =
      (Jump.select r.absolute slot).size := by
  rw [Jump.select]
  by_cases hslot : slot ≠ 0
  · rw [if_pos (habsolute hslot), if_pos hslot, if_pos hslot]
    rfl
  · rw [if_neg hslot, if_neg hslot]
    split_ifs <;> rfl

theorem original_cases {o : Option Original} (h : Returns (original create r) s o s') :
    Finds create r s o s' := by
  simp only [original, returns_bind, returns_get] at h
  obtain ⟨_, _, ⟨rfl, rfl⟩, h⟩ := h
  by_cases hchain : (readChain s.mem r.entry).1 = 0
  · rw [if_neg (not_not.mpr hchain)] at h
    by_cases hwrap : r.buildWrapper = true
    · rw [if_pos hwrap] at h
      simp only [returns_bind] at h
      obtain ⟨slot, s₁, hslot, trampoline, s₂, hmade, h⟩ := h
      obtain ⟨htakes, habsolute⟩ := slotForWrapper_cases hslot
      rw [select_size habsolute] at hmade
      split_ifs at h with hzero
      · obtain ⟨rfl, rfl⟩ := returns_pure.mp h
        subst hzero
        exact .refuse hchain hwrap habsolute htakes hmade
      · obtain ⟨rfl, rfl⟩ := returns_pure.mp h
        exact .wrap hchain hwrap habsolute htakes hmade hzero
    · rw [if_neg hwrap] at h
      obtain ⟨rfl, rfl⟩ := returns_pure.mp h
      exact .plain hchain (Bool.not_eq_true _ ▸ hwrap)
  · rw [if_pos hchain] at h
    exact redirect_cases hchain h

/-! ## Routes -/

/-- What a route does: it is out of range, has no original, is refused, or writes its jump. -/
inductive Routes (create : Addr → ℕ → PatcherM Addr) (env : Env) (r : RouteArgs) (s : State) :
    Route → State → Prop where
  | outOfRange {s' : State} (htype : r.jumpType = .Short) (hfar : ¬ Near (r.dest - (r.entry + 5)))
      (hrefused : Refused s s') : Routes create env r s .failed s'
  | noOriginal {s₁ : State} (hshort : r.jumpType = .Short → Near (r.dest - (r.entry + 5)))
      (hfinds : Finds create r s none s₁) :
      Routes create env r s .failed { s₁ with failures := s₁.failures + 1 }
  | refused {o : Original} {s₁ s' : State}
      (hshort : r.jumpType = .Short → Near (r.dest - (r.entry + 5)))
      (hfinds : Finds create r s (some o) s₁)
      (hgranted : ¬ Granted env s₁ (r.needs (.select r.absolute o.addressSlot)))
      (hrefused : Refused (s₁.withOrg r.org o.trampoline) s') : Routes create env r s .failed s'
  | installed {o : Original} {s₁ s' : State}
      (hshort : r.jumpType = .Short → Near (r.dest - (r.entry + 5)))
      (hfinds : Finds create r s (some o) s₁)
      (hgranted : Granted env s₁ (r.needs (.select r.absolute o.addressSlot)))
      (hinstalled : Installed r (.select r.absolute o.addressSlot) o.revertible
        (s₁.withOrg r.org o.trampoline) s') :
      Routes create env r s (.routed o.trampoline (.select r.absolute o.addressSlot)) s'

theorem withOrg_asked {org : Option ℕ} {t : Addr} : (s.withOrg org t).asked = s.asked := by
  cases org <;> rfl

theorem routeWith_cases {route : Route} (h : Returns (routeWith create env r) s route s') :
    Routes create env r s route s' := by
  rw [routeWith] at h
  by_cases hfar : r.jumpType = .Short ∧ ¬ Near (r.dest - (r.entry + 5))
  · rw [if_pos hfar] at h
    simp only [setError, returnEinval, returns_bind, returns_modify, returns_pure] at h
    obtain ⟨_, _, rfl, _, _, rfl, rfl, rfl⟩ := h
    exact .outOfRange hfar.1 hfar.2 ⟨rfl, rfl, rfl, rfl, rfl, rfl, rfl, rfl, by simp⟩
  · rw [if_neg hfar, returns_bind] at h
    have hshort : r.jumpType = .Short → Near (r.dest - (r.entry + 5)) :=
      fun htype => not_not.mp fun hn => hfar ⟨htype, hn⟩
    obtain ⟨o, s₁, horiginal, h⟩ := h
    have hfinds := original_cases horiginal
    cases o with
    | none =>
      simp only [returnEinval, returns_bind, returns_modify, returns_pure] at h
      obtain ⟨_, _, rfl, rfl, rfl⟩ := h
      exact .noOriginal hshort hfinds
    | some o =>
      simp only [returns_bind, returns_modify] at h
      obtain ⟨_, _, rfl, h⟩ := h
      obtain ⟨rfl, hgranted, hrefused⟩ | ⟨rfl, hgranted, hinstalled⟩ := install_cases h
      · refine .refused hshort hfinds ?_ hrefused
        rwa [Granted, withOrg_asked] at hgranted
      · refine .installed hshort hfinds ?_ hinstalled
        rwa [Granted, withOrg_asked] at hgranted

end Lilu.Patcher
