import Mathlib.Tactic
import Lilu.Patcher.Lookup
import Lilu.Patcher.FindReplace
import Lilu.Patcher.Stops

/-!
# Brackets of kernel writing

Whoever lifts the write protection holds a lock until it is set again. A call that lifts it while
the lock is held waits forever, and a function that returns before it is set again leaves everybody
else waiting. The calls of a program follow one another in the log `brackets`, so that a program is
right if a lock can go through its log, whatever the program has been answered, and also if it stops
on the way.

## Main definitions

* `lockAfter`: the lock behind the calls of a log
* `Locks p x q`: the program `x` goes from a lock in the state `p` to one in the state `q`
* `Bracketed`: a program that finds the lock free, and leaves it free
* `routeBlock`: overwriting a block of code
* `lookupProgram`, `replaceProgram`: `applyLookupPatch` and `findAndReplaceWithMask`, call by call

## Main results

* `Locks.bind`: a program of two parts, by its parts
* `Bracketed.count_eq`: the protection is set again as often as it was lifted
* `lookupProgram_runs`, `replaceProgram_runs`: the programs do what the functions do
* `bracketed_spec`, `bracketed_routeMultipleInternal`: the functions of the patcher are bracketed
-/

namespace Lilu.Patcher

variable {α β : Type} {env : Env} {s : State} {p : Bool} {log log' : List Bracket}

/-! ## The lock -/

/-- A call of `setKernelWriting`, with whether the lock is held before and after it. An attempt that
is not granted frees the lock itself. -/
def lockStep : Bool → Bracket → Option Bool
  | false, .lift granted => some granted
  | true, .drop => some false
  -- the lock is taken twice, or freed twice
  | true, .lift _ | false, .drop => none

/-- Whether the lock is held behind the calls of a log; none if one of them finds it in the wrong
state. -/
def lockAfter (held : Bool) (log : List Bracket) : Option Bool :=
  log.foldlM lockStep held

example : lockAfter false [.lift false, .lift true, .drop] = some false := rfl

example : lockAfter false [.lift true, .lift true] = none := rfl

theorem lockAfter_append {q : Bool} (h : lockAfter p log = some q) :
    lockAfter p (log ++ log') = lockAfter q log' := by
  rw [lockAfter, List.foldlM_append, ← lockAfter, h]
  rfl

/-- **A program and the lock**: the calls that it makes in a run find the lock as they should if it
is in the state `p` before, and if the program returns, then it is in the state `q` behind it. -/
def Locks (p : Bool) (x : PatcherM α) (q : α → Bool) : Prop :=
  ∀ s, ∃ log held, (x s).2.brackets = s.brackets ++ log ∧ lockAfter p log = some held ∧
    ∀ a, (x s).1 = .ok a → held = q a

/-- **Balanced and never nested**: every attempt to lift the protection finds the lock free, and a
program that returns has set the protection again as often as it was lifted. -/
def Bracketed (x : PatcherM α) : Prop :=
  Locks false x fun _ => false

/-- A lock is freed as often as it was taken. -/
theorem count_of_lockAfter {q : Bool} (h : lockAfter p log = some q) :
    log.count (.lift true) + p.toNat = log.count .drop + q.toNat := by
  induction log generalizing p with
  | nil =>
    obtain rfl := Option.some.inj h
    rfl
  | cons call log ih =>
    rw [lockAfter, List.foldlM_cons] at h
    obtain ⟨held, hcall, hrest⟩ := Option.bind_eq_some_iff.mp h
    have hcount := ih hrest
    cases p with
    | false =>
      cases call with
      | drop => cases hcall
      | lift granted =>
        obtain rfl := Option.some.inj hcall
        cases granted with
        | false => simpa using hcount
        | true => simpa [Nat.add_right_comm] using hcount
    | true =>
      cases call with
      | lift granted => cases hcall
      | drop =>
        obtain rfl := Option.some.inj hcall
        rw [List.count_cons_of_ne (by simp), List.count_cons_self, Bool.toNat_true]
        rw [Bool.toNat_false] at hcount
        omega

/-- A program that returns has set the protection again as often as it was lifted. -/
theorem Bracketed.count_eq {x : PatcherM α} {a : α} {s' : State} (hx : Bracketed x)
    (h : Returns x s a s') : ∃ log, s'.brackets = s.brackets ++ log ∧
      log.count (.lift true) = log.count .drop := by
  obtain ⟨log, held, hlog, hheld, hend⟩ := hx s
  rw [show x s = (.ok a, s') from h] at hlog hend
  obtain rfl := hend a rfl
  exact ⟨log, hlog, count_of_lockAfter hheld⟩

/-- The program does not call `setKernelWriting`. -/
abbrev Silent (x : PatcherM α) : Prop :=
  Composed SameLog (fun _ => True) x

section Rules

variable {x y : PatcherM α} {f : α → PatcherM β}

theorem Composed.locks (h : Silent x) : Locks p x fun _ => p :=
  fun s => ⟨[], p, (h.keeps s).trans (List.append_nil _).symm, rfl, fun _ _ => rfl⟩

theorem Composed.bracketed (h : Silent x) : Bracketed x :=
  h.locks

theorem locks_throw (e : Stop) (q : α → Bool) : Locks p (throw e) q :=
  fun _ => ⟨[], p, (List.append_nil _).symm, rfl, fun _ h => nomatch h⟩

/-- A program of two parts, by its parts. -/
theorem Locks.bind {q : α → Bool} {r : β → Bool} (hx : Locks p x q)
    (hf : ∀ a, Locks (q a) (f a) r) : Locks p (x >>= f) r := by
  intro s
  have hbind : (x >>= f) s = ExceptT.bindCont f (x s).1 (x s).2 := rfl
  obtain ⟨log, held, hlog, hheld, hq⟩ := hx s
  rw [hbind]
  rcases hrun : x s with ⟨e | a, s₁⟩
  -- the second part is not reached
  · rw [hrun] at hlog
    exact ⟨log, held, hlog, hheld, fun _ h => nomatch h⟩
  · rw [hrun] at hlog hq
    obtain rfl := hq a rfl
    obtain ⟨log', held', hlog', hheld', hr⟩ := hf a s₁
    refine ⟨log ++ log', held', ?_, (lockAfter_append hheld).trans hheld', hr⟩
    rw [← List.append_assoc, ← hlog]
    exact hlog'

theorem Locks.ite {c : Prop} [Decidable c] {q : α → Bool} (hx : Locks p x q) (hy : Locks p y q) :
    Locks p (if c then x else y) q := by
  split_ifs
  · exact hx
  · exact hy

/-- Nothing happens to the lock before the second part. -/
theorem Composed.then {q : β → Bool} (hx : Silent x) (hf : ∀ a, Locks p (f a) q) :
    Locks p (x >>= f) q :=
  hx.locks.bind hf

end Rules

/-! ## Calls of `setKernelWriting` -/

variable {opcode argument disp : Option Patch}

theorem returns_lift : Returns (setKernelWriting env true) s (env.answer s.asked)
    { s with asked := s.asked + 1, brackets := s.brackets ++ [.lift (env.answer s.asked)] } :=
  rfl

/-- A program that first tries to lift the protection. -/
theorem returns_lift_bind {f : Bool → PatcherM α} {a : α} {s' : State} :
    Returns (setKernelWriting env true >>= f) s a s' ↔ Returns (f (env.answer s.asked))
      { s with
        asked := s.asked + 1
        brackets := s.brackets ++ [.lift (env.answer s.asked)] } a s' := by
  rw [returns_bind]
  constructor
  · rintro ⟨granted, s₁, hgranted, h⟩
    obtain ⟨rfl, rfl⟩ := hgranted.unique returns_lift
    exact h
  · exact fun h => ⟨_, _, returns_lift, h⟩

theorem returns_drop_bind {f : Bool → PatcherM α} {a : α} {s' : State} :
    Returns (setKernelWriting env false >>= f) s a s' ↔
      Returns (f true) { s with brackets := s.brackets ++ [.drop] } a s' := by
  rw [returns_bind]
  constructor
  · rintro ⟨_, s₁, hdrop, h⟩
    cases hdrop
    exact h
  · exact fun h => ⟨_, _, rfl, h⟩

theorem locks_lift : Locks false (setKernelWriting env true) id := by
  intro s
  refine ⟨[.lift (env.answer s.asked)], env.answer s.asked, rfl, rfl, ?_⟩
  rintro _ ⟨⟩
  rfl

theorem locks_drop : Locks true (setKernelWriting env false) fun _ => false :=
  fun _ => ⟨[.drop], false, rfl, rfl, fun _ _ => rfl⟩

theorem locks_mayWrite (kernelRoute : Bool) :
    Locks false (mayWrite env kernelRoute) fun granted => kernelRoute && granted := by
  cases kernelRoute with
  | true => exact locks_lift
  | false => exact (Composed.pure true).locks

theorem silent_restore (patch : Patch) : Silent (Patch.restore patch) :=
  Composed.modify fun _ => rfl

theorem silent_redirect (chain : Addr × Option JumpType) (r : RouteArgs) :
    Silent (redirect chain r) := by
  refine Composed.bind (Composed.modify fun _ => rfl) fun _ => ?_
  apply (Composed.throw trivial).ite
  apply Composed.ite
  · cases r.info with
    | none => exact Composed.throw trivial
    | some id =>
      apply (composed_getAddressSlot trivial id).bind
      intro addressSlot
      exact (Composed.throw trivial).ite (Composed.pure _)
  · exact Composed.pure _

/-! ## Routes -/

section Routes

variable {create : Addr → ℕ → PatcherM Addr} (r : RouteArgs)

theorem bracketed_original (hcreate : ∀ func min, Bracketed (create func min)) :
    Bracketed (original create r) := by
  apply Composed.get.then
  intro s
  apply (silent_redirect _ r).bracketed.ite
  apply Locks.ite
  · apply (composed_slotForWrapper trivial r).then
    intro addressSlot
    apply (hcreate _ _).bind
    intro trampoline
    exact (Composed.pure _).bracketed.ite (Composed.pure _).bracketed
  · exact (Composed.pure _).bracketed

/-- What follows the attempt to lift the protection ends the bracket. -/
theorem locks_commit (o : Original) (jump : Jump) :
    Locks r.kernelRoute (commit env r o jump opcode argument disp) fun _ => false := by
  apply (composed_writeJump trivial SameLog.store r.entry jump).then
  intro _
  have hafter : Locks r.kernelRoute
      (afterWrite env r.kernelRoute o.revertible opcode argument disp) fun _ => false := by
    cases r.kernelRoute with
    | true =>
      apply locks_drop.bind
      intro _
      exact ((composed_keepPatches trivial).ite (Composed.pure false)).locks
    | false => exact (Composed.pure false).locks
  apply hafter.bind
  intro kept
  apply (Composed.pure _).bracketed.ite
  exact ((composed_deletePatches _ _ _).bind fun _ => Composed.pure _).locks

theorem bracketed_install (o : Original) : Bracketed (install env r o) := by
  refine Composed.then (Composed.modify fun _ => rfl) fun _ => ?_
  apply (composed_createPatches _ _ _).then
  rintro ⟨opcode, argument, disp⟩
  apply (composed_giveUp _ _ _ _).bracketed.ite
  apply (locks_mayWrite _).bind
  intro granted
  cases granted with
  | true =>
    rw [Bool.and_true]
    exact locks_commit r o _
  | false =>
    rw [Bool.and_false]
    exact (composed_giveUp _ _ _ _).locks

theorem bracketed_routeWith (hcreate : ∀ func min, Bracketed (create func min)) :
    Bracketed (routeWith create env r) := by
  apply ((composed_setError _).bind fun _ => composed_returnEinval).bracketed.ite
  apply (bracketed_original r hcreate).bind
  intro o
  cases o with
  | none => exact composed_returnEinval.bracketed
  | some o =>
    refine Composed.then (Composed.modify fun s => ?_) fun _ => bracketed_install r o
    cases r.org <;> rfl

end Routes

theorem bracketed_createTrampoline (opcodes : List UInt8) (func : Addr) (min : ℕ) :
    Bracketed (createTrampoline env opcodes func min) := by
  apply locks_lift.bind
  intro granted
  cases granted with
  | false => exact ((composed_setError _).bind fun _ => Composed.pure _).locks
  | true =>
    -- an exit on which nothing was copied
    have hexit : Locks true (do
        let _ ← setKernelWriting env false
        setError .DisasmFailure
        pure (0 : Addr)) fun _ => false :=
      locks_drop.bind fun _ => ((composed_setError _).bind fun _ => Composed.pure _).locks
    apply Composed.get.then
    intro s
    apply hexit.ite
    refine Composed.then (Composed.modify fun _ => rfl) fun _ => ?_
    apply hexit.ite
    refine Composed.then (Composed.modify fun _ => rfl) fun _ => ?_
    refine Composed.then (Composed.modify fun _ => rfl) fun _ => ?_
    apply locks_drop.bind
    intro _
    apply (composed_setError _).then
    intro _
    -- the route behind the instructions finds the lock free again
    apply (bracketed_routeWith _ fun _ _ => (Composed.pure 0).bracketed).bind
    intro _
    apply Composed.get.then
    intro s
    apply Locks.ite
    · exact Composed.locks (.bind (.modify fun _ => rfl) fun _ => .pure _)
    · exact (Composed.pure 0).locks

theorem bracketed_routeFunctionInternal (r : RouteArgs) :
    Bracketed (routeFunctionInternal env r) :=
  bracketed_routeWith r fun func min => bracketed_createTrampoline [] func min

/-! ## Blocks -/

/-- `routeBlock`. -/
def routeBlock (env : Env) (entry : Addr) (opcodes : List UInt8) (buildWrapper kernelRoute : Bool) :
    PatcherM Addr := do
  if !buildWrapper then
    if ← mayWrite env kernelRoute then
      modify fun s => { s with mem := store s.mem entry opcodes }
      if kernelRoute then
        let _ ← setKernelWriting env false
      pure 0
    else
      setError .MemoryProtection
      pure EINVAL
  else if !kernelRoute then
    setError .MemoryProtection
    pure EINVAL
  else
    let trampoline ← createTrampoline env opcodes entry longJump
    if trampoline = 0 then pure EINVAL
    else
      let route ← routeFunctionInternal env { entry, dest := trampoline }
      pure (if route.value = 0 then trampoline else EINVAL)

theorem bracketed_routeBlock (entry : Addr) (opcodes : List UInt8)
    (buildWrapper kernelRoute : Bool) :
    Bracketed (routeBlock env entry opcodes buildWrapper kernelRoute) := by
  have hrefuse : Silent (do
      setError .MemoryProtection
      pure EINVAL) := (composed_setError _).bind fun _ => Composed.pure _
  apply Locks.ite
  · apply (locks_mayWrite _).bind
    intro granted
    cases granted with
    | false =>
      rw [Bool.and_false]
      exact hrefuse.locks
    | true =>
      rw [Bool.and_true]
      refine Composed.then (Composed.modify fun _ => rfl) fun _ => ?_
      cases kernelRoute with
      | true => exact locks_drop.bind fun _ => (Composed.pure 0).locks
      | false => exact (Composed.pure 0).locks
  · apply hrefuse.bracketed.ite
    apply (bracketed_createTrampoline _ _ _).bind
    intro trampoline
    apply (Composed.pure _).bracketed.ite
    apply (bracketed_routeFunctionInternal _).bind
    intro route
    exact (Composed.pure _).bracketed

/-! ## Coverage instructions, and the end -/

theorem bracketed_eraseInst (addr : Addr) (instSize : ℕ) :
    Bracketed (eraseInst env addr instSize) := by
  apply Composed.get.then
  intro s
  apply Locks.ite
  · apply locks_lift.bind
    intro granted
    cases granted with
    | false => exact (Composed.pure ()).locks
    | true =>
      refine Composed.then (Composed.modify fun _ => rfl) fun _ => ?_
      exact locks_drop.bind fun _ => (Composed.pure ()).locks
  · exact (Composed.pure ()).locks

theorem bracketed_eraseFrom (limit : ℤ) (count : ℕ) (addr : Addr) (totalInstSize : ℤ) :
    Bracketed (eraseFrom env limit count addr totalInstSize) := by
  induction count generalizing addr totalInstSize with
  | zero => exact (Composed.pure ()).bracketed
  | succ count ih =>
    apply Composed.get.then
    intro s
    apply (Composed.pure ()).bracketed.ite
    apply (bracketed_eraseInst _ _).bind
    intro _
    exact (Composed.pure ()).bracketed.ite (ih _ _)

theorem silent_solveSymbol (id : ℕ) (symbol : Kext.CString) :
    Silent (solveSymbol env id symbol) := by
  apply Composed.get.bind
  intro s
  exact (Composed.pure _).ite ((composed_setError _).bind fun _ => Composed.pure _)

theorem silent_solveSymbolIn (id : ℕ) (symbol : Kext.CString) (start size : Addr) :
    Silent (solveSymbolIn env id symbol start size) := by
  apply (silent_solveSymbol id symbol).bind
  intro addr
  apply Composed.ite
  · exact (composed_setError _).bind fun _ => Composed.throw trivial
  · exact Composed.pure _

theorem silent_resolveRequests (id : ℕ) (start size : Addr) (force : Bool)
    (requests : List RouteRequest) : Silent (resolveRequests env id start size force requests) := by
  induction requests with
  | nil => exact Composed.pure _
  | cons request requests ih =>
    rw [resolveRequests]
    cases request.symbol with
    | none => exact ih.bind fun _ => Composed.pure _
    | some symbol =>
      -- what follows is the same for both ways to solve the symbol
      have hrest : ∀ keep : List RouteRequest × Bool → List RouteRequest × Bool, Silent (do
          let rest ← resolveRequests env id start size force requests
          pure (rest.map keep)) :=
        fun keep => ih.bind fun _ => Composed.pure _
      have hentry : ∀ (entry : Addr) (keep : List RouteRequest × Bool → List RouteRequest × Bool),
          Silent (do
            if entry = 0 then
              clearError
              if !force then return none
            let rest ← resolveRequests env id start size force requests
            pure (rest.map keep)) := by
        intro entry keep
        refine Composed.ite ((composed_setError _).bind fun _ => ?_) (hrest keep)
        exact (Composed.pure none).ite (hrest keep)
      apply Composed.ite
      · exact (silent_solveSymbolIn id symbol start size).bind fun entry => hentry entry _
      · exact (silent_solveSymbol id symbol).bind fun entry => hentry entry _

theorem bracketed_routeRequest (id : ℕ) (kernelRoute : Bool) (jump : JumpType)
    (request : RouteRequest) : Bracketed (routeRequest env id kernelRoute jump request) := by
  have hwrapper : ∀ r : RouteArgs, Bracketed (do
      let wrapper ← routeFunctionInternal env r
      pure (if request.org.isSome then decide (wrapper.value ≠ 0)
        else decide (wrapper.value = 0))) :=
    fun r => (bracketed_routeFunctionInternal r).bind fun _ => (Composed.pure _).bracketed
  have hroute : Bracketed (do
      if (← get).kinfos.length ≤ id then throw .undefined
      let wrapper ← routeFunctionInternal env
        { entry := request.entry, dest := request.dest, buildWrapper := request.org.isSome,
          kernelRoute, revertible := true, jumpType := jump, info := some id, org := request.org }
      pure (if request.org.isSome then decide (wrapper.value ≠ 0)
        else decide (wrapper.value = 0))) := by
    apply Composed.get.then
    intro s
    exact ((Composed.throw trivial).bracketed.bind fun _ => hwrapper _).ite (hwrapper _)
  apply Locks.ite
  · exact (bracketed_eraseFrom _ _ _ _).bind fun _ => hroute
  · exact hroute

theorem bracketed_routeRequests (id : ℕ) (kernelRoute force : Bool) (jump : JumpType)
    (requests : List RouteRequest) (errorsFound : Bool) :
    Bracketed (routeRequests env id kernelRoute force jump requests errorsFound) := by
  induction requests generalizing errorsFound with
  | nil => exact (Composed.pure _).bracketed
  | cons request requests ih =>
    apply (ih _).ite
    apply (bracketed_routeRequest id kernelRoute jump request).bind
    intro done
    apply (ih _).ite
    apply (composed_setError _).then
    intro _
    exact (ih _).ite (Composed.pure _).bracketed

/-- A whole call for some requests. -/
theorem bracketed_routeMultipleInternal (id : ℕ) (requests : List RouteRequest) (start size : Addr)
    (kernelRoute force : Bool) (jump : JumpType) :
    Bracketed (routeMultipleInternal env id requests start size kernelRoute force jump) := by
  apply (silent_resolveRequests _ _ _ _ _).then
  intro resolved
  cases resolved with
  | none => exact (Composed.pure _).bracketed
  | some resolved =>
    apply (bracketed_routeRequests _ _ _ _ _ _).bind
    intro done
    exact (Composed.pure _).bracketed

theorem silent_forM {act : Patch → PatcherM PUnit} (h : ∀ patch, Silent (act patch))
    (l : List Patch) : Silent (l.forM act) := by
  induction l with
  | nil => exact Composed.pure _
  | cons patch l ih => exact (h patch).bind fun _ => ih

theorem bracketed_deinit : Bracketed (deinit env) := by
  have hend : ∀ s : State, Silent (do
      s.kpatches.forM fun p => Patch.deleter (some p)
      modify fun s => { s with kpatches := [], kinfos := [] }) := by
    intro s
    refine Composed.bind (silent_forM (fun p => composed_deleter (some p)) _) fun _ => ?_
    exact Composed.modify fun _ => rfl
  apply Composed.get.then
  intro s
  apply Locks.ite
  · apply locks_lift.bind
    intro granted
    cases granted with
    | false => exact (hend s).locks
    | true =>
      refine Composed.then (silent_forM silent_restore _) fun _ => ?_
      exact locks_drop.bind fun _ => (hend s).locks
  · exact (hend s).locks

/-! ## Lookup patches -/

section LookupPatches

/-- What `applyLookupPatch` does once it may write, and whether the protection is set again is told
by `lookup`. -/
def rewriteFound (env : Env) (lookup : LookupEnv) (fuel : ℕ) (patch : LookupPatch)
    (startingAddress maxSize : Addr) : PatcherM Unit := do
  match loops lookup patch startingAddress maxSize fuel (← get).mem with
  | none => throw .unfinished
  | some r =>
    modify fun s => { s with mem := r.mem }
    let _ ← setKernelWriting env false
    if ¬ lookup.drops then setError .MemoryProtection
    else if r.changes ≠ patch.count then setError .MemoryIssue
    else pure ()

/-- `applyLookupPatch`, call by call. -/
def lookupProgram (env : Env) (lookup : LookupEnv) (fuel : ℕ) (patch : Option LookupPatch)
    (startingAddress maxSize : Addr) : PatcherM Unit :=
  match patch with
  | none => setError .MemoryIssue
  | some patch =>
    if ¬ patch.Loaded then setError .MemoryIssue
    else do
      if ← setKernelWriting env true then
        rewriteFound env lookup fuel patch startingAddress maxSize
      else setError .MemoryProtection

variable {lookup : LookupEnv} {fuel : ℕ} {startingAddress maxSize : Addr} {u : Unit} {s' : State}

theorem locks_rewriteFound {patch : LookupPatch} :
    Locks true (rewriteFound env lookup fuel patch startingAddress maxSize) fun _ => false := by
  apply Composed.get.then
  intro s
  cases loops lookup patch startingAddress maxSize fuel s.mem with
  | none => exact locks_throw _ _
  | some r =>
    refine Composed.then (Composed.modify fun _ => rfl) fun _ => ?_
    apply locks_drop.bind
    intro _
    apply (composed_setError _).bracketed.ite
    exact (composed_setError _).bracketed.ite (Composed.pure ()).bracketed

theorem bracketed_lookupProgram {patch : Option LookupPatch} :
    Bracketed (lookupProgram env lookup fuel patch startingAddress maxSize) := by
  cases patch with
  | none => exact (composed_setError _).bracketed
  | some patch =>
    apply (composed_setError _).bracketed.ite
    apply locks_lift.bind
    intro granted
    cases granted with
    | false => exact (composed_setError _).locks
    | true => exact locks_rewriteFound

/-- How the bytes that are found leave the state. -/
theorem returns_rewriteFound {patch : LookupPatch} :
    Returns (rewriteFound env lookup fuel patch startingAddress maxSize) s u s' ↔
      ∃ r, loops lookup patch startingAddress maxSize fuel s.mem = some r ∧
        s' = { s with
          brackets := s.brackets ++ [.drop]
          mem := r.mem
          code := if ¬ lookup.drops then .MemoryProtection
            else if r.changes ≠ patch.count then .MemoryIssue else s.code } := by
  rw [rewriteFound, returns_bind]
  constructor
  · rintro ⟨_, _, hget, h⟩
    obtain ⟨rfl, rfl⟩ := returns_get.mp hget
    cases hloops : loops lookup patch startingAddress maxSize fuel s.mem with
    | none =>
      rw [hloops] at h
      exact absurd h not_returns_throw
    | some r =>
      rw [hloops] at h
      simp only [returns_bind, returns_modify] at h
      obtain ⟨_, _, rfl, _, s₂, hdrop, h⟩ := h
      refine ⟨r, rfl, ?_⟩
      cases hdrop
      split_ifs at h ⊢
      · exact (returns_modify.mp h).symm
      · exact (returns_modify.mp h).symm
      · exact (returns_pure.mp h).2.symm
  · rintro ⟨r, hloops, rfl⟩
    refine ⟨_, _, rfl, ?_⟩
    rw [hloops]
    simp only [returns_bind, returns_modify]
    refine ⟨(), _, rfl, true, _, rfl, ?_⟩
    split_ifs <;> rfl

/-- **The program does what the function does**: the two end with the same memory and the same
error. -/
theorem lookupProgram_runs (lookup : LookupEnv) (fuel : ℕ) (patch : Option LookupPatch)
    (startingAddress maxSize : Addr) (m : Mem) (code : Kext.Error) :
    (∃ s', Returns (lookupProgram env lookup fuel patch startingAddress maxSize) s () s' ∧
      s'.mem = m ∧ s'.code = code) ↔
    ∃ r, applyLookupPatch { lookup with lifts := env.answer s.asked } fuel patch startingAddress
      maxSize ⟨s.mem, s.code, []⟩ = some r ∧ r.mem = m ∧ r.code = code := by
  cases patch with
  | none => simp [lookupProgram, setError, applyLookupPatch]
  | some patch =>
    rw [lookupProgram]
    by_cases hvalid : patch.Loaded
    case neg => simp [hvalid, setError, applyLookupPatch]
    by_cases hlifts : env.answer s.asked = true
    case neg => simp [hvalid, hlifts, setError, returns_lift_bind, applyLookupPatch]
    simp only [if_neg (not_not.mpr hvalid), returns_lift_bind, if_pos hlifts, returns_rewriteFound,
      applyLookupPatch_eq_some { lookup with lifts := env.answer s.asked } patch startingAddress
        maxSize hvalid hlifts]
    constructor
    · rintro ⟨s', ⟨r, hr, rfl⟩, rfl, rfl⟩
      exact ⟨_, ⟨r, hr, rfl⟩, rfl, rfl⟩
    · rintro ⟨r', ⟨r, hr, rfl⟩, rfl, rfl⟩
      exact ⟨_, ⟨r, hr, rfl⟩, rfl, rfl⟩

end LookupPatches

/-! ## Finding and replacing -/

section Replacing

variable (a : Replacement)

/-- The loop of `findAndReplaceWithMask`, call by call. -/
def replaceFrom (env : Env) : ℕ → FindReplace → PatcherM (FindReplace × Bool)
  | 0, _ => throw .unfinished
  | fuel + 1, s =>
    match findPattern a s.data s.dataOffset with
    | none => pure (s, 0 < s.replCount)
    | some o =>
      if 0 < s.skip then
        replaceFrom env fuel { s with skip := s.skip - 1, dataOffset := o + a.findSize }
      else do
        if ← setKernelWriting env true then
          let s' := rewritten a s o
          -- a failure is only logged
          let _ ← setKernelWriting env false
          if s.count = 1 then pure (s', 0 < s'.replCount) else replaceFrom env fuel s'
        else pure ({ s with dataOffset := o, asked := s.asked + 1 }, false)

/-- `findAndReplaceWithMask`, call by call. -/
def replaceProgram (env : Env) (fuel : ℕ) (data : ℕ → UInt8) : PatcherM (FindReplace × Bool) :=
  if a.dataSize < a.findSize then pure (.start a data, false)
  else replaceFrom a env fuel (.start a data)

theorem bracketed_replaceFrom (fuel : ℕ) (s : FindReplace) :
    Bracketed (replaceFrom a env fuel s) := by
  induction fuel generalizing s with
  | zero => exact (Composed.throw trivial).bracketed
  | succ fuel ih =>
    rw [replaceFrom]
    cases findPattern a s.data s.dataOffset with
    | none => exact (Composed.pure _).bracketed
    | some o =>
      apply (ih _).ite
      apply locks_lift.bind
      intro granted
      cases granted with
      | false => exact (Composed.pure _).locks
      | true =>
        apply locks_drop.bind
        intro _
        exact (Composed.pure _).bracketed.ite (ih _)

theorem bracketed_replaceProgram (fuel : ℕ) (data : ℕ → UInt8) :
    Bracketed (replaceProgram a env fuel data) :=
  (Composed.pure _).bracketed.ite (bracketed_replaceFrom a fuel _)

/-- The program and the loop, where the answers to the loop are those that the program will get. -/
theorem replaceFrom_runs {grants : ℕ → Bool} (fuel : ℕ) {t : FindReplace} {σ : State}
    (hgrants : ∀ i, grants (t.asked + i) = env.answer (σ.asked + i)) (r : FindReplace × Bool) :
    (∃ σ', Returns (replaceFrom a env fuel t) σ r σ') ↔ loop (turn a grants) fuel t = some r := by
  induction fuel generalizing t σ with
  | zero => exact iff_of_false (fun ⟨_, h⟩ => not_returns_throw h) (fun h => nomatch h)
  | succ fuel ih =>
    have hanswer : grants t.asked = env.answer σ.asked := hgrants 0
    rw [replaceFrom, loop, turn, pass]
    cases findPattern a t.data t.dataOffset with
    | none => simp
    | some o =>
      by_cases hskip : 0 < t.skip
      · simp only [if_pos hskip]
        exact ih hgrants
      simp only [if_neg hskip, returns_lift_bind, hanswer]
      cases env.answer σ.asked with
      | false => simp
      | true =>
        simp only [if_true, returns_drop_bind]
        by_cases hcount : t.count = 1
        · simp [hcount]
        · simp only [if_neg hcount]
          refine ih fun i => ?_
          have hnext := hgrants (1 + i)
          rwa [← Nat.add_assoc, ← Nat.add_assoc] at hnext

/-- **The program does what the function does**: they end with the same data and the same value. -/
theorem replaceProgram_runs (fuel : ℕ) (data : ℕ → UInt8) (r : FindReplace × Bool) :
    (∃ s', Returns (replaceProgram a env fuel data) s r s') ↔
      findAndReplaceWithMask a (fun i => env.answer (s.asked + i)) fuel data = some r := by
  rw [replaceProgram, findAndReplaceWithMask]
  split_ifs
  · simp
  · refine replaceFrom_runs a fuel (fun i => ?_) r
    rw [show (FindReplace.start a data).asked = 0 from rfl, Nat.zero_add]

end Replacing

/-- **Kernel writing is bracketed** in all functions of the patcher, whatever they are given and
answered, and across their calls to one another. -/
theorem bracketed_spec (env : Env) :
    (∀ r, Bracketed (routeFunctionInternal env r)) ∧
    (∀ opcodes func min, Bracketed (createTrampoline env opcodes func min)) ∧
    (∀ entry opcodes buildWrapper kernelRoute,
      Bracketed (routeBlock env entry opcodes buildWrapper kernelRoute)) ∧
    (∀ lookup fuel patch startingAddress maxSize,
      Bracketed (lookupProgram env lookup fuel patch startingAddress maxSize)) ∧
    (∀ a fuel data, Bracketed (replaceProgram a env fuel data)) ∧
    (∀ addr count limit, Bracketed (eraseCoverageInstPrefix env addr count limit)) ∧
    Bracketed (deinit env) :=
  ⟨bracketed_routeFunctionInternal, bracketed_createTrampoline, bracketed_routeBlock,
    fun _ _ _ _ _ => bracketed_lookupProgram, bracketed_replaceProgram,
    fun addr count limit => bracketed_eraseFrom limit count addr 0, bracketed_deinit⟩

end Lilu.Patcher
