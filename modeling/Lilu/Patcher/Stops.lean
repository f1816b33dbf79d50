import Mathlib.Tactic
import Lilu.Patcher.Written

/-!
# Programs that do not return

A panic stops the kernel, and so does what is undefined. Whether a program stops is told part by
part: the first part stops, or it returns and the rest stops from there. Most of the routing code
never stops. It panics only where a function that starts with a jump is routed again.

## Main definitions

* `Stops x s e`: the program `x` started in `s` does not return, because of `e`
* `Avoids e x`: the program never stops because of `e`
* `Composed R E x`: the program is put together from steps that change the state as `R` allows

## Main results

* `stops_bind`: a program of two parts, by its parts
* `Composed.avoids`, `Composed.keeps`: how a program stops, and what it keeps, by its steps
* `redirect_panics_iff`, `original_panics_iff`, `routeWith_panics_iff`: where a route panics
-/

namespace Lilu.Patcher

variable {α β : Type} {s s' : State} {e : Stop} {env : Env}

/-! ## Stopping -/

/-- The program does not return, because of `e`. -/
def Stops (x : PatcherM α) (s : State) (e : Stop) : Prop :=
  (x s).1 = .error e

/-- The program never stops because of `e`. -/
def Avoids (e : Stop) (x : PatcherM α) : Prop :=
  ∀ s, ¬ Stops x s e

theorem returns_or_stops (x : PatcherM α) (s : State) :
    (∃ a s', Returns x s a s') ∨ ∃ e, Stops x s e := by
  rcases hx : x s with ⟨e | a, s'⟩
  · exact .inr ⟨e, congrArg Prod.fst hx⟩
  · exact .inl ⟨a, s', hx⟩

theorem Returns.not_stops {x : PatcherM α} {a : α} (h : Returns x s a s') : ¬ Stops x s e := by
  intro hstops
  rw [Stops, h] at hstops
  cases hstops

/-- A program of two parts, by its parts. -/
theorem stops_bind {x : PatcherM α} {f : α → PatcherM β} :
    Stops (x >>= f) s e ↔ Stops x s e ∨ ∃ a s₁, Returns x s a s₁ ∧ Stops (f a) s₁ e := by
  have hbind : (x >>= f) s = ExceptT.bindCont f (x s).1 (x s).2 := rfl
  rw [Stops, Stops, hbind]
  rcases hx : x s with ⟨e' | a, s₁⟩
  · constructor
    · intro h
      cases h
      exact .inl rfl
    · rintro (h | ⟨a, s₂, ha, -⟩)
      · cases h
        rfl
      · cases ha.symm.trans hx
  · constructor
    · intro h
      exact .inr ⟨a, s₁, hx, h⟩
    · rintro (h | ⟨a', s₁', ha, hf⟩)
      · cases h
      · cases hx.symm.trans ha
        exact hf

@[simp] theorem stops_throw {e' : Stop} : Stops (throw e' : PatcherM α) s e ↔ e' = e := by
  constructor
  · intro h
    cases h
    rfl
  · rintro rfl
    rfl

@[simp] theorem avoids_pure (a : α) : Avoids e (pure a) := by
  intro s h
  cases h

@[simp] theorem avoids_get : Avoids e (get : PatcherM State) := by
  intro s h
  cases h

@[simp] theorem avoids_modify (f : State → State) : Avoids e (modify f) := by
  intro s h
  cases h

theorem Avoids.bind {x : PatcherM α} {f : α → PatcherM β} (hx : Avoids e x)
    (hf : ∀ a, Avoids e (f a)) : Avoids e (x >>= f) := by
  intro s h
  obtain h | ⟨a, s₁, -, h⟩ := stops_bind.mp h
  · exact hx s h
  · exact hf a s₁ h

theorem Avoids.ite {x y : PatcherM α} {p : Prop} [Decidable p] (hx : Avoids e x)
    (hy : Avoids e y) : Avoids e (if p then x else y) := by
  split_ifs
  · exact hx
  · exact hy

/-- What comes before does not stop the program. -/
theorem Avoids.stops_bind {x : PatcherM α} {f : α → PatcherM β} (hx : Avoids e x) :
    Stops (x >>= f) s e ↔ ∃ a s₁, Returns x s a s₁ ∧ Stops (f a) s₁ e := by
  rw [Patcher.stops_bind]
  exact or_iff_right (hx s)

/-! ## Programs by their steps -/

/-- Programs that are put together from steps. Each changes the state as the relation allows it, and
the program stops only in the ways that are given. -/
inductive Composed (R : State → State → Prop) (E : Stop → Prop) :
    {α : Type} → PatcherM α → Prop
  | pure {α : Type} (a : α) : Composed R E (pure a : PatcherM α)
  | get : Composed R E (get : PatcherM State)
  | modify {g : State → State} (hg : ∀ s, R s (g s)) : Composed R E (modify g : PatcherM Unit)
  | throw {α : Type} {e : Stop} (he : E e) : Composed R E (throw e : PatcherM α)
  | bind {α β : Type} {x : PatcherM α} {f : α → PatcherM β} (hx : Composed R E x)
    (hf : ∀ a, Composed R E (f a)) : Composed R E (x >>= f)

section Composed

variable {R : State → State → Prop} {E : Stop → Prop} {x y : PatcherM α}

theorem Composed.ite {c : Prop} [Decidable c] (hx : Composed R E x) (hy : Composed R E y) :
    Composed R E (if c then x else y) := by
  split_ifs
  · exact hx
  · exact hy

/-- A program stops in no other way than those that are given. -/
theorem Composed.avoids (h : Composed R E x) (he : ¬ E e) : Avoids e x := by
  induction h with
  | pure a => exact avoids_pure a
  | get => exact avoids_get
  | modify hg => exact avoids_modify _
  | throw he' =>
    intro s hstops
    obtain rfl := stops_throw.mp hstops
    exact he he'
  | bind _ _ ihx ihf => exact ihx.bind ihf

theorem Composed.never_stops (h : Composed R (fun _ => False) x) : Avoids e x :=
  h.avoids id

theorem Composed.not_panics (h : Composed R (Eq .undefined) x) : Avoids .panic x :=
  h.avoids nofun

variable [Std.Refl R] [IsTrans State R]

/-- **What all steps keep, the program keeps**, whether it returns or stops. -/
theorem Composed.keeps (h : Composed R E x) (s : State) : R s (x s).2 := by
  induction h generalizing s with
  | pure | get | throw => exact Std.Refl.refl s
  | modify hg => exact hg s
  | @bind _ _ x f _ _ ihx ihf =>
    have hbind : (x >>= f) s = ExceptT.bindCont f (x s).1 (x s).2 := rfl
    have hfirst := ihx s
    rw [hbind]
    rcases hrun : x s with ⟨e | a, s₁⟩
    · rw [hrun] at hfirst
      exact hfirst
    · rw [hrun] at hfirst
      exact IsTrans.trans _ _ _ hfirst (ihf a s₁)

theorem Composed.of_returns (h : Composed R E x) {a : α} (hx : Returns x s a s') : R s s' := by
  have hs := h.keeps s
  rwa [show x s = (.ok a, s') from hx] at hs

end Composed

/-! ## Small steps -/

/-- Nobody has called `setKernelWriting`. -/
def SameLog (s s' : State) : Prop :=
  s'.brackets = s.brackets

theorem SameLog.store (s : State) (m : Mem) : SameLog s { s with mem := m } :=
  rfl

instance : Std.Refl SameLog :=
  ⟨fun _ => rfl⟩

instance : IsTrans State SameLog :=
  ⟨fun _ _ _ h h' => h'.trans h⟩

section Steps

variable {E : Stop → Prop}

theorem composed_ask : Composed SameLog E (ask env) := by
  apply Composed.get.bind
  intro s
  exact .bind (.modify fun _ => rfl) fun _ => .pure _

theorem composed_create (address : Addr) (replaced : List UInt8) :
    Composed SameLog E (Patch.create env address replaced) := by
  apply composed_ask.bind
  intro granted
  apply Composed.ite
  · apply Composed.get.bind
    intro s
    exact .bind (.modify fun _ => rfl) fun _ => .pure _
  · exact .pure none

theorem composed_setError (code : Kext.Error) : Composed SameLog E (setError code) :=
  .modify fun _ => rfl

theorem composed_deleter (p : Option Patch) : Composed SameLog E (Patch.deleter p) := by
  cases p with
  | none => exact .pure ()
  | some p => exact .modify fun _ => rfl

theorem composed_deletePatches (opcode argument disp : Option Patch) :
    Composed SameLog E (deletePatches opcode argument disp) :=
  (composed_deleter _).bind fun _ => (composed_deleter _).bind fun _ => composed_deleter _

theorem composed_returnEinval : Composed SameLog E returnEinval :=
  .bind (.modify fun _ => rfl) fun _ => .pure _

theorem composed_giveUp (code : Kext.Error) (opcode argument disp : Option Patch) :
    Composed SameLog E (giveUp code opcode argument disp) :=
  (composed_setError _).bind fun _ =>
    (composed_deletePatches _ _ _).bind fun _ => composed_returnEinval

theorem composed_pushBack (p : Option Patch) : Composed SameLog E (pushBack env p) := by
  cases p with
  | none => exact .pure false
  | some p =>
    apply composed_ask.bind
    intro granted
    apply Composed.ite
    · exact .bind (.modify fun _ => rfl) fun _ => .pure _
    · exact .pure false

theorem composed_createPatches (entry dest : Addr) (jump : Jump) :
    Composed SameLog E (createPatches env entry dest jump) := by
  apply (composed_create _ _).bind
  intro opcode
  apply (composed_create _ _).bind
  intro argument
  cases jump.dispAt entry with
  | none => exact .pure _
  | some _ => exact (composed_create _ _).bind fun _ => .pure _

/-! ## Steps that may be undefined -/

variable {opcode argument disp : Option Patch} (hE : E .undefined)
include hE

theorem composed_getAddressSlot (id : ℕ) : Composed SameLog E (getAddressSlot id) := by
  apply Composed.get.bind
  intro s
  cases s.kinfos[id]? with
  | none => exact .throw hE
  | some info =>
    apply Composed.ite
    · exact .bind (.modify fun _ => rfl) fun _ => .pure _
    · exact .pure 0

theorem composed_slotForWrapper (r : RouteArgs) : Composed SameLog E (slotForWrapper r) := by
  rw [slotForWrapper]
  cases r.info with
  | none => exact .pure 0
  | some id => exact (composed_getAddressSlot hE id).ite (.pure 0)

theorem composed_eraseStored (idx : Bool) : Composed SameLog E (eraseStored idx) := by
  apply Composed.ite
  · apply Composed.get.bind
    intro s
    cases s.kpatches[1]? with
    | none => exact .throw hE
    | some p => exact (composed_deleter _).bind fun _ => .modify fun _ => rfl
  · exact .pure ()

theorem composed_keepPatches : Composed SameLog E (keepPatches env opcode argument disp) := by
  apply (composed_pushBack _).bind
  intro oidx
  apply (composed_pushBack _).bind
  intro aidx
  apply (composed_pushBack _).bind
  intro didx
  apply (Composed.pure true).ite
  apply (composed_eraseStored hE _).bind
  intro _
  apply (composed_eraseStored hE _).bind
  intro _
  apply (composed_eraseStored hE _).bind
  intro _
  exact .bind (.modify fun _ => rfl) fun _ => .pure false

/-! ## Writing changes the memory only -/

variable {R : State → State → Prop} (hmem : ∀ s m, R s { s with mem := m })
include hmem

theorem composed_patch (p : Option Patch) : Composed R E (Patch.patch p) := by
  cases p with
  | none => exact .throw hE
  | some p => exact .modify fun s => hmem s _

theorem composed_writeEntry (entry : Addr) : Composed R E (writeEntry entry opcode argument) :=
  Composed.ite (.modify fun s => hmem s _)
    ((composed_patch hE hmem _).bind fun _ => composed_patch hE hmem _)

theorem composed_writeJump (entry : Addr) (jump : Jump) :
    Composed R E (writeJump entry jump opcode argument disp) := by
  cases jump with
  | short => exact composed_writeEntry hE hmem entry
  | medium _ => exact (composed_patch hE hmem _).bind fun _ => composed_writeEntry hE hmem entry
  | long =>
    refine Composed.ite (.modify fun s => hmem s _) ?_
    apply (composed_patch hE hmem _).bind
    intro _
    exact (composed_patch hE hmem _).bind fun _ => composed_patch hE hmem _

end Steps

/-! ## What writes never panics -/

theorem avoids_setKernelWriting (enable : Bool) : Avoids e (setKernelWriting env enable) := by
  cases enable with
  | false => exact (avoids_modify _).bind fun _ => avoids_pure _
  | true =>
    apply composed_ask.never_stops.bind
    intro granted
    exact (avoids_modify _).bind fun _ => avoids_pure _

theorem avoids_mayWrite (kernelRoute : Bool) : Avoids e (mayWrite env kernelRoute) :=
  (avoids_setKernelWriting _).ite (avoids_pure _)

theorem afterWrite_not_panics (kernelRoute revertible : Bool)
    (opcode argument disp : Option Patch) :
    Avoids .panic (afterWrite env kernelRoute revertible opcode argument disp) := by
  apply Avoids.ite
  · apply (avoids_setKernelWriting _).bind
    intro _
    exact (composed_keepPatches rfl).not_panics.ite (avoids_pure _)
  · exact avoids_pure _

theorem commit_not_panics (r : RouteArgs) (o : Original) (jump : Jump)
    (opcode argument disp : Option Patch) :
    Avoids .panic (commit env r o jump opcode argument disp) := by
  apply (composed_writeJump rfl SameLog.store _ _).not_panics.bind
  intro _
  apply (afterWrite_not_panics _ _ _ _ _).bind
  intro kept
  apply (avoids_pure _).ite
  exact (composed_deletePatches _ _ _).never_stops.bind fun _ => avoids_pure _

/-- Once the original is found, nothing panics. -/
theorem install_not_panics (r : RouteArgs) (o : Original) : Avoids .panic (install env r o) := by
  apply (avoids_modify _).bind
  intro _
  apply (composed_createPatches _ _ _).never_stops.bind
  rintro ⟨opcode, argument, disp⟩
  apply (composed_giveUp _ _ _ _).never_stops.ite
  apply (avoids_mayWrite _).bind
  intro granted
  exact (commit_not_panics _ _ _ _ _ _).ite (composed_giveUp _ _ _ _).never_stops

/-! ## Finding the original may panic -/

variable {create : Addr → ℕ → PatcherM Addr} {r : RouteArgs}

/-- The image of a route has an address slot left. -/
def HasSlots (r : RouteArgs) (s : State) : Prop :=
  ∃ id i, r.info = some id ∧ s.kinfos[id]? = some i ∧ i.HasSlot

/-- A slot is handed out as long as there is one. -/
theorem getAddressSlot_of_hasSlot {id : ℕ} {i : MachInfo} (hid : s.kinfos[id]? = some i)
    (hslot : i.HasSlot) : Returns (getAddressSlot id) s i.address_slots
      { s with kinfos := s.kinfos.set id i.advance } := by
  simp only [getAddressSlot, returns_bind, returns_get]
  refine ⟨_, _, ⟨rfl, rfl⟩, ?_⟩
  rw [hid]
  dsimp only
  rw [if_pos hslot, returns_bind]
  exact ⟨(), _, rfl, rfl⟩

/-- A jump is not redirected if it, or the new one, is a relative jump that has to be. -/
theorem redirect_panics_iff {chain : Addr × Option JumpType} (hslots : HasSlots r s) :
    Stops (redirect chain r) s .panic ↔ chain.2 = some .Short ∨ r.jumpType = .Short := by
  obtain ⟨id, i, hinfo, hid, hslot⟩ := hslots
  rw [redirect, (avoids_modify _).stops_bind]
  by_cases hshort : chain.2 = some .Short ∨ r.jumpType = .Short
  · rw [if_pos hshort]
    exact iff_of_true ⟨(), _, rfl, rfl⟩ hshort
  · rw [if_neg hshort]
    refine iff_of_false ?_ hshort
    rintro ⟨_, s₁, hmod, hstops⟩
    obtain rfl := returns_modify.mp hmod
    by_cases hmedium : chain.2 = some .Medium
    · have hget := getAddressSlot_of_hasSlot (s := { s with originals := s.originals ++
        (if r.buildWrapper then [chain.1] else []) }) hid hslot
      rw [if_pos hmedium, hinfo] at hstops
      dsimp only at hstops
      rw [stops_bind] at hstops
      obtain hstops | ⟨a, s₁, ha, hstops⟩ := hstops
      · exact hget.not_stops hstops
      · obtain ⟨rfl, -⟩ := ha.unique hget
        rw [if_neg hslot.1] at hstops
        exact avoids_pure _ _ hstops
    -- a jump of the last kind takes no slot
    · rw [if_neg hmedium] at hstops
      exact avoids_pure _ _ hstops

/-- The search for the original panics where a jump is found that cannot be redirected, or while the
trampoline is built. -/
theorem original_panics_iff (hslots : HasSlots r s) :
    Stops (original create r) s .panic ↔
      ((readChain s.mem r.entry).1 ≠ 0 ∧
        ((readChain s.mem r.entry).2 = some .Short ∨ r.jumpType = .Short)) ∨
      (Wraps s r ∧ ∃ slot s₁, TakesSlot r.info s slot s₁ ∧
        Returns (slotForWrapper r) s slot s₁ ∧
        Stops (create r.entry (Jump.select r.absolute slot).size) s₁ .panic) := by
  -- reading the state never panics, so that the chain decides
  have hget : Stops (original create r) s .panic ↔
      Stops (if (readChain s.mem r.entry).1 ≠ 0 then redirect (readChain s.mem r.entry) r
        else if r.buildWrapper then do
          let addressSlot ← slotForWrapper r
          let min := if r.absolute then (if addressSlot ≠ 0 then mediumJump else longJump)
            else smallJump
          let trampoline ← create r.entry min
          if trampoline = 0 then pure none
          else pure (some ⟨trampoline, addressSlot, r.revertible⟩)
        else pure (some ⟨0, 0, r.revertible⟩)) s .panic := by
    rw [original, avoids_get.stops_bind]
    constructor
    · rintro ⟨_, _, hs, h⟩
      obtain ⟨rfl, rfl⟩ := returns_get.mp hs
      exact h
    · intro h
      exact ⟨s, s, rfl, h⟩
  rw [hget]
  by_cases hchain : (readChain s.mem r.entry).1 ≠ 0
  · rw [if_pos hchain, redirect_panics_iff hslots]
    constructor
    · intro h
      exact .inl ⟨hchain, h⟩
    · rintro (⟨-, h⟩ | ⟨hwraps, -⟩)
      · exact h
      · exact absurd hwraps.2 hchain
  · rw [if_neg hchain]
    rw [not_not] at hchain
    by_cases hwrap : r.buildWrapper = true
    -- only the trampoline can panic here
    · rw [if_pos hwrap, (composed_slotForWrapper rfl r).not_panics.stops_bind]
      constructor
      · rintro ⟨slot, s₁, hslot, h⟩
        obtain ⟨htakes, habsolute⟩ := slotForWrapper_cases hslot
        rw [select_size habsolute, stops_bind] at h
        refine .inr ⟨⟨hwrap, hchain⟩, slot, s₁, htakes, hslot, ?_⟩
        obtain h | ⟨t, s₂, -, h⟩ := h
        · exact h
        · exact absurd h ((avoids_pure _).ite (avoids_pure _) _)
      · rintro (⟨hne, -⟩ | ⟨-, slot, s₁, -, hslot, h⟩)
        · exact absurd hchain hne
        · refine ⟨slot, s₁, hslot, ?_⟩
          rw [select_size (slotForWrapper_cases hslot).2, stops_bind]
          exact .inl h
    · rw [if_neg hwrap]
      refine iff_of_false (avoids_pure _ _) ?_
      rintro (⟨hne, -⟩ | ⟨hwraps, -⟩)
      · exact absurd hchain hne
      · exact absurd hwraps.1 hwrap

/-- A route panics only where its original is looked for. -/
theorem routeWith_panics_iff : Stops (routeWith create env r) s .panic ↔
    ¬ (r.jumpType = .Short ∧ ¬ Near (r.dest - (r.entry + 5))) ∧
      Stops (original create r) s .panic := by
  rw [routeWith]
  by_cases hfar : r.jumpType = .Short ∧ ¬ Near (r.dest - (r.entry + 5))
  · rw [if_pos hfar]
    refine iff_of_false ?_ fun h => h.1 hfar
    exact (avoids_modify _).bind (fun _ => composed_returnEinval.never_stops) s
  -- what comes behind the original never panics
  · rw [if_neg hfar, stops_bind]
    constructor
    · rintro (h | ⟨o, s₁, -, h⟩)
      · exact ⟨hfar, h⟩
      · cases o with
        | none => exact absurd h (composed_returnEinval.never_stops _)
        | some o =>
          refine absurd h ?_
          exact (avoids_modify _).bind (fun _ => install_not_panics _ _) s₁
    · rintro ⟨-, h⟩
      exact .inl h

end Lilu.Patcher
