import Mathlib.Tactic
import Lilu.Patcher.Area

/-!
# Patches that cannot be stored

A route that can be undone hands its two or three patch objects over to `kpatches`. If one of them
cannot be stored, those that were are to be erased again and all are deleted. What `push_back`
returns is no index, though, and `erase` deletes as well, so that the objects are right only where
nothing was stored in the first place.

## Main definitions

* `Preserves`: what a program keeps between the states around it
* `Balanced`: the objects of a program are deleted once each, and `kpatches` is as before
* `RolledBack`: a route leaves no trace of its objects

## Main results

* `original_balanced`: finding the original keeps the balance
* `rolledBack_iff`: when patches that cannot be stored leave no trace
-/

namespace Lilu.Patcher

variable {α β : Type} {env : Env} {s s₁ s₂ s' : State} {r : RouteArgs} {o : Original}
  {opcode argument disp : Option Patch} {route : Route}

/-! ## What a program keeps -/

/-- The states around a program are in the relation. -/
def Preserves (R : State → State → Prop) (x : PatcherM α) : Prop :=
  ∀ s a s', Returns x s a s' → R s s'

section Preserves

variable {R : State → State → Prop} [Std.Refl R] [IsTrans State R] {x : PatcherM α}
  {f : α → PatcherM β}

omit [IsTrans State R] in
theorem Preserves.pure (a : α) : Preserves R (pure a : PatcherM α) := by
  intro s b s' h
  obtain ⟨-, rfl⟩ := returns_pure.mp h
  exact Std.Refl.refl s

omit [Std.Refl R] in
theorem Preserves.bind (hx : Preserves R x) (hf : ∀ a, Preserves R (f a)) :
    Preserves R (x >>= f) := by
  intro s b s' h
  obtain ⟨a, s₁, ha, hb⟩ := returns_bind.mp h
  exact IsTrans.trans s s₁ s' (hx s a s₁ ha) (hf a s₁ b s' hb)

omit [Std.Refl R] [IsTrans State R] in
theorem Preserves.ite {y : PatcherM α} {p : Prop} [Decidable p] (hx : Preserves R x)
    (hy : Preserves R y) : Preserves R (if p then x else y) := by
  split_ifs
  · exact hx
  · exact hy

omit [Std.Refl R] [IsTrans State R] in
theorem Preserves.modify {g : State → State} (hg : ∀ s, R s (g s)) :
    Preserves R (modify g : PatcherM Unit) := by
  intro s _ s' h
  obtain rfl := returns_modify.mp h
  exact hg s

omit [Std.Refl R] [IsTrans State R] in
theorem Preserves.throw (e : Stop) : Preserves R (throw e : PatcherM α) :=
  fun _ _ _ h => absurd h not_returns_throw

omit [IsTrans State R] in
theorem Preserves.get : Preserves R (get : PatcherM State) := by
  intro s _ s' h
  obtain ⟨-, rfl⟩ := returns_get.mp h
  exact Std.Refl.refl s

end Preserves

/-! ## Objects -/

/-- Nothing was created, deleted, stored or erased. -/
def Quiet (s s' : State) : Prop :=
  s'.created = s.created ∧ s'.deleted = s.deleted ∧ s'.kpatches = s.kpatches

/-- What was created was deleted, once each, and nothing else, and `kpatches` is as before. -/
structure Balanced (s s' : State) : Prop where
  created_le : s.created ≤ s'.created
  deleted_perm : s'.deleted.Perm (s.deleted ++ List.range' s.created (s'.created - s.created))
  kpatches_eq : s'.kpatches = s.kpatches

theorem Quiet.refl (s : State) : Quiet s s :=
  ⟨rfl, rfl, rfl⟩

theorem Quiet.trans (h : Quiet s s₁) (h' : Quiet s₁ s₂) : Quiet s s₂ :=
  ⟨h'.1.trans h.1, h'.2.1.trans h.2.1, h'.2.2.trans h.2.2⟩

instance : Std.Refl Quiet :=
  ⟨Quiet.refl⟩

instance : IsTrans State Quiet :=
  ⟨fun _ _ _ => Quiet.trans⟩

theorem Quiet.balanced (h : Quiet s s') : Balanced s s' := by
  obtain ⟨hcreated, hdeleted, hkpatches⟩ := h
  refine ⟨hcreated.ge, ?_, hkpatches⟩
  rw [hcreated, hdeleted, Nat.sub_self, List.range'_zero, List.append_nil]

theorem Balanced.refl (s : State) : Balanced s s :=
  (Quiet.refl s).balanced

theorem Balanced.trans (h : Balanced s s₁) (h' : Balanced s₁ s₂) : Balanced s s₂ := by
  obtain ⟨hle, hperm, hkpatches⟩ := h
  obtain ⟨hle', hperm', hkpatches'⟩ := h'
  refine ⟨hle.trans hle', ?_, hkpatches'.trans hkpatches⟩
  -- the objects of both parts have numbers that follow one another
  have hrange : List.range' s.created (s₁.created - s.created) ++
      List.range' s₁.created (s₂.created - s₁.created) =
      List.range' s.created (s₂.created - s.created) := by
    have happend := @List.range'_append_1 s.created (s₁.created - s.created)
      (s₂.created - s₁.created)
    rwa [Nat.add_sub_cancel' hle, show s₁.created - s.created + (s₂.created - s₁.created) =
      s₂.created - s.created by omega] at happend
  rw [← hrange, ← List.append_assoc]
  exact hperm'.trans (hperm.append_right _)

instance : Std.Refl Balanced :=
  ⟨Balanced.refl⟩

instance : IsTrans State Balanced :=
  ⟨fun _ _ _ => Balanced.trans⟩

/-- The numbers of the objects that there are. -/
def numbers (opcode argument disp : Option Patch) : List ℕ :=
  (opcode.toList ++ argument.toList ++ disp.toList).map Patch.number

theorem deleter_deleted {p : Option Patch} {u : Unit} (h : Returns (Patch.deleter p) s u s') :
    s' = { s with deleted := s.deleted ++ p.toList.map Patch.number } := by
  cases p with
  | none =>
    obtain ⟨-, rfl⟩ := returns_pure.mp h
    simp
  | some p => exact (returns_modify.mp h).symm

theorem deletePatches_deleted {u : Unit}
    (h : Returns (deletePatches opcode argument disp) s u s') :
    s' = { s with deleted := s.deleted ++ numbers opcode argument disp } := by
  simp only [deletePatches, returns_bind] at h
  obtain ⟨_, s₁, h₁, _, s₂, h₂, h₃⟩ := h
  obtain rfl := deleter_deleted h₁
  obtain rfl := deleter_deleted h₂
  obtain rfl := deleter_deleted h₃
  simp only [numbers, List.map_append, List.append_assoc]

/-- An object that is created has the next number. -/
theorem create_numbers {address : Addr} {replaced : List UInt8} {p : Option Patch}
    (h : Returns (Patch.create env address replaced) s p s') :
    s' = { s with asked := s.asked + 1, created := s.created + p.toList.length } ∧
      p.toList.map Patch.number = List.range' s.created p.toList.length := by
  rw [Patch.create, returns_bind] at h
  obtain ⟨granted, s₁, hask, h⟩ := h
  obtain ⟨rfl, rfl⟩ := ask_cases hask
  cases hgranted : env.answer s.asked with
  | false =>
    rw [hgranted] at h
    cases h
    exact ⟨rfl, rfl⟩
  | true =>
    rw [hgranted] at h
    cases h
    exact ⟨rfl, rfl⟩

/-- The objects of a jump are numbered one after the other. -/
theorem createPatches_numbers {entry dest : Addr} {jump : Jump}
    {patches : Option Patch × Option Patch × Option Patch}
    (h : Returns (createPatches env entry dest jump) s patches s') :
    s' = { s with asked := s.asked + jump.objects,
                  created := s.created + (numbers patches.1 patches.2.1 patches.2.2).length } ∧
      numbers patches.1 patches.2.1 patches.2.2 =
        List.range' s.created (numbers patches.1 patches.2.1 patches.2.2).length := by
  simp only [createPatches, returns_bind] at h
  obtain ⟨opcode, s₁, hop, argument, s₂, harg, h⟩ := h
  obtain ⟨rfl, hopNumbers⟩ := create_numbers hop
  obtain ⟨rfl, hargNumbers⟩ := create_numbers harg
  have htwo : numbers opcode argument none =
      List.range' s.created (opcode.toList.length + argument.toList.length) := by
    rw [numbers, Option.toList_none, List.append_nil, List.map_append, hopNumbers, hargNumbers,
      List.range'_append_1]
  -- the third object of a jump that has one
  have hthree : ∀ {s₃ : State} {address : Addr} {disp : Option Patch},
      Returns (Patch.create env address (bytes dest))
        { s with
          asked := s.asked + 1 + 1
          created := s.created + opcode.toList.length + argument.toList.length } disp s₃ →
      s₃ = { s with asked := s.asked + 3,
                    created := s.created + (numbers opcode argument disp).length } ∧
        numbers opcode argument disp =
          List.range' s.created (numbers opcode argument disp).length := by
    intro s₃ address disp hdisp
    obtain ⟨rfl, hdispNumbers⟩ := create_numbers hdisp
    have hall : numbers opcode argument disp = List.range' s.created
        (opcode.toList.length + argument.toList.length + disp.toList.length) := by
      rw [← List.range'_append_1, ← htwo, ← Nat.add_assoc, ← hdispNumbers]
      simp only [numbers, Option.toList_none, List.append_nil, List.map_append]
    have hlen := congrArg List.length hall
    rw [List.length_range'] at hlen
    rw [hlen]
    exact ⟨by simp only [Nat.add_assoc], hall⟩
  cases jump with
  | short =>
    obtain ⟨rfl, rfl⟩ := returns_pure.mp h
    have hlen := congrArg List.length htwo
    rw [List.length_range'] at hlen
    dsimp only
    rw [hlen]
    exact ⟨by simp only [Nat.add_assoc, Jump.objects], htwo⟩
  | medium addressSlot =>
    simp only [Jump.dispAt, returns_bind] at h
    obtain ⟨disp, s₃, hdisp, h⟩ := h
    obtain ⟨rfl, rfl⟩ := returns_pure.mp h
    exact hthree hdisp
  | long =>
    simp only [Jump.dispAt, returns_bind] at h
    obtain ⟨disp, s₃, hdisp, h⟩ := h
    obtain ⟨rfl, rfl⟩ := returns_pure.mp h
    exact hthree hdisp

/-- The objects with these numbers were deleted, and nothing was created, stored or erased. -/
def Deletes (ns : List ℕ) (s s' : State) : Prop :=
  s'.created = s.created ∧ s'.deleted = s.deleted ++ ns ∧ s'.kpatches = s.kpatches

theorem Quiet.deletes {ns : List ℕ} (h : Quiet s s₁) (h' : Deletes ns s₁ s') : Deletes ns s s' :=
  ⟨h'.1.trans h.1, by rw [h'.2.1, h.2.1], h'.2.2.trans h.2.2⟩

theorem Deletes.quiet {ns : List ℕ} (h : Deletes ns s s₁) (h' : Quiet s₁ s') : Deletes ns s s' :=
  ⟨h'.1.trans h.1, h'.2.1.trans h.2.1, h'.2.2.trans h.2.2⟩

/-- Objects with the next numbers were created, and nothing was deleted, stored or erased. -/
def Creates (ns : List ℕ) (s s' : State) : Prop :=
  ns = List.range' s.created ns.length ∧ s'.created = s.created + ns.length ∧
    s'.deleted = s.deleted ∧ s'.kpatches = s.kpatches

/-- Objects that are created and then deleted are balanced. -/
theorem Creates.balanced {ns : List ℕ} (h : Creates ns s s₁) (h' : Deletes ns s₁ s') :
    Balanced s s' := by
  obtain ⟨hns, hcreated, hdeleted, hkpatches⟩ := h
  obtain ⟨hcreated', hdeleted', hkpatches'⟩ := h'
  have hall : s'.created = s.created + ns.length := hcreated'.trans hcreated
  refine ⟨hall.ge.trans' (Nat.le_add_right _ _), ?_, hkpatches'.trans hkpatches⟩
  rw [hall, hdeleted', hdeleted, Nat.add_sub_cancel_left, ← hns]

theorem createPatches_creates {entry dest : Addr} {jump : Jump}
    {patches : Option Patch × Option Patch × Option Patch}
    (h : Returns (createPatches env entry dest jump) s patches s') :
    Creates (numbers patches.1 patches.2.1 patches.2.2) s s' := by
  obtain ⟨rfl, hnumbers⟩ := createPatches_numbers h
  exact ⟨hnumbers, rfl, rfl, rfl⟩

/-! ## Routes that store nothing -/

theorem quiet_setKernelWriting (enable : Bool) : Preserves Quiet (setKernelWriting env enable) := by
  intro s b s' h
  cases enable with
  | false =>
    obtain ⟨_, rfl⟩ := drop_cases h
    exact ⟨rfl, rfl, rfl⟩
  | true =>
    obtain ⟨-, _, rfl⟩ := lift_cases h
    exact ⟨rfl, rfl, rfl⟩

theorem quiet_mayWrite (kernelRoute : Bool) : Preserves Quiet (mayWrite env kernelRoute) :=
  (quiet_setKernelWriting true).ite (.pure true)

theorem Quiet.store (s : State) (m : Mem) : Quiet s { s with mem := m } :=
  ⟨rfl, rfl, rfl⟩

theorem TakesSlot.quiet {info : Option ℕ} {slot : Addr} (h : TakesSlot info s slot s') :
    Quiet s s' := by
  cases h with
  | taken => exact ⟨rfl, rfl, rfl⟩
  | none => exact Quiet.refl s

theorem withOrg_quiet {org : Option ℕ} {t : Addr} : Quiet s (s.withOrg org t) := by
  cases org <;> exact ⟨rfl, rfl, rfl⟩

theorem giveUp_deletes {e : Kext.Error} (h : Returns (giveUp e opcode argument disp) s route s') :
    Deletes (numbers opcode argument disp) s s' := by
  simp only [giveUp, setError, returnEinval, returns_bind, returns_modify, returns_pure] at h
  obtain ⟨_, _, rfl, _, s₁, hdelete, _, _, rfl, -, rfl⟩ := h
  obtain rfl := deletePatches_deleted hdelete
  exact ⟨rfl, rfl, rfl⟩

/-- A jump that nobody undoes is written, and its objects are deleted. -/
theorem commit_deletes {jump : Jump} (hrevertible : o.revertible = false)
    (h : Returns (commit env r o jump opcode argument disp) s route s') :
    Deletes (numbers opcode argument disp) s s' := by
  simp only [commit, returns_bind] at h
  obtain ⟨_, s₁, hwrite, kept, s₂, hafter, h⟩ := h
  -- nothing is stored for a route that nobody undoes
  have hnever : kept = false ∧ Quiet s₁ s₂ := by
    rw [afterWrite, hrevertible] at hafter
    by_cases hkernel : r.kernelRoute = true
    · rw [if_pos hkernel, returns_bind] at hafter
      obtain ⟨_, s₃, hdrop, hafter⟩ := hafter
      obtain ⟨rfl, rfl⟩ := returns_pure.mp hafter
      exact ⟨rfl, quiet_setKernelWriting _ _ _ _ hdrop⟩
    · rw [if_neg hkernel] at hafter
      obtain ⟨rfl, rfl⟩ := returns_pure.mp hafter
      exact ⟨rfl, Quiet.refl _⟩
  obtain ⟨rfl, hquiet⟩ := hnever
  rw [if_neg (by decide), returns_bind] at h
  obtain ⟨_, s₃, hdelete, h⟩ := h
  obtain ⟨-, rfl⟩ := returns_pure.mp h
  obtain rfl := deletePatches_deleted hdelete
  have hquiet' := (composed_writeJump rfl Quiet.store _ _).of_returns hwrite
  exact (hquiet'.trans hquiet).deletes ⟨rfl, rfl, rfl⟩

theorem install_balanced (hrevertible : o.revertible = false)
    (h : Returns (install env r o) s route s') : Balanced s s' := by
  simp only [install, returns_bind, returns_modify] at h
  obtain ⟨_, s₁, rfl, ⟨opcode, argument, disp⟩, s₂, hcreate, h⟩ := h
  have hcreates : Creates (numbers opcode argument disp) s s₂ := createPatches_creates hcreate
  refine hcreates.balanced ?_
  dsimp only at h
  split_ifs at h
  · exact giveUp_deletes h
  · obtain ⟨granted, s₃, hlift, h⟩ := returns_bind.mp h
    refine (quiet_mayWrite _ _ _ _ hlift).deletes ?_
    cases granted with
    | false => exact giveUp_deletes h
    | true => exact commit_deletes hrevertible h

/-! ## Finding the original -/

/-- The route behind the copied instructions stores nothing. -/
theorem backRoute_balanced {create : Addr → ℕ → PatcherM Addr} {prologue func : Addr} {off : ℕ}
    (h : Returns (routeWith create env (backRoute prologue func off)) s route s') :
    Balanced s s' := by
  rw [routeWith, if_neg (by simp [backRoute]), returns_bind] at h
  obtain ⟨o, s₁, ho, h⟩ := h
  have hfinds := original_cases ho
  -- no wrapper is built here, and the route cannot be undone
  have hbare : Quiet s s₁ ∧ ∀ original ∈ o, original.revertible = false := by
    cases hfinds with
    | redirect _ _ _ _ hslot =>
      refine ⟨Quiet.trans ?_ hslot.quiet, ?_⟩
      · exact ⟨rfl, rfl, rfl⟩
      · rintro original ⟨⟩
        rfl
    | plain =>
      refine ⟨Quiet.refl s, ?_⟩
      rintro original ⟨⟩
      rfl
    | wrap _ hwrap => exact absurd hwrap (by simp [backRoute])
    | refuse _ hwrap => exact absurd hwrap (by simp [backRoute])
  obtain ⟨hquiet, hrevertible⟩ := hbare
  refine hquiet.balanced.trans ?_
  cases o with
  | none =>
    simp only [returnEinval, returns_bind, returns_modify, returns_pure] at h
    obtain ⟨_, _, rfl, -, rfl⟩ := h
    exact Quiet.balanced ⟨rfl, rfl, rfl⟩
  | some original =>
    simp only [returns_bind, returns_modify] at h
    obtain ⟨_, _, rfl, h⟩ := h
    exact withOrg_quiet.balanced.trans (install_balanced (hrevertible original rfl) h)

theorem balanced_modify {f : State → State} (hf : ∀ s, Quiet s (f s)) :
    Preserves Balanced (modify f : PatcherM Unit) :=
  .modify fun s => (hf s).balanced

theorem balanced_setKernelWriting (enable : Bool) :
    Preserves Balanced (setKernelWriting env enable) :=
  fun s b s' h => (quiet_setKernelWriting enable s b s' h).balanced

theorem balanced_setError (e : Kext.Error) : Preserves Balanced (setError e) :=
  balanced_modify fun _ => ⟨rfl, rfl, rfl⟩

theorem createTrampoline_balanced {opcodes : List UInt8} {func : Addr} {min : ℕ} :
    Preserves Balanced (createTrampoline env opcodes func min) := by
  have hfail : ∀ code : Kext.Error, Preserves Balanced
      (setError code >>= fun _ => pure (0 : Addr)) :=
    fun code => (balanced_setError code).bind fun _ => .pure 0
  have hdrop : ∀ {x : PatcherM Addr}, Preserves Balanced x →
      Preserves Balanced (setKernelWriting env false >>= fun _ => x) :=
    fun hx => (balanced_setKernelWriting false).bind fun _ => hx
  refine (balanced_setKernelWriting true).bind fun granted => Preserves.ite ?_ (hfail _)
  refine Preserves.get.bind fun s => (hdrop (hfail _)).ite ?_
  refine (balanced_modify fun _ => ?_).bind fun _ => (hdrop (hfail _)).ite ?_
  · exact ⟨rfl, rfl, rfl⟩
  -- the instructions are copied, and the route behind them stores nothing
  refine (balanced_modify fun _ => ?_).bind fun _ => (balanced_modify fun _ => ?_).bind fun _ => ?_
  · exact ⟨rfl, rfl, rfl⟩
  · exact ⟨rfl, rfl, rfl⟩
  refine hdrop ((balanced_setError _).bind fun _ => ?_)
  refine Preserves.bind (fun _ _ _ h => backRoute_balanced h) fun _ => ?_
  refine Preserves.get.bind fun s => Preserves.ite ?_ (.pure 0)
  refine (balanced_modify fun _ => ?_).bind fun _ => .pure _
  exact ⟨rfl, rfl, rfl⟩

theorem original_balanced {result : Option Original}
    (h : Returns (original (createTrampoline env []) r) s result s') : Balanced s s' := by
  cases original_cases h with
  | redirect _ _ _ _ hslot =>
    refine (Quiet.trans ?_ hslot.quiet).balanced
    exact ⟨rfl, rfl, rfl⟩
  | plain => exact Balanced.refl _
  | wrap _ _ _ hslot hmade =>
    exact hslot.quiet.balanced.trans (createTrampoline_balanced _ _ _ hmade)
  | refuse _ _ _ hslot hmade =>
    exact hslot.quiet.balanced.trans (createTrampoline_balanced _ _ _ hmade)

/-! ## Storing the patches -/

theorem returns_bind_of {x : PatcherM α} {f : α → PatcherM β} {a : α} {b : β}
    (h : Returns x s a s₁) : Returns (x >>= f) s b s' ↔ Returns (f a) s₁ b s' := by
  rw [returns_bind]
  constructor
  · rintro ⟨a', s₁', ha, hf⟩
    obtain ⟨rfl, rfl⟩ := ha.unique h
    exact hf
  · exact fun hf => ⟨a, s₁, h, hf⟩

theorem exists_returns (x : PatcherM α) (s : State) (h : ∀ e, Avoids e x) :
    ∃ a s', Returns x s a s' := by
  obtain hreturns | ⟨e, hstops⟩ := returns_or_stops x s
  · exact hreturns
  · exact absurd hstops (h e s)

theorem pushBack_stored {p : Option Patch} {b : Bool} (h : Returns (pushBack env p) s b s') :
    b = (p.isSome && env.answer s.asked) ∧ s'.asked = s.asked + p.toList.length ∧
      s'.created = s.created ∧ s'.deleted = s.deleted := by
  cases p with
  | none =>
    obtain ⟨rfl, rfl⟩ := returns_pure.mp h
    exact ⟨rfl, rfl, rfl, rfl⟩
  | some p =>
    rw [pushBack, returns_bind] at h
    obtain ⟨granted, s₂, hask, h⟩ := h
    obtain ⟨rfl, rfl⟩ := ask_cases hask
    cases hgranted : env.answer s.asked with
    | false =>
      rw [hgranted] at h
      cases h
      exact ⟨rfl, rfl, rfl, rfl⟩
    | true =>
      rw [hgranted] at h
      cases h
      exact ⟨rfl, rfl, rfl, rfl⟩

/-- `erase` deletes something. -/
theorem eraseStored_deleted {idx : Bool} {u : Unit} (h : Returns (eraseStored idx) s u s') :
    s'.created = s.created ∧ ∃ ns, s'.deleted = s.deleted ++ ns ∧ (ns = [] → idx = false) := by
  cases idx with
  | false =>
    obtain ⟨-, rfl⟩ := returns_pure.mp h
    exact ⟨rfl, [], (List.append_nil _).symm, fun _ => rfl⟩
  | true =>
    rw [eraseStored, if_pos rfl, eraseAt, returns_bind] at h
    obtain ⟨_, _, hget, h⟩ := h
    obtain ⟨rfl, rfl⟩ := returns_get.mp hget
    cases hone : s.kpatches[1]? with
    | none =>
      rw [hone] at h
      exact absurd h not_returns_throw
    | some p =>
      rw [hone] at h
      cases h
      exact ⟨rfl, [p.number], rfl, fun hnil => absurd hnil (by simp)⟩

/-- None of the next `n` questions is answered with yes. -/
def Denied (env : Env) (asked n : ℕ) : Prop :=
  ∀ k < n, env.answer (asked + k) = false

variable {p q : Patch}

/-- Patches that are kept could all be stored. -/
theorem keepPatches_kept (h : Returns (keepPatches env (some p) (some q) disp) s true s') :
    ∀ k < 2 + disp.toList.length, env.answer (s.asked + k) = true := by
  simp only [keepPatches, returns_bind] at h
  obtain ⟨oidx, s₁, h₁, aidx, s₂, h₂, didx, s₃, h₃, h⟩ := h
  obtain ⟨rfl, hasked₁, -, -⟩ := pushBack_stored h₁
  obtain ⟨rfl, hasked₂, -, -⟩ := pushBack_stored h₂
  obtain ⟨rfl, -, -, -⟩ := pushBack_stored h₃
  rw [hasked₂, hasked₁] at h
  split_ifs at h with hall
  · simp only [Option.isSome_some, Bool.true_and, Bool.and_eq_true, Bool.or_eq_true,
      Option.isNone_iff_eq_none] at hall
    obtain ⟨⟨hopcode, hargument⟩, hdisp⟩ := hall
    intro k hk
    obtain rfl | rfl | hk₂ : k = 0 ∨ k = 1 ∨ 2 ≤ k := by omega
    · exact hopcode
    · exact hargument
    · cases disp with
      | none =>
        simp only [Option.toList_none, List.length_nil] at hk
        omega
      | some d =>
        obtain rfl : k = 2 := by
          simp only [Option.toList_some, List.length_singleton] at hk
          omega
        exact (hdisp.resolve_left (by simp)).2
  · simp only [returns_bind, returns_pure] at h
    obtain ⟨_, s₄, -, _, s₅, -, _, s₆, -, _, s₇, -, hfalse, -⟩ := h
    exact absurd hfalse (by decide)

/-- Unless nothing could be stored, something is deleted before the new objects are. -/
theorem keepPatches_erased (h : Returns (keepPatches env (some p) (some q) disp) s false s') :
    s'.created = s.created ∧ ∃ ns, s'.deleted = s.deleted ++ ns ∧
      (ns = [] → Denied env s.asked (2 + disp.toList.length)) := by
  simp only [keepPatches, returns_bind] at h
  obtain ⟨oidx, s₁, h₁, aidx, s₂, h₂, didx, s₃, h₃, h⟩ := h
  obtain ⟨hoidx, hasked₁, hcreated₁, hdeleted₁⟩ := pushBack_stored h₁
  obtain ⟨haidx, hasked₂, hcreated₂, hdeleted₂⟩ := pushBack_stored h₂
  obtain ⟨hdidx, -, hcreated₃, hdeleted₃⟩ := pushBack_stored h₃
  split_ifs at h
  · exact absurd (returns_pure.mp h).1 (by decide)
  · simp only [returns_bind, returns_modify, returns_pure] at h
    obtain ⟨_, s₄, h₄, _, s₅, h₅, _, s₆, h₆, _, _, rfl, -, rfl⟩ := h
    obtain ⟨hcreated₄, ns₄, hdeleted₄, hnil₄⟩ := eraseStored_deleted h₄
    obtain ⟨hcreated₅, ns₅, hdeleted₅, hnil₅⟩ := eraseStored_deleted h₅
    obtain ⟨hcreated₆, ns₆, hdeleted₆, hnil₆⟩ := eraseStored_deleted h₆
    refine ⟨?_, ns₄ ++ ns₅ ++ ns₆, ?_, fun hnil => ?_⟩
    · exact hcreated₆.trans (hcreated₅.trans (hcreated₄.trans
        (hcreated₃.trans (hcreated₂.trans hcreated₁))))
    · simp only [hdeleted₆, hdeleted₅, hdeleted₄, hdeleted₃, hdeleted₂, hdeleted₁,
        List.append_assoc]
    · simp only [List.append_eq_nil_iff] at hnil
      have hopcode : env.answer s.asked = false := hoidx.symm.trans (hnil₄ hnil.1.1)
      have hargument : env.answer s₁.asked = false := haidx.symm.trans (hnil₅ hnil.1.2)
      have hdisp := hdidx.symm.trans (hnil₆ hnil.2)
      rw [hasked₁] at hargument
      rw [hasked₂, hasked₁] at hdisp
      intro k hk
      obtain rfl | rfl | hk₂ : k = 0 ∨ k = 1 ∨ 2 ≤ k := by omega
      · exact hopcode
      · exact hargument
      · cases disp with
        | none =>
          simp only [Option.toList_none, List.length_nil] at hk
          omega
        | some d =>
          obtain rfl : k = 2 := by
            simp only [Option.toList_some, List.length_singleton] at hk
            omega
          exact hdisp

/-- Where nothing can be stored, nothing is erased. -/
theorem keepPatches_denied (h : Denied env s.asked (2 + disp.toList.length)) :
    ∃ s', Returns (keepPatches env (some p) (some q) disp) s false s' ∧ Quiet s s' := by
  -- an object that is refused is not stored, and one that is not there is no question
  have hrefused : ∀ {p : Option Patch} {s : State}, (p.isSome → env.answer s.asked = false) →
      Returns (pushBack env p) s false { s with asked := s.asked + p.toList.length } := by
    intro p s hanswer
    cases p with
    | none => exact returns_pure.mpr ⟨rfl, rfl⟩
    | some p =>
      rw [pushBack, returns_bind]
      refine ⟨env.answer s.asked, _, rfl, ?_⟩
      rw [hanswer rfl]
      exact returns_pure.mpr ⟨rfl, rfl⟩
  have hopcode : env.answer s.asked = false := h 0 (by omega)
  have hargument : env.answer (s.asked + 1) = false := h 1 (by omega)
  have hdisp : disp.isSome → env.answer (s.asked + 1 + 1) = false := by
    intro hsome
    obtain ⟨d, rfl⟩ := Option.isSome_iff_exists.mp hsome
    exact h 2 (by simp)
  refine ⟨{ s with asked := s.asked + 2 + disp.toList.length, lost := s.lost + 1 }, ?_, ?_⟩
  · rw [keepPatches, returns_bind_of (hrefused fun _ => hopcode), returns_bind_of (hrefused fun _ => hargument),
      returns_bind_of (hrefused hdisp)]
    exact rfl
  · exact ⟨rfl, rfl, rfl⟩

/-- What a route does with its patch objects once its jump is written. -/
def settle (env : Env) (trampoline : Addr) (jump : Jump) (opcode argument disp : Option Patch) :
    PatcherM Route := do
  let kept ← keepPatches env opcode argument disp
  if kept then pure (.routed trampoline jump)
  else
    deletePatches opcode argument disp
    pure (.routed trampoline jump)

/-- A route that can be undone and is granted what it needs comes to storing its objects. -/
theorem install_settles (hkernel : r.kernelRoute = true) (hrevertible : o.revertible = true)
    (hgranted : Granted env s (r.needs (.select r.absolute o.addressSlot))) :
    ∃ p q disp s₁,
      2 + disp.toList.length = (Jump.select r.absolute o.addressSlot).objects ∧
      Creates (numbers (some p) (some q) disp) s s₁ ∧
      s₁.asked = s.asked + r.needs (.select r.absolute o.addressSlot) ∧
      ∀ route s', Returns (install env r o) s route s' ↔
        Returns (settle env o.trampoline (.select r.absolute o.addressSlot) (some p) (some q) disp)
          s₁ route s' := by
  have hlong : r.absolute = true → Jump.select r.absolute o.addressSlot ≠ .short :=
    fun habsolute hshort => absurd (select_eq_short hshort) (by rw [habsolute]; decide)
  rw [Granted, RouteArgs.needs, if_pos hkernel] at hgranted
  simp only [install, RouteArgs.needs, if_pos hkernel]
  -- which jump it is does not matter any more, but whether it is a short one
  generalize Jump.select r.absolute o.addressSlot = jump at hlong hgranted ⊢
  have htwo := jump.two_le_objects
  have hmodify : Returns (modify fun s => { s with patch := jump.union r.entry r.dest s.mem s.patch })
      s () { s with patch := jump.union r.entry r.dest s.mem s.patch } := rfl
  obtain ⟨⟨opcode, argument, disp⟩, s₂, hcreate⟩ :=
    exists_returns (createPatches env r.entry r.dest jump)
      { s with patch := jump.union r.entry r.dest s.mem s.patch }
      fun _ => (composed_createPatches _ _ _).never_stops
  have hcreates : Creates (numbers opcode argument disp) s s₂ := createPatches_creates hcreate
  obtain ⟨hp, hop, harg, hdisp, created, hs₂⟩ := createPatches_cases hcreate
  dsimp only at hp hop harg hdisp
  replace hop := hop.trans (hgranted 0 (by omega))
  replace harg := harg.trans (hgranted 1 (by omega))
  -- all objects are granted, so that there is a third one if and only if the jump has three
  have hobjects : 2 + disp.toList.length = jump.objects := by
    cases disp with
    | none =>
      by_contra hne
      have hshort : jump ≠ .short := by
        rintro rfl
        exact hne rfl
      have hthree := Jump.objects_of_ne hshort
      exact absurd (hdisp.mpr ⟨hshort, hgranted 2 (by omega)⟩) (by simp)
    | some d => exact (Jump.objects_of_ne (hdisp.mp rfl).1).symm
  obtain ⟨p, rfl⟩ := Option.isSome_iff_exists.mp hop
  obtain ⟨q, rfl⟩ := Option.isSome_iff_exists.mp harg
  have hthird : jump ≠ .short → disp.isSome = true := fun hshort =>
    hdisp.mpr ⟨hshort, hgranted 2 (by rw [Jump.objects_of_ne hshort]; omega)⟩
  have hasked₂ : s₂.asked = s.asked + jump.objects := by rw [hs₂]
  -- the protection is lifted, the jump is written, and the protection is set again
  obtain ⟨granted, s₃, hlift⟩ := exists_returns (mayWrite env true) s₂
    fun _ => avoids_mayWrite true
  obtain ⟨hlifted, brackets, hs₃⟩ := mayWrite_cases hlift
  rw [hlifted.mpr fun _ => by rw [hasked₂]; exact hgranted _ (Nat.lt_succ_self _)] at hlift
  obtain ⟨_, s₄, hwrite⟩ := exists_returns (writeJump r.entry jump (some p) (some q) disp) s₃
    fun _ => writeJump_returns hop harg hthird
  obtain ⟨_, s₅, hdrop⟩ := exists_returns (setKernelWriting env false) s₄
    fun _ => avoids_setKernelWriting false
  have hasked₅ : s₅.asked = s.asked + (jump.objects + 1) := by
    obtain ⟨_, rfl⟩ := drop_cases hdrop
    obtain rfl | rfl := writeJump_cases hp hwrite
    · rw [hs₃, hs₂]
      rfl
    · rw [hs₃, hs₂]
      rfl
  have hwritten := (composed_writeJump rfl Quiet.store _ _).of_returns hwrite
  have hquiet : Quiet s₂ s₅ := (quiet_mayWrite _ _ _ _ hlift).trans
    (hwritten.trans (quiet_setKernelWriting _ _ _ _ hdrop))
  refine ⟨p, q, disp, s₅, hobjects, ⟨hcreates.1, ?_, ?_, ?_⟩, hasked₅, fun route s' => ?_⟩
  · exact hquiet.1.trans hcreates.2.1
  · exact hquiet.2.1.trans hcreates.2.2.1
  · exact hquiet.2.2.trans hcreates.2.2.2
  · rw [returns_bind_of hmodify, returns_bind_of hcreate]
    have hobject : ¬ (r.absolute && disp.isNone) = true := by
      rw [Bool.and_eq_true, not_and]
      intro habsolute
      rw [← Option.not_isSome, hthird (hlong habsolute)]
      decide
    simp only [Option.isNone_some, Bool.false_or, if_neg hobject, hkernel]
    rw [returns_bind_of hlift, if_pos rfl, commit, returns_bind_of hwrite, hkernel, hrevertible]
    have hafter : afterWrite env true true (some p) (some q) disp =
        setKernelWriting env false >>= fun _ => keepPatches env (some p) (some q) disp := rfl
    rw [hafter, settle, returns_bind, returns_bind]
    simp only [returns_bind_of hdrop]

/-- The objects are deleted once each if and only if none of them could be stored. -/
theorem settle_balanced_iff {trampoline : Addr} {jump : Jump} (hbefore : Balanced s s₁)
    (hcreates : Creates (numbers (some p) (some q) disp) s₁ s₂)
    (hlost : ∃ k < 2 + disp.toList.length, env.answer (s₂.asked + k) = false) :
    (∃ route s', Returns (settle env trampoline jump (some p) (some q) disp) s₂ route s' ∧
        Balanced s s') ↔
      Denied env s₂.asked (2 + disp.toList.length) := by
  constructor
  · rintro ⟨route, s', h, hbalanced⟩
    obtain ⟨kept, s₃, hkeep, h⟩ := returns_bind.mp h
    cases kept with
    | true =>
      obtain ⟨k, hk, hfalse⟩ := hlost
      exact absurd ((keepPatches_kept hkeep k hk).symm.trans hfalse) (by decide)
    | false =>
      rw [if_neg (by decide), returns_bind] at h
      obtain ⟨_, s₄, hdelete, h⟩ := h
      obtain ⟨-, rfl⟩ := returns_pure.mp h
      obtain rfl := deletePatches_deleted hdelete
      obtain ⟨hcreated, ns, hdeleted, hnil⟩ := keepPatches_erased hkeep
      refine hnil (List.eq_nil_of_length_eq_zero ?_)
      -- there are as many deletions as objects, so that `erase` has made none
      have hall := hbalanced.deleted_perm.length_eq
      have hfirst := hbefore.deleted_perm.length_eq
      have hle := hbefore.created_le
      obtain ⟨-, hcreated₂, hdeleted₂, -⟩ := hcreates
      dsimp only at hall
      rw [hcreated, hdeleted, hcreated₂, hdeleted₂] at hall
      simp only [List.length_append, List.length_range'] at hall hfirst
      omega
  · intro hdenied
    obtain ⟨s₃, hkeep, hquiet⟩ := keepPatches_denied hdenied
    obtain ⟨u, s₄, hdelete⟩ := exists_returns (deletePatches (some p) (some q) disp) s₃
      fun _ => (composed_deletePatches _ _ _).never_stops
    refine ⟨.routed trampoline jump, s₄, ?_, hbefore.trans (hcreates.balanced ?_)⟩
    · rw [settle, returns_bind_of hkeep, if_neg (by decide), returns_bind_of hdelete]
      rfl
    · obtain rfl := deletePatches_deleted hdelete
      exact hquiet.deletes ⟨rfl, rfl, rfl⟩

/-! ## Rolling back -/

/-- Whether the `k`-th patch object of a route can be stored. -/
def stores (env : Env) (r : RouteArgs) (o : Original) (s : State) (k : ℕ) : Bool :=
  env.answer (s.asked + r.needs (.select r.absolute o.addressSlot) + k)

/-- The route comes to its end, its objects are deleted once each and no other is, and `kpatches` is
as before. -/
def RolledBack (env : Env) (r : RouteArgs) (s : State) : Prop :=
  ∃ route s', Returns (routeFunctionInternal env r) s route s' ∧ Balanced s s'

/-- **Patches that cannot be stored**: a route that could not store all of its objects leaves
`kpatches` as it was, and deletes each of them once and nothing else, if and only if it could store
none of them. -/
theorem rolledBack_iff (hshort : r.jumpType = .Short → Near (r.dest - (r.entry + 5)))
    (hfinds : Returns (original (createTrampoline env []) r) s (some o) s₁)
    (hkernel : r.kernelRoute = true) (hrevertible : o.revertible = true)
    (hgranted : Granted env s₁ (r.needs (.select r.absolute o.addressSlot)))
    (hlost : ∃ k < (Jump.select r.absolute o.addressSlot).objects, stores env r o s₁ k = false) :
    RolledBack env r s ↔
      ∀ k < (Jump.select r.absolute o.addressSlot).objects, stores env r o s₁ k = false := by
  have hnear : ¬ (r.jumpType = .Short ∧ ¬ Near (r.dest - (r.entry + 5))) :=
    fun h => h.2 (hshort h.1)
  have horg : Returns (modify fun s => s.withOrg r.org o.trampoline) s₁ ()
      (s₁.withOrg r.org o.trampoline) := rfl
  have hquiet : Quiet s₁ (s₁.withOrg r.org o.trampoline) := withOrg_quiet
  have hasked : (s₁.withOrg r.org o.trampoline).asked = s₁.asked := withOrg_asked
  rw [Granted, ← hasked, ← Granted] at hgranted
  obtain ⟨p, q, disp, s₂, hobjects, hcreates, hasked₂, hsettles⟩ :=
    install_settles hkernel hrevertible hgranted
  rw [hasked] at hasked₂
  have hroute : ∀ route s', Returns (routeFunctionInternal env r) s route s' ↔ Returns
      (settle env o.trampoline (.select r.absolute o.addressSlot) (some p) (some q) disp)
      s₂ route s' := by
    intro route s'
    rw [routeFunctionInternal, routeWith, if_neg hnear, returns_bind_of hfinds]
    exact (returns_bind_of horg).trans (hsettles route s')
  have hbefore : Balanced s (s₁.withOrg r.org o.trampoline) :=
    (original_balanced hfinds).trans hquiet.balanced
  simp only [stores, ← hasked₂, ← hobjects] at hlost ⊢
  simp only [RolledBack, hroute]
  exact settle_balanced_iff hbefore hcreates hlost

/-- A patcher that is answered `n` times. -/
def answering (n : ℕ) : Env :=
  { sampleEnv with answer := fun k => k < n }

/-- A route to a handler that is near. -/
def nearRoute : RouteArgs where
  entry := 0x1001
  dest := 0x2000

/-- Three patches that are stored already. -/
def three : State :=
  { nops with
    kpatches := [⟨0, 0x5000, [0x90], [0xE9], rfl⟩, ⟨1, 0x5001, [0x90], [0], rfl⟩,
      ⟨2, 0x5005, [0x90], [0], rfl⟩]
    created := 3 }

theorem granted_three {n : ℕ} (hn : 3 ≤ n) :
    Granted (answering n) three (nearRoute.needs (.select nearRoute.absolute 0)) := by
  intro k hk
  have hneeds : nearRoute.needs (.select nearRoute.absolute 0) = 3 := by decide
  rw [hneeds] at hk
  simp only [answering, three, nops, decide_eq_true_eq]
  omega

theorem rolledBack_answering : RolledBack (answering 3) nearRoute three :=
  (@rolledBack_iff (answering 3) three three nearRoute ⟨0, 0, true⟩ (by decide) rfl rfl rfl
    (granted_three le_rfl) ⟨0, by decide, by decide⟩).mpr (by decide)

/-- When the first of two objects was stored, `erase` takes a patch of an earlier route out of
`kpatches`, and what was stored stays there although it is deleted. -/
theorem not_rolledBack_answering : ¬ ∀ (env : Env) (r : RouteArgs) (s s₁ : State) (o : Original),
    (r.jumpType = .Short → Near (r.dest - (r.entry + 5))) →
    Returns (original (createTrampoline env []) r) s (some o) s₁ →
    r.kernelRoute = true → o.revertible = true →
    Granted env s₁ (r.needs (.select r.absolute o.addressSlot)) →
    (∃ k < (Jump.select r.absolute o.addressSlot).objects, stores env r o s₁ k = false) →
    RolledBack env r s := by
  intro h
  obtain ⟨route, s', hreturns, hbalanced⟩ := h (answering 4) nearRoute three three ⟨0, 0, true⟩
    (by decide) rfl rfl rfl (granted_three (by decide)) ⟨1, by decide, by decide⟩
  -- both objects and the protection are granted, and the first object is stored
  have hrun : ∃ s₀, Returns (routeFunctionInternal (answering 4) nearRoute) three
      (.routed 0 .short) s₀ ∧ s₀.kpatches.map Patch.number = [0, 2, 3] ∧ s₀.deleted = [1, 3, 4] :=
    ⟨_, rfl, rfl, rfl⟩
  obtain ⟨s₀, hrun, hnumbers, -⟩ := hrun
  obtain ⟨-, rfl⟩ := hreturns.unique hrun
  rw [hbalanced.kpatches_eq] at hnumbers
  exact absurd hnumbers (by decide)

end Lilu.Patcher
