import Lilu.Prelude.Runs
import Lilu.User.ThreadLocal

/-!
# Delayed patch requests

A thread that executes a matching file stores a request, and the hook of the first call it makes
afterwards takes the request out again. Both the notification and the hook get a pointer to the
thread's slot, erase the slot, and then delete what the pointer points to.

## Main definitions

* `Phase`: where a thread is in the notification or the hook
* `State`, `Event`, `step`: the steps of all threads, in any order
* `Kept`: every request is held or was deleted once, by its own thread
* `KeepsSlot`: the step is not the erasure of a stored request

## Main results

* `Inv.kept_step_iff`: when a step keeps all requests
* `kept_iff`: when the requests are kept throughout a run
-/

namespace Lilu.UserPatcher

open Function

/-- The two functions that take a request out. -/
inductive Caller where
  | onPath
  | taskSetMainThreadQos
  deriving DecidableEq, Repr

/-- Where a thread is. Requests are numbered in the order of their allocation; a null pointer is
none. -/
inductive Phase (N : ℕ) where
  | idle
  /-- Before `pending.get`. -/
  | getting (c : Caller)
  /-- The hook patches the binary that its slot names. -/
  | firing (i : Fin N)
  /-- Before `pending.erase`. -/
  | erasing (c : Caller) (i : Fin N)
  /-- Before the slot pointer is read for `delete`. -/
  | dereferencing (c : Caller) (i : Fin N)
  /-- Before `delete` of what was read. -/
  | deleting (c : Caller) (v : Option ℕ)
  /-- Before `new PendingUser`. -/
  | creating
  /-- Before `pending.set`. -/
  | setting (p : ℕ)
  /-- Before `delete` of a request that no slot was found for. -/
  | discarding (p : ℕ)
  | panicked
  deriving DecidableEq, Repr

/-- The request that a thread has in a local variable. -/
def Phase.holds {N : ℕ} : Phase N → ℕ → Prop
  | .setting p, q | .discarding p, q => q = p
  | .deleting _ v, q => v = some q
  | _, _ => False

/-- The slots, the places of all threads, the thread that allocated each request, and the requests
that were deleted, with the threads that deleted them. -/
structure State (T : Type*) (N : ℕ) where
  pending : ThreadLocal T ℕ N := .empty
  phase : T → Phase N := fun _ => .idle
  created : List T := []
  deleted : List (T × ℕ) := []

/-- A thread is notified of a path that matches, or is in the hook, or takes the next step; memory
may be granted in it. -/
inductive Act where
  | call (c : Caller)
  | proceed (granted : Bool)
  deriving DecidableEq, Repr

variable {T : Type*} {N : ℕ} [DecidableEq T]

namespace State

def goto (s : State T N) (t : T) (q : Phase N) : State T N :=
  { s with phase := update s.phase t q }

/-- `delete`, which does nothing with a null pointer. -/
def delete (s : State T N) (t : T) : Option ℕ → State T N
  | some p => { s with deleted := s.deleted ++ [(t, p)] }
  | none => s

/-- The next step of a thread. -/
def proceed (s : State T N) (t : T) (granted : Bool) : State T N :=
  match s.phase t with
  | .idle | .panicked => s
  | .getting .onPath =>
    match s.pending.get t with
    | some i => s.goto t (.erasing .onPath i)
    | none => s.goto t .creating
  | .getting .taskSetMainThreadQos =>
    match s.pending.get t with
    | some i => s.goto t (.firing i)
    | none => s.goto t .idle
  | .firing i => s.goto t (.erasing .taskSetMainThreadQos i)
  | .erasing c i =>
    match s.pending.erase t with
    | some pending => { s with pending }.goto t (.dereferencing c i)
    | none => s.goto t .panicked
  -- the slot was erased, and may be another thread's by now
  | .dereferencing c i => s.goto t (.deleting c (s.pending.values i))
  | .deleting .onPath v => (s.delete t v).goto t .creating
  | .deleting .taskSetMainThreadQos v => (s.delete t v).goto t .idle
  | .creating =>
    if granted then { s with created := s.created ++ [t] }.goto t (.setting s.created.length)
    else s.goto t .idle
  | .setting p =>
    match s.pending.set t p with
    | some pending => { s with pending }.goto t .idle
    | none => s.goto t (.discarding p)
  | .discarding p => (s.delete t (some p)).goto t .idle

/-- A step of a thread; a thread that is in one of the functions is not called into another one. -/
def step (s : State T N) (e : T × Act) : State T N :=
  match e.2 with
  | .call c => if s.phase e.1 = .idle then s.goto e.1 (.getting c) else s
  | .proceed granted => s.proceed e.1 granted

/-! ## Requests that are kept -/

/-- The thread's slot or a local variable of it has the request. -/
def Held (s : State T N) (t : T) (p : ℕ) : Prop :=
  (∃ i, s.pending.threads i = some t ∧ s.pending.values i = some p) ∨ (s.phase t).holds p

/-- **No request is lost**: its thread has it or has deleted it, it was deleted once and by no other
thread, and no slot has it after that. -/
structure Kept (s : State T N) : Prop where
  accounted : ∀ t p, s.created[p]? = some t → s.Held t p ∨ (t, p) ∈ s.deleted
  own : ∀ t p, (t, p) ∈ s.deleted → s.created[p]? = some t
  once : s.deleted.Nodup
  gone : ∀ t p, (t, p) ∈ s.deleted → ∀ i, s.pending.values i ≠ some p

/-- The step is not the erasure of a slot. -/
def KeepsSlot (s : State T N) (e : T × Act) : Prop :=
  ∀ c i granted, s.phase e.1 = .erasing c i → e.2 ≠ .proceed granted

/-- What holds where a thread is, as long as no slot is erased. -/
def Fits (s : State T N) (t : T) : Phase N → Prop
  | .idle | .getting _ => True
  | .firing i | .erasing _ i => s.pending.threads i = some t
  | .dereferencing _ _ | .deleting _ _ | .panicked => False
  | .creating => ∀ i, s.pending.threads i ≠ some t
  | .setting p | .discarding p =>
    (∀ i, s.pending.threads i ≠ some t) ∧ s.created[p]? = some t ∧ (t, p) ∉ s.deleted

/-- The invariant of runs without an erasure: a slot is free, or has a request of its holder, which
has no other slot. -/
structure Inv (s : State T N) : Prop where
  owned : ∀ i t, s.pending.threads i = some t →
    ∃ p, s.pending.values i = some p ∧ s.created[p]? = some t
  free : ∀ i, s.pending.threads i = none → s.pending.values i = none
  one : ∀ i j t, s.pending.threads i = some t → s.pending.threads j = some t → j = i
  fits : ∀ t, s.Fits t (s.phase t)

variable {s : State T N} {t u : T} {p : ℕ} {q : Phase N}

omit [DecidableEq T] in
/-- A request in a slot is its holder's. -/
theorem Inv.holder (h : s.Inv) {i : Fin N} (hp : s.pending.values i = some p) :
    s.pending.threads i = s.created[p]? := by
  rcases hi : s.pending.threads i with _ | t
  · cases (h.free i hi).symm.trans hp
  · obtain ⟨p', hp', hcreated⟩ := h.owned i t hi
    obtain rfl := Option.some.inj (hp'.symm.trans hp)
    exact hcreated.symm

/-- A place that does not depend on more than the slots and requests. -/
theorem Inv.goto (h : s.Inv) (hq : s.Fits t q) : (s.goto t q).Inv := by
  refine ⟨h.owned, h.free, h.one, fun u => ?_⟩
  have hfits : s.Fits u (update s.phase t q u) := by
    by_cases hu : u = t
    · rw [hu, update_self]
      exact hq
    · rw [update_of_ne hu]
      exact h.fits u
  change (s.goto t q).Fits u (update s.phase t q u)
  generalize update s.phase t q u = q' at hfits
  cases q' <;> exact hfits

/-- A thread that goes on with what it has in its local variables. -/
theorem Kept.goto (h : s.Kept) (hq : ∀ p, (s.phase t).holds p → q.holds p) :
    (s.goto t q).Kept := by
  refine ⟨fun u p hp => ?_, h.own, h.once, h.gone⟩
  refine (h.accounted u p hp).imp_left fun hheld => hheld.imp_right fun hholds => ?_
  show (update s.phase t q u).holds p
  by_cases hu : u = t
  · rw [hu, update_self]
    exact hq p (hu ▸ hholds)
  · rw [update_of_ne hu]
    exact hholds

/-! ## The three steps that change slots or requests -/

omit [DecidableEq T] in
theorem created_append (h : s.created[p]? = some u) : (s.created ++ [t])[p]? = some u := by
  rw [List.getElem?_append_left (List.getElem?_eq_some_iff.mp h).1, h]

/-- A new request is its thread's. -/
theorem Inv.create (h : s.Inv) (ht : s.Fits t .creating) (hkept : s.Kept) :
    ({ s with created := s.created ++ [t] }.goto t (.setting s.created.length)).Inv := by
  have hnew : (t, s.created.length) ∉ s.deleted := by
    intro hmem
    have hown := hkept.own _ _ hmem
    simp at hown
  have h' : State.Inv { s with created := s.created ++ [t] } := by
    refine ⟨fun i u hi => ?_, h.free, h.one, fun u => ?_⟩
    · obtain ⟨p, hp, hcreated⟩ := h.owned i u hi
      exact ⟨p, hp, created_append hcreated⟩
    · have hfits := h.fits u
      change Fits _ u (s.phase u)
      generalize s.phase u = q at hfits
      cases q with
      | setting p | discarding p => exact ⟨hfits.1, created_append hfits.2.1, hfits.2.2⟩
      | _ => exact hfits
  exact h'.goto ⟨ht, by simp, hnew⟩

theorem Kept.create (h : s.Kept) (ht : s.phase t = .creating) :
    ({ s with created := s.created ++ [t] }.goto t (.setting s.created.length)).Kept := by
  have hlt : ∀ p, (s.phase t).holds p → False := by
    intro p hp
    rw [ht] at hp
    exact hp
  refine ⟨fun u p hp => ?_, fun u p hp => created_append (h.own u p hp), h.once, h.gone⟩
  rcases lt_or_ge p s.created.length with hlen | hlen
  · -- an old request
    have hp' : s.created[p]? = some u := by
      change (s.created ++ [t])[p]? = some u at hp
      rwa [List.getElem?_append_left hlen] at hp
    refine (h.accounted u p hp').imp_left fun hheld => hheld.imp_right fun hholds => ?_
    show (update s.phase t _ u).holds p
    by_cases hu : u = t
    · exact (hlt p (hu ▸ hholds)).elim
    · rw [update_of_ne hu]
      exact hholds
  · -- the new one is in the local variable
    change (s.created ++ [t])[p]? = some u at hp
    obtain ⟨hlen', hget⟩ := List.getElem?_eq_some_iff.mp hp
    obtain rfl : p = s.created.length := by
      rw [List.length_append, List.length_singleton] at hlen'
      omega
    obtain rfl : t = u := by simpa using hget
    refine .inl (.inr ?_)
    show (update s.phase t _ t).holds s.created.length
    rw [update_self]
    rfl

/-- The state after a request was put into a free slot. -/
def stored (s : State T N) (t : T) (i : Fin N) (p : ℕ) : State T N :=
  { s with pending := ⟨update s.pending.threads i (some t), update s.pending.values i (some p)⟩ }

theorem Inv.stored (h : s.Inv) (ht : s.Fits t (.setting p)) {i : Fin N}
    (hi : s.pending.threads i = none) : ((s.stored t i p).goto t .idle).Inv := by
  obtain ⟨hslot, hcreated, -⟩ := ht
  have hother : ∀ {j u}, s.pending.threads j = some u → j ≠ i := by
    rintro j u hj rfl
    cases hi.symm.trans hj
  -- a slot that is held now is the new one, or was held before
  have hheld : ∀ {j u}, update s.pending.threads i (some t) j = some u →
      j = i ∧ u = t ∨ j ≠ i ∧ s.pending.threads j = some u := by
    intro j u hj
    by_cases hji : j = i
    · rw [hji, update_self] at hj
      exact .inl ⟨hji, (Option.some.inj hj).symm⟩
    · rw [update_of_ne hji] at hj
      exact .inr ⟨hji, hj⟩
  refine ⟨fun j u hj => ?_, fun j hj => ?_, fun j k u hj hk => ?_, fun u => ?_⟩
  · rcases hheld hj with ⟨rfl, rfl⟩ | ⟨hji, hj⟩
    · exact ⟨p, update_self .., hcreated⟩
    · obtain ⟨p', hp', hcreated'⟩ := h.owned j u hj
      exact ⟨p', (update_of_ne hji ..).trans hp', hcreated'⟩
  · have hji : j ≠ i := by
      rintro rfl
      cases (update_self ..).symm.trans hj
    exact (update_of_ne hji ..).trans (h.free j ((update_of_ne hji ..).symm.trans hj))
  · rcases hheld hj with ⟨hji, hu⟩ | ⟨-, hj'⟩ <;> rcases hheld hk with ⟨hki, hu'⟩ | ⟨-, hk'⟩
    · exact hki.trans hji.symm
    · exact absurd (hu ▸ hk') (hslot k)
    · exact absurd (hu' ▸ hj') (hslot j)
    · exact h.one j k u hj' hk'
  · by_cases hu : u = t
    · show Fits _ u (update s.phase t .idle u)
      rw [hu, update_self]
      trivial
    · have hfits := h.fits u
      have hfree : (∀ j, s.pending.threads j ≠ some u) →
          ∀ j, update s.pending.threads i (some t) j ≠ some u := by
        intro hnone j hj
        rcases hheld hj with ⟨-, rfl⟩ | ⟨-, hj⟩
        · exact hu rfl
        · exact hnone j hj
      show Fits _ u (update s.phase t .idle u)
      rw [update_of_ne hu]
      generalize s.phase u = q at hfits
      cases q with
      | firing j | erasing c j => exact (update_of_ne (hother hfits) ..).trans hfits
      | creating => exact hfree hfits
      | setting p' | discarding p' => exact ⟨hfree hfits.1, hfits.2⟩
      | _ => exact hfits

theorem Kept.stored (h : s.Kept) (hs : s.Inv) (ht : s.phase t = .setting p) {i : Fin N}
    (hi : s.pending.threads i = none) : ((s.stored t i p).goto t .idle).Kept := by
  have hfits := hs.fits t
  rw [ht] at hfits
  obtain ⟨-, hcreated, hnot⟩ := hfits
  refine ⟨fun u p' hp' => ?_, h.own, h.once, fun u p' hmem j => ?_⟩
  · refine (h.accounted u p' hp').imp_left fun hheld => ?_
    rcases hheld with ⟨j, hj, hval⟩ | hholds
    · have hji : j ≠ i := by
        rintro rfl
        cases hi.symm.trans hj
      exact .inl ⟨j, (update_of_ne hji ..).trans hj, (update_of_ne hji ..).trans hval⟩
    · by_cases hu : u = t
      · -- the thread's request is in its slot now
        rw [hu, ht] at hholds
        obtain rfl : p' = p := hholds
        exact .inl ⟨i, (update_self ..).trans (congrArg some hu.symm), update_self ..⟩
      · refine .inr ?_
        show (update s.phase t .idle u).holds p'
        rw [update_of_ne hu]
        exact hholds
  · intro hval
    by_cases hji : j = i
    · change update s.pending.values i (some p) j = some p' at hval
      rw [hji, update_self] at hval
      obtain rfl := Option.some.inj hval
      obtain rfl : t = u := Option.some.inj (hcreated.symm.trans (h.own u p hmem))
      exact hnot hmem
    · exact h.gone u p' hmem j ((update_of_ne hji ..).symm.trans hval)

/-- A request that no slot was found for is deleted. -/
theorem Inv.discard (h : s.Inv) : ((s.delete t (some p)).goto t .idle).Inv := by
  refine ⟨h.owned, h.free, h.one, fun u => ?_⟩
  show Fits _ u (update s.phase t .idle u)
  by_cases hu : u = t
  · rw [hu, update_self]
    trivial
  · rw [update_of_ne hu]
    have hfits := h.fits u
    have hold : ∀ p', (u, p') ∉ s.deleted → (u, p') ∉ s.deleted ++ [(t, p)] := by
      intro p' hnot hmem
      rcases List.mem_append.mp hmem with hmem | hmem
      · exact hnot hmem
      · exact hu (congrArg Prod.fst (List.mem_singleton.mp hmem))
    generalize s.phase u = q at hfits
    cases q with
    | setting p' | discarding p' => exact ⟨hfits.1, hfits.2.1, hold p' hfits.2.2⟩
    | _ => exact hfits

theorem Kept.discard (h : s.Kept) (hs : s.Inv) (ht : s.phase t = .discarding p) :
    ((s.delete t (some p)).goto t .idle).Kept := by
  have hfits := hs.fits t
  rw [ht] at hfits
  obtain ⟨hslot, hcreated, hnot⟩ := hfits
  refine ⟨fun u p' hp' => ?_, fun u p' hmem => ?_, ?_, fun u p' hmem j => ?_⟩
  · rcases h.accounted u p' hp' with hheld | hmem
    · rcases hheld with hheld | hholds
      · exact .inl (.inl hheld)
      · by_cases hu : u = t
        · rw [hu, ht] at hholds
          obtain rfl : p' = p := hholds
          exact .inr (List.mem_append.mpr (.inr (List.mem_singleton.mpr (by rw [hu]))))
        · refine .inl (.inr ?_)
          show (update s.phase t .idle u).holds p'
          rw [update_of_ne hu]
          exact hholds
    · exact .inr (List.mem_append.mpr (.inl hmem))
  · rcases List.mem_append.mp hmem with hmem | hmem
    · exact h.own u p' hmem
    · obtain ⟨rfl, rfl⟩ := Prod.mk.inj (List.mem_singleton.mp hmem)
      exact hcreated
  · exact List.nodup_append.mpr ⟨h.once, List.nodup_singleton _, fun a ha b hb hab =>
      hnot (List.mem_singleton.mp hb ▸ hab ▸ ha)⟩
  · rcases List.mem_append.mp hmem with hmem | hmem
    · exact h.gone u p' hmem j
    · obtain ⟨rfl, rfl⟩ := Prod.mk.inj (List.mem_singleton.mp hmem)
      intro hval
      exact hslot j ((hs.holder hval).trans hcreated)

/-! ## The steps -/

/-- Without an erasure a step keeps the invariant and all requests. -/
theorem Inv.proceed (hs : s.Inv) (h : s.Kept) (hnot : ∀ c i, s.phase t ≠ .erasing c i)
    (granted : Bool) : (s.proceed t granted).Inv ∧ (s.proceed t granted).Kept := by
  have hfits := hs.fits t
  have hnone : ∀ q, s.phase t = q → (∀ p, ¬ q.holds p) → ∀ q' : Phase N, ∀ p,
      (s.phase t).holds p → q'.holds p := by
    rintro q rfl hq q' p hp
    exact (hq p hp).elim
  unfold State.proceed
  cases hphase : s.phase t <;> rw [hphase] at hfits
  case idle => exact ⟨hs, h⟩
  case panicked => exact hfits.elim
  case getting c =>
    have hkept := hnone _ hphase fun _ => id
    cases c <;> dsimp only <;> rcases hget : s.pending.get t with _ | i
    · exact ⟨hs.goto (ThreadLocal.get_eq_none_iff.mp hget), h.goto (hkept _)⟩
    · exact ⟨hs.goto (ThreadLocal.get_spec hget), h.goto (hkept _)⟩
    · exact ⟨hs.goto (q := .idle) trivial, h.goto (hkept _)⟩
    · exact ⟨hs.goto (ThreadLocal.get_spec hget), h.goto (hkept _)⟩
  case firing i => exact ⟨hs.goto hfits, h.goto (hnone _ hphase (fun _ => id) _)⟩
  case erasing c i => exact absurd hphase (hnot c i)
  case dereferencing c i => exact hfits.elim
  case deleting c v => exact hfits.elim
  case creating =>
    cases granted with
    | false => exact ⟨hs.goto (q := .idle) trivial, h.goto (hnone _ hphase (fun _ => id) _)⟩
    | true => exact ⟨hs.create hfits h, h.create hphase⟩
  case setting p =>
    dsimp only
    rcases ThreadLocal.set_cases hfits.1 p with ⟨i, hi, hset⟩ | hset <;> rw [hset]
    · exact ⟨hs.stored hfits hi, h.stored hs hphase hi⟩
    · refine ⟨hs.goto hfits, h.goto fun p' hp' => ?_⟩
      rw [hphase] at hp'
      exact hp'
  case discarding p => exact ⟨hs.discard, h.discard hs hphase⟩

/-- **An erasure loses a request**: it is neither in a slot nor in a local variable any more. -/
theorem Inv.not_kept_erase (hs : s.Inv) (h : s.Kept) {c : Caller} {i : Fin N}
    (hphase : s.phase t = .erasing c i) (granted : Bool) : ¬ (s.proceed t granted).Kept := by
  have hfits := hs.fits t
  rw [hphase] at hfits
  obtain ⟨p, hval, hcreated⟩ := hs.owned i t hfits
  have herase := ThreadLocal.erase_of_get hfits fun j hj => hs.one i j t hfits hj
  have hrun : s.proceed t granted = State.goto { s with
      pending := ⟨update s.pending.threads i none, update s.pending.values i none⟩ } t
        (.dereferencing c i) := by
    rw [State.proceed, hphase]
    simp only [herase]
  rw [hrun]
  intro hkept
  rcases hkept.accounted t p hcreated with (⟨j, hj, -⟩ | hholds) | hmem
  · by_cases hji : j = i
    · rw [hji] at hj
      cases (update_self ..).symm.trans hj
    · exact hji (hs.one i j t hfits ((update_of_ne hji ..).symm.trans hj))
  · change (update s.phase t (.dereferencing c i) t).holds p at hholds
    rw [update_self] at hholds
    exact hholds
  · exact h.gone t p hmem i hval

/-- Without an erasure a step keeps the invariant and all requests. -/
theorem Inv.step (hs : s.Inv) (h : s.Kept) (e : T × Act) (he : s.KeepsSlot e) :
    (s.step e).Inv ∧ (s.step e).Kept := by
  obtain ⟨t, act⟩ := e
  cases act with
  | call c =>
    unfold State.step
    dsimp only
    by_cases hidle : s.phase t = .idle
    · rw [if_pos hidle]
      refine ⟨hs.goto (q := .getting c) trivial, h.goto fun p hp => ?_⟩
      rw [hidle] at hp
      exact hp.elim
    · rw [if_neg hidle]
      exact ⟨hs, h⟩
  | proceed granted => exact hs.proceed h (fun c i hphase => he c i granted hphase rfl) granted

/-- **The requests are kept** by a step exactly if it is not an erasure. -/
theorem Inv.kept_step_iff (hs : s.Inv) (h : s.Kept) (e : T × Act) :
    (s.step e).Kept ↔ s.KeepsSlot e := by
  refine ⟨fun hkept c i granted hphase hact => ?_, fun he => (hs.step h e he).2⟩
  obtain ⟨t, act⟩ := e
  obtain rfl : act = .proceed granted := hact
  exact hs.not_kept_erase h hphase granted hkept

/-- No request is stored and no thread is in one of the functions. -/
def start : State T N :=
  {}

/-- **Requests are kept throughout a run** exactly if no slot is erased in it. -/
theorem kept_iff (es : List (T × Act)) :
    Throughout step Kept (start : State T N) es ↔ Along step KeepsSlot (start : State T N) es := by
  have hinv : (start : State T N).Inv :=
    ⟨fun _ _ h => absurd h (by simp [start, ThreadLocal.empty]), fun _ _ => rfl,
      fun _ _ _ h => absurd h (by simp [start, ThreadLocal.empty]), fun _ => trivial⟩
  have hkept : (start : State T N).Kept :=
    ⟨fun t p hp => absurd hp (by simp [start]), by simp [start], List.nodup_nil, by simp [start]⟩
  exact @throughout_iff_along _ _ (step : State T N → T × Act → State T N)
    (fun s => s.Inv ∧ s.Kept) Kept KeepsSlot (fun s e hs he => hs.1.step hs.2 e he)
    (fun s e hs _ => hs.1.kept_step_iff hs.2 e) es start ⟨hinv, hkept⟩ hkept

/-- **A request is lost, and another thread's one is deleted**: the slot that the hook erased is
taken by a second thread before the hook reads it. -/
theorem not_kept_race : ∃ es : List (Bool × Act),
    ¬ Throughout step Kept (start : State Bool 32) es ∧
      (es.foldl step (start : State Bool 32)).deleted = [(false, 1)] ∧
      (es.foldl step (start : State Bool 32)).created = [false, true] ∧
      (es.foldl step (start : State Bool 32)).pending.values 0 = some 1 := by
  refine ⟨[(false, .call .onPath), (false, .proceed true), (false, .proceed true),
    (false, .proceed true), (false, .call .taskSetMainThreadQos), (false, .proceed true),
    (false, .proceed true), (false, .proceed true), (true, .call .onPath), (true, .proceed true),
    (true, .proceed true), (true, .proceed true), (false, .proceed true), (false, .proceed true)],
    fun h => ?_, by decide +kernel, by decide +kernel, by decide +kernel⟩
  have hgone := h.last.gone false 1 (by decide +kernel) 0
  exact hgone (by decide +kernel)

end State

end Lilu.UserPatcher
