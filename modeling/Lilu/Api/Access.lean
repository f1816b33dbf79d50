import Lilu.Prelude.Runs

/-!
# Access to the API

A plugin asks for access, registers what it wants, and releases access; in between it holds a lock.
When the patchers start, Lilu takes the same lock to mark the requests as over, and then runs over
the registered callbacks without it. The registrations themselves check nothing.

Plugins and Lilu's own init path run on any number of threads. Every step of one of them that
another could see is an event.

## Main definitions

* `Entry`, `Request`: what is stored, and the four registrations
* `Phase`: where a thread is in its code
* `Event`, `step`: the steps of all threads, in any order
* `Fits`: what holds where a thread is

## Main results

* `Inv.step`: the invariant of the lock, the flag and the lists
* `Inv.frozen`: after the end of the requests nothing is registered any more
* `closed_after_finalise`: the guarantees of the end of the requests, over any run
-/

namespace Lilu.LiluAPI

open Function

inductive Error where
  | NoError
  | LockError
  | MemoryError
  | UnsupportedFeature
  | IncompatibleOS
  | Disabled
  | TooLate
  | Offline
  deriving DecidableEq, Repr

/-! ## Registrations -/

/-- A stored registration; functions, users' pointers and arrays are addresses. -/
inductive Entry where
  | patcherLoaded (callback user : ℕ)
  | kextLoaded (callback user : ℕ)
  | kexts (infos num : ℕ)
  | binaryLoaded (callback user : ℕ)
  | proc (info : ℕ)
  | binaryMod (mod : ℕ)
  | entitlementRequested (callback user : ℕ)
  deriving DecidableEq, Repr

/-- The lists of registrations. -/
structure Lists where
  patcherLoadedCallbacks : List (ℕ × ℕ) := []
  kextLoadedCallbacks : List (ℕ × ℕ) := []
  storedKexts : List (ℕ × ℕ) := []
  binaryLoadedCallbacks : List (ℕ × ℕ) := []
  storedProcs : List ℕ := []
  storedBinaryMods : List ℕ := []
  entitlementRequestedCallbacks : List (ℕ × ℕ) := []
  deriving DecidableEq, Repr

/-- `push_back` to the list that the entry belongs to. -/
def Lists.push (l : Lists) : Entry → Lists
  | .patcherLoaded callback user =>
    { l with patcherLoadedCallbacks := l.patcherLoadedCallbacks ++ [(callback, user)] }
  | .kextLoaded callback user =>
    { l with kextLoadedCallbacks := l.kextLoadedCallbacks ++ [(callback, user)] }
  | .kexts infos num => { l with storedKexts := l.storedKexts ++ [(infos, num)] }
  | .binaryLoaded callback user =>
    { l with binaryLoadedCallbacks := l.binaryLoadedCallbacks ++ [(callback, user)] }
  | .proc info => { l with storedProcs := l.storedProcs ++ [info] }
  | .binaryMod mod => { l with storedBinaryMods := l.storedBinaryMods ++ [mod] }
  | .entitlementRequested callback user =>
    { l with entitlementRequestedCallbacks := l.entitlementRequestedCallbacks ++ [(callback, user)] }

/-- The entry is in its list. -/
def Lists.Stores (l : Lists) : Entry → Prop
  | .patcherLoaded callback user => (callback, user) ∈ l.patcherLoadedCallbacks
  | .kextLoaded callback user => (callback, user) ∈ l.kextLoadedCallbacks
  | .kexts infos num => (infos, num) ∈ l.storedKexts
  | .binaryLoaded callback user => (callback, user) ∈ l.binaryLoadedCallbacks
  | .proc info => info ∈ l.storedProcs
  | .binaryMod mod => mod ∈ l.storedBinaryMods
  | .entitlementRequested callback user => (callback, user) ∈ l.entitlementRequestedCallbacks

@[simp] theorem stores_push (l : Lists) (e e' : Entry) :
    (l.push e).Stores e' ↔ l.Stores e' ∨ e' = e := by
  cases e <;> cases e' <;> simp [Lists.push, Lists.Stores]

/-- The four registrations, with a process as its address and whether its section is disabled. -/
inductive Request where
  | onPatcherLoad (callback user : ℕ)
  | onKextLoad (infos num callback user : ℕ)
  | onProcLoad (infos : List (ℕ × Bool)) (callback user : ℕ) (mods : List ℕ)
  | onEntitlementRequest (callback user : ℕ)
  deriving DecidableEq, Repr

/-- What a registration stores, in its order; a null pointer is 0. -/
def Request.entries : Request → List Entry
  | .onPatcherLoad callback user => [.patcherLoaded callback user]
  | .onKextLoad infos num callback user =>
    (if callback ≠ 0 then [.kextLoaded callback user] else []) ++
      if infos ≠ 0 then [.kexts infos num] else []
  | .onProcLoad infos callback user mods =>
    (if callback ≠ 0 then [.binaryLoaded callback user] else []) ++
      ((infos.filter fun p => !p.2).map fun p => .proc p.1) ++ mods.map .binaryMod
  | .onEntitlementRequest callback user => [.entitlementRequested callback user]

/-! ## Threads -/

/-- Where a thread is in its code. -/
inductive Phase where
  /-- Outside of the calls. -/
  | idle
  /-- `requestAccess`, at `IOLockLock`. -/
  | locking
  /-- `requestAccess` with the lock, before `apiRequestsOver` is read. -/
  | testing
  /-- `requestAccess` after a read of `true`, before `IOLockUnlock`. -/
  | late
  /-- `requestAccess` has returned `NoError`. -/
  | accessing
  /-- In a registration, with the entries left to store. -/
  | registering (r : Request) (pending : List Entry)
  /-- `finaliseRequests`, at `IOLockLock`. -/
  | finalising
  /-- `finaliseRequests` with the lock, before the flag is set. -/
  | closing
  /-- `finaliseRequests` after the flag is set, before `IOLockUnlock`. -/
  | closed
  /-- `processPatcherLoadCallbacks` before the callback of index `i`. -/
  | processing (i : ℕ) (called : List (ℕ × ℕ))
  deriving DecidableEq, Repr

/-- What a thread does next: a call that it makes, or the next step of the one it is in, with
whether memory is granted if it needs some. -/
inductive Act where
  | requestAccess (version : ℕ) (check : Bool)
  | register (r : Request)
  | releaseAccess
  | finaliseRequests
  | processPatcherLoadCallbacks
  | proceed (granted : Bool)
  deriving DecidableEq, Repr

variable {T : Type*}

/-- The state of the API and of all threads, and what the calls returned so far. -/
structure State (T : Type*) where
  startSuccess : Bool
  access : Option T := none
  apiRequestsOver : Bool := false
  lists : Lists := {}
  phase : T → Phase := fun _ => .idle
  /-- What `requestAccess` returned. -/
  answers : List (T × Error) := []
  /-- What the registrations returned. -/
  registered : List (Request × Error) := []
  /-- `finaliseRequests` has returned. -/
  finalised : Bool := false
  /-- The callbacks that each finished run of `processPatcherLoadCallbacks` called. -/
  processed : List (List (ℕ × ℕ)) := []

section Steps

variable [DecidableEq T] (currversion : ℕ)

/-- The thread is at another place of its code. -/
def State.goto (s : State T) (t : T) (p : Phase) : State T :=
  { s with phase := update s.phase t p }

/-- `requestAccess` returns to the thread. -/
def State.answer (s : State T) (t : T) (error : Error) : State T :=
  { s with answers := s.answers ++ [(t, error)] }

/-- A registration returns. -/
def State.returns (s : State T) (r : Request) (error : Error) : State T :=
  { s with registered := s.registered ++ [(r, error)] }

/-- The start of `requestAccess`, up to where the thread waits for the lock. -/
def State.requestAccess (s : State T) (t : T) (version : ℕ) (check : Bool) : State T :=
  if !s.startSuccess then s.answer t .Offline
  else if version > currversion then s.answer t .UnsupportedFeature
  else if check then
    match s.access with
    | some _ => s.answer t .LockError
    | none => { s with access := some t }.goto t .testing
  else s.goto t .locking

/-- The next step of the call that the thread is in. -/
def State.proceed (s : State T) (t : T) (granted : Bool) : State T :=
  match s.phase t with
  | .idle | .accessing => s
  | .locking =>
    match s.access with
    | some _ => s
    | none => { s with access := some t }.goto t .testing
  | .testing =>
    if s.apiRequestsOver then s.goto t .late else (s.answer t .NoError).goto t .accessing
  | .late => ({ s with access := none }.answer t .TooLate).goto t .idle
  | .registering r [] => (s.returns r .NoError).goto t .accessing
  | .registering r (e :: pending) =>
    if granted then { s with lists := s.lists.push e }.goto t (.registering r pending)
    else (s.returns r .MemoryError).goto t .accessing
  | .finalising =>
    match s.access with
    | some _ => s
    | none => { s with access := some t }.goto t .closing
  | .closing => { s with apiRequestsOver := true }.goto t .closed
  | .closed => { s with access := none, finalised := true }.goto t .idle
  | .processing i called =>
    match s.lists.patcherLoadedCallbacks[i]? with
    | some p => s.goto t (.processing (i + 1) (called ++ [p]))
    | none => { s with processed := s.processed ++ [called] }.goto t .idle

/-- A step of a thread. Calls are made from where the code makes them: registrations and the release
by a plugin that has access, everything else from outside; the callbacks are processed after the
requests were finalised. -/
def step (s : State T) (e : T × Act) : State T :=
  match s.phase e.1, e.2 with
  | .idle, .requestAccess version check => s.requestAccess currversion e.1 version check
  | .idle, .finaliseRequests => s.goto e.1 .finalising
  | .idle, .processPatcherLoadCallbacks =>
    if s.finalised then s.goto e.1 (.processing 0 []) else s
  | .accessing, .register r => s.goto e.1 (.registering r r.entries)
  | .accessing, .releaseAccess => { s with access := none }.goto e.1 .idle
  | _, .proceed granted => s.proceed e.1 granted
  | _, _ => s

end Steps

/-! ## What holds where a thread is -/

/-- What holds where a thread is: between taking the lock and giving it back it is the holder, it
only registers with the requests open, and it calls the callbacks in the order of the list. -/
def Fits (s : State T) (t : T) : Phase → Prop
  | .idle | .locking | .finalising => True
  | .testing | .late | .closing => s.access = some t
  | .accessing => s.access = some t ∧ s.apiRequestsOver = false
  | .registering r pending =>
    s.access = some t ∧ s.apiRequestsOver = false ∧
      ∀ e ∈ r.entries, e ∈ pending ∨ s.lists.Stores e
  | .closed => s.access = some t ∧ s.apiRequestsOver = true
  | .processing i called =>
    s.finalised = true ∧ i ≤ s.lists.patcherLoadedCallbacks.length ∧
      called = s.lists.patcherLoadedCallbacks.take i

/-- The invariant of all steps. A thread may be left out that is between two places. -/
structure Inv (s : State T) (but : Option T) : Prop where
  fits : ∀ u, some u ≠ but → Fits s u (s.phase u)
  ended : s.finalised = true → s.apiRequestsOver = true
  registered : ∀ r, (r, .NoError) ∈ s.registered → ∀ e ∈ r.entries, s.lists.Stores e
  processed : ∀ called ∈ s.processed, called = s.lists.patcherLoadedCallbacks
  unprocessed : s.finalised = false → s.processed = []

/-- What a step of the thread `t` leaves to the others: their places, the lock if one of them has
it, and lists and flag unless `t` has the lock. -/
structure Frames (t : T) (s s' : State T) : Prop where
  phase : ∀ u ≠ t, s'.phase u = s.phase u
  access : ∀ u ≠ t, s.access = some u → s'.access = some u
  ended : ∀ u ≠ t, s.access = some u → s'.apiRequestsOver = s.apiRequestsOver
  lists : s'.lists = s.lists ∨ s.apiRequestsOver = false
  stores : ∀ e, s.lists.Stores e → s'.lists.Stores e
  finalised : s.finalised = true → s'.finalised = true

variable {s s' : State T} {t u : T} {p : Phase}

/-- A place of another thread is kept. -/
theorem Fits.frame (h : Fits s u p) (hu : u ≠ t) (hf : Frames t s s')
    (hended : s.finalised = true → s.apiRequestsOver = true) : Fits s' u p := by
  cases p with
  | idle | locking | finalising => exact h
  | testing | late | closing => exact hf.access u hu h
  | accessing => exact ⟨hf.access u hu h.1, (hf.ended u hu h.1).trans h.2⟩
  | registering r pending =>
    obtain ⟨haccess, hopen, hpending⟩ := h
    exact ⟨hf.access u hu haccess, (hf.ended u hu haccess).trans hopen,
      fun e he => (hpending e he).imp_right (hf.stores e)⟩
  | closed => exact ⟨hf.access u hu h.1, (hf.ended u hu h.1).trans h.2⟩
  | processing i called =>
    obtain ⟨hfinal, hi, hcalled⟩ := h
    have hlists : s'.lists = s.lists := by
      refine hf.lists.resolve_right fun hopen => ?_
      rw [hended hfinal] at hopen
      cases hopen
    exact ⟨hf.finalised hfinal, hlists ▸ hi, hlists ▸ hcalled⟩

theorem Inv.frame (h : Inv s (some t)) (hf : Frames t s s') :
    ∀ u, some u ≠ some t → Fits s' u (s'.phase u) := by
  intro u hu
  have hne : u ≠ t := fun heq => hu (congrArg some heq)
  rw [hf.phase u hne]
  exact (h.fits u hu).frame hne hf h.ended

theorem Inv.leave (h : Inv s none) (t : T) : Inv s (some t) :=
  ⟨fun u _ => h.fits u (by simp), h.ended, h.registered, h.processed, h.unprocessed⟩

/-! ## What a thread does between two places -/

/-- Changes of the answers do not matter to any place. -/
theorem Inv.answer (h : Inv s (some t)) (u : T) (error : Error) :
    Inv (s.answer u error) (some t) :=
  ⟨h.frame ⟨fun _ _ => rfl, fun _ _ => id, fun _ _ _ => rfl, .inl rfl, fun _ => id, id⟩, h.ended,
    h.registered, h.processed, h.unprocessed⟩

theorem Inv.lock (h : Inv s (some t)) (hfree : s.access = none) :
    Inv { s with access := some t } (some t) := by
  refine ⟨h.frame ⟨fun _ _ => rfl, fun u _ hu => ?_, fun _ _ _ => rfl, .inl rfl, fun _ => id, id⟩,
    h.ended, h.registered, h.processed, h.unprocessed⟩
  rw [hfree] at hu
  cases hu

theorem not_access_of_ne (ht : s.access = some t) (hu : u ≠ t) : s.access ≠ some u := by
  rw [ht]
  exact fun heq => hu (Option.some.inj heq).symm

theorem Inv.unlock (h : Inv s (some t)) (ht : s.access = some t) :
    Inv { s with access := none } (some t) :=
  ⟨h.frame ⟨fun _ _ => rfl, fun _ hu hu' => absurd hu' (not_access_of_ne ht hu), fun _ _ _ => rfl,
    .inl rfl, fun _ => id, id⟩, h.ended, h.registered, h.processed, h.unprocessed⟩

/-- A registration of which everything is stored may return `NoError`. -/
theorem Inv.returns (h : Inv s (some t)) {r : Request} {error : Error}
    (hr : error = .NoError → ∀ e ∈ r.entries, s.lists.Stores e) :
    Inv (s.returns r error) (some t) := by
  refine ⟨h.frame ⟨fun _ _ => rfl, fun _ _ => id, fun _ _ _ => rfl, .inl rfl, fun _ => id, id⟩,
    h.ended, fun r' hr' => ?_, h.processed, h.unprocessed⟩
  rcases List.mem_append.mp hr' with hr' | hr'
  · exact h.registered r' hr'
  · obtain ⟨rfl, herror⟩ := Prod.mk.inj (List.mem_singleton.mp hr')
    exact hr herror.symm

/-- With the requests open, nothing was finalised yet that a push could disturb. -/
theorem Inv.push (h : Inv s (some t)) (hopen : s.apiRequestsOver = false) (e : Entry) :
    Inv { s with lists := s.lists.push e } (some t) := by
  have hfinal : s.finalised = false := by
    by_contra hfinal
    rw [h.ended (Bool.of_not_eq_false hfinal)] at hopen
    cases hopen
  refine ⟨h.frame ⟨fun _ _ => rfl, fun _ _ => id, fun _ _ _ => rfl, .inr hopen,
    fun e' he' => (stores_push ..).mpr (.inl he'), id⟩, h.ended,
    fun r hr e' he' => (stores_push ..).mpr (.inl (h.registered r hr e' he')), ?_, h.unprocessed⟩
  rw [h.unprocessed hfinal]
  simp

theorem Inv.close (h : Inv s (some t)) (ht : s.access = some t) :
    Inv { s with apiRequestsOver := true } (some t) :=
  ⟨h.frame ⟨fun _ _ => rfl, fun _ _ => id, fun _ hu hu' => absurd hu' (not_access_of_ne ht hu),
    .inl rfl, fun _ => id, id⟩, fun _ => rfl, h.registered, h.processed, h.unprocessed⟩

theorem Inv.finalise (h : Inv s (some t)) (hended : s.apiRequestsOver = true) :
    Inv { s with finalised := true } (some t) :=
  ⟨h.frame ⟨fun _ _ => rfl, fun _ _ => id, fun _ _ _ => rfl, .inl rfl, fun _ => id, fun _ => rfl⟩,
    fun _ => hended, h.registered, h.processed, by simp⟩

theorem Inv.process (h : Inv s (some t)) (hfinal : s.finalised = true) :
    Inv { s with processed := s.processed ++ [s.lists.patcherLoadedCallbacks] } (some t) := by
  refine ⟨h.frame ⟨fun _ _ => rfl, fun _ _ => id, fun _ _ _ => rfl, .inl rfl, fun _ => id, id⟩,
    h.ended, h.registered, fun called hcalled => ?_, fun hnot => ?_⟩
  · rcases List.mem_append.mp hcalled with hcalled | hcalled
    · exact h.processed called hcalled
    · exact List.mem_singleton.mp hcalled
  · cases hfinal.symm.trans hnot

/-! ## The steps -/

variable [DecidableEq T] (currversion : ℕ)

/-- A thread that arrives at a place brings what holds there. -/
theorem Inv.goto (h : Inv s (some t)) (hp : Fits s t p) : Inv (s.goto t p) none := by
  refine ⟨fun u _ => ?_, h.ended, h.registered, h.processed, h.unprocessed⟩
  have hfits : Fits s u (update s.phase t p u) := by
    by_cases hu : u = t
    · rw [hu, update_self]
      exact hp
    · rw [update_of_ne hu]
      exact h.fits u fun heq => hu (Option.some.inj heq)
  change Fits (s.goto t p) u (update s.phase t p u)
  generalize update s.phase t p u = q at hfits
  cases q <;> exact hfits

/-- The step of a call keeps the invariant, at every place. -/
theorem Inv.proceed (h : Inv s none) (t : T) (granted : Bool) : Inv (s.proceed t granted) none := by
  have hfits := h.fits t (by simp)
  have h' := h.leave t
  unfold State.proceed
  cases hphase : s.phase t <;> rw [hphase] at hfits
  case idle | accessing => exact h
  case locking =>
    rcases hfree : s.access with _ | u
    · exact (h'.lock hfree).goto rfl
    · exact h
  case testing =>
    dsimp only
    by_cases hended : s.apiRequestsOver = true
    · rw [if_pos hended]
      exact h'.goto hfits
    · rw [if_neg hended]
      exact (h'.answer t .NoError).goto ⟨hfits, Bool.of_not_eq_true hended⟩
  case late => exact ((h'.unlock hfits).answer t .TooLate).goto trivial
  case registering r pending =>
    obtain ⟨haccess, hopen, hpending⟩ := hfits
    cases pending with
    | nil =>
      refine (h'.returns fun _ e he => ?_).goto ⟨haccess, hopen⟩
      exact (hpending e he).resolve_left (List.not_mem_nil)
    | cons e pending =>
      cases granted with
      | false => exact (h'.returns (by simp)).goto ⟨haccess, hopen⟩
      | true =>
        refine (h'.push hopen e).goto ⟨haccess, hopen, fun e' he' => ?_⟩
        -- the entry that was stored is not left any more
        rcases hpending e' he' with hmem | hstored
        · rcases List.mem_cons.mp hmem with rfl | hmem
          · exact .inr ((stores_push ..).mpr (.inr rfl))
          · exact .inl hmem
        · exact .inr ((stores_push ..).mpr (.inl hstored))
  case finalising =>
    rcases hfree : s.access with _ | u
    · exact (h'.lock hfree).goto rfl
    · exact h
  case closing => exact (h'.close hfits).goto ⟨hfits, rfl⟩
  case closed => exact ((h'.finalise hfits.2).unlock hfits.1).goto trivial
  case processing i called =>
    obtain ⟨hfinal, hi, rfl⟩ := hfits
    dsimp only
    rcases hget : s.lists.patcherLoadedCallbacks[i]? with _ | p
    · have hlen := List.getElem?_eq_none_iff.mp hget
      rw [List.take_of_length_le hlen]
      exact (h'.process hfinal).goto (p := .idle) trivial
    · obtain ⟨hlt, rfl⟩ := List.getElem?_eq_some_iff.mp hget
      exact h'.goto ⟨hfinal, hlt, (List.take_concat_get' _ i hlt)⟩

theorem Inv.requestAccess (h : Inv s none) (t : T) (version : ℕ) (check : Bool) :
    Inv (s.requestAccess currversion t version check) none := by
  have h' := h.leave t
  have hanswer : ∀ error, Inv (s.answer t error) none := fun error =>
    ⟨fun u _ => h.fits u (by simp), h.ended, h.registered, h.processed, h.unprocessed⟩
  unfold State.requestAccess
  split_ifs with hstart hversion hcheck
  · exact hanswer .Offline
  · exact hanswer .UnsupportedFeature
  · rcases hfree : s.access with _ | u
    · exact (h'.lock hfree).goto rfl
    · exact hanswer .LockError
  · exact h'.goto trivial

/-- **The invariant** is kept by every step of every thread. -/
theorem Inv.step (h : Inv s none) (e : T × Act) : Inv (step currversion s e) none := by
  obtain ⟨t, act⟩ := e
  have hfits := h.fits t (by simp)
  have h' := h.leave t
  unfold LiluAPI.step
  cases act with
  | requestAccess version check =>
    cases hphase : s.phase t
    case idle => exact h.requestAccess currversion t version check
    all_goals exact h
  | register r =>
    cases hphase : s.phase t
    case accessing =>
      rw [hphase] at hfits
      exact h'.goto ⟨hfits.1, hfits.2, fun e he => .inl he⟩
    all_goals exact h
  | releaseAccess =>
    cases hphase : s.phase t
    case accessing =>
      rw [hphase] at hfits
      exact (h'.unlock hfits.1).goto trivial
    all_goals exact h
  | finaliseRequests =>
    cases hphase : s.phase t
    case idle => exact h'.goto trivial
    all_goals exact h
  | processPatcherLoadCallbacks =>
    cases hphase : s.phase t
    case idle =>
      dsimp only
      by_cases hfinal : s.finalised = true
      · rw [if_pos hfinal]
        exact h'.goto ⟨hfinal, Nat.zero_le _, rfl⟩
      · rw [if_neg hfinal]
        exact h
    all_goals exact h
  | proceed granted => cases hphase : s.phase t <;> exact h.proceed t granted

/-! ## After the end of the requests -/

/-- Nothing is registered and no access is granted on the way from `s` to `s'`. -/
structure Frozen (s s' : State T) : Prop where
  finalised : s.finalised = true → s'.finalised = true
  lists : s'.lists = s.lists
  answers : ∃ later, s'.answers = s.answers ++ later ∧ ∀ a ∈ later, a.2 ≠ .NoError
  processed : ∃ later, s'.processed = s.processed ++ later

omit [DecidableEq T] in
/-- Steps that neither answer nor store. -/
theorem Frozen.of_eq (hfinal : s.finalised = true → s'.finalised = true)
    (hlists : s'.lists = s.lists) (hanswers : s'.answers = s.answers)
    (hprocessed : s'.processed = s.processed) : Frozen s s' :=
  ⟨hfinal, hlists, ⟨[], by simp [hanswers], by simp⟩, ⟨[], by simp [hprocessed]⟩⟩

omit [DecidableEq T] in
/-- Steps that answer with an error. -/
theorem Frozen.of_answer (hfinal : s.finalised = true → s'.finalised = true)
    (hlists : s'.lists = s.lists) {error : Error} (herror : error ≠ .NoError)
    (hanswers : s'.answers = s.answers ++ [(t, error)])
    (hprocessed : s'.processed = s.processed) : Frozen s s' :=
  ⟨hfinal, hlists, ⟨[(t, error)], hanswers, by simpa using herror⟩, ⟨[], by simp [hprocessed]⟩⟩

omit [DecidableEq T] in
theorem Frozen.rfl : Frozen s s :=
  .of_eq id (.refl _) (.refl _) (.refl _)

omit [DecidableEq T] in
theorem Frozen.trans {s'' : State T} (h : Frozen s s') (h' : Frozen s' s'') : Frozen s s'' := by
  obtain ⟨later, hanswers, hlater⟩ := h.answers
  obtain ⟨later', hanswers', hlater'⟩ := h'.answers
  obtain ⟨runs, hruns⟩ := h.processed
  obtain ⟨runs', hruns'⟩ := h'.processed
  refine ⟨fun hfinal => h'.finalised (h.finalised hfinal), h'.lists.trans h.lists,
    ⟨later ++ later', by rw [hanswers', hanswers, List.append_assoc], fun a ha => ?_⟩,
    ⟨runs ++ runs', by rw [hruns', hruns, List.append_assoc]⟩⟩
  exact (List.mem_append.mp ha).elim (hlater a) (hlater' a)

theorem Frozen.requestAccess (s : State T) (t : T) (version : ℕ) (check : Bool) :
    Frozen s (s.requestAccess currversion t version check) := by
  have hanswer : ∀ error, error ≠ .NoError → Frozen s (s.answer t error) :=
    fun error herror => .of_answer id (.refl _) herror (.refl _) (.refl _)
  unfold State.requestAccess
  split_ifs
  · exact hanswer _ (by simp)
  · exact hanswer _ (by simp)
  · rcases s.access with _ | u
    · exact .of_eq id (.refl _) (.refl _) (.refl _)
    · exact hanswer _ (by simp)
  · exact .of_eq id (.refl _) (.refl _) (.refl _)

/-- After the end of the requests no thread is past the test of the flag without an error. -/
theorem Inv.frozen_proceed (h : Inv s none) (hfinal : s.finalised = true) (t : T)
    (granted : Bool) : Frozen s (s.proceed t granted) := by
  have hfits := h.fits t (by simp)
  have hended := h.ended hfinal
  unfold State.proceed
  cases hphase : s.phase t <;> rw [hphase] at hfits
  case idle | accessing => exact .rfl
  case locking | finalising =>
    rcases s.access with _ | u
    · exact .of_eq id (.refl _) (.refl _) (.refl _)
    · exact .rfl
  case testing =>
    dsimp only
    rw [if_pos hended]
    exact .of_eq id (.refl _) (.refl _) (.refl _)
  case late => exact .of_answer id (.refl _) (by simp) (.refl _) (.refl _)
  case registering r pending => cases hended.symm.trans hfits.2.1
  case closing => exact .of_eq id (.refl _) (.refl _) (.refl _)
  case closed => exact .of_eq (fun _ => .refl _) (.refl _) (.refl _) (.refl _)
  case processing i called =>
    dsimp only
    rcases s.lists.patcherLoadedCallbacks[i]? with _ | p
    · exact ⟨id, .refl _, ⟨[], by simp [State.goto], by simp⟩, ⟨[called], .refl _⟩⟩
    · exact .of_eq id (.refl _) (.refl _) (.refl _)

/-- **After the end of the requests** a step neither grants access nor stores anything. -/
theorem Inv.frozen_step (h : Inv s none) (hfinal : s.finalised = true) (e : T × Act) :
    Frozen s (LiluAPI.step currversion s e) := by
  obtain ⟨t, act⟩ := e
  unfold LiluAPI.step
  cases act with
  | requestAccess version check =>
    cases hphase : s.phase t
    case idle => exact .requestAccess currversion s t version check
    all_goals exact .rfl
  | register r =>
    cases hphase : s.phase t
    case accessing => exact .of_eq id (.refl _) (.refl _) (.refl _)
    all_goals exact .rfl
  | releaseAccess =>
    cases hphase : s.phase t
    case accessing => exact .of_eq id (.refl _) (.refl _) (.refl _)
    all_goals exact .rfl
  | finaliseRequests =>
    cases hphase : s.phase t
    case idle => exact .of_eq id (.refl _) (.refl _) (.refl _)
    all_goals exact .rfl
  | processPatcherLoadCallbacks =>
    cases hphase : s.phase t
    case idle =>
      dsimp only
      rw [if_pos hfinal]
      exact .of_eq id (.refl _) (.refl _) (.refl _)
    all_goals exact .rfl
  | proceed granted => cases hphase : s.phase t <;> exact h.frozen_proceed hfinal t granted

theorem Inv.frozen (h : Inv s none) (hfinal : s.finalised = true) (es : List (T × Act)) :
    Frozen s (es.foldl (LiluAPI.step currversion) s) := by
  induction es generalizing s with
  | nil => exact .rfl
  | cons e es ih =>
    have hstep := h.frozen_step currversion hfinal e
    exact hstep.trans (ih (h.step currversion e) (hstep.finalised hfinal))

/-! ## The callbacks are called -/

/-- A step leaves the other threads where they are. -/
theorem phase_step (s : State T) (e : T × Act) (hu : u ≠ e.1) :
    (LiluAPI.step currversion s e).phase u = s.phase u := by
  obtain ⟨t, act⟩ := e
  have hgoto : ∀ (s : State T) p, (s.goto t p).phase u = s.phase u := fun s p => update_of_ne hu ..
  unfold LiluAPI.step
  cases act with
  | requestAccess version check =>
    cases hphase : s.phase t
    case idle =>
      dsimp only
      unfold State.requestAccess
      split_ifs
      · rfl
      · rfl
      · rcases s.access with _ | _
        · exact hgoto ..
        · rfl
      · exact hgoto ..
    all_goals rfl
  | register r =>
    cases hphase : s.phase t
    case accessing => exact hgoto ..
    all_goals rfl
  | releaseAccess =>
    cases hphase : s.phase t
    case accessing => exact hgoto ..
    all_goals rfl
  | finaliseRequests =>
    cases hphase : s.phase t
    case idle => exact hgoto ..
    all_goals rfl
  | processPatcherLoadCallbacks =>
    cases hphase : s.phase t
    case idle =>
      dsimp only
      split_ifs
      · exact hgoto ..
      · rfl
    all_goals rfl
  | proceed granted =>
    have hproceed : (s.proceed t granted).phase u = s.phase u := by
      unfold State.proceed
      cases s.phase t
      case idle | accessing => rfl
      case registering r pending =>
        rcases pending with _ | ⟨e, pending⟩ <;> dsimp only
        · exact hgoto ..
        · split_ifs <;> exact hgoto ..
      case locking | finalising =>
        rcases s.access with _ | _
        · exact hgoto ..
        · rfl
      case testing =>
        dsimp only
        split_ifs <;> exact hgoto ..
      case processing i called =>
        dsimp only
        rcases s.lists.patcherLoadedCallbacks[i]? with _ | _ <;> exact hgoto ..
      all_goals exact hgoto ..
    cases hphase : s.phase t <;> exact hproceed

/-- The number of steps that the thread takes inside of its calls. -/
def turns (t : T) (es : List (T × Act)) : ℕ :=
  es.countP fun e => e = (t, .proceed true) ∨ e = (t, .proceed false)

/-- **The loop over the callbacks ends** after a turn for each callback and one more, whatever the
other threads do, and has called the whole list. -/
theorem Inv.processes (h : Inv s none) {i : ℕ} {called : List (ℕ × ℕ)}
    (hphase : s.phase t = .processing i called) (es : List (T × Act))
    (hturns : s.lists.patcherLoadedCallbacks.length < i + turns t es) :
    s.lists.patcherLoadedCallbacks ∈ (es.foldl (LiluAPI.step currversion) s).processed := by
  induction es generalizing s i called with
  | nil =>
    have hfits := h.fits t (by simp)
    rw [hphase] at hfits
    exact absurd hturns (not_lt.mpr hfits.2.1)
  | cons e es ih =>
    have hfits := h.fits t (by simp)
    rw [hphase] at hfits
    obtain ⟨hfinal, hi, rfl⟩ := hfits
    have hfrozen := h.frozen_step currversion hfinal e
    have h' := h.step currversion e
    rw [List.foldl_cons, ← hfrozen.lists]
    rw [← hfrozen.lists] at hturns
    by_cases hproceed : e = (t, .proceed true) ∨ e = (t, .proceed false)
    · rw [turns, List.countP_cons_of_pos (by simpa using hproceed)] at hturns
      have hstep : ∃ granted, LiluAPI.step currversion s e = s.proceed t granted := by
        rcases hproceed with rfl | rfl
        · exact ⟨true, by simp [LiluAPI.step, hphase]⟩
        · exact ⟨false, by simp [LiluAPI.step, hphase]⟩
      obtain ⟨granted, hstep⟩ := hstep
      rw [State.proceed, hphase] at hstep
      dsimp only at hstep
      rcases hget : s.lists.patcherLoadedCallbacks[i]? with _ | p <;> rw [hget] at hstep
      · -- the last turn stores what was called
        have hlen := List.getElem?_eq_none_iff.mp hget
        rw [List.take_of_length_le hlen] at hstep
        have hfinal' := hfrozen.finalised hfinal
        obtain ⟨later, hlater⟩ := (h'.frozen currversion hfinal' es).processed
        rw [hlater, hfrozen.lists, hstep]
        simp [State.goto]
      · refine @ih _ h' (i + 1) (s.lists.patcherLoadedCallbacks.take i ++ [p]) ?_
          (by rw [turns]; omega)
        rw [hstep]
        exact update_self ..
    · rw [turns, List.countP_cons_of_neg (by simpa using hproceed)] at hturns
      refine @ih _ h' i (s.lists.patcherLoadedCallbacks.take i) ?_ hturns
      by_cases hu : t = e.1
      · obtain ⟨u, act⟩ := e
        obtain rfl : t = u := hu
        cases act with
        | proceed granted => cases granted <;> simp at hproceed
        | _ => simp [LiluAPI.step, hphase]
      · rw [phase_step currversion s e hu, hphase]

/-! ## The guarantees -/

/-- The state in which the first plugin is started. -/
def State.boot (startSuccess : Bool) : State T :=
  { startSuccess }

theorem inv_run (startSuccess : Bool) (es : List (T × Act)) :
    Inv (es.foldl (LiluAPI.step currversion) (.boot startSuccess)) none := by
  have hboot : Inv (State.boot startSuccess : State T) none :=
    ⟨fun _ _ => trivial, by simp [State.boot], by simp [State.boot], by simp [State.boot],
      fun _ => rfl⟩
  have hstep : ∀ (s : State T) e, Inv s none → Inv (LiluAPI.step currversion s e) none :=
    fun s e h => h.step currversion e
  exact foldl_invariant hstep es hboot

/-- **Requests end for good.** Once `finaliseRequests` has returned, then whatever any thread does:
no `requestAccess` returns `NoError` any more, the lists stay as they are, and every registration
that returned `NoError` is in them. Every finished run over the patcher callbacks has called all of
the list, and one that is under way will have. -/
theorem closed_after_finalise (startSuccess : Bool) (es es' : List (T × Act))
    {s s' : State T} (hs : s = es.foldl (LiluAPI.step currversion) (.boot startSuccess))
    (hs' : s' = es'.foldl (LiluAPI.step currversion) s) (hfinal : s.finalised = true) :
    (∃ later, s'.answers = s.answers ++ later ∧ ∀ a ∈ later, a.2 ≠ .NoError) ∧
      s'.lists = s.lists ∧
      (∀ r, (r, .NoError) ∈ s'.registered → ∀ e ∈ r.entries, s.lists.Stores e) ∧
      (∀ called ∈ s'.processed, called = s.lists.patcherLoadedCallbacks) ∧
      ∀ t i called, s'.phase t = .processing i called →
        ∀ es'', s.lists.patcherLoadedCallbacks.length < i + turns t es'' →
          s.lists.patcherLoadedCallbacks ∈
            (es''.foldl (LiluAPI.step currversion) s').processed := by
  have h : Inv s none := hs ▸ inv_run currversion startSuccess es
  have h' : Inv s' none := by
    rw [hs', hs, ← List.foldl_append]
    exact inv_run ..
  have hfrozen : Frozen s s' := hs' ▸ h.frozen currversion hfinal es'
  refine ⟨hfrozen.answers, hfrozen.lists, ?_, ?_, ?_⟩
  · rw [← hfrozen.lists]
    exact h'.registered
  · rw [← hfrozen.lists]
    exact h'.processed
  · rw [← hfrozen.lists]
    exact fun t i called hphase es'' hturns => h'.processes currversion hphase es'' hturns

/-- A plugin registers a callback while Lilu waits for the lock; afterwards the lists stay. -/
theorem closed_after_finalise_twoThreads :
    ∃ es : List (Bool × Act), (es.foldl (step 0) (.boot true)).finalised = true ∧
      (es.foldl (step 0) (.boot true)).lists.patcherLoadedCallbacks = [(7, 8)] ∧
      ∀ es' : List (Bool × Act), (es'.foldl (step 0) (es.foldl (step 0) (.boot true))).lists =
        (es.foldl (step 0) (.boot true)).lists := by
  refine ⟨[(true, .requestAccess 0 true), (true, .proceed true), (false, .finaliseRequests),
    (false, .proceed true), (true, .register (.onPatcherLoad 7 8)), (true, .proceed true),
    (true, .proceed true), (true, .releaseAccess), (false, .proceed true), (false, .proceed true),
    (false, .proceed true)], by decide +kernel, by decide +kernel, fun es' => ?_⟩
  exact (closed_after_finalise 0 true _ es' rfl rfl (by decide +kernel)).2.1

end Lilu.LiluAPI
