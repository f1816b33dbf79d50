import Lilu.Prelude.Runs

/-!
# The start of the patchers

The patchers are started by the first policy callback, or by the event that enables the screen,
which leaves the work to a thread. A flag tells that this was done. A policy callback sets it after
the work, when the user patcher was started as well; the console event sets it before.

## Main definitions

* `Boot`: the flag, the device information, and what was executed
* `policyInit`, `initConsole`, `performCommonInit`: the ways in
* `AtMostOnce`: the callbacks are processed once, and the device information is built once
* `Repeats`: the work is started after a policy callback in which the user patcher failed

## Main results

* `atMostOnce_iff`: when a run does everything at most once
-/

namespace Lilu.Configuration

inductive Panic where
  | buildingTwice
  | failedToBuild
  deriving DecidableEq, Repr

/-- The state of the configuration, and how often the parts of the start were executed. -/
structure Boot where
  initialised : Bool := false
  /-- `globalDeviceInfo` is set. -/
  globalDeviceInfo : Bool := false
  /-- The threads that will perform the work and have not begun. -/
  threads : ℕ := 0
  /-- How often `DeviceInfo::createCached` was called. -/
  created : ℕ := 0
  /-- How often `LiluAPI::processPatcherLoadCallbacks` was called. -/
  processed : ℕ := 0
  panic : Option Panic := none
  deriving DecidableEq, Repr

/-- `DeviceInfo::createCached`, with memory for the information or without. -/
def Boot.createCached (s : Boot) (granted : Bool) : Boot :=
  let s := { s with created := s.created + 1 }
  if s.globalDeviceInfo then { s with panic := some .buildingTwice }
  else if granted then { s with globalDeviceInfo := true }
  else { s with panic := some .failedToBuild }

/-- `performCommonInit`, with the outcome of `userPatcher.init`. -/
def Boot.performCommonInit (s : Boot) (granted user : Bool) : Boot :=
  let s := s.createCached granted
  if s.panic.isSome then s
  else
    let s := { s with processed := s.processed + 1 }
    if user then { s with initialised := true } else s

/-- `performInit`, with the outcome of `kernelPatcher.init`. -/
def Boot.performInit (s : Boot) (kernel granted user : Bool) : Boot :=
  if kernel then s.performCommonInit granted user else s

/-- `policyInit`. The lock makes all of it one step; the test before the lock decides nothing. -/
def Boot.policyInit (s : Boot) (kernel granted user : Bool) : Boot :=
  if !s.initialised then s.performInit kernel granted user else s

/-- `initConsole`, with whether a thread is granted if the screen is enabled. -/
def Boot.initConsole (s : Boot) (enableScreen thread : Bool) : Boot :=
  if enableScreen && !s.initialised then
    let s := { s with initialised := true }
    if thread then { s with threads := s.threads + 1 } else s
  else s

/-- Policy callbacks, console events, and the begin of a thread. -/
inductive Event where
  | policyInit (kernel granted user : Bool)
  | initConsole (enableScreen thread : Bool)
  | thread (granted user : Bool)
  deriving DecidableEq, Repr

/-- What happens at an event; nothing does after a panic. -/
def step (s : Boot) (e : Event) : Boot :=
  if s.panic.isSome then s
  else match e with
  | .policyInit kernel granted user => s.policyInit kernel granted user
  | .initConsole enableScreen thread => s.initConsole enableScreen thread
  | .thread granted user =>
    if s.threads = 0 then s
    else { s with threads := s.threads - 1 }.performCommonInit granted user

/-- The state after some events. -/
def run (es : List Event) : Boot :=
  es.foldl step {}

@[simp] theorem run_concat (es : List Event) (e : Event) : run (es ++ [e]) = step (run es) e := by
  simp [run]

/-! ## Starts -/

/-- The event starts `performCommonInit`. -/
def Starts (s : Boot) : Event → Prop
  | .policyInit kernel _ _ => s.panic = none ∧ s.initialised = false ∧ kernel = true
  | .initConsole _ _ => False
  | .thread _ _ => s.panic = none ∧ s.threads ≠ 0

/-- A policy callback in which `userPatcher.init` fails. -/
def Event.fails : Event → Prop
  | .policyInit _ granted user => granted = true ∧ user = false
  | _ => False

/-- A policy callback started the work, and the user patcher failed. -/
def Failed : List Event → Prop :=
  SomeAt fun before e => Starts (run before) e ∧ e.fails

/-- The work is started after a policy callback that failed. -/
def Repeats : List Event → Prop :=
  SomeAt fun before e => Starts (run before) e ∧ Failed before

/-- Everything was executed at most once. -/
def AtMostOnce (s : Boot) : Prop :=
  s.created ≤ 1 ∧ s.processed ≤ 1 ∧ s.panic ≠ some .buildingTwice

instance (s : Boot) : Decidable (AtMostOnce s) :=
  inferInstanceAs (Decidable (_ ∧ _ ∧ _))

variable {s : Boot} {e : Event}

/-- What a start does to what was executed: all of it is the work of `performCommonInit`. -/
theorem Starts.step (h : Starts s e) : s.panic = none ∧ ∃ threads granted user,
    step s e = { s with threads }.performCommonInit granted user := by
  cases e with
  | policyInit kernel granted user =>
    obtain ⟨hpanic, hinit, rfl⟩ := h
    refine ⟨hpanic, s.threads, granted, user, ?_⟩
    show Configuration.step s (.policyInit true granted user) = s.performCommonInit granted user
    simp [Configuration.step, hpanic, Boot.policyInit, hinit, Boot.performInit]
  | initConsole enableScreen thread => exact h.elim
  | thread granted user =>
    obtain ⟨hpanic, hthreads⟩ := h
    refine ⟨hpanic, s.threads - 1, granted, user, ?_⟩
    simp [Configuration.step, hpanic, hthreads]

/-- An event that starts nothing does nothing, or it is the console event: then it sets the flag,
with a thread or without. -/
theorem step_of_not_starts (h : ¬ Starts s e) : step s e = s ∨ s.initialised = false ∧
    ∃ n ≤ 1, step s e = { s with initialised := true, threads := s.threads + n } := by
  by_cases hpanic : s.panic = none
  · cases e with
    | policyInit kernel granted user =>
      left
      simp only [Starts, hpanic, true_and, not_and, Bool.not_eq_true] at h
      rcases hinit : s.initialised with _ | _
      · simp [step, hpanic, Boot.policyInit, hinit, Boot.performInit, h hinit]
      · simp [step, hpanic, Boot.policyInit, hinit]
    | initConsole enableScreen thread =>
      simp only [step, hpanic, Option.isSome_none, Bool.false_eq_true, if_false, Boot.initConsole]
      by_cases henable : (enableScreen && !s.initialised) = true
      · right
        rw [if_pos henable]
        simp only [Bool.and_eq_true, Bool.not_eq_true'] at henable
        cases thread with
        | false => exact ⟨henable.2, 0, by simp, rfl⟩
        | true => exact ⟨henable.2, 1, by simp, rfl⟩
      · left
        rw [if_neg henable]
    | thread granted user =>
      left
      have hthreads : s.threads = 0 := by simpa [Starts, hpanic] using h
      simp [step, hpanic, hthreads]
  · left
    simp [step, Option.isSome_iff_ne_none.mpr hpanic]

/-! ## The work -/

theorem performCommonInit_built (h : s.globalDeviceInfo = true) (threads : ℕ)
    (granted user : Bool) : ({ s with threads }.performCommonInit granted user).panic = some .buildingTwice := by
  simp [Boot.performCommonInit, Boot.createCached, h]

/-- Work that does not panic was granted memory; it leaves the flag as the user patcher says. -/
theorem performCommonInit_none {granted user : Bool}
    (h : (s.performCommonInit granted user).panic = none) : granted = true ∧
      (s.performCommonInit granted user).threads = s.threads ∧
      (s.performCommonInit granted user).initialised = (s.initialised || user) ∧
      (s.performCommonInit granted user).globalDeviceInfo = true := by
  rcases hinfo : s.globalDeviceInfo with _ | _
  · cases granted <;> cases user <;>
      simp_all [Boot.performCommonInit, Boot.createCached]
    all_goals split_ifs at h ⊢ <;> simp_all
  · cases h.symm.trans (performCommonInit_built hinfo s.threads granted user)

/-- The first start executes everything at most once. -/
theorem performCommonInit_first (hcreated : s.created = 0) (hprocessed : s.processed = 0)
    (hpanic : s.panic = none) (hinfo : s.globalDeviceInfo = false) (threads : ℕ)
    (granted user : Bool) : AtMostOnce ({ s with threads }.performCommonInit granted user) := by
  -- The device information is new, so only memory and the user patcher decide.
  cases granted <;> cases user <;>
    simp [AtMostOnce, Boot.performCommonInit, Boot.createCached, hinfo, hcreated, hprocessed,
      hpanic]

/-! ## Runs -/

/-- Where a run is that has not panicked: before the first start, or behind one that failed, or
behind one that leaves the flag set and no thread. -/
def Place (es : List Event) (s : Boot) : Prop :=
  Failed es ∨
    (s.created = 0 ∧ s.processed = 0 ∧ s.globalDeviceInfo = false ∧
      (s.threads = 0 ∨ s.initialised = true ∧ s.threads = 1)) ∨
    (s.initialised = true ∧ s.threads = 0)

theorem failed_concat {es : List Event} :
    Failed (es ++ [e]) ↔ Failed es ∨ Starts (run es) e ∧ e.fails :=
  someAt_concat

theorem repeats_concat {es : List Event} :
    Repeats (es ++ [e]) ↔ Repeats es ∨ Starts (run es) e ∧ Failed es :=
  someAt_concat

/-- A start outside of a failure: either it fails itself, or the flag is set behind it. -/
theorem place_starts {es : List Event} (hplace : Place es (run es)) (hstarts : Starts (run es) e)
    (hpanic : (step (run es) e).panic = none) : Place (es ++ [e]) (step (run es) e) := by
  rcases hplace with hfailed | hplace
  · exact .inl (failed_concat.mpr (.inl hfailed))
  · cases e with
    | policyInit kernel granted user =>
      obtain ⟨hpanic₀, hinit, rfl⟩ := hstarts
      -- A thread is only queued with the flag set, and here it is clear.
      have hthreads : (run es).threads = 0 := by simpa [hinit] using hplace.imp_left (·.2.2.2)
      have hstep : step (run es) (.policyInit true granted user) =
          (run es).performCommonInit granted user := by
        simp [step, hpanic₀, Boot.policyInit, hinit, Boot.performInit]
      rw [hstep] at hpanic ⊢
      obtain ⟨hgranted, hthreads', hinit', -⟩ := performCommonInit_none hpanic
      cases user with
      | false => exact .inl (failed_concat.mpr (.inr ⟨⟨hpanic₀, hinit, rfl⟩, hgranted, rfl⟩))
      | true => exact .inr (.inr ⟨by rw [hinit', Bool.or_true], hthreads'.trans hthreads⟩)
    | initConsole enableScreen thread => exact hstarts.elim
    | thread granted user =>
      obtain ⟨hpanic₀, hthreads⟩ := hstarts
      -- The thread that begins is the one that the console event has queued.
      have hqueued : (run es).initialised = true ∧ (run es).threads = 1 := by
        rcases hplace with ⟨-, -, -, hnone | hqueued⟩ | ⟨-, hnone⟩
        · exact absurd hnone hthreads
        · exact hqueued
        · exact absurd hnone hthreads
      have hstep : step (run es) (.thread granted user) =
          { run es with threads := (run es).threads - 1 }.performCommonInit granted user := by
        simp [step, hpanic₀, hthreads]
      rw [hstep] at hpanic ⊢
      obtain ⟨-, hthreads', hinit', -⟩ := performCommonInit_none hpanic
      refine .inr (.inr ⟨?_, ?_⟩)
      · rw [hinit']
        simp [hqueued.1]
      · rw [hthreads']
        simp [hqueued.2]

theorem place_run (es : List Event) : (run es).panic = none → Place es (run es) := by
  induction es using List.reverseRecOn with
  | nil => exact fun _ => .inr (.inl ⟨rfl, rfl, rfl, .inl rfl⟩)
  | append_singleton es e ih =>
    intro hpanic
    rw [run_concat] at hpanic ⊢
    by_cases hstarts : Starts (run es) e
    · exact place_starts (ih hstarts.step.1) hstarts hpanic
    · rcases step_of_not_starts hstarts with hstep | ⟨hinit, n, hn, hstep⟩ <;>
        rw [hstep] at hpanic ⊢ <;>
        rcases ih hpanic with hfailed | hplace
      · exact .inl (failed_concat.mpr (.inl hfailed))
      · exact .inr hplace
      · exact .inl (failed_concat.mpr (.inl hfailed))
      · -- the flag was clear, so nothing was started or queued
        right
        left
        rcases hplace with ⟨hcreated, hprocessed, hinfo, hthreads⟩ | ⟨hset, -⟩
        · have hnone : (run es).threads = 0 := by simpa [hinit] using hthreads
          refine ⟨hcreated, hprocessed, hinfo, ?_⟩
          rw [hnone, Nat.zero_add]
          exact (Nat.le_one_iff_eq_zero_or_eq_one.mp hn).imp_right fun hone => ⟨rfl, hone⟩
        · rw [hinit] at hset
          cases hset

/-- Behind a failure the device information is there. -/
theorem Failed.built {es : List Event} (h : Failed es) :
    (run es).panic ≠ none ∨ (run es).globalDeviceInfo = true := by
  induction es using List.reverseRecOn with
  | nil => exact absurd h not_someAt_nil
  | append_singleton es e ih =>
    rw [run_concat]
    by_cases hpanic : (step (run es) e).panic = none
    · right
      by_cases hstarts : Starts (run es) e
      · obtain ⟨-, threads, granted, user, hstep⟩ := hstarts.step
        rw [hstep] at hpanic ⊢
        exact (performCommonInit_none hpanic).2.2.2
      · have hfailed : Failed es :=
          (failed_concat.mp h).resolve_right fun hnew => hstarts hnew.1
        rcases step_of_not_starts hstarts with hstep | ⟨-, n, -, hstep⟩ <;>
          rw [hstep] at hpanic ⊢ <;>
          exact (ih hfailed).resolve_left (not_not.mpr hpanic)
    · exact .inl hpanic

/-- **At most once**: a run builds the device information twice exactly when the work is started
after a policy callback in which the user patcher failed; otherwise everything is executed at most
once. -/
theorem atMostOnce_iff (es : List Event) : AtMostOnce (run es) ↔ ¬ Repeats es := by
  induction es using List.reverseRecOn with
  | nil => exact iff_of_true (by decide) not_someAt_nil
  | append_singleton es e ih =>
    rw [run_concat, repeats_concat, not_or, ← ih]
    by_cases hstarts : Starts (run es) e
    · obtain ⟨hpanic, threads, granted, user, hstep⟩ := hstarts.step
      rw [hstep]
      by_cases hfailed : Failed es
      -- Behind a failure the information is built already, and the start builds it again.
      · have hinfo := hfailed.built.resolve_left (not_not.mpr hpanic)
        refine iff_of_false ?_ fun h => h.2 ⟨hstarts, hfailed⟩
        exact fun h => h.2.2 (performCommonInit_built hinfo threads granted user)
      · rcases (place_run es hpanic).resolve_left hfailed with
          ⟨hcreated, hprocessed, hinfo, -⟩ | ⟨hinit, hthreads⟩
        · refine iff_of_true (performCommonInit_first hcreated hprocessed hpanic hinfo ..) ?_
          exact ⟨⟨by simp [hcreated], by simp [hprocessed], by simp [hpanic]⟩,
            fun h => hfailed h.2⟩
        · -- with the flag set and no thread there is nothing that could start
          cases e with
          | policyInit kernel granted user => cases hinit.symm.trans hstarts.2.1
          | initConsole enableScreen thread => exact hstarts.elim
          | thread granted user => exact absurd hthreads hstarts.2
    · have hsame : AtMostOnce (step (run es) e) ↔ AtMostOnce (run es) := by
        rcases step_of_not_starts hstarts with hstep | ⟨-, n, -, hstep⟩ <;> rw [hstep]
        rfl
      rw [hsame]
      exact (and_iff_left fun h => hstarts h.1).symm

/-- Two policy callbacks, the user patcher failing in the first one. -/
theorem not_atMostOnce_retry :
    ¬ AtMostOnce (run [.policyInit true true false, .policyInit true true true]) := by
  decide

end Lilu.Configuration
