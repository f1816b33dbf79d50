import Mathlib.Tactic

/-!
# Kernel writing on several processors

A bracket of two calls takes a lock, turns interrupts off and clears the write protection bit, and
then puts all of that back. What the processor had before is kept in two variables that all
processors share, while the registers are the processor's own. The call that begins a bracket ends it
as well when the bit cannot be cleared.

## Main definitions

* `Registers`, `Shared`: what each processor has of its own, and what they share
* `Place`, `turn`: where a processor is, and its next step
* `Step`, `Reachable`: the steps of all processors

## Main results

* `Fits.turn`, `Fits.frame`: what a step keeps on its own processor, and on the others
* `bracket_spec`: a bracket puts back what it has found
-/

namespace Lilu.KernelWriting

open Function

/-- The interrupt flag and the control register of a processor. -/
structure Registers where
  interruptFlag : Bool
  cr0 : BitVec 64

/-- The lock, and the static variables of `setKernelWriting` and of `setWPBit`. -/
structure Shared (C : Type*) where
  lock : Option C := none
  interruptsDisabled : Bool := false
  writeProtectionDisabled : Bool := false

/-- The write protection bit. -/
def CR0_WP : BitVec 64 := 0x10000

/-- Where a processor is: outside of `setKernelWriting`, at one of the steps of the call with `true`
or of the call with `false`, or between the two. `cr0` is the local variable of `setWPBit`, and `ok`
is what is returned. -/
inductive Place where
  | outside
  | lock
  | disableInterrupts
  | readCr0
  | saveProtection (cr0 : BitVec 64)
  | checkSaved (cr0 : BitVec 64)
  | clearProtection (cr0 : BitVec 64)
  | checkCleared
  | inside
  | rereadCr0
  | setProtection (cr0 : BitVec 64)
  | checkSet (set : Bool)
  | restoreInterrupts (ok : Bool)
  | unlock (ok : Bool)

/-- The next step of the processor `c` inside of a bracket: where it is then, its registers, and what
is shared. Clearing the bit may have no effect. There is no step while another processor has the
lock. -/
def turn {C : Type*} [DecidableEq C] (c : C) (clears : Bool) (r : Registers) (m : Shared C) :
    Place → Option (Place × Registers × Shared C)
  | .outside => none
  -- `setKernelWriting(true, lock)`
  | .lock => if m.lock = none then some (.disableInterrupts, r, { m with lock := some c }) else none
  | .disableInterrupts =>
    some (.readCr0, { r with interruptFlag := false },
      { m with interruptsDisabled := !r.interruptFlag })
  | .readCr0 => some (.saveProtection r.cr0, r, m)
  | .saveProtection cr0 =>
    some (.checkSaved cr0, r, { m with writeProtectionDisabled := decide (cr0 &&& CR0_WP = 0) })
  | .checkSaved cr0 =>
    some (if m.writeProtectionDisabled then .checkCleared else .clearProtection cr0, r, m)
  | .clearProtection cr0 =>
    some (.checkCleared, if clears then { r with cr0 := cr0 &&& ~~~CR0_WP } else r, m)
  | .checkCleared =>
    if r.cr0 &&& CR0_WP = 0 then some (.inside, r, m) else some (.restoreInterrupts false, r, m)
  -- `setKernelWriting(false, lock)`
  | .inside => some (.rereadCr0, r, m)
  | .rereadCr0 => some (.setProtection r.cr0, r, m)
  | .setProtection cr0 =>
    if m.writeProtectionDisabled then some (.checkSet false, r, m)
    else some (.checkSet true, { r with cr0 := cr0 ||| CR0_WP }, m)
  | .checkSet set => some (.restoreInterrupts (decide (r.cr0 &&& CR0_WP ≠ 0) == set), r, m)
  | .restoreInterrupts ok =>
    some (.unlock ok, if m.interruptsDisabled then r else { r with interruptFlag := true }, m)
  | .unlock _ => some (.outside, r, { m with lock := none })

/-- All processors, with the registers that each had when its bracket began. -/
structure System (C : Type*) where
  shared : Shared C := {}
  registers : C → Registers
  place : C → Place := fun _ => .outside
  began : C → Registers := registers

section Steps

variable {C : Type*} [DecidableEq C]

/-- A processor begins a bracket or makes its next step in one; outside of brackets its registers
change in any way. -/
inductive Step : System C → System C → Prop
  | call {s c} (h : s.place c = .outside) :
    Step s { s with
      place := update s.place c .lock
      began := update s.began c (s.registers c) }
  | turn {s c clears p r m}
    (h : turn c clears (s.registers c) s.shared (s.place c) = some (p, r, m)) :
    Step s { s with
      shared := m
      registers := update s.registers c r
      place := update s.place c p }
  | change {s c} (r : Registers) (h : s.place c = .outside) :
    Step s { s with registers := update s.registers c r }

/-- The states that any order of steps leads to, whatever the registers are at first. -/
def Reachable (s : System C) : Prop :=
  ∃ registers : C → Registers, Relation.ReflTransGen Step { registers } s

end Steps

/-! ## The write protection bit -/

theorem getLsbD_wp (i : ℕ) : CR0_WP.getLsbD i = decide (i = 16) := by
  by_cases hi : i < 64
  · interval_cases i <;> rfl
  · rw [BitVec.getLsbD_of_ge _ _ (Nat.not_lt.mp hi)]
    exact (decide_eq_false (by omega)).symm

theorem and_wp_eq_zero_iff (cr0 : BitVec 64) : cr0 &&& CR0_WP = 0 ↔ cr0.getLsbD 16 = false := by
  constructor
  · intro h
    have hbit : (cr0 &&& CR0_WP).getLsbD 16 = false := by
      rw [h]
      exact BitVec.getLsbD_zero
    rwa [BitVec.getLsbD_and, getLsbD_wp, decide_eq_true rfl, Bool.and_true] at hbit
  · intro h
    refine BitVec.eq_of_getLsbD_eq fun i _ => ?_
    rw [BitVec.getLsbD_and, getLsbD_wp]
    by_cases hi : i = 16
    · rw [hi, h]
      rfl
    · rw [decide_eq_false hi, Bool.and_false]
      exact BitVec.getLsbD_zero.symm

/-- Once cleared, the bit is clear. -/
theorem cleared_and_wp (cr0 : BitVec 64) : cr0 &&& ~~~CR0_WP &&& CR0_WP = 0 := by
  rw [and_wp_eq_zero_iff]
  simp [getLsbD_wp]

/-- Clearing a bit that is clear changes nothing. -/
theorem cleared_of_clear {cr0 : BitVec 64} (h : cr0 &&& CR0_WP = 0) : cr0 &&& ~~~CR0_WP = cr0 := by
  rw [and_wp_eq_zero_iff] at h
  refine BitVec.eq_of_getLsbD_eq fun i hi => ?_
  rw [BitVec.getLsbD_and, BitVec.getLsbD_not, getLsbD_wp]
  by_cases h16 : i = 16
  · rw [h16, h, Bool.false_and]
  · simp [h16, hi]

/-- Setting a bit that was set undoes the clearing. -/
theorem set_cleared {cr0 : BitVec 64} (h : cr0 &&& CR0_WP ≠ 0) :
    cr0 &&& ~~~CR0_WP ||| CR0_WP = cr0 := by
  rw [ne_eq, and_wp_eq_zero_iff, Bool.not_eq_false] at h
  refine BitVec.eq_of_getLsbD_eq fun i hi => ?_
  rw [BitVec.getLsbD_or, BitVec.getLsbD_and, BitVec.getLsbD_not, getLsbD_wp]
  by_cases h16 : i = 16
  · rw [h16, h]
    simp
  · simp [h16, hi]

/-- Whether the bit was cleared is seen in the register. -/
theorem eq_cleared {old cr0 : BitVec 64} (h : cr0 = old ∨ cr0 = old &&& ~~~CR0_WP)
    (hclear : cr0 &&& CR0_WP = 0) : cr0 = old &&& ~~~CR0_WP := by
  obtain rfl | h := h
  · exact (cleared_of_clear hclear).symm
  · exact h

theorem eq_of_not_cleared {old cr0 : BitVec 64} (h : cr0 = old ∨ cr0 = old &&& ~~~CR0_WP)
    (hset : cr0 &&& CR0_WP ≠ 0) : cr0 = old := by
  refine h.resolve_right ?_
  rintro rfl
  exact hset (cleared_and_wp old)

/-! ## The invariant -/

section Invariant

variable {C : Type*}

/-- The processor has the lock, its interrupts are off, and it is known whether they were on. -/
structure Holder (m : Shared C) (c : C) (b r : Registers) : Prop where
  lock : m.lock = some c
  off : r.interruptFlag = false
  interrupts : m.interruptsDisabled = !b.interruptFlag

/-- Interrupts are as they were once they are turned on where they were on. -/
theorem Holder.restored {m : Shared C} {c : C} {b r : Registers} (h : Holder m c b r)
    (hcr0 : r.cr0 = b.cr0) :
    (if m.interruptsDisabled then r else { r with interruptFlag := true }) = b := by
  obtain ⟨flag, cr0⟩ := b
  obtain ⟨flag', cr0'⟩ := r
  obtain ⟨-, hoff, hintr⟩ := h
  dsimp only at hoff hcr0 hintr
  subst hoff hcr0
  cases flag with
  | true => rw [hintr]; rfl
  | false => rw [hintr]; rfl

/-- It is known whether the protection was off. -/
def Saved (m : Shared C) (b : Registers) : Prop :=
  m.writeProtectionDisabled = decide (b.cr0 &&& CR0_WP = 0)

/-- **What holds of a processor** at each place, with the registers `b` when its bracket began. -/
def Fits (m : Shared C) (c : C) (b r : Registers) : Place → Prop
  | .outside => m.lock ≠ some c
  | .lock => m.lock ≠ some c ∧ r = b
  | .disableInterrupts => m.lock = some c ∧ r = b
  | .readCr0 => Holder m c b r ∧ r.cr0 = b.cr0
  | .saveProtection cr0 => Holder m c b r ∧ r.cr0 = b.cr0 ∧ cr0 = b.cr0
  | .checkSaved cr0 => Holder m c b r ∧ Saved m b ∧ r.cr0 = b.cr0 ∧ cr0 = b.cr0
  | .clearProtection cr0 => Holder m c b r ∧ Saved m b ∧ r.cr0 = b.cr0 ∧ cr0 = b.cr0
  | .checkCleared => Holder m c b r ∧ Saved m b ∧
      (r.cr0 = b.cr0 ∨ r.cr0 = b.cr0 &&& ~~~CR0_WP)
  | .inside => Holder m c b r ∧ Saved m b ∧ r.cr0 = b.cr0 &&& ~~~CR0_WP
  | .rereadCr0 => Holder m c b r ∧ Saved m b ∧ r.cr0 = b.cr0 &&& ~~~CR0_WP
  | .setProtection cr0 => Holder m c b r ∧ Saved m b ∧ r.cr0 = b.cr0 &&& ~~~CR0_WP ∧ cr0 = r.cr0
  | .checkSet _ => Holder m c b r ∧ r.cr0 = b.cr0
  | .restoreInterrupts _ => Holder m c b r ∧ r.cr0 = b.cr0
  | .unlock _ => m.lock = some c ∧ r = b

variable {m m' : Shared C} {c u : C} {b r r' : Registers} {p p' : Place} {clears : Bool}

/-- What holds of a processor depends on the shared variables as long as it has the lock. -/
theorem Fits.congr (h : Fits m u b r p) (hsame : m.lock = some u → m' = m)
    (hout : m.lock ≠ some u → m'.lock ≠ some u) : Fits m' u b r p := by
  by_cases hlock : m.lock = some u
  · rwa [hsame hlock]
  · cases p with
    | outside => exact hout hlock
    | lock => exact ⟨hout hlock, h.2⟩
    | disableInterrupts | unlock => exact absurd h.1 hlock
    | readCr0 | saveProtection | checkSaved | clearProtection | checkCleared | inside
    | rereadCr0 | setProtection | checkSet | restoreInterrupts => exact absurd h.1.lock hlock

variable [DecidableEq C]

/-- **A step on another processor** finds the lock free, or taken by that processor. -/
theorem Fits.frame (h : Fits m c b r p) (hturn : turn c clears r m p = some (p', r', m'))
    (hu : u ≠ c) : (m.lock = some u → m' = m) ∧ (m.lock ≠ some u → m'.lock ≠ some u) := by
  have hother : ∀ {lock : Option C}, lock = some c → lock ≠ some u := by
    rintro _ rfl heq
    exact hu (Option.some.inj heq).symm
  cases p with
  | outside => cases hturn
  | lock =>
    rw [turn] at hturn
    split_ifs at hturn with hfree
    obtain ⟨rfl, rfl, rfl⟩ := hturn
    exact ⟨fun hlock => absurd (hfree.symm.trans hlock) (by simp), fun _ => hother rfl⟩
  | disableInterrupts =>
    obtain ⟨rfl, rfl, rfl⟩ := hturn
    exact ⟨fun hlock => absurd hlock (hother h.1), fun hlock => hlock⟩
  | saveProtection cr0 =>
    obtain ⟨rfl, rfl, rfl⟩ := hturn
    exact ⟨fun hlock => absurd hlock (hother h.1.lock), fun hlock => hlock⟩
  | checkCleared | setProtection =>
    rw [turn] at hturn
    split_ifs at hturn
    · obtain ⟨rfl, rfl, rfl⟩ := hturn
      exact ⟨fun _ => rfl, id⟩
    · obtain ⟨rfl, rfl, rfl⟩ := hturn
      exact ⟨fun _ => rfl, id⟩
  | unlock ok =>
    obtain ⟨rfl, rfl, rfl⟩ := hturn
    exact ⟨fun hlock => absurd hlock (hother h.1), fun _ => by simp⟩
  | readCr0 | checkSaved | clearProtection | inside | rereadCr0 | checkSet | restoreInterrupts =>
    obtain ⟨rfl, rfl, rfl⟩ := hturn
    exact ⟨fun _ => rfl, id⟩

/-- **A step** leaves what its new place asks for. -/
theorem Fits.turn (h : Fits m c b r p) (hturn : turn c clears r m p = some (p', r', m')) :
    Fits m' c b r' p' := by
  cases p with
  | outside => cases hturn
  | lock =>
    rw [KernelWriting.turn] at hturn
    split_ifs at hturn with hfree
    obtain ⟨rfl, rfl, rfl⟩ := hturn
    exact ⟨rfl, h.2⟩
  | disableInterrupts =>
    obtain ⟨rfl, rfl, rfl⟩ := hturn
    obtain ⟨hlock, rfl⟩ := h
    exact ⟨⟨hlock, rfl, rfl⟩, rfl⟩
  | readCr0 =>
    obtain ⟨rfl, rfl, rfl⟩ := hturn
    exact ⟨h.1, h.2, h.2⟩
  | saveProtection cr0 =>
    obtain ⟨⟨hlock, hoff, hintr⟩, hcr0, rfl⟩ := h
    obtain ⟨rfl, rfl, rfl⟩ := hturn
    exact ⟨⟨hlock, hoff, hintr⟩, rfl, hcr0, rfl⟩
  | checkSaved cr0 =>
    obtain ⟨rfl, rfl, rfl⟩ := hturn
    split_ifs
    · exact ⟨h.1, h.2.1, .inl h.2.2.1⟩
    · exact h
  | clearProtection cr0 =>
    obtain ⟨⟨hlock, hoff, hintr⟩, hsaved, hcr0, rfl⟩ := h
    obtain ⟨rfl, rfl, rfl⟩ := hturn
    cases clears with
    | false => exact ⟨⟨hlock, hoff, hintr⟩, hsaved, .inl hcr0⟩
    | true => exact ⟨⟨hlock, hoff, hintr⟩, hsaved, .inr rfl⟩
  | checkCleared =>
    obtain ⟨hholder, hsaved, hcr0⟩ := h
    rw [KernelWriting.turn] at hturn
    split_ifs at hturn with hclear
    · obtain ⟨rfl, rfl, rfl⟩ := hturn
      exact ⟨hholder, hsaved, eq_cleared hcr0 hclear⟩
    · obtain ⟨rfl, rfl, rfl⟩ := hturn
      exact ⟨hholder, eq_of_not_cleared hcr0 hclear⟩
  | inside =>
    obtain ⟨rfl, rfl, rfl⟩ := hturn
    exact h
  | rereadCr0 =>
    obtain ⟨rfl, rfl, rfl⟩ := hturn
    exact ⟨h.1, h.2.1, h.2.2, rfl⟩
  | setProtection cr0 =>
    obtain ⟨⟨hlock, hoff, hintr⟩, hsaved, hcr0, rfl⟩ := h
    rw [KernelWriting.turn] at hturn
    -- the bit is set again if it was set
    split_ifs at hturn with hwas
    · obtain ⟨rfl, rfl, rfl⟩ := hturn
      have hclear : b.cr0 &&& CR0_WP = 0 := of_decide_eq_true (hsaved.symm.trans hwas)
      exact ⟨⟨hlock, hoff, hintr⟩, hcr0.trans (cleared_of_clear hclear)⟩
    · obtain ⟨rfl, rfl, rfl⟩ := hturn
      have hset : b.cr0 &&& CR0_WP ≠ 0 := fun hclear =>
        hwas (hsaved.trans (decide_eq_true hclear))
      exact ⟨⟨hlock, hoff, hintr⟩, (congrArg (· ||| CR0_WP) hcr0).trans (set_cleared hset)⟩
  | checkSet set =>
    obtain ⟨rfl, rfl, rfl⟩ := hturn
    exact h
  | restoreInterrupts ok =>
    obtain ⟨rfl, rfl, rfl⟩ := hturn
    exact ⟨h.1.lock, h.1.restored h.2⟩
  | unlock ok =>
    obtain ⟨rfl, rfl, rfl⟩ := hturn
    exact fun hlock => nomatch hlock

end Invariant

/-! ## All orders of steps -/

section Runs

variable {C : Type*} {s s' : System C}

/-- What holds of every processor. -/
def Invariant (s : System C) : Prop :=
  ∀ c, Fits s.shared c (s.began c) (s.registers c) (s.place c)

theorem invariant_start (registers : C → Registers) : Invariant { registers := registers } :=
  fun _ hlock => nomatch hlock

variable [DecidableEq C]

theorem Invariant.step (h : Invariant s) (hstep : Step s s') : Invariant s' := by
  intro u
  have hu := h u
  cases hstep with
  | @call c hplace =>
    by_cases huc : u = c
    · subst huc
      rw [hplace] at hu
      simp only [update_self]
      exact ⟨hu, rfl⟩
    · simpa only [update_of_ne huc] using hu
  | @turn c clears p r m hturn =>
    by_cases huc : u = c
    · subst huc
      simp only [update_self]
      exact hu.turn hturn
    · simp only [update_of_ne huc]
      obtain ⟨hsame, hout⟩ := (h c).frame hturn huc
      exact hu.congr hsame hout
  | @change c r hplace =>
    by_cases huc : u = c
    · subst huc
      rw [hplace] at hu
      simp only [update_self, hplace]
      exact hu
    · simpa only [update_of_ne huc] using hu

theorem Reachable.invariant (h : Reachable s) : Invariant s := by
  obtain ⟨registers, hsteps⟩ := h
  induction hsteps with
  | refl => exact invariant_start registers
  | tail _ hstep ih => exact ih.step hstep

/-- **A bracket**, on any processor and in any order of steps: inside of it interrupts are off and
the write protection is too, and the step that ends it leaves the lock free, and the registers as
they were when it began. The calls that cannot clear the bit end it like those with `false`. -/
theorem bracket_spec (h : Reachable s) (c : C) :
    (s.place c = .inside →
      (s.registers c).cr0 &&& CR0_WP = 0 ∧ (s.registers c).interruptFlag = false) ∧
    ∀ {clears r m}, turn c clears (s.registers c) s.shared (s.place c) = some (.outside, r, m) →
      r = s.began c ∧ m.lock = none := by
  have hc := h.invariant c
  constructor
  · intro hplace
    rw [hplace] at hc
    obtain ⟨hholder, -, hcr0⟩ := hc
    exact ⟨by rw [hcr0, cleared_and_wp], hholder.off⟩
  · intro clears r m hturn
    revert hc hturn
    cases s.place c with
    | unlock ok =>
      rintro ⟨-, hr⟩ ⟨rfl, rfl, rfl⟩
      exact ⟨hr, rfl⟩
    | lock | checkCleared | setProtection =>
      intro _ hturn
      rw [turn] at hturn
      split_ifs at hturn <;> cases hturn
    | checkSaved cr0 =>
      intro _ hturn
      rw [turn] at hturn
      split_ifs at hturn <;> cases hturn
    | outside | disableInterrupts | readCr0 | saveProtection | clearProtection | inside
    | rereadCr0 | checkSet | restoreInterrupts =>
      intro _ hturn
      cases hturn

/-- The first of two processors goes through a bracket, while the second waits for the lock. -/
theorem bracket_spec_first : ∃ s s' : System Bool,
    (Reachable s ∧ s.place true = .inside ∧ s.place false = .lock ∧
      (s.registers true).cr0 &&& CR0_WP = 0 ∧ (s.registers true).interruptFlag = false) ∧
    Reachable s' ∧ ∃ m, turn true true (s'.registers true) s'.shared (s'.place true) =
      some (.outside, ⟨true, CR0_WP⟩, m) ∧ m.lock = none := by
  have hwait : Relation.ReflTransGen Step { registers := fun _ => ⟨true, CR0_WP⟩ } _ :=
    (Relation.ReflTransGen.refl.tail (.call (c := false) rfl)).tail (.call (c := true) rfl)
  have hlock := hwait.tail (@Step.turn _ _ _ true true _ _ _ rfl)
  have hdisable := hlock.tail (@Step.turn _ _ _ true true _ _ _ rfl)
  have hread := hdisable.tail (@Step.turn _ _ _ true true _ _ _ rfl)
  have hsave := hread.tail (@Step.turn _ _ _ true true _ _ _ rfl)
  have hsaved := hsave.tail (@Step.turn _ _ _ true true _ _ _ rfl)
  have hclear := hsaved.tail (@Step.turn _ _ _ true true _ _ _ rfl)
  have hinside := hclear.tail (@Step.turn _ _ _ true true _ _ _ rfl)
  have hreread := hinside.tail (@Step.turn _ _ _ true true _ _ _ rfl)
  have hset := hreread.tail (@Step.turn _ _ _ true true _ _ _ rfl)
  have hcheck := hset.tail (@Step.turn _ _ _ true true _ _ _ rfl)
  have hrestore := hcheck.tail (@Step.turn _ _ _ true true _ _ _ rfl)
  have hunlock := hrestore.tail (@Step.turn _ _ _ true true _ _ _ rfl)
  have hend := @(bracket_spec ⟨_, hunlock⟩ true).2 true _ _ rfl
  exact ⟨_, _, ⟨⟨_, hinside⟩, rfl, rfl, (bracket_spec ⟨_, hinside⟩ true).1 rfl⟩,
    ⟨_, hunlock⟩, _, rfl, hend.2⟩

end Runs

end Lilu.KernelWriting
