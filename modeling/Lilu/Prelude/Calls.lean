import Mathlib.Tactic

/-!
# Sequences of calls

A component is called again and again. Each call returns something and leaves a state, unless its
behaviour is undefined. What the component is for is said by a specification whose calls are never
undefined, as long as each is one that may be made.

## Main definitions

* `runCalls`, `answers`: a sequence of calls to the component, and to its specification
* `MayCall`: each call may be made when it is
* `Simulates`: what one call does, if the states correspond

## Main results

* `Simulates.run`: then a sequence of calls returns what the specification says
-/

namespace Lilu

variable {σ τ ι ο : Type*}

/-- A sequence of calls: what they return, and the state that they leave. -/
def runCalls (step : σ → ι → Option (ο × σ)) : σ → List ι → Option (List ο × σ)
  | s, [] => some ([], s)
  | s, i :: is =>
    (step s i).bind fun r => (runCalls step r.2 is).map fun rs => (r.1 :: rs.1, rs.2)

/-- A sequence of calls to a specification. -/
def answers (spec : τ → ι → ο × τ) : τ → List ι → List ο × τ
  | t, [] => ([], t)
  | t, i :: is =>
    let r := spec t i
    let rs := answers spec r.2 is
    (r.1 :: rs.1, rs.2)

/-- Each call is one that may be made in the state it is made in. -/
def MayCall (spec : τ → ι → ο × τ) (may : τ → ι → Prop) : τ → List ι → Prop
  | _, [] => True
  | t, i :: is => may t i ∧ MayCall spec may (spec t i).2 is

/-- In states that correspond, a call that may be made returns what the specification says, and the
states correspond again. -/
def Simulates (step : σ → ι → Option (ο × σ)) (spec : τ → ι → ο × τ) (may : τ → ι → Prop)
    (R : σ → τ → Prop) : Prop :=
  ∀ ⦃s t i⦄, R s t → may t i → ∃ s', step s i = some ((spec t i).1, s') ∧ R s' (spec t i).2

variable {step : σ → ι → Option (ο × σ)} {spec : τ → ι → ο × τ} {may : τ → ι → Prop}
  {R : σ → τ → Prop}

@[simp] theorem mayCall_true (t : τ) (is : List ι) : MayCall spec (fun _ _ => True) t is := by
  induction is generalizing t with
  | nil => trivial
  | cons i is ih => exact ⟨trivial, ih _⟩

/-- **A run of the component** is one of the specification. -/
theorem Simulates.run (h : Simulates step spec may R) {s : σ} {t : τ} {is : List ι}
    (hs : R s t) (his : MayCall spec may t is) :
    ∃ s', runCalls step s is = some ((answers spec t is).1, s') ∧ R s' (answers spec t is).2 := by
  induction is generalizing s t with
  | nil => exact ⟨s, rfl, hs⟩
  | cons i is ih =>
    obtain ⟨hi, his⟩ := his
    obtain ⟨s₁, hstep, hs₁⟩ := h hs hi
    obtain ⟨s₂, hrun, hs₂⟩ := ih hs₁ his
    refine ⟨s₂, ?_, hs₂⟩
    rw [runCalls, hstep, Option.bind_some, hrun]
    rfl

end Lilu
