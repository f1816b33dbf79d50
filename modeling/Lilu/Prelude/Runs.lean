import Mathlib.Tactic

/-!
# Runs of a state machine

A state machine takes a step for every event; its run over a list of events is the fold of the
steps. Besides the last state, properties of the steps on the way and of the states on the way are
of interest, and when two properties of single steps agree, so do they along a run.

## Main definitions

* `Along`: every step of a run has a property
* `Throughout`: every state of a run has a property
* `SomeAt`: some entry of a list, after those before it, has a property

## Main results

* `along_congr`: properties that agree step by step agree along a run
* `throughout_iff_along`: when every state of a run has a property
-/

namespace Lilu

variable {σ ε : Type*} (step : σ → ε → σ)

/-- Every step of the run from `s` has the property, a relation of the event and the state it
meets. -/
def Along (P : σ → ε → Prop) : σ → List ε → Prop
  | _, [] => True
  | s, e :: es => P s e ∧ Along P (step s e) es

/-- Every state of the run from `s`, with the first and the last one, has the property. -/
def Throughout (p : σ → Prop) : σ → List ε → Prop
  | s, [] => p s
  | s, e :: es => p s ∧ Throughout p (step s e) es

variable {step} {Inv p : σ → Prop} {P Q : σ → ε → Prop}

/-- What every step preserves holds in the end. -/
theorem foldl_invariant (hstep : ∀ s e, Inv s → Inv (step s e)) (es : List ε) {s : σ}
    (hs : Inv s) : Inv (es.foldl step s) := by
  induction es generalizing s with
  | nil => exact hs
  | cons e es ih => exact ih (hstep s e hs)

/-- **Step by step**: where two properties of steps agree, under an invariant that the steps
preserve, they agree along every run. -/
theorem along_congr (hstep : ∀ s e, Inv s → Inv (step s e))
    (hiff : ∀ s e, Inv s → (P s e ↔ Q s e)) (es : List ε) {s : σ} (hs : Inv s) :
    Along step P s es ↔ Along step Q s es := by
  induction es generalizing s with
  | nil => exact Iff.rfl
  | cons e es ih => exact and_congr (hiff s e hs) (ih (hstep s e hs))

/-- A property that a step preserves exactly under a condition holds throughout a run exactly when
all steps meet the condition. The invariant is needed only as long as they do. -/
theorem throughout_iff_along (hstep : ∀ s e, Inv s → P s e → Inv (step s e))
    (hiff : ∀ s e, Inv s → p s → (p (step s e) ↔ P s e)) (es : List ε) {s : σ} (hs : Inv s)
    (hp : p s) : Throughout step p s es ↔ Along step P s es := by
  induction es generalizing s with
  | nil => exact iff_of_true hp trivial
  | cons e es ih =>
    constructor
    · rintro ⟨-, hes⟩
      have hnext : p (step s e) := by
        cases es with
        | nil => exact hes
        | cons e' es => exact hes.1
      have he := (hiff s e hs hp).mp hnext
      exact ⟨he, (ih (hstep s e hs he) hnext).mp hes⟩
    · rintro ⟨he, hes⟩
      have hnext := (hiff s e hs hp).mpr he
      exact ⟨hp, (ih (hstep s e hs he) hnext).mpr hes⟩

/-- What holds throughout a run holds in the end. -/
theorem Throughout.last {es : List ε} {s : σ} (h : Throughout step p s es) :
    p (es.foldl step s) := by
  induction es generalizing s with
  | nil => exact h
  | cons e es ih => exact ih h.2

/-- Some entry of the list has the property, a relation of the entries before it and the entry. -/
def SomeAt (R : List ε → ε → Prop) (es : List ε) : Prop :=
  ∃ before e after, es = before ++ e :: after ∧ R before e

@[simp] theorem not_someAt_nil {R : List ε → ε → Prop} : ¬ SomeAt R [] := by
  rintro ⟨before, e, after, heq, -⟩
  simp at heq

/-- With one more entry, an old one has the property or the new one does. -/
theorem someAt_concat {R : List ε → ε → Prop} {es : List ε} {e : ε} :
    SomeAt R (es ++ [e]) ↔ SomeAt R es ∨ R es e := by
  constructor
  · rintro ⟨before, x, after, heq, hR⟩
    rcases List.eq_nil_or_concat after with rfl | ⟨after, y, rfl⟩
    · obtain ⟨rfl, hx⟩ := List.append_inj' heq rfl
      obtain rfl : e = x := List.singleton_inj.mp hx
      exact Or.inr hR
    · refine Or.inl ⟨before, x, after, ?_, hR⟩
      rw [List.concat_eq_append, ← List.cons_append, ← List.append_assoc] at heq
      exact (List.append_inj' heq rfl).1
  · rintro (⟨before, x, after, rfl, hR⟩ | hR)
    · exact ⟨before, x, after ++ [e], by simp, hR⟩
    · exact ⟨es, e, [], rfl, hR⟩

end Lilu
