import Mathlib.Tactic

/-!
# Registers that are fed symbol by symbol

A check register takes one symbol after the other. If no step loses information, neither about the
register nor about the symbol, then sequences that differ in a single symbol leave different values.
The steps may do so on some of the values only, as long as they stay among them.

## Main definitions

* `Lossless`: the steps on a set of values

## Main results

* `Lossless.foldl_ne`: a symbol that is altered is noticed
-/

namespace Lilu

variable {σ ι : Type*}

/-- On the values of a set, no step loses information, and none leaves the set. -/
structure Lossless (step : σ → ι → σ) (S : Set σ) : Prop where
  mapsTo : ∀ x, Set.MapsTo (step · x) S S
  injOn : ∀ x, Set.InjOn (step · x) S
  injective : ∀ s ∈ S, Function.Injective (step s)

namespace Lossless

variable {step : σ → ι → σ} {S : Set σ}

theorem foldl_mem (h : Lossless step S) (l : List ι) {s : σ} (hs : s ∈ S) : l.foldl step s ∈ S := by
  induction l generalizing s with
  | nil => exact hs
  | cons x l ih => exact ih (h.mapsTo x hs)

theorem foldl_injOn (h : Lossless step S) (l : List ι) : Set.InjOn (l.foldl step) S := by
  induction l with
  | nil => exact Set.injOn_id S
  | cons x l ih =>
    intro s hs s' hs' heq
    exact h.injOn x hs hs' (ih (h.mapsTo x hs) (h.mapsTo x hs') heq)

/-- **A symbol that is altered** leaves another value, whatever comes before and after it. -/
theorem foldl_ne (h : Lossless step S) {s : σ} (hs : s ∈ S) (l r : List ι) {x y : ι} (hxy : x ≠ y) :
    (l ++ x :: r).foldl step s ≠ (l ++ y :: r).foldl step s := by
  rw [List.foldl_append, List.foldl_append, List.foldl_cons, List.foldl_cons]
  have hmem := h.foldl_mem l hs
  intro heq
  apply hxy
  apply h.injective _ hmem
  exact h.foldl_injOn r (h.mapsTo x hmem) (h.mapsTo y hmem) heq

end Lossless

end Lilu
