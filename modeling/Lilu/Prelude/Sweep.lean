import Mathlib.Tactic

/-!
# Sweeps

A sweep visits places one after another and rewrites the state where it is told to. What it has
rewritten may count against a limit, and may decide what is found at the places that follow.

## Main definitions

* `seek hit next n a`: the first place that is hit, or the one after `n` steps
* `sweep more hit rewrite ps r`: the state, and the places where it was rewritten

## Main results

* `seek_spec`: where a search ends
* `sweep_append`: a sweep over two lists of places is two sweeps
* `sweep_of_no_hit`: where nothing is found, nothing changes
* `sweep_cases`: a sweep changes nothing, or there is a first place where it does
* `sweep_invariant`: what every rewrite keeps is kept
-/

namespace Lilu

/-! ## Searching -/

section Seek

variable {α : Type*}

/-- The first place from `a` on that is hit, or the place behind the last of `n`. -/
def seek (hit : α → Bool) (next : α → α) : ℕ → α → α
  | 0, a => a
  | n + 1, a => if hit a then a else seek hit next n (next a)

/-- **Where a search ends**: nothing is hit before, and the place is hit unless it is the last. -/
theorem seek_spec (hit : α → Bool) (next : α → α) (n : ℕ) (a : α) :
    ∃ j ≤ n, seek hit next n a = next^[j] a ∧ (∀ i < j, hit (next^[i] a) = false) ∧
      (j < n → hit (next^[j] a) = true) := by
  induction n generalizing a with
  | zero => exact ⟨0, le_rfl, rfl, fun i hi => absurd hi i.not_lt_zero, fun h => absurd h (lt_irrefl 0)⟩
  | succ n ih =>
    by_cases ha : hit a = true
    · exact ⟨0, Nat.zero_le _, if_pos ha, fun i hi => absurd hi i.not_lt_zero, fun _ => ha⟩
    · obtain ⟨j, hj, hseek, hbefore, hat⟩ := ih (next a)
      refine ⟨j + 1, by omega, ?_, fun i hi => ?_, fun h => hat (by omega)⟩
      · rw [seek, if_neg ha, hseek]
        rfl
      · cases i with
        | zero => exact Bool.eq_false_iff.mpr ha
        | succ i => exact hbefore i (by omega)

end Seek

/-! ## Sweeping -/

variable {σ ι : Type*} (more : ℕ → Bool) (hit : σ → ι → Bool) (rewrite : σ → ι → σ)

/-- A place is rewritten if it is hit and the rewrites before it leave one more. -/
def sweepStep (r : σ × List ι) (p : ι) : σ × List ι :=
  if more r.2.length && hit r.1 p then (rewrite r.1 p, r.2 ++ [p]) else r

/-- The places are visited in their order. -/
def sweep (ps : List ι) (r : σ × List ι) : σ × List ι :=
  ps.foldl (sweepStep more hit rewrite) r

variable {more hit rewrite} {ps qs : List ι} {p : ι} {r : σ × List ι}

@[simp] theorem sweep_nil : sweep more hit rewrite [] r = r :=
  rfl

theorem sweep_cons : sweep more hit rewrite (p :: ps) r =
    sweep more hit rewrite ps (sweepStep more hit rewrite r p) :=
  rfl

theorem sweep_append : sweep more hit rewrite (ps ++ qs) r =
    sweep more hit rewrite qs (sweep more hit rewrite ps r) :=
  List.foldl_append

theorem sweepStep_of_hit (hmore : more r.2.length = true) (hhit : hit r.1 p = true) :
    sweepStep more hit rewrite r p = (rewrite r.1 p, r.2 ++ [p]) := by
  rw [sweepStep, hmore, hhit]
  rfl

theorem sweepStep_of_not (h : ¬ (more r.2.length = true ∧ hit r.1 p = true)) :
    sweepStep more hit rewrite r p = r := by
  rw [sweepStep, ← Bool.and_eq_true] at *
  exact if_neg h

/-- **Where nothing is found**, or no rewrite is left, nothing changes. -/
theorem sweep_of_not (h : ∀ p ∈ ps, ¬ (more r.2.length = true ∧ hit r.1 p = true)) :
    sweep more hit rewrite ps r = r := by
  induction ps with
  | nil => rfl
  | cons p ps ih =>
    rw [sweep_cons, sweepStep_of_not (h p List.mem_cons_self)]
    exact ih fun q hq => h q (List.mem_cons_of_mem p hq)

/-- **Nothing, or a first place**: a sweep leaves the state as it is, or rewrites a place before
which nothing was found. -/
theorem sweep_cases (more : ℕ → Bool) (hit : σ → ι → Bool) (rewrite : σ → ι → σ) (ps : List ι)
    (r : σ × List ι) : sweep more hit rewrite ps r = r ∨
    ∃ qs p qs', ps = qs ++ p :: qs' ∧ hit r.1 p = true ∧
      sweep more hit rewrite ps r = sweep more hit rewrite qs' (rewrite r.1 p, r.2 ++ [p]) := by
  induction ps with
  | nil => exact .inl rfl
  | cons p ps ih =>
    by_cases h : more r.2.length = true ∧ hit r.1 p = true
    · exact .inr ⟨[], p, ps, rfl, h.2, by rw [sweep_cons, sweepStep_of_hit h.1 h.2]⟩
    · rw [sweep_cons, sweepStep_of_not h]
      refine ih.imp_right ?_
      rintro ⟨qs, q, qs', rfl, hq, hsweep⟩
      exact ⟨p :: qs, q, qs', rfl, hq, hsweep⟩

/-- **An invariant**: what a rewrite at any of the places keeps, the sweep does. -/
theorem sweep_invariant (Inv : σ → Prop)
    (hinv : ∀ s, ∀ p ∈ ps, Inv s → hit s p = true → Inv (rewrite s p)) (h : Inv r.1) :
    Inv (sweep more hit rewrite ps r).1 := by
  induction ps generalizing r with
  | nil => exact h
  | cons p ps ih =>
    rw [sweep_cons]
    apply ih fun s q hq => hinv s q (List.mem_cons_of_mem p hq)
    by_cases hp : more r.2.length = true ∧ hit r.1 p = true
    · rw [sweepStep_of_hit hp.1 hp.2]
      exact hinv r.1 p List.mem_cons_self h hp.2
    · rw [sweepStep_of_not hp]
      exact h

/-- The places that were rewritten are added to those before. -/
theorem prefix_sweep : r.2 <+: (sweep more hit rewrite ps r).2 := by
  induction ps generalizing r with
  | nil => exact List.prefix_rfl
  | cons p ps ih =>
    rw [sweep_cons]
    refine List.IsPrefix.trans ?_ ih
    by_cases hp : more r.2.length = true ∧ hit r.1 p = true
    · rw [sweepStep_of_hit hp.1 hp.2]
      exact List.prefix_append _ _
    · rw [sweepStep_of_not hp]

end Lilu
