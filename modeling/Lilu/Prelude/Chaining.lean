import Mathlib.Tactic

/-!
# Chaining blocks

A long text is digested block by block: each block changes a state, by a function that takes the
state and the block. If two texts end in the same state, then they are the same, or the function
gave the same value for two different arguments on the way.

## Main definitions

* `chained f n s l k`: the state after the first `k` blocks of `n` elements
* `given f n s l k`: what the function is given for the next block
* `Collide`: two texts for which the function is given different arguments with one value

## Main results

* `chained_snoc`: the last block comes last
* `chained_append`: later blocks do not matter
* `chained_eq_cases`: equal states come from equal texts, or there is a collision
-/

namespace Lilu

variable {σ β : Type*} (f : σ → List β → σ) (n : ℕ) (s : σ)

/-- The state after the first `k` blocks of a text. -/
def chained (l : List β) : ℕ → σ
  | 0 => s
  | k + 1 => f (chained l k) ((l.drop (n * k)).take n)

/-- The state and the block that the function is given for the next step. -/
def given (l : List β) (k : ℕ) : σ × List β :=
  (chained f n s l k, (l.drop (n * k)).take n)

/-- Two texts for which the function is given different arguments with one value. -/
def Collide (l l' : List β) : Prop :=
  ∃ k k', n * (k + 1) ≤ l.length ∧ n * (k' + 1) ≤ l'.length ∧
    given f n s l k ≠ given f n s l' k' ∧ chained f n s l (k + 1) = chained f n s l' (k' + 1)

variable {f n s} {l l' a b : List β} {k : ℕ}

/-- **Later blocks do not matter.** -/
theorem chained_append (hk : n * k ≤ a.length) : chained f n s (a ++ b) k = chained f n s a k := by
  induction k with
  | zero => rfl
  | succ k ih =>
    rw [Nat.mul_succ] at hk
    rw [chained, chained, ih (by omega), List.drop_append_of_le_length (by omega),
      List.take_append_of_le_length (by rw [List.length_drop]; omega)]

/-- **The last block comes last.** -/
theorem chained_snoc (ha : a.length = n * k) (hb : b.length = n) (rest : List β) :
    chained f n s (a ++ (b ++ rest)) (k + 1) = f (chained f n s a k) b := by
  rw [chained, chained_append ha.ge, List.drop_left' ha, List.take_left' hb]

/-- **Equal states come from equal texts**, or the function collides. -/
theorem chained_eq_cases (hl : n * k ≤ l.length) (hl' : n * k ≤ l'.length)
    (h : chained f n s l k = chained f n s l' k) :
    l.take (n * k) = l'.take (n * k) ∨ Collide f n s l l' := by
  induction k with
  | zero => exact .inl (by simp)
  | succ k ih =>
    by_cases hgiven : given f n s l k = given f n s l' k
    · obtain ⟨hstate, hblock⟩ := Prod.mk.inj hgiven
      rw [Nat.mul_succ] at hl hl' ⊢
      rcases ih (by omega) (by omega) hstate with htake | hcollide
      · left
        rw [List.take_add, List.take_add, htake, hblock]
      · exact .inr hcollide
    · exact .inr ⟨k, k, hl, hl', hgiven, h⟩

/-- Texts whose last blocks differ collide when they end in the same state. -/
theorem collide_of_last {k' : ℕ} (hl : n * (k + 1) ≤ l.length) (hl' : n * (k' + 1) ≤ l'.length)
    (hlast : (l.drop (n * k)).take n ≠ (l'.drop (n * k')).take n)
    (h : chained f n s l (k + 1) = chained f n s l' (k' + 1)) : Collide f n s l l' :=
  ⟨k, k', hl, hl', fun heq => hlast (congrArg Prod.snd heq), h⟩

end Lilu
