import Mathlib.Tactic

/-!
# Sliding windows and dictionary parses

A text is an infinite sequence `V` of symbols. A ring buffer of size `N` holds a window of it when
each cell carries the symbol of the window's position in that residue class. A token is a literal
or a copy from an earlier position, given by its residue; a list of tokens parses a segment of the
text when each literal is the next symbol and each copy repeats symbols that the window still holds.

## Main definitions

* `HoldsWindow ring N V lo hi`: the ring buffer holds the positions from `lo` up to `hi`
* `Token`, `Parses`: tokens, and the segment of the text a list of them stands for
* `segment V lo hi`: the symbols from `lo` up to `hi`

## Main results

* `HoldsWindow.push`: writing the next symbol moves the window on
* `Parses.append`: parses of adjacent segments join
-/

namespace Lilu

open Function

variable {β : Type*}

/-- The ring buffer holds the text from position `lo` up to `hi`, each position in its residue. -/
def HoldsWindow (ring : ℕ → β) (N : ℕ) (V : ℕ → β) (lo hi : ℕ) : Prop :=
  ∀ a, lo ≤ a → a < hi → ring (a % N) = V a

/-- Two positions less than `N` apart have different residues. -/
theorem mod_ne_of_close {N a b : ℕ} (hab : a < b) (hba : b < a + N) : a % N ≠ b % N := by
  intro h
  have hdvd : N ∣ b - a := (Nat.modEq_iff_dvd' hab.le).mp h
  have := Nat.le_of_dvd (by omega) hdvd
  omega

/-- **Writing the next symbol** over the oldest cell moves the window on by one. -/
theorem HoldsWindow.push {ring : ℕ → β} {N : ℕ} {V : ℕ → β} {lo lo' hi : ℕ}
    (h : HoldsWindow ring N V lo hi) (hlo : lo ≤ lo') (hN : hi < lo' + N) :
    HoldsWindow (update ring (hi % N) (V hi)) N V lo' (hi + 1) := by
  intro a ha ha'
  rcases Nat.lt_succ_iff_lt_or_eq.mp ha' with hlt | rfl
  · rw [update_of_ne (mod_ne_of_close hlt (by omega))]
    exact h a (hlo.trans ha) hlt
  · exact update_self ..

theorem HoldsWindow.mono {ring : ℕ → β} {N : ℕ} {V : ℕ → β} {lo lo' hi hi' : ℕ}
    (h : HoldsWindow ring N V lo hi) (hlo : lo ≤ lo') (hhi : hi' ≤ hi) :
    HoldsWindow ring N V lo' hi' :=
  fun a ha ha' => h a (hlo.trans ha) (ha'.trans_le hhi)

/-- A literal symbol, or a copy of `len` symbols from the ring position `pos` on. -/
inductive Token (β : Type*) where
  | lit (b : β)
  | copy (pos len : ℕ)

/-- The tokens stand for the text from `R` up to `R'`: copies reach back less than `reach`
positions, and may run into the symbols they produce. -/
inductive Parses (V : ℕ → β) (N reach : ℕ) : ℕ → List (Token β) → ℕ → Prop where
  | nil (R : ℕ) : Parses V N reach R [] R
  | lit {R R' : ℕ} {ts : List (Token β)} :
      Parses V N reach (R + 1) ts R' → Parses V N reach R (.lit (V R) :: ts) R'
  | copy {R R' P len : ℕ} {ts : List (Token β)} :
      P < R → R ≤ P + reach → (∀ k < len, V (P + k) = V (R + k)) →
      Parses V N reach (R + len) ts R' → Parses V N reach R (.copy (P % N) len :: ts) R'

namespace Parses

variable {V : ℕ → β} {N reach : ℕ}

theorem append {R R' R'' : ℕ} {ts us : List (Token β)} (h : Parses V N reach R ts R')
    (h' : Parses V N reach R' us R'') : Parses V N reach R (ts ++ us) R'' := by
  induction h with
  | nil => exact h'
  | lit _ ih => exact .lit (ih h')
  | copy hP hR hk _ ih => exact .copy hP hR hk (ih h')

theorem le {R R' : ℕ} {ts : List (Token β)} (h : Parses V N reach R ts R') : R ≤ R' := by
  induction h with
  | nil => exact le_rfl
  | lit _ ih => omega
  | copy _ _ _ _ ih => omega

end Parses

/-- The text from `lo` up to `hi`. -/
def segment (V : ℕ → β) (lo hi : ℕ) : List β :=
  (List.range' lo (hi - lo)).map V

@[simp] theorem segment_self (V : ℕ → β) (lo : ℕ) : segment V lo lo = [] := by simp [segment]

@[simp] theorem length_segment (V : ℕ → β) (lo hi : ℕ) : (segment V lo hi).length = hi - lo := by
  simp [segment]

theorem segment_succ (V : ℕ → β) {lo hi : ℕ} (h : lo ≤ hi) :
    segment V lo (hi + 1) = segment V lo hi ++ [V hi] := by
  have : hi + 1 - lo = hi - lo + 1 := by omega
  rw [segment, segment, this, List.range'_concat]
  simp [h]

theorem segment_of_le (V : ℕ → β) {lo hi : ℕ} (h : hi ≤ lo) : segment V lo hi = [] := by
  simp [segment, Nat.sub_eq_zero_of_le h]

theorem segment_cons (V : ℕ → β) {lo hi : ℕ} (h : lo < hi) :
    segment V lo hi = V lo :: segment V (lo + 1) hi := by
  have : hi - lo = hi - (lo + 1) + 1 := by omega
  rw [segment, segment, this, List.range'_succ, List.map_cons]

end Lilu
