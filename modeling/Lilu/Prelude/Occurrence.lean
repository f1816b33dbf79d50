import Mathlib.Tactic

/-!
# Occurrences of one list in another

A search that reads the text once and forgets what it has matched looks for the needle only at the
places where it begins anew: at the start, and behind each symbol that did not match. An occurrence
that overlaps a partial match is passed over.

## Main definitions

* `FirstOccurrence needle stack`: the place of the first occurrence, or that there is none
* `Attempt needle stack`: the places where such a search begins anew
* `FirstAttempt needle stack`: what such a search returns

## Main results

* `prefix_or_differ`: two lists agree as far as the shorter one, or up to two different symbols
* `FirstAttempt.iff`: the search is right if and only if it begins anew at the first occurrence
* `attempt_of_replicate`: a needle of one symbol occurs first where the search begins anew
* `exists_passed_over`: for every other needle there is a text where it does not
-/

namespace Lilu

open List

variable {α : Type*}

/-- The place where the needle occurs first, or none if it does not occur. -/
def FirstOccurrence (needle stack : List α) : Option ℕ → Prop
  | some k => needle <+: stack.drop k ∧ ∀ k' < k, ¬ needle <+: stack.drop k'
  | none => ∀ k, ¬ needle <+: stack.drop k

/-- The places where a search without memory begins anew: the start, and behind the symbol of the
text that is not the needle's. -/
inductive Attempt (needle : List α) : List α → ℕ → Prop
  | start (stack : List α) : Attempt needle stack 0
  | next {c r s : List α} {a b : α} {k : ℕ} (hne : a ≠ b) (hneedle : needle = c ++ a :: r)
      (hrest : Attempt needle s k) : Attempt needle (c ++ b :: s) (c.length + 1 + k)

/-- The first attempt at which the needle occurs, or none. -/
def FirstAttempt (needle stack : List α) : Option ℕ → Prop
  | some k => Attempt needle stack k ∧ needle <+: stack.drop k ∧
      ∀ k' < k, Attempt needle stack k' → ¬ needle <+: stack.drop k'
  | none => ∀ k, Attempt needle stack k → ¬ needle <+: stack.drop k

/-- One list is a prefix of the other, or they differ behind a common prefix. -/
theorem prefix_or_differ (u v : List α) : u <+: v ∨ (v <+: u ∧ v.length < u.length) ∨
    ∃ c a b r s, a ≠ b ∧ u = c ++ a :: r ∧ v = c ++ b :: s := by
  induction u generalizing v with
  | nil => exact .inl nil_prefix
  | cons a u ih =>
    cases v with
    | nil => exact .inr (.inl ⟨ nil_prefix, by simp⟩)
    | cons b v =>
      by_cases hab : a = b
      · subst hab
        rcases ih v with h | ⟨h, hlt⟩ | ⟨c, x, y, r, s, hne, rfl, rfl⟩
        · exact .inl ((prefix_cons_inj a).mpr h)
        · exact .inr (.inl ⟨(prefix_cons_inj a).mpr h, by simpa using hlt⟩)
        · exact .inr (.inr ⟨a :: c, x, y, r, s, hne, rfl, rfl⟩)
      · exact .inr (.inr ⟨[], a, b, u, v, hab, rfl, rfl⟩)

section Differ

variable {c r r' s s' : List α} {a b a' b' : α}

/-- A list has no prefix that it differs from. -/
theorem not_prefix_of_differ (hne : a ≠ b) : ¬ c ++ a :: r <+: c ++ b :: s := by
  rw [prefix_append_right_inj, cons_prefix_cons]
  exact fun h => hne h.1

/-- Two lists differ for the first time at one place only. -/
theorem differ_unique {c' : List α} (hne : a ≠ b) (hne' : a' ≠ b')
    (hu : c ++ a :: r = c' ++ a' :: r') (hv : c ++ b :: s = c' ++ b' :: s') :
    c = c' ∧ s = s' := by
  induction c generalizing c' with
  | nil =>
    cases c' with
    | nil => exact ⟨rfl, (cons.inj hv).2⟩
    | cons x c' => exact absurd ((cons.inj hu).1.trans (cons.inj hv).1.symm) hne
  | cons x c ih =>
    cases c' with
    | nil => exact absurd ((cons.inj hu).1.symm.trans (cons.inj hv).1) hne'
    | cons x' c' =>
      obtain ⟨rfl, htail⟩ := cons.inj hu
      obtain ⟨rfl, hs⟩ := ih htail (cons.inj hv).2
      exact ⟨rfl, hs⟩

end Differ

variable {needle stack : List α} {k : ℕ}

/-- There is no occurrence in a text that is shorter than the needle. -/
theorem not_prefix_drop_of_lt (h : stack.length < needle.length) : ¬ needle <+: stack.drop k := by
  intro hk
  have := hk.length_le
  simp only [length_drop] at this
  omega

/-- The next attempt after one that fails is behind the symbol that did not match. -/
theorem attempt_iff_of_differ {c r s : List α} {a b : α} (hne : a ≠ b)
    (hneedle : needle = c ++ a :: r) : Attempt needle (c ++ b :: s) k ↔
      k = 0 ∨ ∃ j, k = c.length + 1 + j ∧ Attempt needle s j := by
  constructor
  · intro h
    generalize hstack : c ++ b :: s = stack at h
    cases h with
    | start => exact .inl rfl
    | next hne' hneedle' hrest =>
      obtain ⟨rfl, rfl⟩ := differ_unique hne hne' (hneedle.symm.trans hneedle') hstack
      exact .inr ⟨_, rfl, hrest⟩
  · rintro (rfl | ⟨j, rfl, hj⟩)
    · exact .start _
    · exact .next hne hneedle hj

/-- What comes behind the symbol that two lists differ at. -/
theorem drop_behind {c s : List α} {b : α} (i : ℕ) :
    (c ++ b :: s).drop (c.length + 1 + i) = s.drop i := by
  rw [drop_append, drop_of_length_le (by omega)]
  simp [Nat.add_assoc, Nat.add_comm 1]

/-- **Right or wrong**: the search finds the first occurrence if and only if it begins anew
there. -/
theorem FirstAttempt.iff {r : Option ℕ} (h : FirstAttempt needle stack r) :
    FirstOccurrence needle stack r ↔
      ∀ k, FirstOccurrence needle stack (some k) → Attempt needle stack k := by
  have hfirst : ∀ k, needle <+: stack.drop k →
      ∃ k₀ ≤ k, FirstOccurrence needle stack (some k₀) := by
    classical
    intro k hk
    have hex : ∃ k, needle <+: stack.drop k := ⟨k, hk⟩
    exact ⟨Nat.find hex, Nat.find_le hk, Nat.find_spec hex, fun k' hk' => Nat.find_min hex hk'⟩
  constructor
  · intro hr k hk
    cases r with
    | none => exact absurd hk.1 (hr k)
    | some k₀ =>
      -- there is only one first occurrence
      rcases Nat.lt_trichotomy k k₀ with hlt | rfl | hlt
      · exact absurd hk.1 (hr.2 k hlt)
      · exact h.1
      · exact absurd hr.1 (hk.2 k₀ hlt)
  · intro hall
    cases r with
    | none =>
      intro k hk
      obtain ⟨k₀, -, h₀⟩ := hfirst k hk
      exact h k₀ (hall k₀ h₀) h₀.1
    | some k =>
      refine ⟨h.2.1, fun k' hlt hk' => ?_⟩
      obtain ⟨k₀, hle, h₀⟩ := hfirst k' hk'
      exact h.2.2 k₀ (by omega) (hall k₀ h₀) h₀.1

/-- An attempt that fails hands the search on to the rest of the text. -/
theorem FirstAttempt.next {c r s : List α} {a b : α} (hne : a ≠ b) (hneedle : needle = c ++ a :: r)
    {found : Option ℕ} (h : FirstAttempt needle s found) :
    FirstAttempt needle (c ++ b :: s) (found.map (c.length + 1 + ·)) := by
  have hstart : ¬ needle <+: (c ++ b :: s).drop 0 := by
    rw [drop_zero, hneedle]
    exact not_prefix_of_differ hne
  have hat := fun k => attempt_iff_of_differ (s := s) (k := k) hne hneedle
  cases found with
  | none =>
    intro k hk
    rcases (hat k).mp hk with rfl | ⟨j, rfl, hj⟩
    · exact hstart
    · rw [drop_behind]
      exact h j hj
  | some k =>
    refine ⟨(hat _).mpr (.inr ⟨k, rfl, h.1⟩), (drop_behind k).symm ▸ h.2.1, fun i hi hatt => ?_⟩
    rcases (hat i).mp hatt with rfl | ⟨j, rfl, hj⟩
    · exact hstart
    · rw [drop_behind]
      exact h.2.2 j (Nat.lt_of_add_lt_add_left hi) hj

/-- An occurrence of a needle of one symbol lies behind any other symbol or before it. -/
theorem le_of_replicate {c s : List α} {a b : α} {n : ℕ} (hne : a ≠ b) (hn : c.length < n)
    (h : replicate n a <+: (c ++ b :: s).drop k) : c.length < k := by
  by_contra hk
  rw [drop_append_of_le_length (by omega)] at h
  obtain ⟨t, ht⟩ := h
  have hget := congrArg (fun l => l[c.length - k]?) ht
  simp only [getElem?_append_left (show c.length - k < (replicate n a).length by simp; omega),
    getElem?_append_right (show (c.drop k).length ≤ c.length - k by simp)] at hget
  rw [getElem?_replicate, if_pos (by omega)] at hget
  simp at hget
  exact hne hget

/-- **Needles of one symbol**: where one occurs first, a search without memory begins anew. -/
theorem attempt_of_replicate {n : ℕ} {a : α} (h : FirstOccurrence (replicate n a) stack (some k)) :
    Attempt (replicate n a) stack k := by
  -- the text gets shorter by each attempt that fails
  induction hlen : stack.length using Nat.strong_induction_on generalizing stack k with
  | _ len ih =>
    obtain ⟨hk, hfirst⟩ := h
    rcases prefix_or_differ (replicate n a) stack with h0 | ⟨-, hlt⟩ | ⟨c, x, y, r, s, hne, hn, rfl⟩
    · rcases Nat.eq_zero_or_pos k with rfl | hpos
      · exact .start _
      · exact absurd h0 (hfirst 0 hpos)
    · exact absurd hk (not_prefix_drop_of_lt hlt)
    · have hx : x = a := by
        have : x ∈ replicate n a := by rw [hn]; simp
        exact eq_of_mem_replicate this
      subst hx
      have hcn : c.length < n := by
        have := congrArg length hn
        simp at this
        omega
      obtain ⟨j, rfl⟩ := Nat.exists_eq_add_of_lt (le_of_replicate hne hcn hk)
      rw [Nat.add_right_comm] at hk hfirst ⊢
      refine .next hne hn (ih s.length (by rw [← hlen]; simp; omega) ⟨?_, fun i hi => ?_⟩ rfl)
      · rw [drop_behind] at hk
        exact hk
      · rw [← drop_behind]
        exact hfirst _ (by omega)

/-- A list that is a prefix of itself with one more symbol before it has no other symbol. -/
theorem eq_of_prefix_cons {a : α} {u : List α} (h : u <+: a :: u) : ∀ x ∈ u, x = a := by
  induction u with
  | nil => exact fun x hx => absurd hx not_mem_nil
  | cons b u ih =>
    obtain ⟨rfl, hu⟩ := cons_prefix_cons.mp h
    intro x hx
    rcases mem_cons.mp hx with rfl | hx
    · rfl
    · exact ih hu x hx

/-- **Other needles**: behind a second first symbol, the needle is passed over. -/
theorem exists_passed_over (h : ¬ ∀ x ∈ needle, ∀ y ∈ needle, x = y) : ∃ a ∈ needle,
    FirstOccurrence needle (a :: needle) (some 1) ∧ ¬ Attempt needle (a :: needle) 1 := by
  cases needle with
  | nil => exact absurd (fun x hx => absurd hx not_mem_nil) h
  | cons a u =>
    refine ⟨a, mem_cons_self, ?_⟩
    rcases prefix_or_differ (a :: u) (a :: a :: u) with h0 | ⟨-, hlt⟩ | ⟨c, x, y, r, s, hne, hu, hs⟩
    · have hall := eq_of_prefix_cons h0
      exact absurd (fun x hx y hy => (hall x hx).trans (hall y hy).symm) h
    · simp at hlt
    · constructor
      · refine ⟨prefix_rfl, fun k hk => ?_⟩
        obtain rfl : k = 0 := by omega
        rw [drop_zero, hs, hu]
        exact not_prefix_of_differ hne
      · -- the two begin alike, so the first attempt fails behind its first symbol
        rw [hs, attempt_iff_of_differ hne hu]
        rintro (h1 | ⟨j, hj, -⟩)
        · omega
        · have hc : c = [] := length_eq_zero_iff.mp (by omega)
          subst hc
          exact hne ((cons.inj hu).1.symm.trans (cons.inj hs).1)

end Lilu
