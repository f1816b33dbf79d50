import Lilu.Prelude.Sweep

/-!
# Hits from left to right

From left to right, a hit is taken, and the hits next to it are passed over; how many offsets are
passed over may depend on whether the hit is one of the first, which are skipped. With one size for
all, these are the leftmost hits that do not overlap.

## Main definitions

* `taken hit f r n o w k`: the hits that are taken from an offset on, after some that are skipped
* `LeftmostApart hit N n l`: the leftmost hits that do not overlap

## Main results

* `taken_eq_nil`, `taken_skip`, `taken_take`: nothing is hit, or the first hit is skipped or taken
* `taken_eq_drop`: skipped hits are those at the front
* `taken_nil_iff`: when no hit is taken
* `leftmostApart_taken`: with one size, the hits are the leftmost that do not overlap
-/

namespace Lilu

variable (hit : ℕ → Bool) (f r : ℕ)

/-- The hits that are taken among the `n` offsets from `o` on: the next `w` offsets are passed over,
and the first `k` hits are skipped. A hit of size `f` is skipped, and one of size `r` is taken. -/
def taken : (n o w k : ℕ) → List ℕ
  | 0, _, _, _ => []
  | n + 1, o, w + 1, k => taken n (o + 1) w k
  | n + 1, o, 0, 0 => if hit o then o :: taken n (o + 1) (r - 1) 0 else taken n (o + 1) 0 0
  | n + 1, o, 0, k + 1 => if hit o then taken n (o + 1) (f - 1) k else taken n (o + 1) 0 (k + 1)

variable {hit f r} {n o w k : ℕ}

theorem taken_zero : taken hit f r 0 o w k = [] := by
  unfold taken
  rfl

/-- Passing over offsets is beginning behind them. -/
theorem taken_wait : taken hit f r n o w k = taken hit f r (n - w) (o + w) 0 k := by
  induction w generalizing n o with
  | zero => rfl
  | succ w ih =>
    cases n with
    | zero => rw [taken_zero, Nat.zero_sub, taken_zero]
    | succ n => rw [taken, ih, Nat.add_sub_add_right, Nat.add_right_comm, ← Nat.add_assoc]

/-- An offset that is not hit is passed over. -/
theorem taken_of_not_hit (h : hit o = false) :
    taken hit f r (n + 1) o 0 k = taken hit f r n (o + 1) 0 k := by
  cases k with
  | zero => rw [taken, h, if_neg Bool.false_ne_true]
  | succ k => rw [taken, h, if_neg Bool.false_ne_true]

theorem taken_of_no_hit {j : ℕ} (hj : j ≤ n) (h : ∀ i < j, hit (o + i) = false) :
    taken hit f r n o 0 k = taken hit f r (n - j) (o + j) 0 k := by
  induction j with
  | zero => rfl
  | succ j ih =>
    rw [ih (by omega) fun i hi => h i (by omega), show n - j = n - (j + 1) + 1 by omega,
      taken_of_not_hit (h j (by omega)), Nat.add_assoc]

/-- **No hit**: nothing is taken. -/
theorem taken_eq_nil (h : ∀ i < n, hit (o + i) = false) : taken hit f r n o 0 k = [] := by
  rw [taken_of_no_hit le_rfl h, Nat.sub_self, taken_zero]

/-- **A hit that is skipped.** -/
theorem taken_skip {j : ℕ} (hf : 0 < f) (hj : j < n) (h : ∀ i < j, hit (o + i) = false)
    (hat : hit (o + j) = true) :
    taken hit f r n o 0 (k + 1) = taken hit f r (n - (j + f)) (o + j + f) 0 k := by
  rw [taken_of_no_hit hj.le h, show n - j = n - (j + 1) + 1 by omega, taken, hat, if_pos rfl,
    taken_wait]
  congr 1 <;> omega

/-- **A hit that is taken.** -/
theorem taken_take {j : ℕ} (hr : 0 < r) (hj : j < n) (h : ∀ i < j, hit (o + i) = false)
    (hat : hit (o + j) = true) :
    taken hit f r n o 0 0 = (o + j) :: taken hit f r (n - (j + r)) (o + j + r) 0 0 := by
  rw [taken_of_no_hit hj.le h, show n - j = n - (j + 1) + 1 by omega, taken, hat, if_pos rfl,
    taken_wait]
  congr 2 <;> omega

/-- A hit that is taken is the first of those that are, whatever its size. -/
theorem taken_head {j : ℕ} (hj : j < n) (h : ∀ i < j, hit (o + i) = false)
    (hat : hit (o + j) = true) : ∃ l, taken hit f r n o 0 0 = (o + j) :: l := by
  rw [taken_of_no_hit hj.le h, show n - j = n - (j + 1) + 1 by omega, taken, hat, if_pos rfl]
  exact ⟨_, rfl⟩

/-- The hits that are taken are among the offsets. -/
theorem lt_of_mem_taken {p : ℕ} (h : p ∈ taken hit f r n o w k) : p < o + n := by
  induction n generalizing o w k with
  | zero =>
    rw [taken_zero] at h
    exact absurd h List.not_mem_nil
  | succ n ih =>
    have hmove : ∀ {w k : ℕ}, p ∈ taken hit f r n (o + 1) w k → p < o + (n + 1) := fun hp => by
      have := ih hp
      omega
    cases w with
    | succ w => exact hmove h
    | zero =>
      cases k with
      | zero =>
        rw [taken] at h
        split_ifs at h
        · rcases List.mem_cons.mp h with rfl | h
          · omega
          · exact hmove h
        · exact hmove h
      | succ k =>
        rw [taken] at h
        split_ifs at h
        · exact hmove h
        · exact hmove h

/-- Only the hits among the offsets matter. -/
theorem taken_congr {hit' : ℕ → Bool} (h : ∀ i < n, hit (o + i) = hit' (o + i)) :
    taken hit f r n o w k = taken hit' f r n o w k := by
  induction n generalizing o w k with
  | zero => rw [taken_zero, taken_zero]
  | succ n ih =>
    have hrest : ∀ i < n, hit (o + 1 + i) = hit' (o + 1 + i) := fun i hi => by
      rw [Nat.add_assoc, Nat.add_comm 1]
      exact h (i + 1) (by omega)
    have hhere : hit o = hit' o := h 0 (Nat.succ_pos n)
    cases w with
    | succ w => rw [taken, taken, ih hrest]
    | zero =>
      cases k with
      | zero => rw [taken, taken, ih hrest, ih hrest, hhere]
      | succ k => rw [taken, taken, ih hrest, ih hrest, hhere]

/-! ## Hits of one size -/

/-- The leftmost hits of size `N` that do not overlap: each other hit overlaps one of them that
begins before it. -/
structure LeftmostApart (hit : ℕ → Bool) (N n : ℕ) (l : List ℕ) : Prop where
  apart : l.Pairwise fun o o' => o + N ≤ o'
  hits : ∀ o ∈ l, o < n ∧ hit o = true
  leftmost : ∀ o < n, hit o = true → ∃ o' ∈ l, o' ≤ o ∧ o < o' + N

/-- Skipped hits are those at the front. -/
theorem taken_eq_drop : taken hit r r n o w k = (taken hit r r n o w 0).drop k := by
  induction n generalizing o w k with
  | zero => rw [taken_zero, taken_zero, List.drop_nil]
  | succ n ih =>
    cases w with
    | succ w =>
      rw [taken, taken]
      exact ih
    | zero =>
      cases k with
      | zero => rfl
      | succ k =>
        rw [taken, taken]
        split_ifs with hhit
        · rw [List.drop_succ_cons]
          exact ih
        · exact ih

/-- Whether there is a hit that is taken does not depend on the size of those that are. -/
theorem taken_nil_iff : taken hit f r n o w k = [] ↔ (taken hit f f n o w 0).length ≤ k := by
  rw [← List.drop_eq_nil_iff, ← taken_eq_drop]
  induction n generalizing o w k with
  | zero => rw [taken_zero, taken_zero]
  | succ n ih =>
    cases w with
    | succ w => exact ih
    | zero =>
      cases k with
      | zero =>
        rw [taken, taken]
        split_ifs
        · simp
        · exact ih
      | succ k =>
        rw [taken, taken]
        split_ifs
        · exact ih
        · exact ih

/-- What is known of the hits that are taken from an offset on. -/
theorem taken_spec (hr : 0 < r) :
    (taken hit r r n o w 0).Pairwise (fun p q => p + r ≤ q) ∧
      (∀ p ∈ taken hit r r n o w 0, o + w ≤ p ∧ p < o + n ∧ hit p = true) ∧
      ∀ p, o + w ≤ p → p < o + n → hit p = true →
        ∃ q ∈ taken hit r r n o w 0, q ≤ p ∧ p < q + r := by
  induction n generalizing o w with
  | zero =>
    rw [taken_zero]
    exact ⟨.nil, fun p hp => absurd hp List.not_mem_nil, fun p hp hlt => by omega⟩
  | succ n ih =>
    have hmove : ∀ {w : ℕ} {p : ℕ}, o + 1 + w ≤ p ∧ p < o + 1 + n ∧ hit p = true →
        o ≤ p ∧ p < o + (n + 1) ∧ hit p = true := fun h => ⟨by omega, by omega, h.2.2⟩
    cases w with
    | succ w =>
      rw [taken]
      obtain ⟨hapart, hhits, hleft⟩ := @ih (o + 1) w
      refine ⟨hapart, fun p hp => ?_, fun p hle hlt => hleft p (by omega) (by omega)⟩
      obtain ⟨h₁, h₂, h₃⟩ := hhits p hp
      exact ⟨by omega, by omega, h₃⟩
    | zero =>
      rw [taken]
      by_cases hhit : hit o = true
      · rw [if_pos hhit]
        obtain ⟨hapart, hhits, hleft⟩ := @ih (o + 1) (r - 1)
        refine ⟨List.pairwise_cons.mpr ⟨fun q hq => ?_, hapart⟩, fun p hp => ?_, fun p hle hlt hp => ?_⟩
        · have := (hhits q hq).1
          omega
        · rcases List.mem_cons.mp hp with rfl | hp
          · exact ⟨le_rfl, by omega, hhit⟩
          · exact hmove (hhits p hp)
        · -- a hit overlaps the one at `o`, or is behind it
          by_cases hnear : p < o + r
          · exact ⟨o, List.mem_cons_self, hle, hnear⟩
          · obtain ⟨q, hq, hqp⟩ := hleft p (by omega) (by omega) hp
            exact ⟨q, List.mem_cons_of_mem o hq, hqp⟩
      · rw [if_neg hhit]
        obtain ⟨hapart, hhits, hleft⟩ := @ih (o + 1) 0
        refine ⟨hapart, fun p hp => hmove (hhits p hp), fun p hle hlt hp => ?_⟩
        have hne : p ≠ o := fun h => hhit (h ▸ hp)
        exact hleft p (by omega) (by omega) hp

/-- **With one size**, the hits that are taken are the leftmost that do not overlap. -/
theorem leftmostApart_taken (hr : 0 < r) : LeftmostApart hit r n (taken hit r r n 0 0 0) := by
  obtain ⟨hapart, hhits, hleft⟩ := @taken_spec hit r n 0 0 hr
  refine ⟨hapart, fun o ho => ?_, fun o ho => hleft o (Nat.zero_le _) (by omega)⟩
  obtain ⟨-, hlt, hhit⟩ := hhits o ho
  exact ⟨by omega, hhit⟩

end Lilu
