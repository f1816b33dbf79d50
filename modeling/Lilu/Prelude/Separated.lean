import Mathlib.Tactic

/-!
# Lists with terminators

A list of symbols is read as a list of entries, each of which ends at a terminator or at the end of
the list. Where the last entry is not terminated, what is put behind the list becomes a part of it.

## Main definitions

* `entries z l`: the entries of a list
* `Terminated z l`: every entry is terminated
* `Listed z w l`: a terminated entry

## Main results

* `Terminated.entries_append`: the entries of a list behind a terminated one
* `exists_terminated`: every list is a terminated one and an entry that is not
* `terminated_iff`: which lists are terminated
* `Terminated.listed_iff`: the entries of a terminated list are all terminated
* `entriesSize_entries`: how long a list is, given its entries
-/

namespace Lilu

open List

variable {α : Type*} (z : α)

/-- Every entry of the list is terminated. -/
inductive Terminated : List α → Prop
  | nil : Terminated []
  | cons {s l : List α} (hs : z ∉ s) (hl : Terminated l) : Terminated (s ++ z :: l)

/-- An entry with its terminator. -/
def Listed (w l : List α) : Prop :=
  ∃ before behind, Terminated z before ∧ l = before ++ (w ++ z :: behind)

/-- How many symbols some terminated entries have, with their terminators. -/
def entriesSize (ss : List (List α)) : ℕ :=
  (ss.map fun s => s.length + 1).sum

variable {z} {s t w l l' : List α}

theorem Terminated.append (h : Terminated z l) (h' : Terminated z l') : Terminated z (l ++ l') := by
  induction h with
  | nil => exact h'
  | cons hs _ ih =>
    rw [append_assoc, cons_append]
    exact .cons hs ih

variable (z) [DecidableEq α]

/-- The entries of a list; one that is not terminated is the last, unless it is empty. -/
def entries : List α → List (List α)
  | [] => []
  | a :: l =>
    if a = z then [] :: entries l
    else
      match entries l with
      | [] => [[a]]
      | s :: ss => (a :: s) :: ss

variable {z}

theorem entries_append_cons (hs : z ∉ s) : entries z (s ++ z :: l) = s :: entries z l := by
  induction s with
  | nil => exact if_pos rfl
  | cons a s ih =>
    obtain ⟨ha, hs⟩ := not_or.mp (mem_cons.not.mp hs)
    rw [cons_append, entries, if_neg (Ne.symm ha), ih hs]

/-- **Behind a terminated list** the entries begin anew. -/
theorem Terminated.entries_append (h : Terminated z l) :
    entries z (l ++ l') = entries z l ++ entries z l' := by
  induction h with
  | nil => rfl
  | cons hs _ ih => rw [append_assoc, cons_append, entries_append_cons hs, ih,
      entries_append_cons hs, cons_append]

/-- **Every list** is a terminated one, and what is not terminated behind it. -/
theorem exists_terminated (l : List α) :
    ∃ body t, l = body ++ t ∧ Terminated z body ∧ z ∉ t := by
  induction l with
  | nil => exact ⟨[], [], rfl, .nil, not_mem_nil⟩
  | cons a l ih =>
    obtain ⟨body, t, rfl, hbody, ht⟩ := ih
    by_cases ha : a = z
    · subst ha
      exact ⟨a :: body, t, rfl, Terminated.cons (s := []) not_mem_nil hbody, ht⟩
    · -- the symbol belongs to the first entry
      cases hbody with
      | nil =>
        refine ⟨[], a :: t, rfl, .nil, ?_⟩
        rw [mem_cons, not_or]
        exact ⟨Ne.symm ha, ht⟩
      | @cons s l hs hl =>
        refine ⟨(a :: s) ++ z :: l, t, rfl, .cons ?_ hl, ht⟩
        rw [mem_cons, not_or]
        exact ⟨Ne.symm ha, hs⟩

/-- A list is terminated if and only if its last symbol is the terminator, if it has any. -/
theorem terminated_iff : Terminated z l ↔ l = [] ∨ l.getLast? = some z := by
  constructor
  · intro h
    induction h with
    | nil => exact .inl rfl
    | @cons s l hs hl ih =>
      refine .inr ?_
      rcases ih with rfl | hlast
      · exact getLast?_concat
      · rw [getLast?_append, getLast?_cons, hlast]
        rfl
  · intro h
    obtain ⟨body, t, rfl, hbody, ht⟩ := exists_terminated (z := z) l
    rcases h with hnil | hlast
    · rw [hnil]
      exact .nil
    · -- the last symbol is not in an entry without a terminator
      rcases eq_nil_or_concat' t with rfl | ⟨t, a, rfl⟩
      · rwa [append_nil]
      · rw [← append_assoc, getLast?_concat] at hlast
        obtain rfl := Option.some.inj hlast
        exact absurd (mem_append_right t (mem_singleton_self a)) ht

theorem Listed.mem_entries (hw : z ∉ w) (h : Listed z w l) : w ∈ entries z l := by
  obtain ⟨before, behind, hbefore, rfl⟩ := h
  rw [hbefore.entries_append, entries_append_cons hw]
  exact mem_append_right _ mem_cons_self

/-- **The entries of a terminated list** are all terminated. -/
theorem Terminated.listed_iff (h : Terminated z l) (hw : z ∉ w) : Listed z w l ↔ w ∈ entries z l := by
  refine ⟨Listed.mem_entries hw, fun hmem => ?_⟩
  induction h with
  | nil => exact absurd hmem not_mem_nil
  | @cons s l hs hl ih =>
    rw [entries_append_cons hs, mem_cons] at hmem
    rcases hmem with rfl | hmem
    · exact ⟨[], l, .nil, rfl⟩
    · obtain ⟨before, behind, hbefore, rfl⟩ := ih hmem
      exact ⟨s ++ z :: before, behind, .cons hs hbefore, by simp⟩

/-! ## How long a list is -/

/-- A list has the symbols of its entries, and a terminator for each but maybe the last. -/
theorem entriesSize_entries (l : List α) :
    l.length ≤ entriesSize (entries z l) ∧ entriesSize (entries z l) ≤ l.length + 1 := by
  induction l with
  | nil => exact ⟨le_rfl, Nat.zero_le _⟩
  | cons a l ih =>
    obtain ⟨hle, hge⟩ := ih
    rw [entries]
    split_ifs
    · simp only [entriesSize, map_cons, sum_cons, length_nil, length_cons] at hle hge ⊢
      omega
    · cases hl : entries z l with
      | nil =>
        rw [hl] at hle
        simp only [entriesSize, map_cons, map_nil, sum_cons, sum_nil, length_cons, length_nil] at hle ⊢
        omega
      | cons s ss =>
        rw [hl] at hle hge
        simp only [entriesSize, map_cons, sum_cons, length_cons] at hle hge ⊢
        omega

theorem length_entries_le (l : List α) : (entries z l).length ≤ l.length := by
  induction l with
  | nil => exact le_rfl
  | cons a l ih =>
    rw [entries]
    split_ifs
    · exact Nat.succ_le_succ ih
    · cases hl : entries z l with
      | nil => exact Nat.succ_le_succ (Nat.zero_le _)
      | cons s ss =>
        rw [hl] at ih
        exact ih.trans (Nat.le_succ _)

/-- A list that is too short does not have one entry more. -/
theorem length_of_entries_concat (h : entries z l' = entries z l ++ [w]) :
    l.length + w.length ≤ l'.length := by
  have hle := (entriesSize_entries (z := z) l).1
  have hge := (entriesSize_entries (z := z) l').2
  have hsum : entriesSize (entries z l') = entriesSize (entries z l) + (w.length + 1) := by
    rw [h]
    simp [entriesSize]
  omega

end Lilu
