import Mathlib.Tactic

/-!
# Numbering the elements of a list

A counter is given to one element after the other and goes up each time. If no element comes twice,
the number of an element is its place in the list; a list that is made up of blocks numbers the
elements of a block behind those of all blocks before it.

## Main definitions

* `giveNumber succ`: the next element gets the counter
* `numbered succ l f n`: the elements of a list get their numbers, from `n` on

## Main results

* `foldl_giveNumber`: what numbering one element after the other comes to
* `bijOn_idxOf`: the elements of a list and its places
* `idxOf_append_lt_iff`, `idxOf_flatten`: the places in a list that is made up of blocks
-/

namespace Lilu

open List

variable {α N : Type*} [DecidableEq α] (succ : N → N)

/-- The next element gets the counter, which goes up. -/
def giveNumber (s : (α → N) × N) (a : α) : (α → N) × N :=
  (Function.update s.1 a s.2, succ s.2)

/-- The numbers of the elements of a list, from `n` on; the others keep theirs. -/
def numbered (l : List α) (f : α → N) (n : N) : α → N :=
  fun a => if a ∈ l then succ^[l.idxOf a] n else f a

variable {succ} {l l' : List α} {f : α → N} {n : N} {a : α}

/-- **Numbering** one element after the other gives each its place in the list. -/
theorem foldl_giveNumber (h : l.Nodup) :
    l.foldl (giveNumber succ) (f, n) = (numbered succ l f n, succ^[l.length] n) := by
  induction l generalizing f n with
  | nil => rfl
  | cons b l ih =>
    obtain ⟨hb, hl⟩ := nodup_cons.mp h
    rw [foldl_cons, giveNumber, ih hl, length_cons, Function.iterate_succ_apply]
    refine Prod.ext (funext fun a => ?_) rfl
    simp only [numbered, mem_cons]
    by_cases hab : a = b
    · subst hab
      rw [if_neg hb, if_pos (.inl rfl), Function.update_self, idxOf_cons_self]
      rfl
    · -- behind the first element the places are one further
      simp only [hab, false_or, Function.update_of_ne hab, idxOf_cons_ne l (Ne.symm hab)]
      rfl

/-- The elements of a list and its places. -/
theorem bijOn_idxOf (h : l.Nodup) : Set.BijOn (fun a => l.idxOf a) {a | a ∈ l} (Set.Iio l.length) := by
  refine ⟨fun a ha => idxOf_lt_length_of_mem ha, fun a ha b _ hab => (idxOf_inj ha).mp hab, ?_⟩
  intro i hi
  exact ⟨l[i], getElem_mem hi, h.idxOf_getElem i hi⟩

/-- The places before the second block are those of the first. -/
theorem idxOf_append_lt_iff : (l ++ l').idxOf a < l.length ↔ a ∈ l := by
  by_cases ha : a ∈ l
  · rw [idxOf_append_of_mem ha]
    exact iff_of_true (idxOf_lt_length_of_mem ha) ha
  · rw [idxOf_append_of_notMem ha]
    exact iff_of_false (by omega) ha

/-- **The places in a list of blocks**: those of the blocks before come first. -/
theorem idxOf_flatten {ls : List (List α)} (h : ls.flatten.Nodup) {k : ℕ} (hk : ls[k]? = some l)
    (ha : a ∈ l) : ls.flatten.idxOf a = ((ls.take k).map length).sum + l.idxOf a := by
  obtain ⟨hlt, rfl⟩ := List.getElem?_eq_some_iff.mp hk
  have hsplit : ls.flatten = (ls.take k).flatten ++ (ls[k] ++ (ls.drop (k + 1)).flatten) := by
    rw [← flatten_cons, getElem_cons_drop, ← flatten_append, take_append_drop]
  rw [hsplit] at h ⊢
  -- no element of the block is in one before it
  have hbefore : a ∉ (ls.take k).flatten := fun hmem =>
    (nodup_append.mp h).2.2 a hmem a (mem_append_left _ ha) rfl
  rw [idxOf_append_of_notMem hbefore, idxOf_append_of_mem ha, length_flatten]

end Lilu
