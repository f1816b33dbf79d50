import Mathlib.Tactic

/-!
# Arrays whose elements change their places

An array is a function on the integers. Sorting in place exchanges ranges of it.

## Main definitions

* `exchange x y c`: the places `x, …, x + c - 1` and `y, …, y + c - 1` are exchanged
* `Rearranged lo hi E E'`: the elements from `lo` up to `hi` have changed their places
* `SortedOn le lo hi E`: the elements from `lo` up to `hi` are sorted

## Main results

* `exchange_involutive`: exchanging two ranges twice
* `Rearranged.forall_iff`: what holds of all elements of the range does not depend on their order
* `Rearranged.perm`: as lists, they are permutations of each other
* `SortedOn.join`: two sorted ranges one after the other
-/

namespace Lilu

/-! ## Exchanging two ranges -/

/-- Which place an element comes from when two ranges of `c` places are exchanged. -/
def exchange (x y c i : ℤ) : ℤ :=
  if x ≤ i ∧ i < x + c then i - x + y else if y ≤ i ∧ i < y + c then i - y + x else i

section Exchange

variable {x y c i : ℤ}

/-- The ranges do not overlap, or they are the same. -/
def Apart (x y c : ℤ) : Prop :=
  x + c ≤ y ∨ y + c ≤ x ∨ x = y

theorem exchange_involutive (h : Apart x y c) : Function.Involutive (exchange x y c) := by
  intro i
  rw [Apart] at h
  simp only [exchange]
  split_ifs <;> omega

theorem exchange_of_not_mem (hx : i < x ∨ x + c ≤ i) (hy : i < y ∨ y + c ≤ i) :
    exchange x y c i = i := by
  rw [exchange, if_neg (by omega), if_neg (by omega)]

theorem exchange_left (h : x ≤ i) (h' : i < x + c) : exchange x y c i = i - x + y :=
  if_pos ⟨h, h'⟩

theorem exchange_right (happart : Apart x y c) (h : y ≤ i) (h' : i < y + c) :
    exchange x y c i = i - y + x := by
  rw [Apart] at happart
  rw [exchange]
  split_ifs <;> omega

/-- Two ranges one after the other. -/
theorem exchange_comp {c' : ℤ} (hc : 0 ≤ c) (hc' : 0 ≤ c') (h : Apart x y (c + c')) :
    exchange x y c (exchange (x + c) (y + c) c' i) = exchange x y (c + c') i := by
  rw [Apart] at h
  simp only [exchange]
  split_ifs <;> omega

end Exchange

/-! ## Arrays -/

variable {α : Type*} {E E' E'' : ℤ → α} {lo hi lo' hi' : ℤ}

/-- The elements from `lo` up to `hi` have changed their places, and no others have. -/
def Rearranged (lo hi : ℤ) (E E' : ℤ → α) : Prop :=
  ∃ σ : Equiv.Perm ℤ, (∀ i, i < lo ∨ hi ≤ i → σ i = i) ∧ ∀ i, E' i = E (σ i)

namespace Rearranged

theorem refl (lo hi : ℤ) (E : ℤ → α) : Rearranged lo hi E E :=
  ⟨1, fun _ _ => rfl, fun _ => rfl⟩

theorem trans (h : Rearranged lo hi E E') (h' : Rearranged lo hi E' E'') :
    Rearranged lo hi E E'' := by
  obtain ⟨σ, hσ, hE⟩ := h
  obtain ⟨τ, hτ, hE'⟩ := h'
  refine ⟨τ.trans σ, fun i hi => ?_, fun i => ?_⟩
  · rw [Equiv.trans_apply, hτ i hi, hσ i hi]
  · rw [hE', hE, Equiv.trans_apply]

theorem mono (h : Rearranged lo hi E E') (hlo : lo' ≤ lo) (hhi : hi ≤ hi') :
    Rearranged lo' hi' E E' := by
  obtain ⟨σ, hσ, hE⟩ := h
  exact ⟨σ, fun i hi => hσ i (by omega), hE⟩

theorem exchange {x y c : ℤ} (h : Apart x y c) (hx : lo ≤ x) (hx' : x + c ≤ hi) (hy : lo ≤ y)
    (hy' : y + c ≤ hi) (hE : ∀ i, E' i = E (exchange x y c i)) : Rearranged lo hi E E' :=
  ⟨(exchange_involutive h).toPerm, fun i hi => exchange_of_not_mem (by omega) (by omega), hE⟩

theorem eq_of_not_mem (h : Rearranged lo hi E E') {i : ℤ} (hi : i < lo ∨ hi ≤ i) : E' i = E i := by
  obtain ⟨σ, hσ, hE⟩ := h
  rw [hE, hσ i hi]

/-- The places of the range are those of the range. -/
theorem mem_iff {σ : Equiv.Perm ℤ} (hσ : ∀ i, i < lo ∨ hi ≤ i → σ i = i) (i : ℤ) :
    lo ≤ σ i ∧ σ i < hi ↔ lo ≤ i ∧ i < hi := by
  have hfix : ∀ i, ¬ (lo ≤ i ∧ i < hi) → σ i = i := fun i hi => hσ i (by omega)
  constructor
  · intro h
    by_contra hi
    rw [hfix i hi] at h
    exact hi h
  · intro h
    by_contra hi
    have := σ.injective (hfix (σ i) hi)
    rw [this] at hi
    exact hi h

/-- What holds of all elements of the range does not depend on their order. -/
theorem forall_mem (h : Rearranged lo hi E E') {P : α → Prop}
    (hP : ∀ i, lo ≤ i → i < hi → P (E i)) : ∀ i, lo ≤ i → i < hi → P (E' i) := by
  obtain ⟨σ, hσ, hE⟩ := h
  intro i hlo hhi
  rw [hE]
  obtain ⟨hlo', hhi'⟩ := (mem_iff hσ i).mpr ⟨hlo, hhi⟩
  exact hP _ hlo' hhi'

/-- As lists, they are permutations of each other. -/
theorem perm {n : ℕ} (h : Rearranged 0 n E E') :
    List.Perm ((List.range n).map fun i : ℕ => E' i) ((List.range n).map fun i : ℕ => E i) := by
  obtain ⟨σ, hσ, hE⟩ := h
  have hnodup : ((List.range n).map fun i : ℕ => (i : ℤ)).Nodup :=
    List.nodup_range.map Nat.cast_injective
  have hmem : ∀ i : ℤ, i ∈ (List.range n).map (fun i : ℕ => (i : ℤ)) ↔ 0 ≤ i ∧ i < n := by
    intro i
    rw [List.mem_map]
    constructor
    · rintro ⟨k, hk, rfl⟩
      rw [List.mem_range] at hk
      omega
    · rintro ⟨h0, hn⟩
      exact ⟨i.toNat, List.mem_range.mpr (by omega), by omega⟩
  -- the places themselves are permuted
  have hplaces : List.Perm (((List.range n).map fun i : ℕ => (i : ℤ)).map σ)
      ((List.range n).map fun i : ℕ => (i : ℤ)) := by
    rw [List.perm_ext_iff_of_nodup (hnodup.map σ.injective) hnodup]
    intro i
    rw [hmem, List.mem_map]
    constructor
    · rintro ⟨j, hj, rfl⟩
      exact (mem_iff hσ j).mpr ((hmem j).mp hj)
    · intro hi
      refine ⟨σ.symm i, (hmem _).mpr ?_, σ.apply_symm_apply i⟩
      rw [← mem_iff hσ, σ.apply_symm_apply]
      exact hi
  have := hplaces.map E
  rw [List.map_map, List.map_map, List.map_map] at this
  simpa only [Function.comp_def, hE] using this

end Rearranged

/-! ## Sorted ranges -/

/-- The elements from `lo` up to `hi` are sorted. -/
def SortedOn (le : α → α → Prop) (lo hi : ℤ) (E : ℤ → α) : Prop :=
  ∀ i j, lo ≤ i → i < j → j < hi → le (E i) (E j)

namespace SortedOn

variable {le : α → α → Prop} {mid : ℤ}

theorem of_le_one (h : hi ≤ lo + 1) : SortedOn le lo hi E :=
  fun i j _ _ _ => by omega

theorem congr (h : SortedOn le lo hi E) (hE : ∀ i, lo ≤ i → i < hi → E' i = E i) :
    SortedOn le lo hi E' := by
  intro i j hi hij hj
  rw [hE i hi (by omega), hE j (by omega) hj]
  exact h i j hi hij hj

/-- Two sorted ranges, one after the other. -/
theorem join (h : SortedOn le lo mid E) (h' : SortedOn le mid hi E)
    (hle : ∀ i j, lo ≤ i → i < mid → mid ≤ j → j < hi → le (E i) (E j)) :
    SortedOn le lo hi E := by
  intro i j hi hij hj
  rcases lt_or_ge j mid with hjm | hjm
  · exact h i j hi hij hjm
  · rcases lt_or_ge i mid with him | him
    · exact hle i j hi him hjm hj
    · exact h' i j him hij hj

/-- The elements as a list. -/
theorem pairwise {n : ℕ} (h : SortedOn le 0 n E) :
    ((List.range n).map fun i : ℕ => E i).Pairwise le := by
  rw [List.pairwise_map]
  refine List.pairwise_lt_range.imp_of_mem fun {i j} _ hj hij => ?_
  rw [List.mem_range] at hj
  exact h i j (by omega) (by omega) (by omega)

end SortedOn

end Lilu
