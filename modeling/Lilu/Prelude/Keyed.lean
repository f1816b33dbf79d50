import Mathlib.Tactic

/-!
# Lists that are searched by a key

A table is a list of entries of which the first one with a key is used. An entry is replaced by one
of the same key, or put behind the others if there is none with its key.

## Main results

* `find?_set`, `find?_snoc`: what is found then
* `map_set`, `nodup_snoc`: each key is there once
-/

namespace Lilu.Keyed

variable {α κ : Type*} {key : α → κ} {l : List α} {a a' : α} {b c : κ} {k : ℕ}

/-! ## Keys -/

theorem map_set (hk : l[k]? = some a) (ha : key a' = key a) : (l.set k a').map key = l.map key := by
  obtain ⟨hlt, rfl⟩ := List.getElem?_eq_some_iff.mp hk
  rw [List.map_set, ha, ← List.getElem_map key (h := by simpa using hlt)]
  exact List.set_getElem_self _

theorem nodup_snoc (hl : (l.map key).Nodup) (hnew : ∀ d ∈ l, key d ≠ key a) :
    ((l ++ [a]).map key).Nodup := by
  rw [List.map_append, List.map_singleton, List.nodup_append]
  refine ⟨hl, List.nodup_singleton _, fun c hc d hd => ?_⟩
  obtain ⟨e, he, rfl⟩ := List.mem_map.mp hc
  rw [List.mem_singleton.mp hd]
  exact hnew e he

/-! ## What is found -/

theorem findIdx?_congr {p q : α → Bool} (h : ∀ d ∈ l, p d = q d) :
    l.findIdx? p = l.findIdx? q := by
  induction l with
  | nil => rfl
  | cons d l ih =>
    rw [List.findIdx?_cons, List.findIdx?_cons, h d List.mem_cons_self,
      ih fun c hc => h c (List.mem_cons_of_mem d hc)]

/-- An element is at the index where it is found. -/
theorem getElem?_of_findIdx? [BEq κ] [LawfulBEq κ] {l : List κ}
    (hk : l.findIdx? (· == b) = some k) : l[k]? = some b := by
  obtain ⟨hlt, heq, -⟩ := List.findIdx?_eq_some_iff_getElem.mp hk
  rw [List.getElem?_eq_getElem hlt, beq_iff_eq.mp heq]

variable [DecidableEq κ]

/-- What is found is the entry of the first index. -/
theorem find?_eq (hk : l.findIdx? (key · == b) = some k) : l.find? (key · == b) = l[k]? := by
  obtain ⟨hlt, hkey, hbefore⟩ := List.findIdx?_eq_some_iff_getElem.mp hk
  rw [List.getElem?_eq_getElem hlt, List.find?_eq_some_iff_getElem]
  exact ⟨hkey, k, hlt, rfl, fun j hj => by simpa using hbefore j hj⟩

/-- An entry is replaced by another one of its key. -/
theorem find?_set (hk : l.findIdx? (key · == b) = some k) (ha : key a = b) :
    (l.set k a).find? (key · == c) = if c = b then some a else l.find? (key · == c) := by
  induction l generalizing k with
  | nil => cases hk
  | cons d l ih =>
    rw [List.findIdx?_cons] at hk
    by_cases hd : key d = b
    · rw [if_pos (beq_iff_eq.mpr hd)] at hk
      obtain rfl := Option.some.inj hk
      rw [List.set_cons_zero, List.find?_cons, List.find?_cons, ha, hd]
      by_cases hc : c = b
      · rw [if_pos hc, hc, beq_self_eq_true]
      · rw [if_neg hc, beq_false_of_ne (Ne.symm hc)]
    · rw [if_neg (by simpa using hd)] at hk
      obtain ⟨j, hj, rfl⟩ := Option.map_eq_some_iff.mp hk
      rw [List.set_cons_succ, List.find?_cons, List.find?_cons, ih hj]
      by_cases hc : c = b
      · rw [if_pos hc, hc, beq_false_of_ne hd, if_pos rfl]
      · rw [if_neg hc, if_neg hc]

/-- An entry is put behind the others. -/
theorem find?_snoc (hnew : ∀ d ∈ l, key d ≠ b) (ha : key a = b) :
    (l ++ [a]).find? (key · == c) = if c = b then some a else l.find? (key · == c) := by
  rw [List.find?_append, List.find?_singleton, ha]
  by_cases hc : c = b
  · have hnone : l.find? (key · == b) = none :=
      List.find?_eq_none.mpr fun d hd => by simpa using hnew d hd
    rw [if_pos hc, hc, hnone, beq_self_eq_true]
    rfl
  · rw [if_neg hc, beq_false_of_ne (Ne.symm hc)]
    exact Option.or_none

end Lilu.Keyed
