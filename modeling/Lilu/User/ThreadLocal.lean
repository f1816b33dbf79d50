import Mathlib.Tactic

/-!
# Thread-specific storage

A fixed number of slots, each free or held by a thread. A thread finds its slot by its identifier,
and is handed a pointer to the slot's value; the value may belong to another thread when the pointer
is used.

## Main definitions

* `ThreadLocal`: the slots
* `get`, `set`, `erase`: the operations, each a single step

## Main results

* `get_eq_none_iff`, `get_spec`: what is found
* `set_cases`, `erase_of_get`: what changes
-/

namespace Lilu

open Function

/-- Up to `N` threads with a value each; a null value is none. -/
structure ThreadLocal (T V : Type*) (N : ℕ) where
  threads : Fin N → Option T
  values : Fin N → Option V

namespace ThreadLocal

variable {T V : Type*} {N : ℕ} [DecidableEq T]

/-- The first slot with this holder. -/
def slotOf (s : ThreadLocal T V N) (t : Option T) : Option (Fin N) :=
  (List.finRange N).find? fun i => s.threads i = t

/-- `get`: the slot whose value the returned pointer points to. -/
def get (s : ThreadLocal T V N) (t : T) : Option (Fin N) :=
  s.slotOf (some t)

/-- `set`: the thread's slot or a free one takes the value, if there is any. -/
def set (s : ThreadLocal T V N) (t : T) (v : V) : Option (ThreadLocal T V N) :=
  match s.slotOf (some t) with
  | some i => some { s with values := update s.values i (some v) }
  | none =>
    match s.slotOf none with
    | some i => some ⟨update s.threads i (some t), update s.values i (some v)⟩
    | none => none

/-- `erase`: the thread's slot is cleared and freed, if it has one. -/
def erase (s : ThreadLocal T V N) (t : T) : Option (ThreadLocal T V N) :=
  match s.slotOf (some t) with
  | some i => some ⟨update s.threads i none, update s.values i none⟩
  | none => none

/-- The storage without a value. -/
def empty : ThreadLocal T V N :=
  ⟨fun _ => none, fun _ => none⟩

variable {s s' : ThreadLocal T V N} {t : T} {v : V} {i : Fin N}

theorem slotOf_spec {o : Option T} (h : s.slotOf o = some i) : s.threads i = o := by
  simpa using List.find?_some h

theorem slotOf_eq_none_iff {o : Option T} : s.slotOf o = none ↔ ∀ i, s.threads i ≠ o := by
  simp [slotOf]

theorem get_spec (h : s.get t = some i) : s.threads i = some t :=
  slotOf_spec h

theorem get_eq_none_iff : s.get t = none ↔ ∀ i, s.threads i ≠ some t :=
  slotOf_eq_none_iff

/-- A thread without a slot takes a free one. -/
theorem set_cases (ht : ∀ i, s.threads i ≠ some t) (v : V) :
    (∃ i, s.threads i = none ∧
      s.set t v = some ⟨update s.threads i (some t), update s.values i (some v)⟩) ∨
      s.set t v = none := by
  unfold set
  rw [slotOf_eq_none_iff.mpr ht]
  rcases hfree : s.slotOf none with _ | i
  · exact .inr rfl
  · exact .inl ⟨i, slotOf_spec hfree, rfl⟩

/-- A thread that holds one slot only gives it back. -/
theorem erase_of_get (hi : s.threads i = some t)
    (hone : ∀ j, s.threads j = some t → j = i) :
    s.erase t = some ⟨update s.threads i none, update s.values i none⟩ := by
  unfold erase
  rcases hslot : s.slotOf (some t) with _ | j
  · exact absurd hi (slotOf_eq_none_iff.mp hslot i)
  · obtain rfl := hone j (slotOf_spec hslot)
    rfl

end ThreadLocal

end Lilu
