import Lilu.Prelude.Calls

/-!
# Bounded queues

A queue takes elements in at one end and hands them out at the other. It takes none when it is full.
Its elements may lie in an array used as a ring, where a place is a sum modulo the array's length.

## Main definitions

* `Queue.call`: taking an element in, and handing one out
* `Queue.accepted`, `Queue.handedOut`: the elements that went in and came out
* `Queue.InRing`: a queue in a ring of cells

## Main results

* `Queue.accepted_eq`: what went in came out in the same order, or is in the queue still
* `Queue.InRing.push`, `Queue.InRing.pop`: both ends of a queue in a ring
-/

namespace Lilu.Queue

variable {α : Type*}

/-- The calls. -/
inductive Call (α : Type*) where
  | push (x : α)
  | pop

/-- What they return. -/
inductive Reply (α : Type*) where
  | pushed (ok : Bool)
  | popped (x : Option α)

/-- A queue with room for `n` elements. -/
def call (n : ℕ) (q : List α) : Call α → Reply α × List α
  | .push x => if q.length < n then (.pushed true, q ++ [x]) else (.pushed false, q)
  | .pop =>
    match q with
    | [] => (.popped none, [])
    | x :: q => (.popped (some x), q)

/-- The elements that went in. -/
def accepted : List (Call α) → List (Reply α) → List α
  | .push x :: calls, .pushed true :: replies => x :: accepted calls replies
  | _ :: calls, _ :: replies => accepted calls replies
  | _, _ => []

/-- The elements that came out. -/
def handedOut : List (Reply α) → List α
  | [] => []
  | .popped (some x) :: replies => x :: handedOut replies
  | _ :: replies => handedOut replies

/-- **None is lost or duplicated**: what was in the queue, and what went in, came out in this order
or is there still. -/
theorem accepted_eq (n : ℕ) (q : List α) (calls : List (Call α)) :
    q ++ accepted calls (answers (call n) q calls).1 =
      handedOut (answers (call n) q calls).1 ++ (answers (call n) q calls).2 := by
  induction calls generalizing q with
  | nil => simp [accepted, answers, handedOut]
  | cons c calls ih =>
    cases c with
    | push x =>
      by_cases hroom : q.length < n
      · have hcall : call n q (.push x) = (.pushed true, q ++ [x]) := if_pos hroom
        simp only [answers, hcall, accepted, handedOut]
        rw [← ih, List.append_assoc, List.singleton_append]
      · have hcall : call n q (.push x) = (.pushed false, q) := if_neg hroom
        simp only [answers, hcall, accepted, handedOut]
        exact ih q
    | pop =>
      cases q with
      | nil => exact ih []
      | cons x q => exact congrArg (x :: ·) (ih q)

/-! ## Queues in rings -/

/-- The queue lies in the cells from `r` on, modulo their number. -/
structure InRing (cells : List α) (r : ℕ) (q : List α) : Prop where
  fits : q.length ≤ cells.length
  cell : ∀ i x, q[i]? = some x → cells[(r + i) % cells.length]? = some x

section Ring

variable {cells q : List α} {r i j n : ℕ} {x : α}

/-- Different offsets are different cells. -/
theorem add_mod_inj (hi : i < n) (hj : j < n) (h : (r + i) % n = (r + j) % n) : i = j := by
  have hmod : i ≡ j [MOD n] := Nat.ModEq.add_left_cancel' r h
  exact hmod.eq_of_lt_of_lt hi hj

theorem inRing_nil (cells : List α) (r : ℕ) : InRing cells r [] :=
  ⟨Nat.zero_le _, nofun⟩

/-- An element that goes in lies behind the others. -/
theorem InRing.push (h : InRing cells r q) (hroom : q.length < cells.length) (x : α) :
    InRing (cells.set ((r + q.length) % cells.length) x) r (q ++ [x]) := by
  constructor
  · rw [List.length_append, List.length_set]
    exact hroom
  · intro i y hi
    rw [List.length_set]
    have hlt : i < (q ++ [x]).length := (List.getElem?_eq_some_iff.mp hi).1
    rw [List.length_append, List.length_singleton] at hlt
    rcases Nat.lt_succ_iff_lt_or_eq.mp hlt with hold | rfl
    · -- the others are in other cells
      rw [List.getElem?_append_left hold] at hi
      have hne : (r + q.length) % cells.length ≠ (r + i) % cells.length := fun heq =>
        hold.ne (add_mod_inj hroom (hold.trans hroom) heq).symm
      rw [List.getElem?_set_ne hne]
      exact h.cell i y hi
    · rw [List.getElem?_concat_length] at hi
      obtain rfl := Option.some.inj hi
      exact List.getElem?_set_self (Nat.mod_lt _ (Nat.zero_lt_of_lt hroom))

/-- The first element is in the first cell, and the others behind it. -/
theorem InRing.pop (h : InRing cells r (x :: q)) : cells[r % cells.length]? = some x ∧
    InRing cells ((r + 1) % cells.length) q := by
  refine ⟨h.cell 0 x rfl, (Nat.le_succ _).trans h.fits, fun i y hi => ?_⟩
  have hcell := h.cell (i + 1) y hi
  rwa [Nat.add_comm i, ← Nat.add_assoc, ← Nat.mod_add_mod] at hcell

end Ring

end Lilu.Queue
