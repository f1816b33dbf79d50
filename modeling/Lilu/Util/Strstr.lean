import Lilu.Prelude.Occurrence
import Lilu.Kext.Listener

/-!
# Substring search

`strstr` reads the stack once and counts how much of the needle it has matched. At a byte that does
not match the count is set back to zero, and the byte is not looked at again.

## Main definitions

* `strstr stack needle len`: the offset of the address that is returned, if it is not null

## Main results

* `strstr_attempt`: it returns the first attempt at which the needle occurs
* `strstr_iff`: when it returns the first occurrence
-/

namespace Lilu.Util

open List
open Lilu.Kext (CString)

/-- The loop of `strstr` from the byte at `pos` on, where `i` bytes of the needle are matched. The
needle's terminating zero is read as such. -/
def strstrFrom (needle : CString) (len : ℕ) : CString → ℕ → ℕ → Option ℕ
  | [], _, _ => none
  | c :: stack, pos, i =>
    if c = needle.getD i 0 then
      if i + 1 = len then some (pos + 1 - len)
      else strstrFrom needle len stack (pos + 1) (i + 1)
    else strstrFrom needle len stack (pos + 1) 0

/-- `strstr`: without a length the needle's own is taken. -/
def strstr (stack needle : CString) (len : ℕ) : Option ℕ :=
  if len = 0 then
    if needle.length = 0 then some 0
    else strstrFrom needle needle.length stack 0 0
  else strstrFrom needle len stack 0 0

section Attempts

variable {needle stack p u c r : CString} {len pos : ℕ} {a b : UInt8}

/-- Bytes that match, but do not complete the needle, are counted. -/
theorem strstrFrom_append (stack : CString) (pos : ℕ) (hneedle : needle = p ++ u ++ r)
    (hlen : p.length + u.length < len) :
    strstrFrom needle len (u ++ stack) pos p.length =
      strstrFrom needle len stack (pos + u.length) (p.length + u.length) := by
  induction u generalizing p pos with
  | nil => rfl
  | cons a u ih =>
    simp only [length_cons] at hlen
    have hget : needle.getD p.length 0 = a := by simp [hneedle]
    rw [cons_append, strstrFrom, if_pos hget.symm, if_neg (by omega)]
    have := ih (pos + 1) (show needle = (p ++ [a]) ++ u ++ r by simp [hneedle]) (by simp; omega)
    simp only [length_append, length_cons, length_nil, Nat.zero_add] at this
    rw [this, length_cons]
    congr 1 <;> omega

/-- An attempt at an occurrence succeeds. -/
theorem strstrFrom_occurs (hne : needle ≠ []) (h : needle <+: stack) :
    strstrFrom needle needle.length stack pos 0 = some pos := by
  obtain ⟨rest, rfl⟩ := h
  -- all bytes but the last are counted, and the last completes the needle
  obtain ⟨init, last, rfl⟩ := eq_nil_or_concat' needle |>.resolve_left hne
  have happ := strstrFrom_append (last :: rest) pos
    (show init ++ [last] = [] ++ init ++ [last] from rfl)
    (show [].length + init.length < (init ++ [last]).length by simp)
  simp only [length_nil, Nat.zero_add] at happ
  rw [append_assoc, singleton_append, happ, strstrFrom, if_pos (by simp), if_pos (by simp)]
  simp [Nat.add_assoc]

/-- An attempt at which the stack ends fails. -/
theorem strstrFrom_ends (h : stack <+: needle) (hlt : stack.length < needle.length) :
    strstrFrom needle needle.length stack pos 0 = none := by
  obtain ⟨rest, rfl⟩ := h
  have happ := strstrFrom_append [] pos (show stack ++ rest = [] ++ stack ++ rest from rfl)
    (show [].length + stack.length < (stack ++ rest).length by simpa using hlt)
  rw [append_nil] at happ
  exact happ

/-- An attempt fails at a byte that differs, and the next one begins behind it. -/
theorem strstrFrom_differ (hne : a ≠ b) (hneedle : needle = c ++ a :: r) :
    strstrFrom needle needle.length (c ++ b :: stack) pos 0 =
      strstrFrom needle needle.length stack (pos + c.length + 1) 0 := by
  have hlt : c.length < needle.length := by simp [hneedle]
  have happ := strstrFrom_append (b :: stack) pos (show needle = [] ++ c ++ a :: r from hneedle)
    (show [].length + c.length < needle.length by simpa using hlt)
  have hget : needle.getD c.length 0 = a := by simp [hneedle]
  simp only [length_nil, Nat.zero_add] at happ
  rw [happ, strstrFrom, hget, if_neg hne.symm]

/-- **The loop** returns the first attempt at which the needle occurs. -/
theorem strstrFrom_attempt (hne : needle ≠ []) (stack : CString) (pos : ℕ) :
    ∃ found, strstrFrom needle needle.length stack pos 0 = found.map (pos + ·) ∧
      FirstAttempt needle stack found := by
  -- each attempt that fails hands the search on to what is left of the stack
  induction hlen : stack.length using Nat.strong_induction_on generalizing stack pos with
  | _ n ih =>
    rcases prefix_or_differ needle stack with h | ⟨h, hlt⟩ | ⟨c, a, b, r, s, hab, hneedle, rfl⟩
    · exact ⟨some 0, strstrFrom_occurs hne h, .start _, h, fun k hk => absurd hk k.not_lt_zero⟩
    · exact ⟨none, strstrFrom_ends h hlt, fun k _ => not_prefix_drop_of_lt hlt⟩
    · obtain ⟨found, hfound, hfirst⟩ :=
        ih s.length (by rw [← hlen]; simp; omega) s (pos + c.length + 1) rfl
      refine ⟨_, ?_, hfirst.next hab hneedle⟩
      rw [strstrFrom_differ hab hneedle, hfound, Option.map_map]
      congr 1
      funext k
      simp only [Function.comp_apply]
      omega

/-- **What is returned** is the first attempt at which the needle occurs. -/
theorem strstr_attempt (hlen : len = 0 ∨ len = needle.length) (stack : CString) :
    FirstAttempt needle stack (strstr stack needle len) := by
  by_cases hne : needle = []
  · subst hne
    obtain rfl : len = 0 := by simpa using hlen
    exact ⟨.start _, nil_prefix, fun k hk => absurd hk k.not_lt_zero⟩
  · have hpos : needle.length ≠ 0 := fun h => hne (length_eq_zero_iff.mp h)
    have hrun : strstr stack needle len = strstrFrom needle needle.length stack 0 0 := by
      rcases hlen with rfl | rfl
      · rw [strstr, if_pos rfl, if_neg hpos]
      · rw [strstr, if_neg hpos]
    obtain ⟨found, hfound, hfirst⟩ := strstrFrom_attempt hne stack 0
    rw [hrun, hfound]
    simpa using hfirst

/-- Where the loop is does not matter, but for what it returns. -/
theorem strstrFrom_add (m : ℕ) {i : ℕ} (hi : i ≤ pos) :
    strstrFrom needle len stack (m + pos) i = (strstrFrom needle len stack pos i).map (m + ·) := by
  induction stack generalizing pos i with
  | nil => rfl
  | cons c stack ih =>
    rw [strstrFrom, strstrFrom]
    split_ifs with hc hend
    · rw [Option.map_some]
      congr 1
      omega
    · exact ih (Nat.succ_le_succ hi)
    · exact ih (Nat.zero_le (pos + 1))

/-- Bytes that the needle does not begin with are passed over. -/
theorem strstr_append {a : UInt8} (hneedle : needle = a :: r) (ha : a ∉ u) :
    strstr (u ++ stack) needle needle.length =
      (strstr stack needle needle.length).map (u.length + ·) := by
  have hlen : needle.length ≠ 0 := by simp [hneedle]
  rw [strstr, strstr, if_neg hlen, if_neg hlen, ← strstrFrom_add u.length le_rfl]
  have hpass : ∀ pos, strstrFrom needle needle.length (u ++ stack) pos 0 =
      strstrFrom needle needle.length stack (u.length + pos) 0 := by
    induction u with
    | nil => exact fun pos => by rw [nil_append, length_nil, Nat.zero_add]
    | cons b u ih =>
      intro pos
      rw [mem_cons, not_or] at ha
      have hget : needle.getD 0 0 = a := by rw [hneedle]; rfl
      rw [cons_append, strstrFrom, hget, if_neg (Ne.symm ha.1), ih ha.2, length_cons]
      congr 1
      omega
  exact hpass 0

/-- What the needle begins is found at once. -/
theorem strstr_begins (hne : needle ≠ []) (h : needle <+: stack) :
    strstr stack needle needle.length = some 0 := by
  rw [strstr, if_neg fun hlen => hne (length_eq_zero_iff.mp hlen)]
  exact strstrFrom_occurs hne h

/-- What is found behind bytes that the needle does not begin with. -/
theorem strstr_at {a : UInt8} (hneedle : needle = a :: r) (ha : a ∉ u) :
    strstr (u ++ (needle ++ stack)) needle needle.length = some u.length := by
  have hne : needle ≠ [] := by simp [hneedle]
  rw [strstr_append hneedle ha, strstr_begins hne (prefix_append needle stack)]
  rfl

end Attempts

/-- **When the search is right**: on a stack where it begins anew at the first occurrence, and on
every stack if the bytes of the needle are all the same. -/
theorem strstr_iff (needle : CString) (len : ℕ) (hlen : len = 0 ∨ len = needle.length) :
    (∀ stack, FirstOccurrence needle stack (strstr stack needle len) ↔
      ∀ k, FirstOccurrence needle stack (some k) → Attempt needle stack k) ∧
    (0 ∉ needle → ((∀ stack, 0 ∉ stack → FirstOccurrence needle stack (strstr stack needle len)) ↔
      ∀ x ∈ needle, ∀ y ∈ needle, x = y)) := by
  have hiff := fun stack => (strstr_attempt hlen stack).iff
  refine ⟨hiff, fun hzero => ⟨fun hall => ?_, fun hsame stack _ => (hiff stack).mpr ?_⟩⟩
  · by_contra hdiffer
    obtain ⟨a, ha, hfirst, hnot⟩ := exists_passed_over hdiffer
    have hstack : 0 ∉ a :: needle := by
      rw [mem_cons, not_or]
      exact ⟨fun h => hzero (h ▸ ha), hzero⟩
    exact hnot ((hiff _).mp (hall _ hstack) 1 hfirst)
  · intro k hk
    cases needle with
    | nil =>
      -- the empty needle occurs at the start
      obtain rfl : k = 0 := Nat.eq_zero_of_not_pos fun h => hk.2 0 h nil_prefix
      exact .start _
    | cons a u =>
      have hrep : a :: u = replicate (a :: u).length a :=
        eq_replicate_length.mpr fun x hx => hsame x hx a mem_cons_self
      rw [hrep] at hk ⊢
      exact attempt_of_replicate hk

/-- The needle `ab` is found in `acab`, where the search begins anew behind the `c`, but not in
every stack. -/
theorem strstr_iff_acab :
    FirstOccurrence ([97, 98] : CString) [97, 99, 97, 98] (strstr [97, 99, 97, 98] [97, 98] 0) ∧
    ¬ ∀ stack : CString, 0 ∉ stack → FirstOccurrence [97, 98] stack (strstr stack [97, 98] 0) := by
  obtain ⟨hiff, hsame⟩ := strstr_iff [97, 98] 0 (.inl rfl)
  refine ⟨(hiff [97, 99, 97, 98]).mpr fun k hk => ?_, fun hall => ?_⟩
  swap
  · have hone := (hsame (by decide)).mp hall 97 mem_cons_self 98 (mem_cons_of_mem _ mem_cons_self)
    exact absurd hone (by decide)
  obtain rfl : k = 2 := by
    obtain ⟨hocc, hmin⟩ := hk
    rcases Nat.lt_trichotomy k 2 with h | rfl | h
    · interval_cases k <;> simp [List.cons_prefix_cons] at hocc
    · rfl
    · exact absurd (by decide) (hmin 2 h)
  exact .next (c := [97]) (a := 98) (b := 99) (r := []) (s := [97, 98]) (by decide) rfl (.start _)

/-- The needle `ab` is not found in `aab`. -/
theorem strstr_aab :
    ¬ FirstOccurrence ([97, 98] : CString) [97, 97, 98] (strstr [97, 97, 98] [97, 98] 0) := by
  have hnull : strstr [97, 97, 98] [97, 98] 0 = none := by decide
  rw [hnull]
  exact fun h => h 1 (by decide)

end Lilu.Util
