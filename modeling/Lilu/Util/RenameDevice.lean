import Lilu.Prelude.Probe
import Lilu.Prelude.Separated
import Lilu.Kext.Listener

/-!
# Renaming a device

`renameDevice` puts the new name behind the strings of the device's `compatible` property, unless it
is one of them. The strings are gone through with `strcmp` and `strlen`, which only stop at a zero,
so that a last string without a terminator is read beyond the property's end; and the new name would
become a part of that string.

## Main definitions

* `OSData`, `Entry`: the property, and the device
* `renameDevice`: the call, as a program that reads the property
* `Renames`: what the call is for

## Main results

* `renames_iff`: when the call does what it is for
-/

namespace Lilu.WIOKit

open Lilu.Kext (CString)
open Lilu.Probe (Within Meets byte compare)

/-- The bytes of a property. The pointer to them may be null only if there are none. -/
structure OSData where
  bytes : List UInt8
  isNull : Bool
  eq_nil : isNull = true → bytes = []
  length_lt : bytes.length < 2 ^ 32

/-- A device: its name, and its `compatible` property if that is data. -/
structure Entry where
  name : CString
  compatible : Option OSData

/-- Whether there is memory for the buffer, and for the new property. -/
structure Allocations where
  create : Bool
  withBytes : Bool

/-- `strlen` of the string at an offset; none if the fuel is used up. -/
def strlen : ℕ → ℕ → Probe ℕ (Option ℕ)
  | 0, _ => pure none
  | fuel + 1, i => do
    if (← byte i) = 0 then pure (some 0)
    else
      let len ← strlen fuel (i + 1)
      pure (len.map (· + 1))

/-- `strcmp` of the string at an offset with the name. -/
def strcmp (i : ℕ) (name : CString) : Probe ℕ Bool :=
  compare ((List.range (name.length + 1)).map (i + ·)) name

section Code

variable (fuel compatibleSz : ℕ) (name : CString)

/-- One pass of the loop over the strings, which is left with whether the name is there. -/
def stringTurn (i : ℕ) : Probe ℕ (Turn ℕ (Option Bool)) :=
  if i < compatibleSz then do
    if ← strcmp i name then pure (.leave (some true))
    else
      match ← strlen fuel i with
      | none => pure (.leave none)
      | some len => pure (.again (((i + len) % 2 ^ 32 + 1) % 2 ^ 32))
  else pure (.leave (some false))

/-- The loop over the strings. -/
def contains : Probe ℕ (Option Bool) := do
  let found ← Probe.loop (stringTurn fuel compatibleSz name) fuel 0
  pure found.join

end Code

/-- The new property: what is copied to a buffer of `compatibleBufSz` bytes. The sizes are those of
32 bits. -/
def OSData.append (d : OSData) (name : CString) : OSData :=
  let nameSize := (name.length + 1) % 2 ^ 32
  let compatibleBufSz := (d.bytes.length + nameSize) % 2 ^ 32
  let compatibleBuf := (d.bytes ++ (name ++ [0]).take nameSize).take compatibleBufSz
  { bytes := compatibleBuf
    isNull := compatibleBuf.isEmpty
    eq_nil := List.isEmpty_iff.mp
    length_lt := (List.length_take_le _ _).trans_lt (Nat.mod_lt _ (Nat.two_pow_pos 32)) }

variable (A : Allocations) (fuel : ℕ)

/-- The name is added to the property; none if the fuel is used up. -/
def fixCompatible (d : OSData) (name : CString) : Probe ℕ (Option (Bool × OSData)) :=
  if d.isNull then pure (some (false, d))
  else do
    match ← contains fuel d.bytes.length name with
    | none => pure none
    | some true => pure (some (true, d))
    | some false =>
      if A.create && A.withBytes then pure (some (true, d.append name))
      else pure (some (false, d))

/-- `renameDevice`: what is returned, and the device; none if the fuel is used up. -/
def renameDevice (entry : Option Entry) (name : Option CString) (compat : Bool) :
    Probe ℕ (Option (Bool × Option Entry)) :=
  match entry, name with
  | some entry, some name =>
    if !compat then pure (some (true, some { entry with name := name }))
    else
      match entry.compatible with
      | none => pure (some (true, some { entry with name := name }))
      | some d => do
        let r ← fixCompatible A fuel d name
        pure (r.map fun (ok, d) => (ok, some { name := name, compatible := some d }))
  | entry, _ => pure (some (false, entry))

/-! ## What the call is for -/

/-- The memory from a property's first byte on; what lies behind it is not known. -/
def OSData.memory (d : OSData) (behind : ℕ → UInt8) : ℕ → UInt8 :=
  fun i => d.bytes.getD i (behind i)

/-- The offsets of a property's bytes. -/
def OSData.inside (d : OSData) : Set ℕ :=
  {i | i < d.bytes.length}

/-- The strings of a property, with the name behind them unless it is one of them. -/
def withName (strings : List CString) (name : CString) : List CString :=
  if name ∈ strings then strings else strings ++ [name]

/-- The device that is left has the name in its property, and stays so if it is renamed again. -/
def HasName (e : Entry) (d : OSData) (name : CString) (e' : Entry) : Prop :=
  ∃ d', e' = { e with name := name, compatible := some d' } ∧
    entries 0 d'.bytes = withName (entries 0 d.bytes) name ∧
    ∀ (A : Allocations) (behind : ℕ → UInt8), ∃ n, ∀ fuel, n ≤ fuel → ∃ ok,
      (renameDevice A fuel (some e') (some name) true).run (d'.memory behind) = some (ok, some e')

/-- **What the call is for**: it reads the property only, and leaves the name in it. -/
def Renames (A : Allocations) (e : Entry) (d : OSData) (behind : ℕ → UInt8) (name : CString) : Prop :=
  ∃ n, ∀ fuel, n ≤ fuel → Meets d.inside (d.memory behind)
    (fun r => ∃ ok e', r = some (ok, some e') ∧ HasName e d name e')
    (renameDevice A fuel (some { e with compatible := some d }) (some name) true)

/-- When it does so: the name is there with a terminator, or the property is terminated and there is
room for the name. -/
def Renamable (A : Allocations) (d : OSData) (name : CString) : Prop :=
  Listed 0 name d.bytes ∨ (d.isNull = false ∧ Terminated 0 d.bytes ∧ A.create = true ∧
    A.withBytes = true ∧ d.bytes.length + (name.length + 1) < 2 ^ 32)

/-! ## Strings in memory -/

/-- Some bytes are in memory from an offset on. -/
def Has (m : ℕ → UInt8) : ℕ → List UInt8 → Prop
  | _, [] => True
  | i, b :: bs => m i = b ∧ Has m (i + 1) bs

variable {m : ℕ → UInt8} {S : Set ℕ} {i sz : ℕ} {s t l l' name : CString} {fuel : ℕ}

theorem has_append : Has m i (l ++ l') ↔ Has m i l ∧ Has m (i + l.length) l' := by
  induction l generalizing i with
  | nil => exact (and_iff_right trivial).symm
  | cons a l ih =>
    rw [List.cons_append, Has, Has, ih, and_assoc, List.length_cons, Nat.add_right_comm, Nat.add_assoc]

theorem has_iff_map : Has m i l ↔ (List.range l.length).map (fun k => m (i + k)) = l := by
  induction l generalizing i with
  | nil => exact iff_of_true trivial rfl
  | cons a l ih =>
    have hshift : (fun k => m (i + 1 + k)) = (fun k => m (i + k)) ∘ Nat.succ := by
      funext k
      exact congrArg m (by omega)
    rw [Has, ih, List.length_cons, List.range_succ_eq_map, List.map_cons, List.map_map, hshift,
      List.cons.injEq, Nat.add_zero]

/-- A string ends at its terminator. -/
theorem eq_of_has (h : Has m i (s ++ 0 :: l)) (h' : Has m i (t ++ 0 :: l')) (hs : 0 ∉ s)
    (ht : 0 ∉ t) : s = t := by
  induction s generalizing i t with
  | nil =>
    cases t with
    | nil => rfl
    | cons b t => exact absurd (h.1.symm.trans h'.1) fun heq => ht (heq ▸ List.mem_cons_self)
  | cons a s ih =>
    cases t with
    | nil => exact absurd (h'.1.symm.trans h.1) fun heq => hs (heq ▸ List.mem_cons_self)
    | cons b t =>
      rw [List.mem_cons, not_or] at hs ht
      rw [ih h.2 h'.2 hs.2 ht.2, h.1.symm.trans h'.1]

/-! ### `strlen` and `strcmp` -/

/-- `strlen` reads a string with its terminator. -/
theorem meets_strlen (h : Has m i (s ++ 0 :: l)) (hs : 0 ∉ s) (hfuel : s.length < fuel)
    (hinside : ∀ k ≤ s.length, i + k ∈ S) : Meets S m (· = some s.length) (strlen fuel i) := by
  induction s generalizing i fuel with
  | nil =>
    obtain ⟨fuel, rfl⟩ := Nat.exists_eq_succ_of_ne_zero hfuel.ne'
    rw [strlen, Probe.meets_bind, Probe.within_byte, Probe.run_byte, if_pos h.1]
    exact ⟨hinside 0 le_rfl, Probe.meets_pure.mpr rfl⟩
  | cons a s ih =>
    obtain ⟨fuel, rfl⟩ := Nat.exists_eq_succ_of_ne_zero (Nat.ne_zero_of_lt hfuel)
    rw [List.mem_cons, not_or] at hs
    rw [List.length_cons] at hfuel hinside
    have hne : m i ≠ 0 := fun heq => hs.1 (heq.symm.trans h.1)
    have hrest : ∀ k ≤ s.length, i + 1 + k ∈ S := by
      intro k hk
      rw [Nat.add_assoc, Nat.add_comm 1]
      exact hinside (k + 1) (Nat.succ_le_succ hk)
    obtain ⟨hwithin, hrun⟩ := ih h.2 hs.2 (Nat.lt_of_succ_lt_succ hfuel) hrest
    rw [strlen, Probe.meets_bind, Probe.within_byte, Probe.run_byte, if_neg hne, Probe.meets_bind]
    refine ⟨hinside 0 (Nat.zero_le _), hwithin, Probe.meets_pure.mpr ?_⟩
    rw [hrun]
    rfl

/-- `strlen` goes on behind a string that has no terminator. -/
theorem not_within_strlen (h : Has m i t) (ht : 0 ∉ t) (hfuel : t.length < fuel)
    (hend : i + t.length ∉ S) : ¬ Within S m (strlen fuel i) := by
  induction t generalizing i fuel with
  | nil =>
    obtain ⟨fuel, rfl⟩ := Nat.exists_eq_succ_of_ne_zero hfuel.ne'
    rw [strlen, Probe.within_bind, Probe.within_byte]
    exact fun hwithin => hend hwithin.1
  | cons a t ih =>
    obtain ⟨fuel, rfl⟩ := Nat.exists_eq_succ_of_ne_zero (Nat.ne_zero_of_lt hfuel)
    rw [List.mem_cons, not_or] at ht
    rw [List.length_cons] at hfuel hend
    have hne : m i ≠ 0 := fun heq => ht.1 (heq.symm.trans h.1)
    have hrest : i + 1 + t.length ∉ S := by
      rwa [Nat.add_assoc, Nat.add_comm 1]
    rw [strlen, Probe.within_bind, Probe.run_byte, if_neg hne, Probe.within_bind]
    exact fun hwithin => ih h.2 ht.2 (Nat.lt_of_succ_lt_succ hfuel) hrest hwithin.2.1

theorem run_strcmp_iff : (strcmp i name).run m = true ↔ Has m i (name ++ [0]) := by
  have hlen : ((List.range (name.length + 1)).map (i + ·)).length = name.length + 1 := by
    rw [List.length_map, List.length_range]
  rw [strcmp, Probe.run_compare_whole hlen, decide_eq_true_eq, List.map_map, has_iff_map,
    List.length_append, List.length_singleton]
  rfl

/-- `strcmp` reads a string up to its terminator. -/
theorem within_strcmp (h : Has m i (s ++ 0 :: l)) (hname : 0 ∉ name)
    (hinside : ∀ k ≤ s.length, i + k ∈ S) : Within S m (strcmp i name) := by
  rw [strcmp, Probe.within_compare_range]
  intro j _ _ hsame
  apply hinside
  -- the terminator would be one of the bytes that are equal
  by_contra hlt
  have hzero : m (i + s.length) = 0 := (has_append.mp h).2.1
  have hmem : (0 : UInt8) ∈ name.take j := by
    rw [← hsame]
    exact List.mem_map.mpr ⟨s.length, List.mem_range.mpr (not_le.mp hlt), hzero⟩
  exact hname (List.mem_of_mem_take hmem)

/-- Where the name is found, all of it and a terminator are read. -/
theorem mem_of_strcmp (h : Within S m (strcmp i name)) (hrun : (strcmp i name).run m = true) :
    i + name.length ∈ S := by
  rw [strcmp, Probe.within_compare_range] at h
  apply h name.length (Nat.lt_succ_self _) le_rfl
  have hname := (has_append.mp (run_strcmp_iff.mp hrun)).1
  rw [has_iff_map.mp hname, List.take_length]

/-! ### The loop over the strings -/

/-- **A terminated string** is read with its terminator, and nothing behind it. -/
theorem stringTurn_spec (h : Has m i (s ++ 0 :: l)) (hs : 0 ∉ s) (hname : 0 ∉ name)
    (hlt : i + s.length < sz) (hsz : sz < 2 ^ 32) (hfuel : s.length < fuel) :
    Within {k | k < sz} m (stringTurn fuel sz name i) ∧ (stringTurn fuel sz name i).run m =
      if s = name then .leave (some true) else .again (i + s.length + 1) := by
  have hinside : ∀ k ≤ s.length, i + k ∈ {k | k < sz} := fun k hk =>
    (Nat.add_le_add_left hk i).trans_lt hlt
  have hstrcmp := within_strcmp h hname hinside
  have hequal : (strcmp i name).run m = true ↔ s = name := by
    rw [run_strcmp_iff]
    constructor
    · exact fun hhas => eq_of_has h hhas hs hname
    · rintro rfl
      rw [← List.singleton_append, ← List.append_assoc] at h
      exact (has_append.mp h).1
  rw [stringTurn, if_pos ((Nat.le_add_right i _).trans_lt hlt)]
  by_cases heq : s = name
  · rw [if_pos heq, Probe.within_bind, Probe.run_bind, hequal.mpr heq]
    exact ⟨⟨hstrcmp, Probe.within_pure _⟩, rfl⟩
  · obtain ⟨hwithin, hrun⟩ := meets_strlen h hs hfuel hinside
    have hwrap : ((i + s.length) % 2 ^ 32 + 1) % 2 ^ 32 = i + s.length + 1 := by
      rw [Nat.mod_eq_of_lt (hlt.trans hsz), Nat.mod_eq_of_lt (by omega)]
    rw [if_neg heq, Probe.within_bind, Probe.run_bind, Bool.eq_false_iff.mpr (mt hequal.mp heq)]
    simp only [Bool.false_eq_true, if_false, Probe.within_bind, Probe.run_bind, hrun, hwrap]
    exact ⟨⟨hstrcmp, hwithin, Probe.within_pure _⟩, rfl⟩

theorem mem_of_has (h : Has m i l) {k : ℕ} (hk : k < l.length) : m (i + k) ∈ l := by
  rw [has_iff_map] at h
  exact h ▸ List.mem_map.mpr ⟨k, List.mem_range.mpr hk, rfl⟩

/-- **A string without a terminator** is read beyond the end. -/
theorem not_within_stringTurn (h : Has m i t) (ht : 0 ∉ t) (hne : t ≠ []) (hend : i + t.length = sz)
    (hfuel : t.length < fuel) : ¬ Within {k | k < sz} m (stringTurn fuel sz name i) := by
  have hpos : 0 < t.length := List.length_pos_iff.mpr hne
  intro hwithin
  rw [stringTurn, if_pos (by omega), Probe.within_bind] at hwithin
  obtain ⟨hstrcmp, hrest⟩ := hwithin
  cases hrun : (strcmp i name).run m with
  | true =>
    -- the terminator that was found is not in the string
    have hlt : i + name.length < sz := mem_of_strcmp hstrcmp hrun
    have hzero : m (i + name.length) = 0 := (has_append.mp (run_strcmp_iff.mp hrun)).2.1
    exact ht (hzero ▸ mem_of_has h (by omega))
  | false =>
    rw [hrun, if_neg Bool.false_ne_true, Probe.within_bind] at hrest
    refine not_within_strlen h ht hfuel ?_ hrest.1
    exact hend.not_lt

variable {body : List UInt8} {n : ℕ} {Q : Option (Option Bool) → Prop}

/-- **Terminated strings** that are not the name are passed over. -/
theorem loop_body (hbody : Terminated 0 body) (h : Has m i (body ++ l)) (hname : 0 ∉ name)
    (hlisted : name ∉ entries 0 body) (hle : i + body.length ≤ sz) (hsz : sz < 2 ^ 32)
    (hfuel : body.length < fuel) :
    Meets {k | k < sz} m Q
        (Probe.loop (stringTurn fuel sz name) (n + (entries 0 body).length) i) ↔
      Meets {k | k < sz} m Q (Probe.loop (stringTurn fuel sz name) n (i + body.length)) := by
  induction hbody generalizing i with
  | nil => exact Iff.rfl
  | @cons s rest hs hrest ih =>
    rw [entries_append_cons hs, List.mem_cons, not_or] at hlisted
    rw [List.length_append, List.length_cons] at hle hfuel
    rw [List.append_assoc, List.cons_append] at h
    obtain ⟨hread, hturn⟩ := stringTurn_spec h hs hname (show i + s.length < sz by omega) hsz
      (show s.length < fuel by omega)
    rw [if_neg (Ne.symm hlisted.1)] at hturn
    have hbehind : Has m (i + s.length + 1) (rest ++ l) := (has_append.mp h).2.2
    have hnext : i + (s ++ 0 :: rest).length = i + s.length + 1 + rest.length := by
      rw [List.length_append, List.length_cons]
      omega
    rw [entries_append_cons hs, List.length_cons, ← Nat.add_assoc,
      Probe.meets_loop_again hread hturn, ih hbehind hlisted.2 (by omega) (by omega), hnext]

/-- **The name with a terminator** is found. -/
theorem loop_listed {before : List UInt8} (hbefore : Terminated 0 before)
    (h : Has m i (before ++ (name ++ 0 :: l))) (hname : 0 ∉ name)
    (hlt : i + before.length + name.length < sz) (hsz : sz < 2 ^ 32)
    (hfuel : before.length + name.length < fuel) (hn : before.length < n) :
    Meets {k | k < sz} m (· = some (some true)) (Probe.loop (stringTurn fuel sz name) n i) := by
  induction hbefore generalizing i n with
  | nil =>
    obtain ⟨n, rfl⟩ := Nat.exists_eq_succ_of_ne_zero hn.ne'
    obtain ⟨hread, hturn⟩ := stringTurn_spec h hname hname (by simpa using hlt) hsz
      (by simpa using hfuel)
    rw [if_pos rfl] at hturn
    exact (Probe.meets_loop_leave hread hturn).mpr rfl
  | @cons s rest hs hrest ih =>
    obtain ⟨n, rfl⟩ := Nat.exists_eq_succ_of_ne_zero (Nat.ne_zero_of_lt hn)
    rw [List.length_append, List.length_cons] at hlt hfuel hn
    rw [List.append_assoc, List.cons_append] at h
    obtain ⟨hread, hturn⟩ := stringTurn_spec h hs hname (show i + s.length < sz by omega) hsz
      (show s.length < fuel by omega)
    split_ifs at hturn with heq
    · exact (Probe.meets_loop_leave hread hturn).mpr rfl
    · rw [Probe.meets_loop_again hread hturn]
      exact ih (has_append.mp h).2.2 (by omega) (by omega) (by omega)

theorem has_memory (d : OSData) (behind : ℕ → UInt8) : Has (d.memory behind) 0 d.bytes := by
  rw [has_iff_map]
  refine List.ext_getElem (by simp) fun k _ hk => ?_
  simp [OSData.memory, hk]

/-! ## The call -/

section Call

variable {A : Allocations} {e : Entry} {d : OSData} {behind : ℕ → UInt8} {r : Option Bool}

theorem meets_contains (h : Meets d.inside (d.memory behind) (· = some r)
    (Probe.loop (stringTurn fuel d.bytes.length name) fuel 0)) :
    Meets d.inside (d.memory behind) (· = r) (contains fuel d.bytes.length name) := by
  rw [contains, Probe.meets_bind]
  refine ⟨h.1, Probe.meets_pure.mpr ?_⟩
  rw [h.2]
  rfl

/-- A name that is there with a terminator is found. -/
theorem contains_of_listed (hlisted : Listed 0 name d.bytes) (hname : 0 ∉ name)
    (hfuel : d.bytes.length < fuel) :
    Meets d.inside (d.memory behind) (· = some true) (contains fuel d.bytes.length name) := by
  apply meets_contains
  have hmemory := has_memory d behind
  obtain ⟨before, rest, hbefore, heq⟩ := hlisted
  have hlen : d.bytes.length = before.length + (name.length + (rest.length + 1)) := by
    rw [heq, List.length_append, List.length_append, List.length_cons]
  rw [heq] at hmemory
  exact loop_listed hbefore hmemory hname (by omega) d.length_lt (by omega) (by omega)

/-- Where all strings have terminators, a name that is not there is not found. -/
theorem contains_of_terminated (hterminated : Terminated 0 d.bytes)
    (hlisted : name ∉ entries 0 d.bytes) (hname : 0 ∉ name) (hfuel : d.bytes.length < fuel) :
    Meets d.inside (d.memory behind) (· = some false) (contains fuel d.bytes.length name) := by
  apply meets_contains
  have hmemory := has_memory d behind
  rw [← List.append_nil d.bytes] at hmemory
  have hle := length_entries_le (z := 0) d.bytes
  obtain ⟨n, hn⟩ := Nat.exists_eq_add_of_lt (hle.trans_lt hfuel)
  have hsplit : fuel = n + 1 + (entries 0 d.bytes).length := by omega
  have hend : stringTurn fuel d.bytes.length name (0 + d.bytes.length) =
      pure (.leave (some false)) := if_neg (by omega)
  have hloop := @loop_body _ _ d.bytes.length _ _ fuel d.bytes (n + 1) (· = some (some false))
    hterminated hmemory hname hlisted (by omega) d.length_lt hfuel
  rw [← hsplit] at hloop
  refine hloop.mpr ((Probe.meets_loop_leave ?_ ?_).mpr rfl)
  · rw [hend]
    exact Probe.within_pure _
  · rw [hend]
    rfl

/-- A string without a terminator is read beyond the property's end. -/
theorem not_within_contains {body t : List UInt8} (heq : d.bytes = body ++ t)
    (hbody : Terminated 0 body) (ht : 0 ∉ t) (hne : t ≠ []) (hlisted : name ∉ entries 0 body)
    (hname : 0 ∉ name) (hfuel : d.bytes.length < fuel) :
    ¬ Within d.inside (d.memory behind) (contains fuel d.bytes.length name) := by
  have hmemory := has_memory d behind
  rw [heq] at hmemory
  have hlen : d.bytes.length = body.length + t.length := by
    rw [heq, List.length_append]
  have hle := length_entries_le (z := 0) body
  obtain ⟨n, hn⟩ := Nat.exists_eq_add_of_lt (hle.trans_lt (show body.length < fuel by omega))
  have hsplit : fuel = n + 1 + (entries 0 body).length := by omega
  have hloop := @loop_body _ _ d.bytes.length _ _ fuel body (n + 1) (fun _ => True)
    hbody hmemory hname hlisted (by omega) d.length_lt (by omega)
  rw [← hsplit] at hloop
  intro hwithin
  rw [contains, Probe.within_bind] at hwithin
  have hrest := (hloop.mp ⟨hwithin.1, trivial⟩).1.first_turn
  exact not_within_stringTurn (has_append.mp hmemory).2 ht hne (by omega) (by omega) hrest

theorem renameDevice_eq : renameDevice A fuel (some { e with compatible := some d }) (some name) true =
    (do
      let r ← fixCompatible A fuel d name
      pure (r.map fun (ok, d) => (ok, some { name := name, compatible := some d }))) :=
  rfl

theorem isNull_of_listed (hlisted : Listed 0 name d.bytes) : d.isNull = false := by
  rw [Bool.eq_false_iff]
  intro hnull
  obtain ⟨before, rest, -, heq⟩ := hlisted
  rw [d.eq_nil hnull] at heq
  simp at heq

/-- **A name that is there** stays there, and nothing else changes. -/
theorem meets_of_listed (hlisted : Listed 0 name d.bytes) (hname : 0 ∉ name)
    (hfuel : d.bytes.length < fuel) : Meets d.inside (d.memory behind)
      (· = some (true, some { name := name, compatible := some d }))
      (renameDevice A fuel (some { e with compatible := some d }) (some name) true) := by
  obtain ⟨hwithin, hrun⟩ := @contains_of_listed _ _ _ behind hlisted hname hfuel
  rw [renameDevice_eq, fixCompatible, if_neg (by rw [isNull_of_listed hlisted]; decide)]
  simp only [Probe.meets_bind, Probe.within_bind, Probe.run_bind, hrun]
  exact ⟨⟨hwithin, Probe.within_pure _⟩, Probe.meets_pure.mpr rfl⟩

/-- A device with the name in its property is left alone by the next call. -/
theorem hasName_of_listed {d' : OSData} (hlisted : Listed 0 name d'.bytes) (hname : 0 ∉ name)
    (hentries : entries 0 d'.bytes = withName (entries 0 d.bytes) name) :
    HasName e d name { e with name := name, compatible := some d' } := by
  refine ⟨d', rfl, hentries, fun A behind => ⟨d'.bytes.length + 1, fun fuel hfuel => ⟨true, ?_⟩⟩⟩
  exact (@meets_of_listed _ _ A ⟨name, none⟩ d' behind hlisted hname hfuel).2

/-- What is left of the property if there is no overflow. -/
theorem bytes_append (hsize : d.bytes.length + (name.length + 1) < 2 ^ 32) :
    (d.append name).bytes = d.bytes ++ (name ++ [0]) := by
  have hlen : (name ++ [0]).length = name.length + 1 := by
    rw [List.length_append, List.length_singleton]
  rw [OSData.append]
  dsimp only
  rw [Nat.mod_eq_of_lt (by omega : name.length + 1 < 2 ^ 32), Nat.mod_eq_of_lt hsize, ← hlen,
    List.take_length, ← List.length_append, List.take_length]

/-- The sizes wrap to one that is too small. -/
theorem length_append_lt (hsize : ¬ d.bytes.length + (name.length + 1) < 2 ^ 32) :
    (d.append name).bytes.length < d.bytes.length + name.length := by
  have hle : (d.append name).bytes.length ≤
      (d.bytes.length + (name.length + 1) % 2 ^ 32) % 2 ^ 32 := List.length_take_le _ _
  rw [Nat.add_mod_mod] at hle
  omega

/-- **Room for the name**: it is put behind the strings. -/
theorem meets_of_terminated (hnull : d.isNull = false) (hterminated : Terminated 0 d.bytes)
    (hcreate : A.create = true) (hwith : A.withBytes = true) (hlisted : name ∉ entries 0 d.bytes)
    (hname : 0 ∉ name) (hfuel : d.bytes.length < fuel) : Meets d.inside (d.memory behind)
      (· = some (true, some { name := name, compatible := some (d.append name) }))
      (renameDevice A fuel (some { e with compatible := some d }) (some name) true) := by
  obtain ⟨hwithin, hrun⟩ := @contains_of_terminated _ _ _ behind hterminated hlisted hname hfuel
  rw [renameDevice_eq, fixCompatible, hnull, if_neg Bool.false_ne_true]
  simp only [Probe.meets_bind, Probe.within_bind, Probe.run_bind, hrun, hcreate, hwith]
  exact ⟨⟨hwithin, Probe.within_pure _⟩, Probe.meets_pure.mpr rfl⟩

theorem withName_of_notMem {strings : List CString} (h : name ∉ strings) :
    withName strings name = strings ++ [name] :=
  if_neg h

/-- A property that lacks the name has to change. -/
theorem ne_withName {strings : List CString} (h : name ∉ strings) :
    strings ≠ withName strings name := by
  rw [withName_of_notMem h]
  exact fun heq => by simpa using congrArg List.length heq

/-- What a device that is renamed says about its property. -/
theorem meets_fixCompatible (h : Meets d.inside (d.memory behind)
      (fun r => ∃ ok e', r = some (ok, some e') ∧ HasName e d name e')
      (renameDevice A fuel (some { e with compatible := some d }) (some name) true)) :
    Meets d.inside (d.memory behind) (fun r => ∃ ok d', r = some (ok, d') ∧
      entries 0 d'.bytes = withName (entries 0 d.bytes) name) (fixCompatible A fuel d name) := by
  rw [renameDevice_eq, Probe.meets_bind, Probe.meets_pure] at h
  obtain ⟨hwithin, ok, e', hrun, d', rfl, hentries, -⟩ := h
  obtain ⟨⟨ok', d''⟩, hfix, heq⟩ := Option.map_eq_some_iff.mp hrun
  simp only [Prod.mk.injEq, Option.some.injEq, Entry.mk.injEq, true_and] at heq
  obtain ⟨-, rfl⟩ := heq
  exact ⟨hwithin, ok', d'', hfix, hentries⟩

theorem renamable_of_renames (hname : 0 ∉ name) (h : Renames A e d behind name) :
    Renamable A d name := by
  obtain ⟨n, h⟩ := h
  refine or_iff_not_imp_left.mpr fun hlisted => ?_
  have hfuel : d.bytes.length < n + (d.bytes.length + 1) := by omega
  obtain ⟨hwithin, ok, d', hrun, hentries⟩ := meets_fixCompatible (h _ (Nat.le_add_right n _))
  rw [fixCompatible] at hwithin hrun
  cases hnull : d.isNull with
  | true =>
    -- there are no bytes, and nothing is put there
    rw [if_pos hnull] at hrun
    obtain ⟨-, rfl⟩ := Prod.mk.inj (Option.some.inj hrun)
    rw [d.eq_nil hnull] at hentries
    exact absurd hentries (ne_withName List.not_mem_nil)
  | false =>
    rw [hnull, if_neg Bool.false_ne_true] at hwithin hrun
    rw [Probe.within_bind] at hwithin
    obtain ⟨body, t, heq, hbody, ht⟩ := exists_terminated (z := 0) d.bytes
    have hterminated : Terminated 0 d.bytes := by
      by_cases hnil : t = []
      · rw [heq, hnil, List.append_nil]
        exact hbody
      · refine absurd hwithin.1 (not_within_contains heq hbody ht hnil (fun hmem => ?_) hname hfuel)
        obtain ⟨before, rest, hbefore, hsplit⟩ := (hbody.listed_iff hname).mpr hmem
        refine hlisted ⟨before, rest ++ t, hbefore, ?_⟩
        rw [heq, hsplit]
        simp
    have hnotMem : name ∉ entries 0 d.bytes := mt (hterminated.listed_iff hname).mpr hlisted
    have hcontains := (@contains_of_terminated _ _ _ behind hterminated hnotMem hname hfuel).2
    rw [Probe.run_bind, hcontains] at hrun
    by_cases hgranted : (A.create && A.withBytes) = true
    · simp only [hgranted, if_true, Probe.run_pure, Option.some.injEq, Prod.mk.injEq] at hrun
      obtain ⟨-, rfl⟩ := hrun
      rw [withName_of_notMem hnotMem] at hentries
      have hlen := length_of_entries_concat hentries
      rw [Bool.and_eq_true] at hgranted
      refine ⟨rfl, hterminated, hgranted.1, hgranted.2, ?_⟩
      by_contra hsize
      exact absurd hlen (not_le.mpr (length_append_lt hsize))
    · simp only [hgranted] at hrun
      obtain ⟨-, rfl⟩ := Prod.mk.inj (Option.some.inj hrun)
      exact absurd hentries (ne_withName hnotMem)

/-- **When the call does what it is for**: the name is in the property with a terminator, or all its
strings have terminators and there is room for the name. -/
theorem renames_iff (A : Allocations) (e : Entry) (d : OSData) (behind : ℕ → UInt8) (name : CString)
    (hname : 0 ∉ name) : Renames A e d behind name ↔ Renamable A d name := by
  constructor
  · exact renamable_of_renames hname
  · intro h
    refine ⟨d.bytes.length + 1, fun fuel hfuel => ?_⟩
    by_cases hlisted : Listed 0 name d.bytes
    · refine (meets_of_listed hlisted hname hfuel).imp ?_
      rintro r rfl
      refine ⟨true, _, rfl, hasName_of_listed hlisted hname (if_pos ?_).symm⟩
      exact hlisted.mem_entries hname
    · obtain ⟨hnull, hterminated, hcreate, hwith, hsize⟩ := h.resolve_left hlisted
      have hnotMem : name ∉ entries 0 d.bytes := mt (hterminated.listed_iff hname).mpr hlisted
      refine (meets_of_terminated hnull hterminated hcreate hwith hnotMem hname hfuel).imp ?_
      rintro r rfl
      refine ⟨true, _, rfl, hasName_of_listed ?_ hname ?_⟩
      · rw [bytes_append hsize]
        exact ⟨d.bytes, [], hterminated, rfl⟩
      · rw [bytes_append hsize, hterminated.entries_append, entries_append_cons hname,
          withName_of_notMem hnotMem]
        rfl

end Call

/-- A property with the terminated strings `ab` and the empty one. -/
def terminatedData : OSData where
  bytes := [97, 98, 0, 0]
  isNull := false
  eq_nil := nofun
  length_lt := by decide

theorem renames_iff_terminated :
    Renames ⟨true, true⟩ ⟨[], none⟩ terminatedData (fun _ => 0) [97] ↔
      Renamable ⟨true, true⟩ terminatedData [97] :=
  renames_iff ⟨true, true⟩ ⟨[], none⟩ terminatedData (fun _ => 0) [97] (by decide)

/-- A property with the string `b`, without a terminator. -/
def unterminatedData : OSData where
  bytes := [98]
  isNull := false
  eq_nil := nofun
  length_lt := by decide

/-- The string without a terminator is read beyond the property's end. -/
theorem not_renames_unterminated :
    ¬ Renames ⟨true, true⟩ ⟨[], none⟩ unterminatedData (fun _ => 0) [97] := by
  intro h
  rcases renamable_of_renames (by decide) h with ⟨before, rest, -, heq⟩ | ⟨-, hterminated, -⟩
  · have hlen := congrArg List.length heq
    simp only [unterminatedData, List.length_append, List.length_cons, List.length_nil] at hlen
    omega
  · rw [terminated_iff] at hterminated
    simp [unterminatedData] at hterminated

end Lilu.WIOKit
