import Lilu.Prelude.Loop
import Lilu.Prelude.Sweep
import Lilu.Config.Images
import Lilu.Mach.Running

/-!
# Lookup patches

A lookup patch replaces bytes in a running image wherever they are found. The search goes on from
the place of a rewrite, not behind it, and ends before the address that lies the patch's size before
the end of the range.

## Main definitions

* `LookupPatch`: what to find and to replace
* `places`, `endingAddress`: where the search begins, and where it ends
* `applyLookupPatch`: the call
* `referenceScan`: the rewrites at every place where the patch fits
-/

namespace Lilu.Patcher

open Lilu.Kext (KextInfo Error)
open Lilu.Configuration (KernelID)
open Lilu.MachInfo (Running HeaderSize)
open Lilu.Probe (span span_add)

/-- A patch: `kext` is null for the kernel, and a count of zero is none. -/
structure LookupPatch where
  kext : Option KextInfo
  find : List UInt8
  replace : List UInt8
  size : ℕ
  count : ℕ
  length_find : find.length = size
  length_replace : replace.length = size
  size_lt : size < 2 ^ 64

/-- A running image's header and size. -/
def getRunningPosition (kinfo : Running) : Addr × Addr :=
  (kinfo.running_mh, if 0 < kinfo.memory_size then kinfo.memory_size else BitVec.ofNat 64 HeaderSize)

/-- What a call reads and changes, and the places that it rewrites. -/
structure Patched where
  mem : Mem
  code : Error
  rewritten : List Addr := []

/-- What does not change: the loaded images, and whether the write protection is lifted and
restored. -/
structure LookupEnv where
  kinfos : ℕ → Running
  lifts : Bool
  drops : Bool

section Call

variable (patch : LookupPatch) (startingAddress maxSize : Addr)

/-- The image that is patched: its address and its size. The kernel's size is not known, so that it
is taken to reach the end of the address space. -/
def imageOf (env : LookupEnv) : Addr × Addr :=
  match patch.kext with
  | some kext => getRunningPosition (env.kinfos kext.loadIndex)
  | none =>
    let kextAddress := (getRunningPosition (env.kinfos KernelID)).1
    (kextAddress, BitVec.allOnes 64 - kextAddress)

/-- The address from which the search goes on. -/
def firstAddress (image : Addr × Addr) : Addr :=
  if image.1 < startingAddress then startingAddress else image.1

/-- The address at which the search ends. The sum and the difference are those of the machine. -/
def endingAddress (image : Addr × Addr) : Addr :=
  let endingAddress := image.1 + image.2
  let endingAddress :=
    if 0 < maxSize ∧ startingAddress + maxSize < endingAddress then startingAddress + maxSize
    else endingAddress
  endingAddress - BitVec.ofNat 64 patch.size

/-- `memcmp` finds no difference. -/
def found (mem : Mem) (a : Addr) : Bool :=
  load mem a patch.size = patch.find

/-- The state of the loops. -/
structure Lookup where
  i : ℕ := 0
  currentAddress : Addr
  mem : Mem
  changes : ℕ := 0
  rewritten : List Addr := []

/-- The state before the loops. -/
def Lookup.start (image : Addr × Addr) (mem : Mem) : Lookup where
  currentAddress := firstAddress startingAddress image
  mem := mem

/-- The bytes at an address are replaced; the loop's counter goes on. -/
def Lookup.rewriteAt (s : Lookup) (a : Addr) : Lookup where
  i := s.i + 1
  currentAddress := a
  mem := store s.mem a patch.replace
  changes := s.changes + 1
  rewritten := s.rewritten ++ [a]

/-- One pass: the next occurrence is looked for, and rewritten if there is one. The place of a
rewrite is looked at again by the next pass. -/
def lookupTurn (endingAddress : Addr) (s : Lookup) : Turn Lookup Lookup :=
  if s.currentAddress < endingAddress ∧ (s.i < patch.count ∨ patch.count = 0) then
    let a := seek (found patch s.mem) (· + 1) (endingAddress - s.currentAddress).toNat
      s.currentAddress
    if a ≠ endingAddress then .again (s.rewriteAt patch a)
    else .again { s with i := s.i + 1, currentAddress := a }
  else .leave s

/-- A patch for a kext that is not loaded is refused. -/
def LookupPatch.Loaded : Prop :=
  ∀ kext, patch.kext = some kext → kext.loadIndex ≠ KextInfo.Unloaded

instance : Decidable patch.Loaded :=
  match h : patch.kext with
  | none => isTrue fun _ hk => by rw [h] at hk; cases hk
  | some kext =>
    decidable_of_iff (kext.loadIndex ≠ KextInfo.Unloaded)
      ⟨fun hne k hk => by rw [h] at hk; cases hk; exact hne, fun hall => hall kext h⟩

end Call

/-- `applyLookupPatch`; none if the fuel for its loop is used up. -/
def applyLookupPatch (env : LookupEnv) (fuel : ℕ) (patch : Option LookupPatch)
    (startingAddress maxSize : Addr) (s : Patched) : Option Patched :=
  match patch with
  | none => some { s with code := .MemoryIssue }
  | some patch =>
    if ¬ patch.Loaded then some { s with code := .MemoryIssue }
    else if ¬ env.lifts then some { s with code := .MemoryProtection }
    else
      let image := imageOf patch env
      (loop (lookupTurn patch (endingAddress patch startingAddress maxSize image)) fuel
        (.start startingAddress image s.mem)).map fun r =>
          let code :=
            if ¬ env.drops then .MemoryProtection
            else if r.changes ≠ patch.count then .MemoryIssue
            else s.code
          ⟨r.mem, code, s.rewritten ++ r.rewritten⟩

/-! ## The loops are a sweep -/

section Scan

variable (patch : LookupPatch)

/-- Whether the count allows another rewrite. -/
def more (n : ℕ) : Bool :=
  n < patch.count ∨ patch.count = 0

/-- The sweep over some places. -/
def scanFrom : List Addr → Mem × List Addr → Mem × List Addr :=
  sweep (more patch) (found patch) fun mem a => store mem a patch.replace

variable {patch} {endAddr a : Addr} {mem : Mem} {s : Lookup}

/-- What was written is not found any more. -/
theorem found_store (hne : patch.find ≠ patch.replace) :
    found patch (store mem a patch.replace) a = false := by
  have hload : load (store mem a patch.replace) a patch.size = patch.replace := by
    have hlen := patch.length_replace
    rw [← hlen]
    exact load_store (hlen ▸ patch.size_lt.le)
  rw [found, hload, decide_eq_false_iff_not]
  exact hne.symm

theorem iterate_succ (a : Addr) (n : ℕ) : (· + 1)^[n] a = a + BitVec.ofNat 64 n := by
  induction n with
  | zero => simp
  | succ n ih =>
    rw [Function.iterate_succ_apply', ih, BitVec.add_assoc, BitVec.ofNat_add]
    rfl

/-- **Where the inner loop ends**: at the first occurrence, or at the end. -/
theorem seek_found (hlt : a < endAddr) :
    ∃ j ≤ endAddr.toNat - a.toNat,
      seek (found patch mem) (· + 1) (endAddr - a).toNat a = a + BitVec.ofNat 64 j ∧
      (∀ p ∈ span a j, found patch mem p = false) ∧
      (j < endAddr.toNat - a.toNat → found patch mem (a + BitVec.ofNat 64 j) = true) := by
  have hsub : (endAddr - a).toNat = endAddr.toNat - a.toNat :=
    BitVec.toNat_sub_of_le (BitVec.le_of_lt hlt)
  obtain ⟨j, hj, hseek, hbefore, hat⟩ := seek_spec (found patch mem) (· + 1) (endAddr - a).toNat a
  rw [hsub] at hj hat
  refine ⟨j, hj, by rw [hseek, iterate_succ], fun p hp => ?_, fun h => iterate_succ a j ▸ hat h⟩
  obtain ⟨i, hi, rfl⟩ := List.mem_map.mp hp
  rw [← iterate_succ]
  exact hbefore i (List.mem_range.mp hi)

theorem toNat_place {j : ℕ} (hj : j ≤ endAddr.toNat - a.toNat) (hlt : a < endAddr) :
    (a + BitVec.ofNat 64 j).toNat = a.toNat + j := by
  have hlt := BitVec.lt_def.mp hlt
  have hend := endAddr.isLt
  rw [BitVec.toNat_add, BitVec.toNat_ofNat, Nat.mod_eq_of_lt (show j < 2 ^ 64 by omega),
    Nat.mod_eq_of_lt (by omega)]

/-- **What a pass can do**: the loop is left, or there is no occurrence up to the end, or the first
occurrence is rewritten. -/
theorem lookupTurn_cases (patch : LookupPatch) (endAddr : Addr) (s : Lookup) :
    (¬ (s.currentAddress < endAddr ∧ more patch s.i = true) ∧
      lookupTurn patch endAddr s = .leave s) ∨
    (s.currentAddress < endAddr ∧ more patch s.i = true ∧
      (∀ p ∈ span s.currentAddress (endAddr.toNat - s.currentAddress.toNat),
        found patch s.mem p = false) ∧
      lookupTurn patch endAddr s = .again { s with i := s.i + 1, currentAddress := endAddr }) ∨
    ∃ j < endAddr.toNat - s.currentAddress.toNat, s.currentAddress < endAddr ∧
      more patch s.i = true ∧ (∀ p ∈ span s.currentAddress j, found patch s.mem p = false) ∧
      found patch s.mem (s.currentAddress + BitVec.ofNat 64 j) = true ∧
      lookupTurn patch endAddr s =
        .again (s.rewriteAt patch (s.currentAddress + BitVec.ofNat 64 j)) := by
  have hdecide : more patch s.i = true ↔ s.i < patch.count ∨ patch.count = 0 := decide_eq_true_iff
  by_cases hgo : s.currentAddress < endAddr ∧ more patch s.i = true
  case neg =>
    refine .inl ⟨hgo, ?_⟩
    rw [lookupTurn, if_neg (by rwa [hdecide] at hgo)]
  obtain ⟨hlt, hmore⟩ := hgo
  have hnat := BitVec.lt_def.mp hlt
  obtain ⟨j, hj, hseek, hbefore, hat⟩ := @seek_found patch endAddr s.currentAddress s.mem hlt
  rw [lookupTurn, if_pos ⟨hlt, hdecide.mp hmore⟩, hseek]
  have hplace := toNat_place hj hlt
  rcases hj.lt_or_eq with hj | hj
  · have hne : s.currentAddress + BitVec.ofNat 64 j ≠ endAddr := fun h => by
      rw [h] at hplace
      omega
    exact .inr (.inr ⟨j, hj, hlt, hmore, hbefore, hat hj, if_pos hne⟩)
  · have heq : s.currentAddress + BitVec.ofNat 64 j = endAddr := BitVec.eq_of_toNat_eq (by omega)
    rw [hj] at hbefore
    refine .inr (.inl ⟨hlt, hmore, hbefore, ?_⟩)
    rw [heq]
    exact if_neg fun h => h rfl

/-- A pass after which the loop goes on has reached the end, or has rewritten something. -/
theorem lookupTurn_again {s' : Lookup} (h : lookupTurn patch endAddr s = .again s') :
    more patch s.i = true ∧
    ((∀ p ∈ span s.currentAddress (endAddr.toNat - s.currentAddress.toNat),
        found patch s.mem p = false) ∧ s' = { s with i := s.i + 1, currentAddress := endAddr } ∨
      ∃ a, s' = s.rewriteAt patch a) := by
  rcases lookupTurn_cases patch endAddr s with ⟨-, hturn⟩ | ⟨-, hmore, hno, hturn⟩ |
    ⟨j, -, -, hmore, -, -, hturn⟩ <;> rw [hturn] at h
  · cases h
  · exact ⟨hmore, .inl ⟨hno, (Turn.again.inj h).symm⟩⟩
  · exact ⟨hmore, .inr ⟨_, (Turn.again.inj h).symm⟩⟩

/-- The loop is left where it is. -/
theorem lookupTurn_leave {r : Lookup} (h : lookupTurn patch endAddr s = .leave r) :
    r = s ∧ ¬ (s.currentAddress < endAddr ∧ more patch s.i = true) := by
  rcases lookupTurn_cases patch endAddr s with ⟨hstop, hturn⟩ | ⟨-, -, -, hturn⟩ |
    ⟨j, -, -, -, -, -, hturn⟩ <;> rw [hturn] at h
  · exact ⟨(Turn.leave.inj h).symm, hstop⟩
  · cases h
  · cases h

/-- How many places are looked at. -/
def left (endAddr : Addr) (s : Lookup) : ℕ :=
  endAddr.toNat - s.currentAddress.toNat

/-- Places are left only before the end. -/
theorem lt_of_mem_left {p : Addr} (hp : p ∈ span s.currentAddress (left endAddr s)) :
    s.currentAddress < endAddr := by
  by_contra hend
  rw [BitVec.lt_def, not_lt] at hend
  rw [left, Nat.sub_eq_zero_of_le hend] at hp
  exact absurd hp List.not_mem_nil

theorem span_succ (a : Addr) (n : ℕ) : span a (n + 1) = a :: span (a + 1) n := by
  rw [Nat.add_comm, span_add n]
  simp [span]

/-- Where nothing is found, nothing is rewritten. -/
theorem scanFrom_of_not_found {ps : List Addr} {r : Mem × List Addr}
    (h : ∀ p ∈ ps, found patch r.1 p = false) : scanFrom patch ps r = r :=
  sweep_of_not fun p hp hhit => absurd hhit.2 (Bool.eq_false_iff.mp (h p hp))

/-- The first occurrence is rewritten, and the scan goes on there or behind it. -/
theorem scanFrom_span_of_found (hne : patch.find ≠ patch.replace) {j n : ℕ} (hj : j < n)
    {log : List Addr} (hmore : more patch log.length = true)
    (hbefore : ∀ p ∈ span a j, found patch mem p = false)
    (hat : found patch mem (a + BitVec.ofNat 64 j) = true) :
    scanFrom patch (span a n) (mem, log) = scanFrom patch (span (a + BitVec.ofNat 64 j) (n - j))
      (store mem (a + BitVec.ofNat 64 j) patch.replace, log ++ [a + BitVec.ofNat 64 j]) := by
  obtain ⟨k, rfl⟩ := Nat.exists_eq_add_of_lt hj
  have hpre : sweep (more patch) (found patch) (fun mem a => store mem a patch.replace) (span a j)
      (mem, log) = (mem, log) := scanFrom_of_not_found hbefore
  rw [show j + k + 1 - j = k + 1 by omega, Nat.add_assoc, span_add, span_succ, scanFrom, sweep_append,
    hpre, sweep_cons, sweep_cons, sweepStep_of_hit hmore hat, sweepStep_of_not fun h => ?_]
  exact Bool.eq_false_iff.mp (found_store hne) h.2

/-- Without an occurrence up to the end the loop ends, and changes nothing. -/
theorem loop_not_found (hno : ∀ p ∈ span s.currentAddress (left endAddr s), found patch s.mem p = false) :
    ∃ n r, loop (lookupTurn patch endAddr) n s = some r ∧ r.mem = s.mem ∧
      r.rewritten = s.rewritten ∧ r.changes = s.changes := by
  rcases lookupTurn_cases patch endAddr s with ⟨-, hturn⟩ | ⟨-, -, -, hturn⟩ |
    ⟨j, hj, -, -, -, hat, -⟩
  · exact ⟨1, s, loop_succ_leave hturn 0, rfl, rfl, rfl⟩
  · refine ⟨2, { s with i := s.i + 1, currentAddress := endAddr }, ?_, rfl, rfl, rfl⟩
    rw [loop_succ_again hturn]
    -- the loop is left at the end
    rcases lookupTurn_cases patch endAddr { s with i := s.i + 1, currentAddress := endAddr } with
      ⟨-, hturn⟩ | ⟨hlt, -⟩ | ⟨_, _, hlt, -⟩
    · exact loop_succ_leave hturn 0
    · exact absurd hlt (BitVec.lt_irrefl _)
    · exact absurd hlt (BitVec.lt_irrefl _)
  · have hmem : s.currentAddress + BitVec.ofNat 64 j ∈ span s.currentAddress (left endAddr s) :=
      List.mem_map.mpr ⟨j, List.mem_range.mpr hj, rfl⟩
    exact absurd hat (Bool.eq_false_iff.mp (hno _ hmem))

/-- **The loops are a sweep** over the places from the current one up to the end. -/
theorem loop_scanFrom (hne : patch.find ≠ patch.replace) (hi : s.i = s.rewritten.length)
    (hchanges : s.changes = s.rewritten.length) :
    ∃ n r, loop (lookupTurn patch endAddr) n s = some r ∧ r.changes = r.rewritten.length ∧
      (r.mem, r.rewritten) =
        scanFrom patch (span s.currentAddress (left endAddr s)) (s.mem, s.rewritten) := by
  -- a rewrite leaves the place where it is, but nothing is found there again
  induction hμ : 2 * left endAddr s + (if found patch s.mem s.currentAddress then 1 else 0)
    using Nat.strong_induction_on generalizing s with
  | _ μ ih =>
    rcases lookupTurn_cases patch endAddr s with ⟨hstop, hturn⟩ | ⟨hlt, hmore, hno, hturn⟩ |
      ⟨j, hj, hlt, hmore, hbefore, hat, hturn⟩
    · refine ⟨1, s, loop_succ_leave hturn 0, hchanges, ?_⟩
      rw [not_and_or] at hstop
      refine (sweep_of_not ?_).symm
      rintro p hp ⟨hmore, -⟩
      rcases hstop with hend | hdone
      · exact hend (lt_of_mem_left hp)
      · exact hdone (hi ▸ hmore)
    · obtain ⟨n, r, hr, hmem, hlog, hcount⟩ := loop_not_found hno
      refine ⟨n, r, hr, by rw [hcount, hlog, hchanges], ?_⟩
      rw [hmem, hlog]
      exact (scanFrom_of_not_found hno).symm
    · have hplace := toNat_place hj.le hlt
      have hleft : left endAddr (s.rewriteAt patch (s.currentAddress + BitVec.ofNat 64 j)) =
          left endAddr s - j := by
        simp only [left, Lookup.rewriteAt, hplace]
        omega
      have hdecreases : 2 * left endAddr (s.rewriteAt patch (s.currentAddress + BitVec.ofNat 64 j)) +
          (if found patch (s.rewriteAt patch (s.currentAddress + BitVec.ofNat 64 j)).mem
            (s.currentAddress + BitVec.ofNat 64 j) then 1 else 0) < μ := by
        rw [hleft, Lookup.rewriteAt, found_store hne, ← hμ]
        rcases Nat.eq_zero_or_pos j with rfl | hpos
        · rw [BitVec.add_zero] at hat
          simp [hat]
        · have hpos' : j ≤ left endAddr s := hj.le
          simp only [Bool.false_eq_true, if_false]
          omega
      obtain ⟨n, r, hr, hlen, hscan⟩ := ih _ hdecreases (by simp [Lookup.rewriteAt, hi])
        (by simp [Lookup.rewriteAt, hchanges]) rfl
      refine ⟨n + 1, r, (loop_succ_again hturn n).trans hr, hlen, ?_⟩
      rw [hscan, hleft]
      exact (scanFrom_span_of_found hne hj (hi ▸ hmore) hbefore hat).symm

/-! ## Ends of the loops -/

/-- **A limited patch**: the loop ends, with no more rewrites than the count allows. -/
theorem loop_limited (hcount : patch.count ≠ 0) (hi : s.i ≤ patch.count) (hle : s.changes ≤ s.i)
    (hchanges : s.changes = s.rewritten.length) :
    ∃ n r, loop (lookupTurn patch endAddr) n s = some r ∧ r.changes = r.rewritten.length ∧
      r.changes ≤ patch.count := by
  let Inv (s : Lookup) : Prop :=
    s.i ≤ patch.count ∧ s.changes ≤ s.i ∧ s.changes = s.rewritten.length
  have hagain : ∀ s s', Inv s → lookupTurn patch endAddr s = .again s' →
      Inv s' ∧ patch.count - s'.i < patch.count - s.i := by
    rintro s s' ⟨hi, hle, hchanges⟩ hturn
    obtain ⟨hmore, ⟨-, rfl⟩ | ⟨a, rfl⟩⟩ := lookupTurn_again hturn
    · have hlt := (of_decide_eq_true hmore).resolve_right hcount
      exact ⟨⟨hlt, hle.trans (Nat.le_succ _), hchanges⟩, by dsimp only; omega⟩
    · have hlt := (of_decide_eq_true hmore).resolve_right hcount
      refine ⟨⟨hlt, Nat.succ_le_succ hle, ?_⟩, by simp only [Lookup.rewriteAt]; omega⟩
      simp [Lookup.rewriteAt, hchanges]
  have hleave : ∀ s r, Inv s → lookupTurn patch endAddr s = .leave r →
      r.changes = r.rewritten.length ∧ r.changes ≤ patch.count := by
    rintro s r ⟨hi, hle, hchanges⟩ hturn
    obtain ⟨rfl, -⟩ := lookupTurn_leave hturn
    exact ⟨hchanges, hle.trans hi⟩
  obtain ⟨r, hr, hpost⟩ := loop_spec _ Inv _ _ hagain hleave ⟨hi, hle, hchanges⟩ (Nat.lt_succ_self _)
  exact ⟨_, r, hr, hpost⟩

/-- **An unlimited patch** that is found has rewritten something if the loop ends. -/
theorem loop_unlimited (hcount : patch.count = 0) {n : ℕ} {r : Lookup}
    (hfound : ∃ p ∈ span s.currentAddress (left endAddr s), found patch s.mem p = true)
    (hr : loop (lookupTurn patch endAddr) n s = some r) : r.changes ≠ 0 := by
  let Inv (s : Lookup) : Prop :=
    s.changes ≠ 0 ∨ ∃ p ∈ span s.currentAddress (left endAddr s), found patch s.mem p = true
  let Post (r : Lookup) : Prop := r.changes ≠ 0
  show Post r
  refine loop_partial Inv ?_ ?_ (.inr hfound) hr
  · rintro s s' hinv hturn
    obtain ⟨-, ⟨hno, rfl⟩ | ⟨a, rfl⟩⟩ := lookupTurn_again hturn
    · refine hinv.imp_right ?_
      rintro ⟨p, hp, hat⟩
      exact absurd hat (Bool.eq_false_iff.mp (hno p hp))
    · exact .inl (Nat.succ_ne_zero _)
  · rintro s r hinv hturn
    obtain ⟨rfl, hstop⟩ := lookupTurn_leave hturn
    refine hinv.resolve_right ?_
    rintro ⟨p, hp, -⟩
    -- without a count the loop is only left at the end
    exact hstop ⟨lt_of_mem_left hp, decide_eq_true (.inr hcount)⟩

/-- **An unlimited patch that replaces bytes by themselves** is found again and again. -/
theorem loop_endless (hcount : patch.count = 0) (hsame : patch.find = patch.replace)
    (hfound : ∃ p ∈ span s.currentAddress (left endAddr s), found patch s.mem p = true) (n : ℕ) :
    loop (lookupTurn patch endAddr) n s = none := by
  refine loop_never (fun s => ∃ p ∈ span s.currentAddress (left endAddr s),
    found patch s.mem p = true) ?_ hfound
  rintro s ⟨p, hp, hat⟩
  rcases lookupTurn_cases patch endAddr s with ⟨hstop, -⟩ | ⟨-, -, hno, -⟩ |
    ⟨j, hj, hlt, -, -, hfirst, hturn⟩
  · exact absurd ⟨lt_of_mem_left hp, decide_eq_true (.inr hcount)⟩ hstop
  · exact absurd hat (Bool.eq_false_iff.mp (hno p hp))
  · refine ⟨_, hturn, s.currentAddress + BitVec.ofNat 64 j, ?_, ?_⟩
    · have hplace := toNat_place hj.le hlt
      refine List.mem_map.mpr ⟨0, List.mem_range.mpr ?_, by simp [Lookup.rewriteAt]⟩
      simp only [left, Lookup.rewriteAt, hplace]
      omega
    · have hbytes := of_decide_eq_true hfirst
      have hstore : (s.rewriteAt patch (s.currentAddress + BitVec.ofNat 64 j)).mem = s.mem := by
        rw [Lookup.rewriteAt, ← hsame, ← hbytes, store_load]
      rw [hstore]
      exact hfirst

end Scan

/-! ## The call -/

section Outcome

variable (env : LookupEnv) (patch : LookupPatch) (startingAddress maxSize : Addr)

/-- The places that the loops look at. -/
def places : List Addr :=
  span (firstAddress startingAddress (imageOf patch env))
    ((endingAddress patch startingAddress maxSize (imageOf patch env)).toNat -
      (firstAddress startingAddress (imageOf patch env)).toNat)

/-- The loops of a call. -/
def loops (fuel : ℕ) (mem : Mem) : Option Lookup :=
  loop (lookupTurn patch (endingAddress patch startingAddress maxSize (imageOf patch env))) fuel
    (.start startingAddress (imageOf patch env) mem)

/-- A call that can change the image: how its loops leave the memory and the error code. -/
theorem applyLookupPatch_eq_some {fuel : ℕ} {s s' : Patched} (hvalid : patch.Loaded)
    (hlifts : env.lifts = true) :
    applyLookupPatch env fuel (some patch) startingAddress maxSize s = some s' ↔
      ∃ r, loops env patch startingAddress maxSize fuel s.mem = some r ∧
        s' = ⟨r.mem, if ¬ env.drops then .MemoryProtection
          else if r.changes ≠ patch.count then .MemoryIssue else s.code,
          s.rewritten ++ r.rewritten⟩ := by
  simp only [applyLookupPatch, hvalid, hlifts, not_true_eq_false, if_false, Option.map_eq_some_iff]
  exact exists_congr fun r => and_congr_right fun _ => eq_comm

variable {env patch startingAddress maxSize}

theorem loops_end_iff {mem : Mem} :
    (∃ fuel r, loops env patch startingAddress maxSize fuel mem = some r) ↔
      ¬ (patch.count = 0 ∧ patch.find = patch.replace ∧
        ∃ a ∈ places env patch startingAddress maxSize, found patch mem a = true) := by
  constructor
  · rintro ⟨fuel, r, hr⟩ ⟨hcount, hsame, hfound⟩
    exact absurd (hr.symm.trans (loop_endless
      (s := .start startingAddress (imageOf patch env) mem) hcount hsame hfound fuel)) (by simp)
  · intro h
    by_cases hcount : patch.count = 0
    · by_cases hsame : patch.find = patch.replace
      · have hno : ∀ p ∈ places env patch startingAddress maxSize, found patch mem p = false :=
          fun p hp => Bool.eq_false_iff.mpr fun hat => h ⟨hcount, hsame, p, hp, hat⟩
        obtain ⟨n, r, hr, -⟩ := loop_not_found (s := .start startingAddress (imageOf patch env) mem) hno
        exact ⟨n, r, hr⟩
      · obtain ⟨n, r, hr, -⟩ := loop_scanFrom hsame (s := .start startingAddress (imageOf patch env) mem) rfl rfl
        exact ⟨n, r, hr⟩
    · obtain ⟨n, r, hr, -⟩ := loop_limited hcount (s := .start startingAddress (imageOf patch env) mem)
        (Nat.zero_le _) le_rfl rfl
      exact ⟨n, r, hr⟩

/-- What an unlimited patch leaves if it is found. -/
theorem changes_of_found {fuel : ℕ} {mem : Mem} {r : Lookup} (hcount : patch.count = 0)
    (hfound : ∃ a ∈ places env patch startingAddress maxSize, found patch mem a = true)
    (hr : loops env patch startingAddress maxSize fuel mem = some r) : r.changes ≠ 0 :=
  loop_unlimited (s := .start startingAddress (imageOf patch env) mem) hcount hfound hr

end Outcome

/-! ## A kext of two pages -/

/-- A kext that is loaded, with ones in its memory. -/
def loadedKext : KextInfo where
  id := []
  paths := []
  sys := fun _ => false
  loadIndex := 1

def twoPages : LookupEnv where
  kinfos := fun _ => { running_mh := 0xFFFFFF8000200000, memory_size := 0x2000 }
  lifts := true
  drops := true

/-- A one is replaced by another byte, at most `count` times. -/
def patchOne (replace : UInt8) (count : ℕ) : LookupPatch where
  kext := some loadedKext
  find := [1]
  replace := [replace]
  size := 1
  count := count
  length_find := rfl
  length_replace := rfl
  size_lt := by decide

theorem loaded_patchOne (replace : UInt8) (count : ℕ) : (patchOne replace count).Loaded := by
  rintro kext ⟨⟩
  decide

/-- The first byte of the kext is looked at, and found. -/
theorem found_patchOne (replace : UInt8) (count : ℕ) :
    ∃ a ∈ places twoPages (patchOne replace count) 0 0,
      found (patchOne replace count) (fun _ => 1) a = true := by
  have hfirst : firstAddress 0 (imageOf (patchOne replace count) twoPages) = 0xFFFFFF8000200000 := rfl
  have hlast : endingAddress (patchOne replace count) 0 0 (imageOf (patchOne replace count) twoPages) =
      0xFFFFFF8000201FFF := by
    simp [endingAddress, imageOf, patchOne, twoPages, getRunningPosition]
  refine ⟨0xFFFFFF8000200000, ?_, by simp [found, load, patchOne]⟩
  rw [places, hfirst, hlast]
  exact List.mem_map.mpr ⟨0, List.mem_range.mpr (by decide), BitVec.add_zero _⟩

/-- **When a call ends**: always, but for an unlimited patch that is found and replaces its bytes by
themselves. -/
theorem applyLookupPatch_ends_iff (env : LookupEnv) (startingAddress maxSize : Addr)
    (patch : Option LookupPatch) (s : Patched) :
    (∃ fuel s', applyLookupPatch env fuel patch startingAddress maxSize s = some s') ↔
      ¬ ∃ p, patch = some p ∧ p.Loaded ∧ env.lifts = true ∧ p.count = 0 ∧ p.find = p.replace ∧
        ∃ a ∈ places env p startingAddress maxSize, found p s.mem a = true := by
  cases patch with
  | none =>
    refine ⟨?_, fun _ => ⟨0, _, rfl⟩⟩
    rintro - ⟨p, hp, -⟩
    cases hp
  | some p =>
    by_cases hvalid : p.Loaded
    case neg =>
      refine ⟨?_, fun _ => ⟨0, _, by rw [applyLookupPatch, if_pos hvalid]⟩⟩
      rintro - ⟨q, hq, hloaded, -⟩
      cases hq
      exact hvalid hloaded
    by_cases hlifts : env.lifts = true
    case neg =>
      refine ⟨?_, fun _ => ⟨0, _, by rw [applyLookupPatch, if_neg (not_not.mpr hvalid), if_pos hlifts]⟩⟩
      rintro - ⟨q, -, -, hq, -⟩
      exact hlifts hq
    -- the call ends if and only if its loops do
    have hloops : (∃ fuel s', applyLookupPatch env fuel (some p) startingAddress maxSize s = some s') ↔
        ∃ fuel r, loops env p startingAddress maxSize fuel s.mem = some r := by
      simp only [applyLookupPatch_eq_some env p startingAddress maxSize hvalid hlifts]
      constructor
      · rintro ⟨fuel, s', r, hr, -⟩
        exact ⟨fuel, r, hr⟩
      · rintro ⟨fuel, r, hr⟩
        exact ⟨fuel, _, r, hr, rfl⟩
    rw [hloops, loops_end_iff, not_iff_not]
    constructor
    · rintro ⟨hcount, hsame, hfound⟩
      exact ⟨p, rfl, hvalid, hlifts, hcount, hsame, hfound⟩
    · rintro ⟨q, hq, -, -, hcount, hsame, hfound⟩
      cases hq
      exact ⟨hcount, hsame, hfound⟩

/-- A patch that replaces ones by ones, as often as they are found, does not end. -/
theorem not_applyLookupPatch_ends_one : ¬ ∃ fuel s', applyLookupPatch twoPages fuel
    (some (patchOne 1 0)) 0 0 ⟨fun _ => 1, .NoError, []⟩ = some s' := by
  rintro ⟨fuel, s', hs'⟩
  obtain ⟨r, hr, -⟩ := (applyLookupPatch_eq_some twoPages (patchOne 1 0) 0 0 (loaded_patchOne 1 0)
    rfl).mp hs'
  exact loops_end_iff.mp ⟨fuel, r, hr⟩ ⟨rfl, rfl, found_patchOne 1 0⟩

/-- **The error code**: a call sets it exactly if a limited patch was applied too few times, unless
the patch is not limited and is found. -/
theorem applyLookupPatch_code_iff (env : LookupEnv) (patch : LookupPatch)
    (startingAddress maxSize : Addr) (mem : Mem) (hvalid : patch.Loaded) (hlifts : env.lifts = true)
    (hdrops : env.drops = true) :
    (∀ code, ∃ fuel s', applyLookupPatch env fuel (some patch) startingAddress maxSize
        ⟨mem, code, []⟩ = some s' ∧
      s'.code = if 0 < patch.count ∧ s'.rewritten.length < patch.count then .MemoryIssue else code) ↔
    patch.count ≠ 0 ∨
      ∀ a ∈ places env patch startingAddress maxSize, found patch mem a = false := by
  have hcall := fun code fuel s' => @applyLookupPatch_eq_some env patch startingAddress maxSize fuel
    ⟨mem, code, []⟩ s' hvalid hlifts
  constructor
  · intro h
    by_contra hnot
    rw [not_or, not_not] at hnot
    obtain ⟨hcount, hall⟩ := hnot
    obtain ⟨a, hat⟩ := not_forall.mp hall
    obtain ⟨ha, hat⟩ := Classical.not_imp.mp hat
    obtain ⟨fuel, s', hs', hcode⟩ := h .NoError
    obtain ⟨r, hr, rfl⟩ := (hcall _ _ _).mp hs'
    have hchanges : r.changes ≠ 0 :=
      changes_of_found hcount ⟨a, ha, Bool.not_eq_false _ ▸ hat⟩ hr
    -- an unlimited patch should not report an error, but any rewrite is taken for one
    simp [hdrops, hcount, hchanges] at hcode
  · intro h code
    by_cases hcount : patch.count = 0
    · obtain ⟨n, r, hr, hmem, hlog, hchanges⟩ :=
        loop_not_found (s := .start startingAddress (imageOf patch env) mem) (h.resolve_left (not_not.mpr hcount))
      refine ⟨n, _, (hcall _ _ _).mpr ⟨r, hr, rfl⟩, ?_⟩
      simp [hdrops, hcount, hchanges, Lookup.start]
    · obtain ⟨n, r, hr, hchanges, hle⟩ := loop_limited hcount
        (s := .start startingAddress (imageOf patch env) mem)
        (Nat.zero_le _) le_rfl rfl
      refine ⟨n, _, (hcall _ _ _).mpr ⟨r, hr, rfl⟩, ?_⟩
      rw [hchanges] at hle
      simp only [hdrops, not_true_eq_false, if_false, hchanges, List.nil_append]
      rcases hle.lt_or_eq with hlt | heq
      · rw [if_pos hlt.ne, if_pos ⟨Nat.pos_of_ne_zero hcount, hlt⟩]
      · rw [if_neg (not_not.mpr heq), if_neg fun hlt => absurd hlt.2 (not_lt.mpr heq.ge)]

/-- A patch that is applied once. -/
theorem applyLookupPatch_code_one : ∃ fuel s', applyLookupPatch twoPages fuel
      (some (patchOne 2 1)) 0 0 ⟨fun _ => 1, .NoError, []⟩ = some s' ∧
    s'.code = if 0 < 1 ∧ s'.rewritten.length < 1 then .MemoryIssue else .NoError :=
  (applyLookupPatch_code_iff twoPages (patchOne 2 1) 0 0 (fun _ => 1) (loaded_patchOne 2 1) rfl
    rfl).mpr (.inl one_ne_zero) .NoError

/-- A patch that is not limited reports an error where it was applied. -/
theorem not_applyLookupPatch_code_unlimited : ¬ ∀ code, ∃ fuel s', applyLookupPatch twoPages fuel
      (some (patchOne 2 0)) 0 0 ⟨fun _ => 1, code, []⟩ = some s' ∧
    s'.code = if 0 < 0 ∧ s'.rewritten.length < 0 then .MemoryIssue else code := by
  intro h
  obtain ⟨fuel, s', hs', hcode⟩ := h .NoError
  obtain ⟨r, hr, rfl⟩ := (applyLookupPatch_eq_some twoPages (patchOne 2 0) 0 0 (loaded_patchOne 2 0)
    rfl).mp hs'
  have hchanges := changes_of_found rfl (found_patchOne 2 0) hr
  have hissue : r.changes ≠ (patchOne 2 0).count := hchanges
  simp [twoPages, hissue] at hcode

end Lilu.Patcher
