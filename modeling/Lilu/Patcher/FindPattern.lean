import Lilu.Prelude.Probe
import Lilu.Patcher.FindReplace

/-!
# Searching for a pattern

`findPattern` compares the data at one offset after another with the pattern, byte for byte up to
the first that differs, and leaves the offset alone if there is no match. With a mask only some bits
of the data are compared; but for that the loops with and without one are the same.

## Main definitions

* `PatternSearch`: the sizes, and whether there is a mask
* `PatternSearch.findPattern`: the call, as a program that reads
* `PatternSearch.MatchAt`, `PatternSearch.buffers`: what a match is, and the bytes there are

## Main results

* `PatternSearch.meets_findPattern`: the first match is found, and only the buffers are read
* `PatternSearch.run_findPattern_eq`: the search of a replacement is this one
-/

namespace Lilu.Patcher

open Lilu.Probe (Within Meets byte)

/-- The bytes of the three buffers of a search. -/
inductive SearchByte where
  | data (i : ℕ)
  | pattern (i : ℕ)
  | patternMask (i : ℕ)

/-- The sizes of a search, and whether there is a mask. -/
structure PatternSearch where
  masked : Bool
  patternSize : BitVec 64
  dataSize : BitVec 64

namespace PatternSearch

variable (s : PatternSearch)

/-- A byte of the data, under the mask if there is one, is not the one of the pattern. -/
def differs (currOffset i : BitVec 64) : Probe SearchByte Bool := do
  let d ← byte (.data (currOffset + i).toNat)
  if s.masked then
    let m ← byte (.patternMask i.toNat)
    let p ← byte (.pattern i.toNat)
    pure (d &&& m != p)
  else
    let p ← byte (.pattern i.toNat)
    pure (d != p)

/-- The `i` with which the comparison at an offset is left. -/
def compared (currOffset : BitVec 64) : Probe SearchByte (BitVec 64) :=
  Probe.seek (s.differs currOffset) (· + 1) s.patternSize.toNat 0

def lastOffset : BitVec 64 :=
  s.dataSize - s.patternSize

/-- One pass of the loops over the offsets: what is left with is whether there is a match, and
`*dataOffset`. -/
def searchTurn (dataOffset currOffset : BitVec 64) :
    Probe SearchByte (Turn (BitVec 64) (Bool × BitVec 64)) :=
  if currOffset ≤ s.lastOffset then do
    let i ← s.compared currOffset
    if i = s.patternSize then pure (.leave (true, currOffset))
    else pure (.again (currOffset + 1))
  else pure (.leave (false, dataOffset))

/-- `findPattern`: whether there is a match, and `*dataOffset`; none if the fuel is used up. -/
def findPattern (fuel : ℕ) (dataOffset : BitVec 64) :
    Probe SearchByte (Option (Bool × BitVec 64)) :=
  if s.patternSize = 0 ∨ s.dataSize < s.patternSize then pure (some (false, dataOffset))
  else Probe.loop (s.searchTurn dataOffset) fuel dataOffset

/-! ## Matches -/

/-- The bytes that there are. -/
def buffers : Set SearchByte
  | .data i => i < s.dataSize.toNat
  | .pattern i => i < s.patternSize.toNat
  | .patternMask i => s.masked = true ∧ i < s.patternSize.toNat

/-- A byte of the data as it is compared. -/
def maskedByte (m : SearchByte → UInt8) (o i : ℕ) : UInt8 :=
  if s.masked then m (.data (o + i)) &&& m (.patternMask i) else m (.data (o + i))

/-- The pattern fits at an offset, and is there. -/
def MatchAt (m : SearchByte → UInt8) (o : ℕ) : Prop :=
  o + s.patternSize.toNat ≤ s.dataSize.toNat ∧
    ∀ i < s.patternSize.toNat, s.maskedByte m o i = m (.pattern i)

/-- What a search comes to: the first match from an offset on, or that there is none. -/
structure Found (m : SearchByte → UInt8) (dataOffset : BitVec 64) (r : Bool × BitVec 64) : Prop where
  found_iff : r.1 = true ↔ ∃ o, dataOffset.toNat ≤ o ∧ s.MatchAt m o
  least : r.1 = true → IsLeast {o | dataOffset.toNat ≤ o ∧ s.MatchAt m o} r.2.toNat
  unchanged : r.1 = false → r.2 = dataOffset

variable {s} {m : SearchByte → UInt8} {currOffset dataOffset : BitVec 64} {i : ℕ}

theorem iterate_succ_zero (i : ℕ) : (· + 1)^[i] (0 : BitVec 64) = BitVec.ofNat 64 i := by
  induction i with
  | zero => rfl
  | succ i ih =>
    rw [Function.iterate_succ_apply', ih, BitVec.ofNat_add]
    rfl

/-- The last offset at which there is room for the pattern. -/
theorem toNat_lastOffset (hsize : ¬ s.dataSize < s.patternSize) :
    s.lastOffset.toNat + s.patternSize.toNat = s.dataSize.toNat := by
  have hle : s.patternSize ≤ s.dataSize := BitVec.not_lt.mp hsize
  rw [lastOffset, BitVec.toNat_sub_of_le hle]
  exact Nat.sub_add_cancel hle

/-! ## The comparison -/

section Compared

variable (hroom : currOffset.toNat + s.patternSize.toNat ≤ s.dataSize.toNat)

include hroom

/-- No offset of a byte that is compared wraps. -/
theorem toNat_compared (hi : i < s.patternSize.toNat) :
    (BitVec.ofNat 64 i).toNat = i ∧ (currOffset + BitVec.ofNat 64 i).toNat = currOffset.toNat + i := by
  have hpattern := s.patternSize.isLt
  have hdata := s.dataSize.isLt
  have hofNat : (BitVec.ofNat 64 i).toNat = i := by
    rw [BitVec.toNat_ofNat, Nat.mod_eq_of_lt (by omega)]
  refine ⟨hofNat, ?_⟩
  rw [BitVec.toNat_add, hofNat, Nat.mod_eq_of_lt (by omega)]

theorem run_differs (hi : i < s.patternSize.toNat) :
    (s.differs currOffset (BitVec.ofNat 64 i)).run m =
      (s.maskedByte m currOffset.toNat i != m (.pattern i)) := by
  obtain ⟨hindex, hoffset⟩ := toNat_compared hroom hi
  rw [differs, hindex, hoffset, maskedByte]
  split_ifs
  · rfl
  · rfl

theorem within_differs (hi : i < s.patternSize.toNat) :
    Within s.buffers m (s.differs currOffset (BitVec.ofNat 64 i)) := by
  obtain ⟨hindex, hoffset⟩ := toNat_compared hroom hi
  have hdata : currOffset.toNat + i < s.dataSize.toNat := by omega
  rw [differs, hindex, hoffset, Probe.within_bind, Probe.within_byte, Probe.within_ite]
  refine ⟨hdata, fun hmask => ?_, fun _ => ?_⟩
  · simp only [Probe.within_bind, Probe.within_byte, Probe.within_pure, and_true]
    exact ⟨⟨hmask, hi⟩, hi⟩
  · simp only [Probe.within_bind, Probe.within_byte, Probe.within_pure, and_true]
    exact hi

theorem within_compared : Within s.buffers m (s.compared currOffset) := by
  apply Probe.within_seek
  intro i hi
  rw [iterate_succ_zero]
  exact within_differs hroom hi

/-- The comparison goes through to the end if and only if there is a match. -/
theorem run_compared_eq_iff :
    (s.compared currOffset).run m = s.patternSize ↔ s.MatchAt m currOffset.toNat := by
  obtain ⟨j, hj, hseek, hbefore, hat⟩ := seek_spec
    (fun i => (s.differs currOffset i).run m) (· + 1) s.patternSize.toNat 0
  simp only [iterate_succ_zero] at hseek hbefore hat
  have hpattern := s.patternSize.isLt
  -- all bytes before the one that the comparison is left at are equal
  have hequal : ∀ i < j, s.maskedByte m currOffset.toNat i = m (.pattern i) := by
    intro i hi
    have := hbefore i hi
    rwa [run_differs hroom (hi.trans_le hj), bne_eq_false_iff_eq] at this
  rw [compared, Probe.run_seek, hseek, MatchAt, and_iff_right hroom]
  constructor
  · intro hend
    have hlen : j = s.patternSize.toNat := by
      rw [← hend, BitVec.toNat_ofNat, Nat.mod_eq_of_lt (by omega)]
    exact fun i hi => hequal i (hlen ▸ hi)
  · intro hall
    rcases hj.lt_or_eq with hlt | rfl
    · -- the byte that it is left at differs
      have hdiffer := hat hlt
      rw [run_differs hroom hlt, bne_iff_ne] at hdiffer
      exact absurd (hall j hlt) hdiffer
    · rw [BitVec.ofNat_toNat, BitVec.setWidth_eq]

end Compared

/-! ## The search -/

section Searched

variable (hsize : ¬ s.dataSize < s.patternSize)

include hsize

/-- At the offsets that are looked at there is room for the pattern. -/
theorem add_le_of_le (hle : currOffset ≤ s.lastOffset) :
    currOffset.toNat + s.patternSize.toNat ≤ s.dataSize.toNat := by
  have hlast := toNat_lastOffset hsize
  have hle' : currOffset.toNat ≤ s.lastOffset.toNat := hle
  omega

/-- There is no match behind the last offset. -/
theorem MatchAt.le_lastOffset {o : ℕ} (h : s.MatchAt m o) : o ≤ s.lastOffset.toNat := by
  have hlast := toNat_lastOffset hsize
  have hroom := h.1
  omega

/-- **What a pass does**: it ends the search at a match, or behind the last offset. -/
theorem searchTurn_cases (m : SearchByte → UInt8) (dataOffset currOffset : BitVec 64) :
    (¬ currOffset ≤ s.lastOffset ∧
      (s.searchTurn dataOffset currOffset).run m = .leave (false, dataOffset)) ∨
    (currOffset ≤ s.lastOffset ∧ s.MatchAt m currOffset.toNat ∧
      (s.searchTurn dataOffset currOffset).run m = .leave (true, currOffset)) ∨
    (currOffset ≤ s.lastOffset ∧ ¬ s.MatchAt m currOffset.toNat ∧
      (s.searchTurn dataOffset currOffset).run m = .again (currOffset + 1)) := by
  rw [searchTurn]
  by_cases hle : currOffset ≤ s.lastOffset
  · have hroom := add_le_of_le hsize hle
    rw [if_pos hle, Probe.run_bind, Probe.run_ite]
    by_cases hmatch : s.MatchAt m currOffset.toNat
    · rw [if_pos ((run_compared_eq_iff hroom).mpr hmatch)]
      exact .inr (.inl ⟨hle, hmatch, rfl⟩)
    · rw [if_neg fun h => hmatch ((run_compared_eq_iff hroom).mp h)]
      exact .inr (.inr ⟨hle, hmatch, rfl⟩)
  · rw [if_neg hle]
    exact .inl ⟨hle, rfl⟩

theorem within_searchTurn : Within s.buffers m (s.searchTurn dataOffset currOffset) := by
  rw [searchTurn, Probe.within_ite, Probe.within_bind, Probe.within_ite]
  refine ⟨fun hle => ⟨within_compared (add_le_of_le hsize hle), ?_, ?_⟩, fun _ => ?_⟩
  · exact fun _ => Probe.within_pure _
  · exact fun _ => Probe.within_pure _
  · exact Probe.within_pure _

end Searched

/-- The offset that is looked at, and that no match has been passed over. -/
structure Passed (s : PatternSearch) (m : SearchByte → UInt8) (dataOffset currOffset : BitVec 64) :
    Prop where
  le : dataOffset.toNat ≤ currOffset.toNat
  none_before : ∀ o, dataOffset.toNat ≤ o → o < currOffset.toNat → ¬ s.MatchAt m o

theorem Passed.start : Passed s m dataOffset dataOffset :=
  ⟨le_rfl, fun _ hle hlt => absurd hlt (not_lt.mpr hle)⟩

/-- An offset without a match is passed over; the next one does not wrap. -/
theorem Passed.next (h : Passed s m dataOffset currOffset) (hpos : s.patternSize ≠ 0)
    (hroom : currOffset.toNat + s.patternSize.toNat ≤ s.dataSize.toNat)
    (hmatch : ¬ s.MatchAt m currOffset.toNat) :
    (currOffset + 1).toNat = currOffset.toNat + 1 ∧ Passed s m dataOffset (currOffset + 1) := by
  have hdata := s.dataSize.isLt
  have hpattern : s.patternSize.toNat ≠ 0 := fun h => hpos (BitVec.eq_of_toNat_eq h)
  have hnext : (currOffset + 1).toNat = currOffset.toNat + 1 := by
    rw [BitVec.toNat_add]
    exact Nat.mod_eq_of_lt (by change _ + 1 < _; omega)
  refine ⟨hnext, by rw [hnext]; exact h.le.trans (Nat.le_succ _), fun o hle hlt => ?_⟩
  rw [hnext] at hlt
  rcases Nat.lt_succ_iff_lt_or_eq.mp hlt with hlt | rfl
  · exact h.none_before o hle hlt
  · exact hmatch

/-- Where there is no match from the offset on, none is found. -/
theorem found_of_forall_not (h : ∀ o, dataOffset.toNat ≤ o → ¬ s.MatchAt m o) :
    s.Found m dataOffset (false, dataOffset) where
  found_iff := iff_of_false Bool.false_ne_true fun ⟨o, hle, ho⟩ => h o hle ho
  least h := absurd h Bool.false_ne_true
  unchanged _ := rfl

/-- A match is found where none before it was passed over. -/
theorem Passed.found (h : Passed s m dataOffset currOffset) (hmatch : s.MatchAt m currOffset.toNat) :
    s.Found m dataOffset (true, currOffset) where
  found_iff := iff_of_true rfl ⟨_, h.le, hmatch⟩
  least _ := ⟨⟨h.le, hmatch⟩, fun o ⟨hle, ho⟩ => not_lt.mp fun hlt => h.none_before o hle hlt ho⟩
  unchanged h := absurd h Bool.true_eq_false.mp

/-- There is fuel enough for all offsets, and for the turn that ends the search. -/
theorem meets_findPattern_of_le (hpos : s.patternSize ≠ 0) (m : SearchByte → UInt8)
    (dataOffset : BitVec 64) {fuel : ℕ} (hfuel : s.lastOffset.toNat + 2 ≤ fuel) :
    Meets s.buffers m (fun r => ∃ b, r = some b ∧ s.Found m dataOffset b)
      (s.findPattern fuel dataOffset) := by
  rw [findPattern]
  by_cases hsize : s.dataSize < s.patternSize
  · rw [if_pos (.inr hsize)]
    -- there is no room for the pattern anywhere
    have hlt : s.dataSize.toNat < s.patternSize.toNat := hsize
    have hnone : ∀ o, dataOffset.toNat ≤ o → ¬ s.MatchAt m o := by
      rintro o - ⟨hroom, -⟩
      omega
    exact Probe.meets_pure.mpr ⟨_, rfl, found_of_forall_not hnone⟩
  rw [if_neg (not_or.mpr ⟨hpos, hsize⟩)]
  apply Probe.meets_loop (Passed s m dataOffset) (s.Found m dataOffset)
    (fun currOffset => s.lastOffset.toNat + 1 - currOffset.toNat)
  · exact fun currOffset _ => within_searchTurn hsize
  · intro currOffset next h hturn
    obtain ⟨-, hrun⟩ | ⟨-, -, hrun⟩ | ⟨hle, hmatch, hrun⟩ :=
      searchTurn_cases hsize m dataOffset currOffset
    · exact absurd (hrun.symm.trans hturn) nofun
    · exact absurd (hrun.symm.trans hturn) nofun
    · obtain rfl := Turn.again.inj (hrun.symm.trans hturn)
      obtain ⟨hnext, hpassed⟩ := h.next hpos (add_le_of_le hsize hle) hmatch
      have hle' : currOffset.toNat ≤ s.lastOffset.toNat := hle
      exact ⟨hpassed, by omega⟩
  · intro currOffset b h hturn
    obtain ⟨hgt, hrun⟩ | ⟨-, hmatch, hrun⟩ | ⟨-, -, hrun⟩ :=
      searchTurn_cases hsize m dataOffset currOffset
    · obtain rfl := Turn.leave.inj (hrun.symm.trans hturn)
      -- the matches are at the last offset or before it, where they were not passed over
      have hlt : s.lastOffset.toNat < currOffset.toNat := BitVec.not_le.mp hgt
      apply found_of_forall_not
      intro o hle ho
      exact h.none_before o hle ((ho.le_lastOffset hsize).trans_lt hlt) ho
    · obtain rfl := Turn.leave.inj (hrun.symm.trans hturn)
      exact h.found hmatch
    · exact absurd (hrun.symm.trans hturn) nofun
  · exact Passed.start
  · omega

/-- **The search**: on every input it ends, finds the first match from the offset on if there is
one, and reads only the bytes of the buffers. -/
theorem meets_findPattern (s : PatternSearch) (hpos : s.patternSize ≠ 0) (m : SearchByte → UInt8)
    (dataOffset : BitVec 64) : ∃ n, ∀ fuel, n ≤ fuel →
      Meets s.buffers m (fun r => ∃ b, r = some b ∧ s.Found m dataOffset b)
        (s.findPattern fuel dataOffset) :=
  ⟨_, fun _ hfuel => meets_findPattern_of_le hpos m dataOffset hfuel⟩

/-- The pattern `1_` under a mask is searched for from the first byte of two. -/
theorem meets_findPattern_masked : ∃ n, ∀ fuel, n ≤ fuel →
    Meets (buffers ⟨true, 1, 2⟩)
      (fun | .data i => [0x21, 0x12].getD i 0 | .pattern _ => 0x10 | .patternMask _ => 0xF0)
      (fun r => ∃ b, r = some b ∧ Found ⟨true, 1, 2⟩
        (fun | .data i => [0x21, 0x12].getD i 0 | .pattern _ => 0x10 | .patternMask _ => 0xF0) 0 b)
      (findPattern ⟨true, 1, 2⟩ fuel 0) :=
  meets_findPattern ⟨true, 1, 2⟩ (by decide) _ 0

/-! ## The search of a replacement -/

section Replacement

variable (a : Replacement) (data : ℕ → UInt8)

/-- The search for what is to be replaced. -/
def ofReplacement : PatternSearch where
  masked := a.findMask.isSome
  patternSize := BitVec.ofNat 64 a.findSize
  dataSize := BitVec.ofNat 64 a.dataSize

/-- The bytes of its buffers. -/
def bytesOf : SearchByte → UInt8
  | .data i => data i
  | .pattern i => a.find i
  | .patternMask i => a.findMask.elim 0 (· i)

variable {a data} {o : ℕ} (hfind : a.findSize < 2 ^ 64) (hdata : a.dataSize < 2 ^ 64)

include hfind hdata

theorem matchAt_ofReplacement : (ofReplacement a).MatchAt (bytesOf a data) o ↔
    o + a.findSize ≤ a.dataSize ∧ matchesAt a data o = true := by
  have hsize : (ofReplacement a).patternSize.toNat = a.findSize := Nat.mod_eq_of_lt hfind
  have hlen : (ofReplacement a).dataSize.toNat = a.dataSize := Nat.mod_eq_of_lt hdata
  rw [MatchAt, hsize, hlen, matchesAt, List.all_eq_true]
  simp only [List.mem_range]
  refine and_congr_right fun _ => forall₂_congr fun i _ => ?_
  cases hmask : a.findMask with
  | none => simp [maskedByte, ofReplacement, bytesOf, hmask]
  | some m => simp [maskedByte, ofReplacement, bytesOf, hmask]

/-- The offset that the search of a replacement ends at is the least match. -/
theorem isLeast_of_findPattern {k : ℕ} (h : Patcher.findPattern a data o = some k) :
    IsLeast {o' | o ≤ o' ∧ (ofReplacement a).MatchAt (bytesOf a data) o'} k := by
  obtain ⟨j, hj, rfl, hbefore, hat⟩ := findPattern_eq_some h
  obtain ⟨-, hroom⟩ := fits_of_lt (show o + j < offsets a by omega)
  refine ⟨⟨Nat.le_add_right o j, (matchAt_ofReplacement hfind hdata).mpr ⟨hroom, hat⟩⟩, ?_⟩
  rintro o' ⟨hle, ho'⟩
  obtain ⟨i, rfl⟩ := Nat.exists_eq_add_of_le hle
  have hat' := ((matchAt_ofReplacement hfind hdata).mp ho').2
  -- what is before it does not match
  by_contra hlt
  exact Bool.false_ne_true ((hbefore i (by omega)).symm.trans hat')

theorem not_matchAt_of_findPattern (hpos : a.findSize ≠ 0)
    (h : Patcher.findPattern a data o = none) :
    ∀ o', o ≤ o' → ¬ (ofReplacement a).MatchAt (bytesOf a data) o' := by
  intro o' hle ho'
  obtain ⟨i, rfl⟩ := Nat.exists_eq_add_of_le hle
  obtain ⟨hroom, hat⟩ := (matchAt_ofReplacement hfind hdata).mp ho'
  have hlt : i < offsets a - o := by
    rw [offsets, if_neg (by omega)]
    omega
  exact Bool.false_ne_true ((findPattern_eq_none h i hlt).symm.trans hat)

/-- **The search of a replacement** is this one, where the sizes are those of the machine. -/
theorem run_findPattern_eq (hpos : a.findSize ≠ 0) (ho : o < 2 ^ 64) : ∃ n, ∀ fuel, n ≤ fuel →
    ((ofReplacement a).findPattern fuel (BitVec.ofNat 64 o)).run (bytesOf a data) =
      some (match Patcher.findPattern a data o with
        | some k => (true, BitVec.ofNat 64 k)
        | none => (false, BitVec.ofNat 64 o)) := by
  have hoffset : (BitVec.ofNat 64 o).toNat = o := Nat.mod_eq_of_lt ho
  have hpos' : (ofReplacement a).patternSize ≠ 0 := fun h => hpos (by
    rw [← Nat.mod_eq_of_lt hfind]
    exact congrArg BitVec.toNat h)
  refine ⟨(ofReplacement a).lastOffset.toNat + 2, fun fuel hfuel => ?_⟩
  obtain ⟨-, ⟨found, p⟩, hrun, hfound⟩ :=
    meets_findPattern_of_le hpos' (bytesOf a data) (BitVec.ofNat 64 o) hfuel
  have hiff := hfound.found_iff
  have hleast := hfound.least
  rw [hoffset] at hiff hleast
  rw [hrun]
  cases h : Patcher.findPattern a data o with
  | some k =>
    have hk := isLeast_of_findPattern hfind hdata h
    obtain rfl : found = true := hiff.mpr ⟨k, hk.1⟩
    obtain rfl : p.toNat = k := (hleast rfl).unique hk
    dsimp only
    rw [BitVec.ofNat_toNat, BitVec.setWidth_eq]
  | none =>
    have hnone := not_matchAt_of_findPattern hfind hdata hpos h
    obtain rfl : found = false := Bool.eq_false_iff.mpr fun htrue => by
      obtain ⟨o', hle, ho'⟩ := hiff.mp htrue
      exact hnone o' hle ho'
    obtain rfl : p = BitVec.ofNat 64 o := hfound.unchanged rfl
    rfl

end Replacement

end PatternSearch

end Lilu.Patcher
