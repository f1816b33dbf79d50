import Lilu.Prelude.CriticalPosition
import Lilu.Util.Memchr

/-!
# Searching for a long needle

`twoway_memmem` cuts the needle at the start of a maximal suffix, the later one for the order of the
bytes and the opposite one. At each place it compares the last byte first, by a table of where each
byte is last in the needle, then what is behind the cut, and then what is before it. The cut is
critical: each repetition around it is a period of the needle, and this tells how far the needle may
be moved after a mismatch.

## Main definitions

* `twowayMemmem`: the search
* `Needle`: what it knows of the needle, and `Needle.Ready`: that this is right
* `SearchedTo`: what holds before each turn of the search

## Main results

* `meets_maximalSuffix`: the maximal suffix of the needle is found, with its least period
* `meets_searchTurn`: no turn of the search moves over a place where the needle is
* `meets_twowayMemmem`: the first place is found, or none, and nothing else is read
-/

namespace Lilu.Util

open Probe (byte span Within Meets)

def MAX (a b : BitVec 64) : BitVec 64 :=
  if a > b then a else b

/-! ## Long needles -/

/-- The bytes that are in the needle, as a bit each, and where each of them is last in it. -/
structure Tables where
  byteset : Fin 4 → BitVec 64
  shift : UInt8 → BitVec 64

/-- The word of a byte's bit. -/
def bitWord (b : UInt8) : Fin 4 :=
  ⟨b.toNat / 64, Nat.div_lt_of_lt_mul b.toNat_lt⟩

/-- The bit. -/
def bit (b : UInt8) : BitVec 64 :=
  1 <<< (b.toNat % 64)

namespace Tables

def put (T : Tables) (i : ℕ) (b : UInt8) : Tables where
  byteset := Function.update T.byteset (bitWord b) (T.byteset (bitWord b) ||| bit b)
  shift := Function.update T.shift b (BitVec.ofNat 64 i + 1)

/-- `BITOP(byteset, b, &)` -/
def has (T : Tables) (b : UInt8) : Bool :=
  T.byteset (bitWord b) &&& bit b != 0

end Tables

/-- "Computing length of needle and fill shift table"; `shift` is not initialised. -/
def fillTables (shift : UInt8 → BitVec 64) (n : Ptr) (l : BitVec 64) : Probe Ptr Tables :=
  (List.range l.toNat).foldlM (fun T i => do pure (T.put i (← byte (n + BitVec.ofNat 64 i))))
    ⟨fun _ => 0, shift⟩

/-- The variables of the search for the maximal suffix. -/
structure Suffix where
  ip : BitVec 64
  jp : BitVec 64
  k : BitVec 64
  p : BitVec 64

/-- A pass of the loop, for one comparison or the opposite one. -/
def suffixTurn (greater : UInt8 → UInt8 → Bool) (n : Ptr) (l : BitVec 64) (s : Suffix) :
    Probe Ptr (Turn Suffix (BitVec 64 × BitVec 64)) :=
  if s.jp + s.k < l then do
    let a ← byte (n + (s.ip + s.k))
    let b ← byte (n + (s.jp + s.k))
    if a = b then
      if s.k = s.p then pure (.again { s with jp := s.jp + s.p, k := 1 })
      else pure (.again { s with k := s.k + 1 })
    else if greater a b then
      pure (.again { s with jp := s.jp + s.k, k := 1, p := s.jp + s.k - s.ip })
    else pure (.again ⟨s.jp, s.jp + 1, 1, 1⟩)
  else pure (.leave (s.ip, s.p))

/-- "Compute maximal suffix": `ip` and `p`. -/
def maximalSuffix (greater : UInt8 → UInt8 → Bool) (fuel : ℕ) (n : Ptr) (l : BitVec 64) :
    Probe Ptr (Option (BitVec 64 × BitVec 64)) :=
  Probe.loop (suffixTurn greater n l) fuel ⟨-1, 0, 1, 1⟩

/-- What is known of the needle before the search. -/
structure Needle where
  n : Ptr
  l : BitVec 64
  tables : Tables
  ms : BitVec 64
  p : BitVec 64
  mem0 : BitVec 64

/-- Where the search is, and how much of the needle's start is there. -/
structure Window where
  h : Ptr
  mem : BitVec 64

namespace Needle

variable (d : Needle)

/-- A byte of the needle and the one of the haystack differ. -/
def differs (h : Ptr) (k : BitVec 64) : Probe Ptr Bool := do
  let a ← byte (d.n + k)
  let b ← byte (h + k)
  pure (a != b)

/-- "Compare right half", and then "Compare left half". -/
def compareHalves (s : Window) : Probe Ptr (Turn Window (Option Ptr)) := do
  let k₀ := MAX (d.ms + 1) s.mem
  let k ← Probe.seek (d.differs s.h) (· + 1) (d.l.toNat - k₀.toNat) k₀
  if k < d.l then pure (.again ⟨s.h + (k - d.ms), 0⟩)
  else
    let k ← Probe.seek (fun k => d.differs s.h (k - 1)) (· - 1)
      ((d.ms + 1).toNat - s.mem.toNat) (d.ms + 1)
    if k ≤ s.mem then pure (.leave (some s.h)) else pure (.again ⟨s.h + d.p, d.mem0⟩)

/-- A pass of the search loop, up to the end `z` of the haystack. -/
def searchTurn (z : Ptr) (s : Window) : Probe Ptr (Turn Window (Option Ptr)) :=
  if (z - s.h).slt d.l then pure (.leave none)
  else do
    let b ← byte (s.h + (d.l - 1))
    if d.tables.has b then
      let k := d.l - d.tables.shift b
      if k ≠ 0 then pure (.again ⟨s.h + if k < s.mem then s.mem else k, 0⟩)
      else d.compareHalves s
    else pure (.again ⟨s.h + d.l, 0⟩)

end Needle

/-- The needle, with the shorter of the two maximal suffixes: "Periodic needle?" -/
def periodicNeedle (n : Ptr) (l : BitVec 64) (tables : Tables) (ms p : BitVec 64) :
    Probe Ptr Needle := do
  let a ← Probe.bytes (span n (ms + 1).toNat)
  let b ← Probe.bytes (span (n + p) (ms + 1).toNat)
  if a ≠ b then pure ⟨n, l, tables, ms, MAX ms (l - ms - 1) + 1, 0⟩
  else pure ⟨n, l, tables, ms, p, l - p⟩

/-- `twoway_memmem`; none if the fuel is used up. -/
def twowayMemmem (fuel : ℕ) (shift : UInt8 → BitVec 64) (h z n : Ptr) (l : BitVec 64) :
    Probe Ptr (Option (Option Ptr)) := do
  let tables ← fillTables shift n l
  let first ← maximalSuffix (fun a b => b < a) fuel n l
  -- "And with the opposite comparison"
  match first, ← maximalSuffix (fun a b => a < b) fuel n l with
  | some (ms, p0), some (ip, p) =>
    let (ms, p) := if ip + 1 > ms + 1 then (ip, p) else (ms, p0)
    let d ← periodicNeedle n l tables ms p
    Probe.loop (d.searchTurn z) fuel ⟨h, 0⟩
  | _, _ => pure none

/-! ## The maximal suffix -/

section Suffix

variable {m : Ptr → UInt8} {S : Set Ptr} {n : Ptr} {l : BitVec 64} {a b k p : ℕ}
  {greater : UInt8 → UInt8 → Bool} {r : UInt8 → UInt8 → Prop}

/-- The variables, for a search that has come so far. -/
def Suffix.ofNat (a b k p : ℕ) : Suffix :=
  ⟨BitVec.ofNat 64 a - 1, BitVec.ofNat 64 b - 1, BitVec.ofNat 64 (k + 1), BitVec.ofNat 64 p⟩

theorem ofNat_succ (k : ℕ) : BitVec.ofNat 64 (k + 1) = BitVec.ofNat 64 k + 1 :=
  BitVec.ofNat_add k 1

theorem index_eq (a k : ℕ) :
    BitVec.ofNat 64 a - 1 + BitVec.ofNat 64 (k + 1) = BitVec.ofNat 64 (a + k) := by
  rw [ofNat_succ, BitVec.ofNat_add]
  ring

theorem ofNat_inj_of_lt (ha : a < 2 ^ 64) (hb : b < 2 ^ 64) :
    BitVec.ofNat 64 a = BitVec.ofNat 64 b ↔ a = b := by
  rw [← BitVec.toNat_inj, BitVec.toNat_ofNat, BitVec.toNat_ofNat, Nat.mod_eq_of_lt ha,
    Nat.mod_eq_of_lt hb]

theorem lt_iff_ofNat (ha : a < 2 ^ 64) (hb : b < 2 ^ 64) :
    BitVec.ofNat 64 a < BitVec.ofNat 64 b ↔ a < b := by
  rw [BitVec.lt_def, BitVec.toNat_ofNat, BitVec.toNat_ofNat, Nat.mod_eq_of_lt ha,
    Nat.mod_eq_of_lt hb]

theorem lt_iff_of_le (hk : k ≤ l.toNat) : BitVec.ofNat 64 k < l ↔ k < l.toNat := by
  rw [BitVec.lt_def, BitVec.toNat_ofNat, Nat.mod_eq_of_lt (hk.trans_lt l.isLt)]

section Turn

variable (hle : a + p ≤ b) (hk : k < p) (hend : b + k ≤ l.toNat)

include hle hk hend

/-- What a comparison leads to. -/
theorem run_suffixTurn : (suffixTurn greater n l (.ofNat a b k p)).run m =
    if b + k < l.toNat then
      if bytesFrom m n (a + k) = bytesFrom m n (b + k) then
        if k + 1 = p then .again (.ofNat a (b + p) 0 p) else .again (.ofNat a b (k + 1) p)
      else if greater (bytesFrom m n (a + k)) (bytesFrom m n (b + k)) then
        .again (.ofNat a (b + k + 1) 0 (b + k + 1 - a))
      else .again (.ofNat b (b + 1) 0 1)
    else .leave (BitVec.ofNat 64 a - 1, BitVec.ofNat 64 p) := by
  have hl := l.isLt
  have hkp : BitVec.ofNat 64 (k + 1) = BitVec.ofNat 64 p ↔ k + 1 = p :=
    ofNat_inj_of_lt (by omega) (by omega)
  have hequal : BitVec.ofNat 64 b - 1 + BitVec.ofNat 64 p = BitVec.ofNat 64 (b + p) - 1 := by
    rw [BitVec.ofNat_add]
    ring
  have hnext : BitVec.ofNat 64 (b + k + 1) - 1 = BitVec.ofNat 64 (b + k) := by
    rw [ofNat_succ]
    ring
  have hperiod : BitVec.ofNat 64 (b + k) - (BitVec.ofNat 64 a - 1) =
      BitVec.ofNat 64 (b + k + 1 - a) := by
    obtain ⟨c, hc⟩ := Nat.exists_eq_add_of_le (show a ≤ b + k by omega)
    rw [hc, show a + c + 1 - a = c + 1 by omega, ofNat_succ, BitVec.ofNat_add]
    ring
  have habove : BitVec.ofNat 64 (b + 1) - 1 = BitVec.ofNat 64 b - 1 + 1 := by
    rw [ofNat_succ]
    ring
  simp only [suffixTurn, Probe.run_bind, Probe.run_ite, Probe.run_pure]
  simp only [Probe.run_byte, Suffix.ofNat, index_eq, lt_iff_of_le hend, hkp, hequal, hnext,
    ← ofNat_succ, hperiod, habove]
  rfl

/-- The two bytes that are compared are in the needle. -/
theorem within_suffixTurn (hS : block n l.toNat ⊆ S) :
    Within S m (suffixTurn greater n l (.ofNat a b k p)) := by
  simp only [suffixTurn, Probe.within_ite, Probe.within_bind, Probe.within_byte,
    Probe.within_pure, implies_true, and_true]
  simp only [Suffix.ofNat, index_eq, lt_iff_of_le hend]
  exact fun hlt => ⟨hS (add_mem_block (by omega)), hS (add_mem_block hlt)⟩

end Turn

/-- How much is left to be done: the suffix begins later, or else a later byte is compared. -/
def Suffix.left (l : BitVec 64) (s : Suffix) : ℕ :=
  (l.toNat - (s.ip + 1).toNat) * (l.toNat + 1) + (l.toNat - (s.jp + s.k).toNat)

theorem Suffix.left_ofNat (ha : a ≤ l.toNat) (hk : b + k ≤ l.toNat) :
    (Suffix.ofNat a b k p).left l = (l.toNat - a) * (l.toNat + 1) + (l.toNat - (b + k)) := by
  have hl := l.isLt
  simp only [Suffix.left, Suffix.ofNat, index_eq, BitVec.sub_add_cancel, BitVec.toNat_ofNat]
  rw [Nat.mod_eq_of_lt (by omega), Nat.mod_eq_of_lt (by omega)]

theorem Suffix.left_lt (ha : a < l.toNat) {a' b' k' p' : ℕ} (ha' : a' ≤ l.toNat)
    (hk : b + k ≤ l.toNat) (hk' : b' + k' ≤ l.toNat)
    (h : a < a' ∨ a = a' ∧ b + k < b' + k') :
    (Suffix.ofNat a' b' k' p').left l < (Suffix.ofNat a b k p).left l := by
  rw [Suffix.left_ofNat ha' hk', Suffix.left_ofNat ha.le hk]
  rcases h with hlt | ⟨rfl, hlt⟩
  · have hmul : (l.toNat - a' + 1) * (l.toNat + 1) ≤ (l.toNat - a) * (l.toNat + 1) :=
      Nat.mul_le_mul_right _ (by omega)
    rw [Nat.succ_mul] at hmul
    omega
  · omega

variable [IsStrictTotalOrder UInt8 r]

/-- **The maximal suffix**: the needle is read to its end. -/
theorem meets_maximalSuffix (fuel : ℕ) (greater : UInt8 → UInt8 → Bool)
    (hgreater : ∀ a b, greater a b = true ↔ r b a)
    (hl : 0 < l.toNat) (hfuel : (l.toNat + 1) * (l.toNat + 1) < fuel)
    (hS : block n l.toNat ⊆ S) :
    Meets S m (fun o => ∃ out, o = some out ∧ ∃ a b k p,
      SuffixScan r (bytesFrom m n) l.toNat a b k p ∧ b + k = l.toNat ∧
      out = (BitVec.ofNat 64 a - 1, BitVec.ofNat 64 p))
      (maximalSuffix greater fuel n l) := by
  apply Probe.meets_loop (fun s => ∃ a b k p, SuffixScan r (bytesFrom m n) l.toNat a b k p ∧
    s = .ofNat a b k p) _ (Suffix.left l)
  · rintro s ⟨a, b, k, p, h, rfl⟩
    exact within_suffixTurn h.add_le h.lt h.le hS
  · rintro s s' ⟨a, b, k, p, h, rfl⟩ hturn
    have hle := h.add_le
    have hp := h.pos
    have hend := h.le
    rw [run_suffixTurn h.add_le h.lt h.le] at hturn
    split_ifs at hturn with hin heq hblock hgr
    · have hnext := h.equal hin heq
      rw [if_pos hblock] at hnext
      cases hturn
      exact ⟨⟨_, _, _, _, hnext, rfl⟩,
        Suffix.left_lt (by omega) (by omega) hend hnext.le (by omega)⟩
    · have hnext := h.equal hin heq
      rw [if_neg hblock] at hnext
      cases hturn
      exact ⟨⟨_, _, _, _, hnext, rfl⟩,
        Suffix.left_lt (by omega) (by omega) hend hnext.le (by omega)⟩
    · have hnext := h.below hin ((hgreater _ _).mp hgr)
      cases hturn
      exact ⟨⟨_, _, _, _, hnext, rfl⟩,
        Suffix.left_lt (by omega) (by omega) hend hnext.le (by omega)⟩
    · have hr : r (bytesFrom m n (a + k)) (bytesFrom m n (b + k)) := by
        rcases trichotomous_of r (bytesFrom m n (a + k)) (bytesFrom m n (b + k)) with hr | heq' | hr
        · exact hr
        · exact absurd heq' heq
        · exact absurd ((hgreater _ _).mpr hr) hgr
      have hnext := h.above hin hr
      cases hturn
      exact ⟨⟨_, _, _, _, hnext, rfl⟩,
        Suffix.left_lt (by omega) (by omega) hend hnext.le (by omega)⟩
  · rintro s out ⟨a, b, k, p, h, rfl⟩ hturn
    rw [run_suffixTurn h.add_le h.lt h.le] at hturn
    split_ifs at hturn with hin
    cases hturn
    exact ⟨a, b, k, p, h, by have := h.le; omega, rfl⟩
  · exact ⟨0, 1, 0, 1, .start hl, rfl⟩
  · apply lt_of_le_of_lt _ hfuel
    have hstart : (⟨-1, 0, 1, 1⟩ : Suffix) = .ofNat 0 1 0 1 := rfl
    rw [hstart, Suffix.left_ofNat (Nat.zero_le _) hl, Nat.sub_zero, Nat.succ_mul]
    omega

end Suffix

/-! ## The tables -/

section Tables

variable {m : Ptr → UInt8} {S : Set Ptr} {n : Ptr} {l : BitVec 64} {T : Tables} {b c : UInt8}

theorem and_bit_ne_zero (x : BitVec 64) (c : UInt8) :
    (x &&& bit c != 0) = x.getLsbD (c.toNat % 64) := by
  have hlt : c.toNat % 64 < 64 := Nat.mod_lt _ (by norm_num)
  have hbit : bit c = BitVec.twoPow 64 (c.toNat % 64) := rfl
  rw [hbit, BitVec.and_twoPow]
  split_ifs with h
  · rw [h, bne_iff_ne, ne_eq, ← BitVec.toNat_inj, BitVec.toNat_twoPow_of_lt hlt]
    exact (Nat.two_pow_pos _).ne'
  · simp [Bool.eq_false_iff.mpr h]

/-- Which bytes are in the set, after one was put into it. -/
theorem has_put (i : ℕ) : (T.put i b).has c = true ↔ T.has c = true ∨ c = b := by
  have hbit : (bit b).getLsbD (c.toNat % 64) = decide (b.toNat % 64 = c.toNat % 64) := by
    have hlt : b.toNat % 64 < 64 := Nat.mod_lt _ (by norm_num)
    rw [show bit b = BitVec.twoPow 64 (b.toNat % 64) from rfl, BitVec.getLsbD_twoPow]
    simp only [hlt, decide_true, Bool.true_and]
  rw [Tables.has, Tables.has, and_bit_ne_zero, and_bit_ne_zero, Tables.put]
  dsimp only
  by_cases hword : bitWord c = bitWord b
  · have hdiv : c.toNat / 64 = b.toNat / 64 := congrArg Fin.val hword
    rw [hword, Function.update_self, BitVec.getLsbD_or, Bool.or_eq_true, hbit, decide_eq_true_eq,
      ← UInt8.toNat_inj]
    exact or_congr_right ⟨fun h => by omega, fun h => by rw [h]⟩
  · rw [Function.update_of_ne hword]
    exact (or_iff_left fun h => hword (congrArg bitWord h)).symm

/-- What the tables say of a needle. -/
structure Tables.For (T : Tables) (X : ℕ → UInt8) (l : ℕ) : Prop where
  has_iff : ∀ b, T.has b = true ↔ ∃ i < l, X i = b
  last : ∀ b, T.has b = true → ∃ i < l, X i = b ∧ T.shift b = BitVec.ofNat 64 i + 1 ∧
    ∀ i' < l, X i' = b → i' ≤ i

theorem tables_empty (X : ℕ → UInt8) (shift : UInt8 → BitVec 64) :
    Tables.For ⟨fun _ => 0, shift⟩ X 0 := by
  have hnot (b : UInt8) : ¬ (⟨fun _ => 0, shift⟩ : Tables).has b = true := by
    simp [Tables.has]
  exact ⟨fun b => iff_of_false (hnot b) (by simp), fun b hb => absurd hb (hnot b)⟩

theorem Tables.For.put {X : ℕ → UInt8} {k : ℕ} (h : T.For X k) : (T.put k (X k)).For X (k + 1) where
  has_iff := fun b => by
    rw [has_put, h.has_iff]
    constructor
    · rintro (⟨i, hi, hb⟩ | rfl)
      · exact ⟨i, Nat.lt_succ_of_lt hi, hb⟩
      · exact ⟨k, Nat.lt_succ_self k, rfl⟩
    · rintro ⟨i, hi, hb⟩
      rcases (Nat.lt_succ_iff_lt_or_eq.mp hi) with hlt | rfl
      · exact .inl ⟨i, hlt, hb⟩
      · exact .inr hb.symm
  last := fun b hb => by
    by_cases hk : b = X k
    · subst hk
      exact ⟨k, Nat.lt_succ_self k, rfl, Function.update_self ..,
        fun i hi _ => Nat.le_of_lt_succ hi⟩
    · obtain ⟨i, hi, hX, hshift, hlast⟩ := h.last b (((has_put k).mp hb).resolve_right hk)
      refine ⟨i, Nat.lt_succ_of_lt hi, hX, ?_, fun i' hi' hX' => ?_⟩
      · rw [← hshift]
        exact Function.update_of_ne hk ..
      · rcases (Nat.lt_succ_iff_lt_or_eq.mp hi') with hlt | rfl
        · exact hlast i' hlt hX'
        · exact absurd hX'.symm hk

/-- **The tables** are those of the needle, which is read once. -/
theorem meets_fillTables (shift : UInt8 → BitVec 64) (hS : block n l.toNat ⊆ S) :
    Meets S m (fun T => T.For (bytesFrom m n) l.toNat) (fillTables shift n l) := by
  apply Probe.meets_foldlM_range fun k (T : Tables) => T.For (bytesFrom m n) k
  · intro i hi T hT
    rw [Probe.meets_bind, Probe.within_byte, Probe.meets_pure]
    exact ⟨hS (add_mem_block hi), hT.put⟩
  · exact tables_empty _ shift

end Tables

/-! ## The comparison -/

section Compare

variable {m : Ptr → UInt8} {S : Set Ptr} {d : Needle} {h : Ptr} {k₀ k c : ℕ}

theorem iterate_add_one (a j : ℕ) :
    (· + 1)^[j] (BitVec.ofNat 64 a) = BitVec.ofNat 64 (a + j) := by
  induction j with
  | zero => rfl
  | succ j ih => rw [Function.iterate_succ_apply', ih, ← Nat.add_assoc, ofNat_succ]

theorem iterate_sub_one {a : ℕ} : ∀ {j : ℕ}, j ≤ a →
    (· - 1)^[j] (BitVec.ofNat 64 a) = BitVec.ofNat 64 (a - j) := by
  intro j
  induction j with
  | zero => exact fun _ => rfl
  | succ j ih =>
    intro hj
    rw [Function.iterate_succ_apply', ih (by omega), show a - j = a - (j + 1) + 1 by omega,
      ofNat_succ, BitVec.add_sub_cancel]

theorem run_differs (k : ℕ) : (d.differs h (BitVec.ofNat 64 k)).run m =
    (bytesFrom m d.n k != bytesFrom m h k) :=
  rfl

theorem within_differs (hn : k < d.l.toNat) (hS : block d.n d.l.toNat ⊆ S)
    (hh : block h d.l.toNat ⊆ S) : Within S m (d.differs h (BitVec.ofNat 64 k)) := by
  simp only [Needle.differs, Probe.within_bind, Probe.within_byte, Probe.within_pure, and_true]
  exact ⟨hS (add_mem_block hn), hh (add_mem_block hn)⟩

/-- "Compare right half": up to the first byte that differs, or to the end. -/
theorem meets_right (hk₀ : k₀ ≤ d.l.toNat) (hS : block d.n d.l.toNat ⊆ S)
    (hh : block h d.l.toNat ⊆ S) :
    Meets S m (fun r => ∃ k, r = BitVec.ofNat 64 k ∧ k₀ ≤ k ∧ k ≤ d.l.toNat ∧
      (∀ i, k₀ ≤ i → i < k → bytesFrom m h i = bytesFrom m d.n i) ∧
      (k < d.l.toNat → bytesFrom m d.n k ≠ bytesFrom m h k))
      (Probe.seek (d.differs h) (· + 1) (d.l.toNat - k₀) (BitVec.ofNat 64 k₀)) := by
  constructor
  · apply Probe.within_seek
    intro i hi
    rw [iterate_add_one]
    exact within_differs (by omega) hS hh
  · rw [Probe.run_seek]
    obtain ⟨j, hj, hseek, hbefore, hat⟩ := seek_spec (fun k => (d.differs h k).run m) (· + 1)
      (d.l.toNat - k₀) (BitVec.ofNat 64 k₀)
    simp only [iterate_add_one, run_differs] at hseek hbefore hat
    refine ⟨k₀ + j, hseek, Nat.le_add_right _ _, by omega, fun i hi hij => ?_, fun hlt => ?_⟩
    · have := hbefore (i - k₀) (by omega)
      rw [Nat.add_sub_cancel' hi, bne_eq_false_iff_eq] at this
      exact this.symm
    · exact bne_iff_ne.mp (hat (by omega))

/-- "Compare left half": down to the last byte that differs, or to what is remembered. -/
theorem meets_left (mem : ℕ) (hc : c ≤ d.l.toNat) (hS : block d.n d.l.toNat ⊆ S)
    (hh : block h d.l.toNat ⊆ S) :
    Meets S m (fun r => ∃ k, r = BitVec.ofNat 64 k ∧ k ≤ c ∧
      (∀ i, k ≤ i → i < c → bytesFrom m h i = bytesFrom m d.n i) ∧
      (mem < k → bytesFrom m d.n (k - 1) ≠ bytesFrom m h (k - 1)))
      (Probe.seek (fun k => d.differs h (k - 1)) (· - 1) (c - mem) (BitVec.ofNat 64 c)) := by
  have hprev : ∀ k, 0 < k → BitVec.ofNat 64 k - 1 = BitVec.ofNat 64 (k - 1) := by
    intro k hk
    exact iterate_sub_one (j := 1) hk
  constructor
  · apply Probe.within_seek
    intro i hi
    rw [iterate_sub_one (by omega), hprev _ (by omega)]
    exact within_differs (by omega) hS hh
  · rw [Probe.run_seek]
    obtain ⟨j, hj, hseek, hbefore, hat⟩ := seek_spec (fun k => (d.differs h (k - 1)).run m) (· - 1)
      (c - mem) (BitVec.ofNat 64 c)
    rw [iterate_sub_one (by omega)] at hseek hat
    refine ⟨c - j, hseek, Nat.sub_le _ _, fun i hi hic => ?_, fun hlt => ?_⟩
    · have := hbefore (c - 1 - i) (by omega)
      rw [iterate_sub_one (by omega), hprev _ (by omega), run_differs, bne_eq_false_iff_eq,
        show c - (c - 1 - i) - 1 = i by omega] at this
      exact this.symm
    · have := hat (by omega)
      rwa [hprev _ (by omega), run_differs, bne_iff_ne] at this

end Compare

/-! ## The search -/

section Search

/-- The needle is at `o` of a haystack of `K` bytes. -/
def FoundAt (X : ℕ → UInt8) (l : ℕ) (Y : ℕ → UInt8) (K o : ℕ) : Prop :=
  o + l ≤ K ∧ Occurs X l Y o

/-- A search returns the first place where the needle is. -/
def FoundFirst (m : Ptr → UInt8) (n : Ptr) (l : ℕ) (h : Ptr) (K : ℕ) (r : Option Ptr) : Prop :=
  ∃ q : Option ℕ, r = q.map (h + BitVec.ofNat 64 ·) ∧
    First (FoundAt (bytesFrom m n) l (bytesFrom m h) K) q

/-- What was found out about a needle: the tables, a critical position `c`, and by how much it moves
after all behind that position was right. -/
structure Needle.Ready (m : Ptr → UInt8) (d : Needle) (c p : ℕ) : Prop where
  tables : d.tables.For (bytesFrom m d.n) d.l.toNat
  critical : Critical (bytesFrom m d.n) d.l.toNat c p
  ms : d.ms = BitVec.ofNat 64 c - 1
  move : Period (bytesFrom m d.n) d.l.toNat p ∧ d.p = BitVec.ofNat 64 p ∧
      d.mem0 = BitVec.ofNat 64 (d.l.toNat - p) ∨
    ¬ Period (bytesFrom m d.n) d.l.toNat p ∧
      d.p = BitVec.ofNat 64 (max c (d.l.toNat + 1 - c)) ∧ d.mem0 = 0

variable {m : Ptr → UInt8} {S : Set Ptr} {d : Needle} {h₀ : Ptr} {K c p o mem t : ℕ}

/-- The search is at `o`: the needle is not found before, and its start of `mem` bytes is there. -/
structure SearchedTo (m : Ptr → UInt8) (d : Needle) (h₀ : Ptr) (K p o mem : ℕ) : Prop where
  le : o ≤ K
  before : ∀ o' < o, ¬ FoundAt (bytesFrom m d.n) d.l.toNat (bytesFrom m h₀) K o'
  start : mem = 0 ∨ Period (bytesFrom m d.n) d.l.toNat p ∧ mem = d.l.toNat - p ∧
    ∀ i < mem, bytesFrom m h₀ (o + i) = bytesFrom m d.n i

/-- Going on to where the needle may be found next. -/
theorem SearchedTo.skip (h : SearchedTo m d h₀ K p o mem) (ht : o + t ≤ K) {mem' : ℕ}
    (hnot : ∀ s < t, ¬ Occurs (bytesFrom m d.n) d.l.toNat (bytesFrom m h₀) (o + s))
    (hstart : mem' = 0 ∨ Period (bytesFrom m d.n) d.l.toNat p ∧ mem' = d.l.toNat - p ∧
      ∀ i < mem', bytesFrom m h₀ (o + t + i) = bytesFrom m d.n i) :
    SearchedTo m d h₀ K p (o + t) mem' := by
  refine ⟨ht, fun o' ho' hfound => ?_, hstart⟩
  rcases Nat.lt_or_ge o' o with hlt | hge
  · exact h.before o' hlt hfound
  · obtain ⟨s, rfl⟩ := Nat.exists_eq_add_of_le hge
    exact hnot s (by omega) hfound.2

/-- The window at `o`. -/
def Window.ofNat (h₀ : Ptr) (o mem : ℕ) : Window :=
  ⟨h₀ + BitVec.ofNat 64 o, BitVec.ofNat 64 mem⟩

/-- What a turn of the search comes to: the needle is searched on, further right, or the first place
is found, or there is none. -/
def Searched (m : Ptr → UInt8) (d : Needle) (h₀ : Ptr) (K p o : ℕ) :
    Turn Window (Option Ptr) → Prop
  | .again s => ∃ o' mem, o < o' ∧ SearchedTo m d h₀ K p o' mem ∧ s = .ofNat h₀ o' mem
  | .leave r => FoundFirst m d.n d.l.toNat h₀ K r

/-- The comparison of two lengths as signed numbers. -/
theorem slt_ofNat {a : ℕ} {b : BitVec 64} (ha : a < 2 ^ 63) (hb : b.toNat < 2 ^ 63) :
    (BitVec.ofNat 64 a).slt b = decide (a < b.toNat) := by
  have ha' : (BitVec.ofNat 64 a).toNat = a := by
    rw [BitVec.toNat_ofNat, Nat.mod_eq_of_lt (by omega)]
  rw [BitVec.slt, BitVec.toInt_eq_toNat_of_lt (by omega), BitVec.toInt_eq_toNat_of_lt (by omega),
    ha']
  exact decide_eq_decide.mpr Nat.cast_lt

section Turn

variable (hd : d.Ready m c p) (h : SearchedTo m d h₀ K p o mem) (hfits : o + d.l.toNat ≤ K)
  (hn : block d.n d.l.toNat ⊆ S) (hh : block h₀ K ⊆ S)

theorem bytesFrom_add (h₀ : Ptr) (o i : ℕ) :
    bytesFrom m (h₀ + BitVec.ofNat 64 o) i = bytesFrom m h₀ (o + i) := by
  rw [bytesFrom, bytesFrom, BitVec.add_assoc, BitVec.ofNat_add]

include hfits hh in
theorem block_window : block (h₀ + BitVec.ofNat 64 o) d.l.toNat ⊆ S :=
  (block_add_subset hfits).trans hh

include h in
theorem mem_le : mem ≤ d.l.toNat := by
  rcases h.start with rfl | ⟨-, rfl, -⟩
  · exact Nat.zero_le _
  · exact Nat.sub_le _ _

include h in
/-- What is remembered, and what was compared behind that, is all that is behind the position. -/
theorem right_of_compared {k : ℕ}
    (heq : ∀ i, max c mem ≤ i → i < k → bytesFrom m h₀ (o + i) = bytesFrom m d.n i) :
    ∀ i, c ≤ i → i < k → bytesFrom m h₀ (o + i) = bytesFrom m d.n i := by
  intro i hi hik
  by_cases him : i < mem
  · rcases h.start with rfl | ⟨-, -, hstart⟩
    · omega
    · exact hstart i him
  · exact heq i (max_le hi (not_lt.mp him)) hik

include hd h hfits in
/-- A byte behind the position differs. -/
theorem searched_of_right {k : ℕ} (hck : c ≤ k) (hk : k < d.l.toNat)
    (hright : ∀ i, c ≤ i → i < k → bytesFrom m h₀ (o + i) = bytesFrom m d.n i)
    (hne : bytesFrom m d.n k ≠ bytesFrom m h₀ (o + k)) :
    Searched m d h₀ K p o (.again ⟨h₀ + BitVec.ofNat 64 o + (BitVec.ofNat 64 k - d.ms), 0⟩) := by
  refine ⟨o + (k + 1 - c), 0, by omega, h.skip (by omega) (fun s hs hocc => ?_) (.inl rfl), ?_⟩
  · rcases Nat.eq_zero_or_pos s with rfl | hpos
    · exact hne (hocc k hk).symm
    · exact hd.critical.not_occurs_of_ne hright hk hne hpos (by omega) hocc
  · have hmove : BitVec.ofNat 64 k - d.ms = BitVec.ofNat 64 (k + 1 - c) := by
      obtain ⟨j, rfl⟩ := Nat.exists_eq_add_of_le hck
      rw [hd.ms, show c + j + 1 - c = j + 1 by omega, ofNat_succ, BitVec.ofNat_add]
      ring
    rw [hmove, BitVec.add_assoc, ← BitVec.ofNat_add]
    rfl

include hd h hfits in
/-- All behind the position is right, but a byte before it differs. -/
theorem searched_of_left (hnot : ¬ Occurs (bytesFrom m d.n) d.l.toNat (bytesFrom m h₀) o)
    (hright : ∀ i, c ≤ i → i < d.l.toNat → bytesFrom m h₀ (o + i) = bytesFrom m d.n i) :
    Searched m d h₀ K p o (.again ⟨h₀ + BitVec.ofNat 64 o + d.p, d.mem0⟩) := by
  have hcl := hd.critical.le
  have hp := hd.critical.pos
  rcases hd.move with ⟨hper, hmove, hmem⟩ | ⟨hper, hmove, hmem⟩
  · have hcp := hd.critical.lt_of_period hper
    refine ⟨o + p, d.l.toNat - p, by omega, h.skip (by omega) (fun s hs hocc => ?_)
      (.inr ⟨hper, rfl, hper.start_of_right hcp.le hright⟩), ?_⟩
    · rcases Nat.eq_zero_or_pos s with rfl | hpos
      · exact hnot hocc
      · exact absurd (hd.critical.le_of_occurs hright hpos hocc) (by omega)
    · rw [hmove, hmem, BitVec.add_assoc, ← BitVec.ofNat_add]
      rfl
  · have hc : 0 < c := by
      rw [Nat.pos_iff_ne_zero]
      rintro rfl
      exact hper hd.critical.period
    refine ⟨o + max c (d.l.toNat + 1 - c), 0, by omega,
      h.skip (by omega) (fun s hs hocc => ?_) (.inl rfl), ?_⟩
    · rcases Nat.eq_zero_or_pos s with rfl | hpos
      · exact hnot hocc
      · have := hd.critical.lt_of_not_period hper hright hpos hocc
        omega
    · rw [hmove, hmem, BitVec.add_assoc, ← BitVec.ofNat_add]
      rfl

theorem MAX_ofNat {a b : ℕ} (ha : a < 2 ^ 64) (hb : b < 2 ^ 64) :
    MAX (BitVec.ofNat 64 a) (BitVec.ofNat 64 b) = BitVec.ofNat 64 (max a b) := by
  have hlt : BitVec.ofNat 64 a > BitVec.ofNat 64 b ↔ b < a := lt_iff_ofNat hb ha
  rw [MAX]
  split_ifs with h
  · rw [max_eq_left (hlt.mp h).le]
  · rw [max_eq_right (not_lt.mp (hlt.not.mp h))]

include hd h hfits hn hh in
/-- **The comparison of the halves.** -/
theorem meets_compareHalves :
    Meets S m (Searched m d h₀ K p o) (d.compareHalves (.ofNat h₀ o mem)) := by
  have hl := d.l.isLt
  have hcl := hd.critical.le
  have hmem := mem_le h
  have hms : d.ms + 1 = BitVec.ofNat 64 c := by rw [hd.ms, BitVec.sub_add_cancel]
  have htoNat : ∀ a, a ≤ d.l.toNat → (BitVec.ofNat 64 a).toNat = a := fun a ha =>
    BitVec.toNat_ofNat _ _ ▸ Nat.mod_eq_of_lt (ha.trans_lt hl)
  have hwindow := block_window (S := S) hfits hh
  obtain ⟨hread, k, hk, hk₀, hkl, heq, hne⟩ :=
    meets_right (m := m) (show max c mem ≤ d.l.toNat by omega) hn hwindow
  simp only [bytesFrom_add] at heq hne
  have hright := right_of_compared h heq
  rw [Needle.compareHalves, Window.ofNat]
  dsimp only
  rw [hms, MAX_ofNat (by omega) (by omega), htoNat _ (by omega), Probe.meets_bind, hk]
  refine ⟨hread, ?_⟩
  simp only [lt_iff_of_le hkl]
  split_ifs with hlt
  · exact Probe.meets_pure.mpr (searched_of_right hd h hfits (by omega) hlt hright (hne hlt))
  · obtain rfl : k = d.l.toNat := by omega
    obtain ⟨hread', k, hk', hkc, heq', hne'⟩ :=
      meets_left (m := m) mem (show c ≤ d.l.toNat by omega) hn hwindow
    simp only [bytesFrom_add] at heq' hne'
    rw [htoNat _ (by omega), htoNat _ hmem, Probe.meets_bind, hk']
    refine ⟨hread', ?_⟩
    have hkm : BitVec.ofNat 64 k ≤ BitVec.ofNat 64 mem ↔ k ≤ mem := by
      rw [BitVec.le_def, htoNat _ (by omega), htoNat _ hmem]
    split_ifs with hle
    · -- all of the needle is there
      have hkm' := hkm.mp hle
      refine Probe.meets_pure.mpr ⟨some o, rfl, ⟨hfits, fun i hi => ?_⟩, h.before⟩
      by_cases hic : i < c
      · rcases Nat.lt_or_ge i k with hik | hik
        · rcases h.start with rfl | ⟨-, -, hstart⟩
          · omega
          · exact hstart i (by omega)
        · exact heq' i hik hic
      · exact hright i (not_lt.mp hic) hi
    · refine Probe.meets_pure.mpr (searched_of_left hd h hfits (fun hocc => ?_) hright)
      have hmk := not_le.mp (hkm.not.mp hle)
      exact hne' hmk (hocc (k - 1) (by omega)).symm

include hd h hfits in
/-- The last byte is one of the needle's, but not its last one. -/
theorem searched_of_last {b : UInt8} (hb : bytesFrom m h₀ (o + (d.l.toNat - 1)) = b)
    (hhas : d.tables.has b = true) (hne : d.l - d.tables.shift b ≠ 0) :
    Searched m d h₀ K p o (.again ⟨h₀ + BitVec.ofNat 64 o +
      (if d.l - d.tables.shift b < BitVec.ofNat 64 mem then BitVec.ofNat 64 mem
        else d.l - d.tables.shift b), 0⟩) := by
  have hl := d.l.isLt
  have hmem := mem_le h
  obtain ⟨i, hi, hX, hshift, hlast⟩ := hd.tables.last b hhas
  have hk : d.l - d.tables.shift b = BitVec.ofNat 64 (d.l.toNat - (i + 1)) := by
    obtain ⟨t, ht⟩ := Nat.exists_eq_add_of_le (show i + 1 ≤ d.l.toNat from hi)
    calc d.l - d.tables.shift b = BitVec.ofNat 64 (i + 1 + t) - BitVec.ofNat 64 (i + 1) := by
          rw [hshift, ← ofNat_succ, ← ht, BitVec.ofNat_toNat, BitVec.setWidth_eq]
      _ = BitVec.ofNat 64 t := by
          rw [BitVec.ofNat_add]
          ring
      _ = BitVec.ofNat 64 (d.l.toNat - (i + 1)) := by rw [ht, Nat.add_sub_cancel_left]
  have hpos : 0 < d.l.toNat - (i + 1) := by
    rw [Nat.pos_iff_ne_zero]
    intro hzero
    rw [hk, hzero] at hne
    exact hne rfl
  -- before the byte comes to where it is last in the needle
  have hbefore : ∀ s < d.l.toNat - (i + 1),
      ¬ Occurs (bytesFrom m d.n) d.l.toNat (bytesFrom m h₀) (o + s) := by
    intro s hs hocc
    have hbyte := hocc (d.l.toNat - 1 - s) (by omega)
    rw [show o + s + (d.l.toNat - 1 - s) = o + (d.l.toNat - 1) by omega, hb] at hbyte
    have := hlast _ (by omega) hbyte.symm
    omega
  rw [hk, BitVec.add_assoc]
  split_ifs with hlt
  · -- behind the start that is remembered
    have hlt' := (lt_iff_ofNat (by omega) (by omega)).mp hlt
    have hne' : bytesFrom m d.n (d.l.toNat - 1) ≠ bytesFrom m h₀ (o + (d.l.toNat - 1)) := by
      intro heq
      have := hlast (d.l.toNat - 1) (by omega) (heq.trans hb)
      omega
    refine ⟨o + mem, 0, by omega, h.skip (by omega) (fun s hs hocc => ?_) (.inl rfl), ?_⟩
    · rcases Nat.eq_zero_or_pos s with rfl | hspos
      · exact hbefore 0 hpos hocc
      · rcases h.start with rfl | ⟨hper, rfl, hstart⟩
        · omega
        · exact hper.not_occurs_of_start hstart hd.critical.pos hne' hspos hs hocc
    · rw [← BitVec.ofNat_add]
      rfl
  · refine ⟨o + (d.l.toNat - (i + 1)), 0, by omega, h.skip (by omega) hbefore (.inl rfl), ?_⟩
    rw [← BitVec.ofNat_add]
    rfl

include hd h hfits in
/-- The last byte is none of the needle's. -/
theorem searched_of_notMem {b : UInt8} (hb : bytesFrom m h₀ (o + (d.l.toNat - 1)) = b)
    (hhas : ¬ d.tables.has b = true) :
    Searched m d h₀ K p o (.again ⟨h₀ + BitVec.ofNat 64 o + d.l, 0⟩) := by
  have hcl := hd.critical.le
  have hp := hd.critical.pos
  refine ⟨o + d.l.toNat, 0, by omega, h.skip hfits (fun s hs hocc => ?_) (.inl rfl), ?_⟩
  · have hbyte := hocc (d.l.toNat - 1 - s) (by omega)
    rw [show o + s + (d.l.toNat - 1 - s) = o + (d.l.toNat - 1) by omega, hb] at hbyte
    exact hhas ((hd.tables.has_iff b).mpr ⟨_, by omega, hbyte.symm⟩)
  · rw [Window.ofNat, BitVec.ofNat_add, BitVec.ofNat_toNat, BitVec.setWidth_eq, BitVec.add_assoc]
    rfl

include hd h hn hh in
/-- **A turn of the search.** -/
theorem meets_searchTurn (hK : K < 2 ^ 63) (hl : d.l.toNat < 2 ^ 63) :
    Meets S m (Searched m d h₀ K p o)
      (d.searchTurn (h₀ + BitVec.ofNat 64 K) (.ofNat h₀ o mem)) := by
  have hoK := h.le
  have hcl := hd.critical.le
  have hp := hd.critical.pos
  have hleft : h₀ + BitVec.ofNat 64 K - (h₀ + BitVec.ofNat 64 o) = BitVec.ofNat 64 (K - o) := by
    obtain ⟨t, rfl⟩ := Nat.exists_eq_add_of_le hoK
    rw [Nat.add_sub_cancel_left, BitVec.ofNat_add]
    ring
  have hslt : (BitVec.ofNat 64 (K - o)).slt d.l = decide (K - o < d.l.toNat) :=
    slt_ofNat (by omega) hl
  have hlast : d.l - 1 = BitVec.ofNat 64 (d.l.toNat - 1) := by
    have := iterate_sub_one (a := d.l.toNat) (j := 1) (by omega)
    rwa [BitVec.ofNat_toNat, BitVec.setWidth_eq] at this
  rw [Needle.searchTurn, Window.ofNat]
  dsimp only
  rw [hleft, hslt, hlast]
  by_cases hfits : K - o < d.l.toNat
  · -- there is no room for the needle from here on
    rw [if_pos (decide_eq_true hfits), Probe.meets_pure]
    refine ⟨none, rfl, fun o' hfound => ?_⟩
    rcases Nat.lt_or_ge o' o with hlt | hge
    · exact h.before o' hlt hfound
    · have := hfound.1
      omega
  · have hfits' : o + d.l.toNat ≤ K := by omega
    have hwindow := block_window (S := S) hfits' hh
    rw [if_neg (by rwa [decide_eq_true_eq]), Probe.meets_bind, Probe.within_byte, Probe.run_byte]
    refine ⟨hwindow (add_mem_block (by omega)), ?_⟩
    have hb := bytesFrom_add (m := m) h₀ o (d.l.toNat - 1)
    rw [bytesFrom] at hb
    rw [hb]
    by_cases hhas : d.tables.has (bytesFrom m h₀ (o + (d.l.toNat - 1))) = true
    · rw [if_pos hhas]
      by_cases hk : d.l - d.tables.shift (bytesFrom m h₀ (o + (d.l.toNat - 1))) ≠ 0
      · rw [if_pos hk]
        exact Probe.meets_pure.mpr (searched_of_last hd h hfits' rfl hhas hk)
      · rw [if_neg hk]
        exact meets_compareHalves hd h hfits' hn hh
    · rw [if_neg hhas]
      exact Probe.meets_pure.mpr (searched_of_notMem hd h hfits' rfl hhas)

end Turn

/-- **The search**: the first place where the needle is, or none. -/
theorem meets_search {fuel : ℕ} (hd : d.Ready m c p) (hn : block d.n d.l.toNat ⊆ S)
    (hh : block h₀ K ⊆ S) (hK : K < 2 ^ 63) (hl : d.l.toNat < 2 ^ 63) (hfuel : K < fuel) :
    Meets S m (fun r => ∃ out, r = some out ∧ FoundFirst m d.n d.l.toNat h₀ K out)
      (Probe.loop (d.searchTurn (h₀ + BitVec.ofNat 64 K)) fuel ⟨h₀, 0⟩) := by
  have hat : ∀ o mem, o ≤ K → K - ((Window.ofNat h₀ o mem).h - h₀).toNat = K - o := by
    intro o mem ho
    have hsub : h₀ + BitVec.ofNat 64 o - h₀ = BitVec.ofNat 64 o := by ring
    rw [Window.ofNat, hsub, BitVec.toNat_ofNat, Nat.mod_eq_of_lt (by omega)]
  apply Probe.meets_loop (fun s => ∃ o mem, SearchedTo m d h₀ K p o mem ∧ s = .ofNat h₀ o mem) _
    fun s => K - (s.h - h₀).toNat
  · rintro s ⟨o, mem, h, rfl⟩
    exact (meets_searchTurn hd h hn hh hK hl).1
  · rintro s s' ⟨o, mem, h, rfl⟩ hturn
    have hsearched := (meets_searchTurn hd h hn hh hK hl).2
    rw [hturn] at hsearched
    obtain ⟨o', mem', hlt, h', rfl⟩ := hsearched
    refine ⟨⟨o', mem', h', rfl⟩, ?_⟩
    have := h'.le
    rw [hat o' mem' h'.le, hat o mem h.le]
    omega
  · rintro s out ⟨o, mem, h, rfl⟩ hturn
    have hsearched := (meets_searchTurn hd h hn hh hK hl).2
    rwa [hturn] at hsearched
  · refine ⟨0, 0, ⟨Nat.zero_le _, fun o' ho' => absurd ho' (Nat.not_lt_zero _), .inl rfl⟩, ?_⟩
    rw [Window.ofNat, BitVec.add_zero]
    rfl
  · exact (Nat.sub_le _ _).trans_lt hfuel

end Search

/-! ## Two ways -/

section TwoWay

variable {m : Ptr → UInt8} {S : Set Ptr} {h z n : Ptr} {l : BitVec 64} {T : Tables} {c p K : ℕ}

/-- A period of the word from a position on is one of the whole word if it is one of the start. -/
theorem period_iff_start {X : ℕ → UInt8} {l : ℕ} (hper : PeriodFrom X l c p) (hle : c + p ≤ l) :
    Period X l p ↔ ∀ i < c, X i = X (p + i) := by
  rw [period_iff]
  constructor
  · intro h i hi
    rw [Nat.add_comm p i]
    exact h i (by omega)
  · intro h i hi
    rcases Nat.lt_or_ge i c with hic | hic
    · rw [Nat.add_comm i p]
      exact h i hic
    · exact hper i hic hi

theorem sub_ofNat {a : ℕ} (ha : a ≤ l.toNat) :
    l - BitVec.ofNat 64 a = BitVec.ofNat 64 (l.toNat - a) := by
  obtain ⟨t, ht⟩ := Nat.exists_eq_add_of_le ha
  calc l - BitVec.ofNat 64 a = BitVec.ofNat 64 (a + t) - BitVec.ofNat 64 a := by
        rw [← ht, BitVec.ofNat_toNat, BitVec.setWidth_eq]
    _ = BitVec.ofNat 64 t := by
        rw [BitVec.ofNat_add]
        ring
    _ = BitVec.ofNat 64 (l.toNat - a) := by rw [ht, Nat.add_sub_cancel_left]

/-- **"Periodic needle?"** -/
theorem meets_periodicNeedle (hT : T.For (bytesFrom m n) l.toNat)
    (hc : Critical (bytesFrom m n) l.toNat c p) (hS : block n l.toNat ⊆ S) :
    Meets S m (fun d => d.Ready m c p ∧ d.n = n ∧ d.l = l)
      (periodicNeedle n l T (BitVec.ofNat 64 c - 1) (BitVec.ofNat 64 p)) := by
  have hl := l.isLt
  have hle := hc.le
  have hp := hc.pos
  have hlen : (BitVec.ofNat 64 c - 1 + 1).toNat = c := by
    rw [BitVec.sub_add_cancel, BitVec.toNat_ofNat, Nat.mod_eq_of_lt (by omega)]
  have heq : load m n c = load m (n + BitVec.ofNat 64 p) c ↔ Period (bytesFrom m n) l.toNat p := by
    rw [period_iff_start hc.period hle, load, load, List.map_inj_left]
    simp only [List.mem_range, BitVec.add_assoc, ← BitVec.ofNat_add]
    rfl
  rw [periodicNeedle, hlen, Probe.meets_bind, Probe.within_bytes, Probe.meets_bind,
    Probe.within_bytes, Probe.run_bytes, Probe.run_bytes, Probe.map_span, Probe.map_span,
    Probe.span_subset_iff, Probe.span_subset_iff]
  refine ⟨(block_mono (by omega)).trans hS, (block_add_subset (by omega)).trans hS, ?_⟩
  by_cases hper : Period (bytesFrom m n) l.toNat p
  · rw [if_neg (not_not.mpr (heq.mpr hper)), Probe.meets_pure]
    exact ⟨⟨hT, hc, rfl, .inl ⟨hper, rfl, sub_ofNat (by omega)⟩⟩, rfl, rfl⟩
  · rw [if_pos (heq.not.mpr hper), Probe.meets_pure]
    refine ⟨⟨hT, hc, rfl, .inr ⟨hper, ?_, rfl⟩⟩, rfl, rfl⟩
    -- the period is known from the position on, which is not the start then
    have hpos : 0 < c := by
      rw [Nat.pos_iff_ne_zero]
      rintro rfl
      exact hper hc.period
    have hms : BitVec.ofNat 64 c - 1 = BitVec.ofNat 64 (c - 1) := iterate_sub_one (j := 1) hpos
    have hright : l - BitVec.ofNat 64 (c - 1) - 1 = BitVec.ofNat 64 (l.toNat - c) := by
      rw [← hms, sub_sub, sub_add_cancel, sub_ofNat (by omega)]
    rw [hms, hright, MAX_ofNat (by omega) (by omega), ← ofNat_succ]
    have hmax : max (c - 1) (l.toNat - c) + 1 = max c (l.toNat + 1 - c) := by omega
    exact congrArg (BitVec.ofNat 64) hmax

instance isStrictTotalOrder_byte : IsStrictTotalOrder UInt8 (· < ·) where
  irrefl := UInt8.lt_irrefl
  trans := fun _ _ _ => UInt8.lt_trans
  trichotomous := fun _ _ h h' => UInt8.le_antisymm (UInt8.not_lt.mp h') (UInt8.not_lt.mp h)

/-- **The two-way search** finds the first place where the needle is, and reads nothing but the
needle and the haystack. -/
theorem meets_twowayMemmem {fuel : ℕ} (shift : UInt8 → BitVec 64) (hpos : 0 < l.toNat)
    (hl : l.toNat < 2 ^ 63) (hK : K < 2 ^ 63) (hn : block n l.toNat ⊆ S) (hh : block h K ⊆ S)
    (hfuel : (l.toNat + 1) * (l.toNat + 1) + K < fuel) :
    Meets S m (fun r => ∃ out, r = some out ∧ FoundFirst m n l.toNat h K out)
      (twowayMemmem fuel shift h (h + BitVec.ofNat 64 K) n l) := by
  have hswap : IsStrictTotalOrder UInt8 (Function.swap (· < ·)) := inferInstance
  obtain ⟨hreadT, hT⟩ := meets_fillTables (m := m) shift hn
  obtain ⟨hread, _, hrun, a, b, k, p, hscan, hend, rfl⟩ := meets_maximalSuffix (m := m)
    (r := (· < ·)) fuel (fun a b => b < a) (fun a b => decide_eq_true_iff) hpos (by omega) hn
  obtain ⟨hread', _, hrun', a', b', k', p', hscan', hend', rfl⟩ := meets_maximalSuffix (m := m)
    (r := Function.swap (· < ·)) fuel (fun a b => a < b) (fun a b => decide_eq_true_iff) hpos (by omega) hn
  rw [twowayMemmem, Probe.meets_bind]
  refine ⟨hreadT, ?_⟩
  rw [Probe.meets_bind, hrun]
  refine ⟨hread, ?_⟩
  rw [Probe.meets_bind, hrun']
  refine ⟨hread', ?_⟩
  have ha := hscan.add_le
  have ha' := hscan'.add_le
  have hlater : BitVec.ofNat 64 a' - 1 + 1 > BitVec.ofNat 64 a - 1 + 1 ↔ a < a' := by
    rw [BitVec.sub_add_cancel, BitVec.sub_add_cancel]
    exact lt_iff_ofNat (by omega) (by omega)
  -- the later of the two positions is critical
  obtain ⟨c, q, hcritical, hchosen⟩ : ∃ c q, Critical (bytesFrom m n) l.toNat c q ∧
      (if BitVec.ofNat 64 a' - 1 + 1 > BitVec.ofNat 64 a - 1 + 1
        then (BitVec.ofNat 64 a' - 1, BitVec.ofNat 64 p')
        else (BitVec.ofNat 64 a - 1, BitVec.ofNat 64 p)) =
      (BitVec.ofNat 64 c - 1, BitVec.ofNat 64 q) := by
    by_cases hlt : a < a'
    · exact ⟨a', p', hscan'.critical hscan hend' hend hlt.le, if_pos (hlater.mpr hlt)⟩
    · exact ⟨a, p, hscan.critical hscan' hend hend' (not_lt.mp hlt), if_neg (hlater.not.mpr hlt)⟩
  dsimp only
  rw [hchosen]
  obtain ⟨hreadP, hready, hdn, hdl⟩ := meets_periodicNeedle hT hcritical hn
  rw [Probe.meets_bind]
  refine ⟨hreadP, ?_⟩
  generalize (periodicNeedle n l _ _ _).run m = d at hready hdn hdl ⊢
  subst hdn hdl
  exact meets_search hready hn hh hK hl (by omega)

end TwoWay

end Lilu.Util
