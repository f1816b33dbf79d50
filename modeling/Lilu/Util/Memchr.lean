import Lilu.Prelude.Probe
import Mathlib.Data.BitVec

/-!
# Searching for a byte

`lilu_os_memchr` looks at single bytes up to the first aligned address, then at words of eight
bytes, and at single bytes again from the first word on that may have the byte.

## Main definitions

* `liluOsMemchr src c n`: the search
* `First P`: the first number with a property, or that there is none

## Main results

* `hasZero_ne_zero`: a word with a byte that is zero is not passed over
* `meets_liluOsMemchr`: the first place of the byte is found, and nothing else is read
-/

namespace Lilu.Util

open Probe (byte word Within Meets)

/-- A pointer to a byte. -/
abbrev Ptr := BitVec 64

/-! ## The program -/

def ONES : BitVec 64 :=
  -1 / 255

def HIGHS : BitVec 64 :=
  ONES * (255 / 2 + 1)

def HASZERO (x : BitVec 64) : BitVec 64 :=
  x - ONES &&& ~~~x &&& HIGHS

/-- Where the search is, and how many bytes are left. -/
structure Cursor where
  s : Ptr
  n : BitVec 64

def Cursor.skip (k : BitVec 64) (t : Cursor) : Cursor :=
  ⟨t.s + k, t.n - k⟩

/-- The condition of the first loop does not hold any more. -/
def unaligned (c : UInt8) (t : Cursor) : Probe Ptr Bool :=
  if t.s &&& 7 ≠ 0 ∧ t.n ≠ 0 then do pure ((← byte t.s) == c) else pure true

/-- That of the loop over words. -/
def inWord (k : BitVec 64) (t : Cursor) : Probe Ptr Bool :=
  if t.n ≥ 8 then do pure (HASZERO ((← word 64 t.s) ^^^ k) != 0) else pure true

/-- That of the last loop. -/
def atByte (c : UInt8) (t : Cursor) : Probe Ptr Bool :=
  if t.n ≠ 0 then do pure ((← byte t.s) == c) else pure true

/-- `if (n && *s != c)`: the words. -/
def overWords (c : UInt8) (t : Cursor) : Probe Ptr Cursor := do
  if ← atByte c t then pure t
  else Probe.seek (inWord (ONES * c.toBitVec.setWidth 64)) (Cursor.skip 8) (t.n.toNat / 8) t

/-- `lilu_os_memchr` -/
def liluOsMemchr (src : Ptr) (c : BitVec 32) (n : BitVec 64) : Probe Ptr (Option Ptr) := do
  let c : UInt8 := ⟨c.setWidth 8⟩
  let t ← Probe.seek (unaligned c) (Cursor.skip 1) n.toNat ⟨src, n⟩
  let t ← overWords c t
  let t ← Probe.seek (atByte c) (Cursor.skip 1) t.n.toNat t
  pure (if t.n ≠ 0 then some t.s else none)

/-! ## Words -/

section Words

variable {N i : ℕ}

/-- The lowest byte that is zero borrows, as none below it does. -/
theorem borrow (hi : i < 8) (hzero : N / 256 ^ i % 256 = 0)
    (hlow : ∀ j < i, N / 256 ^ j % 256 ≠ 0) :
    (2 ^ 64 - 0x0101010101010101 + N) % 2 ^ 64 / 2 ^ (8 * i + 7) % 2 = 1 := by
  have h0 := hlow 0
  have h1 := hlow 1
  have h2 := hlow 2
  have h3 := hlow 3
  have h4 := hlow 4
  have h5 := hlow 5
  have h6 := hlow 6
  clear hlow
  interval_cases i <;> omega

/-- The highest bit of a byte that is zero is not set. -/
theorem highest_of_zero (hi : i < 8) (hzero : N / 256 ^ i % 256 = 0) :
    N / 2 ^ (8 * i + 7) % 2 = 0 := by
  interval_cases i <;> omega

/-- **A word with a byte that is zero**. -/
theorem hasZero_ne_zero {x : BitVec 64} (hi : i < 8) (hzero : x.toNat / 256 ^ i % 256 = 0) :
    HASZERO x ≠ 0 := by
  classical
  -- the first of them
  have hex : ∃ i, i < 8 ∧ x.toNat / 256 ^ i % 256 = 0 := ⟨i, hi, hzero⟩
  obtain ⟨hi, hzero⟩ := Nat.find_spec hex
  have hlow : ∀ j < Nat.find hex, x.toNat / 256 ^ j % 256 ≠ 0 := by
    intro j hj hj0
    exact Nat.find_min hex hj ⟨hj.trans hi, hj0⟩
  generalize Nat.find hex = i at hi hzero hlow
  have hbit (y : BitVec 64) :
      y.getLsbD (8 * i + 7) = decide (y.toNat / 2 ^ (8 * i + 7) % 2 = 1) := by
    rw [BitVec.getLsbD, Nat.testBit_eq_decide_div_mod_eq]
  have hsub : (x - ONES).getLsbD (8 * i + 7) = true := by
    rw [hbit, decide_eq_true_eq, BitVec.toNat_sub]
    exact borrow hi hzero hlow
  have hnot : (~~~x).getLsbD (8 * i + 7) = true := by
    have hlt : 8 * i + 7 < 64 := by omega
    rw [BitVec.getLsbD_not, hbit, highest_of_zero hi hzero]
    simp [hlt]
  have hhigh : HIGHS.getLsbD (8 * i + 7) = true := by
    interval_cases i <;> rfl
  intro h
  have := congrArg (BitVec.getLsbD · (8 * i + 7)) h
  simp [HASZERO, hsub, hnot, hhigh] at this

variable {m : Ptr → UInt8} {a : Ptr} {c : UInt8}

theorem toNat_ones_mul (c : UInt8) :
    (ONES * c.toBitVec.setWidth 64).toNat = leNat (List.replicate 8 c) := by
  have hc := c.toNat_lt
  have hw : (c.toBitVec.setWidth 64).toNat = c.toNat := by
    rw [BitVec.toNat_setWidth, UInt8.toNat_toBitVec, Nat.mod_eq_of_lt (by omega)]
  rw [BitVec.toNat_mul, hw, show ONES.toNat = 0x0101010101010101 from rfl]
  simp only [List.replicate, leNat]
  omega

/-- **A word with the byte is not passed over.** -/
theorem hasZero_xor_ne_zero (hi : i < 8) (hc : m (a + BitVec.ofNat 64 i) = c) :
    HASZERO (read 64 m a ^^^ ONES * c.toBitVec.setWidth 64) ≠ 0 := by
  have hlt : leNat (load m a 8) < 2 ^ 64 := by
    have := leNat_lt (load m a 8)
    rw [length_load] at this
    omega
  have hread : (read 64 m a).toNat = leNat (load m a 8) := by
    rw [read, BitVec.toNat_ofNat, Nat.mod_eq_of_lt hlt]
  apply hasZero_ne_zero hi
  rw [BitVec.toNat_xor, hread, toNat_ones_mul, show 256 = 2 ^ 8 by norm_num, ← pow_mul,
    Nat.xor_div_two_pow, Nat.xor_mod_two_pow, pow_mul, show 2 ^ 8 = 256 by norm_num, leNat_div_mod,
    leNat_div_mod, getElem?_load hi, List.getElem?_replicate, if_pos hi, hc, Nat.xor_self]

end Words

/-! ## The search -/

section Search

/-- The bytes from a pointer on. -/
def bytesFrom (m : Ptr → UInt8) (n : Ptr) (i : ℕ) : UInt8 :=
  m (n + BitVec.ofNat 64 i)

/-- The first number with a property, or that there is none. -/
def First (P : ℕ → Prop) : Option ℕ → Prop
  | some q => P q ∧ ∀ o < q, ¬ P o
  | none => ∀ o, ¬ P o

variable {m : Ptr → UInt8} {S : Set Ptr} {src : Ptr} {c : UInt8} {n i w k : ℕ}

/-- The cursor before the byte at `i` of `n`. -/
def Cursor.ofNat (src : Ptr) (n i : ℕ) : Cursor :=
  ⟨src + BitVec.ofNat 64 i, BitVec.ofNat 64 (n - i)⟩

/-- None of the bytes before `i` is the one that is searched. -/
structure Passed (m : Ptr → UInt8) (src : Ptr) (c : UInt8) (n i : ℕ) : Prop where
  le : i ≤ n
  before : ∀ j < i, bytesFrom m src j ≠ c

theorem Passed.add (h : Passed m src c n i) (hle : i + w ≤ n)
    (hne : ∀ j < w, bytesFrom m src (i + j) ≠ c) : Passed m src c n (i + w) where
  le := hle
  before := fun j hj => by
    rcases Nat.lt_or_ge j i with hlt | hge
    · exact h.before j hlt
    · obtain ⟨t, rfl⟩ := Nat.exists_eq_add_of_le hge
      exact hne t (by omega)

theorem skip_ofNat (hle : i + w ≤ n) :
    (Cursor.ofNat src n i).skip (BitVec.ofNat 64 w) = .ofNat src n (i + w) := by
  obtain ⟨t, rfl⟩ := Nat.exists_eq_add_of_le hle
  rw [Cursor.skip, Cursor.ofNat, Cursor.ofNat, show i + w + t - i = t + w by omega,
    Nat.add_sub_cancel_left, BitVec.ofNat_add, BitVec.add_sub_cancel, BitVec.add_assoc,
    BitVec.ofNat_add]

/-- **One of the loops**: it reads where its condition does, and skips what is not the byte. -/
theorem meets_skip {hit : Cursor → Probe Ptr Bool}
    (hread : ∀ i, Passed m src c n i → Within S m (hit (.ofNat src n i)))
    (hskip : ∀ i, Passed m src c n i → (hit (.ofNat src n i)).run m = false →
      Passed m src c n (i + w)) (h : Passed m src c n i) :
    Meets S m (fun t => ∃ i', t = .ofNat src n i' ∧ Passed m src c n i' ∧
      ((hit t).run m = true ∨ i' = i + k * w))
      (Probe.seek hit (Cursor.skip (BitVec.ofNat 64 w)) k (.ofNat src n i)) := by
  induction k generalizing i with
  | zero => exact Probe.meets_pure.mpr ⟨i, rfl, h, .inr (by rw [Nat.zero_mul, Nat.add_zero])⟩
  | succ k ih =>
    rw [Probe.seek, Probe.meets_bind]
    refine ⟨hread i h, ?_⟩
    cases hhit : (hit (.ofNat src n i)).run m with
    | true => exact Probe.meets_pure.mpr ⟨i, rfl, h, .inl hhit⟩
    | false =>
      have hnext := hskip i h hhit
      rw [if_neg Bool.false_ne_true, skip_ofNat hnext.le]
      refine (ih hnext).imp fun t => ?_
      rintro ⟨i', ht, h', hend⟩
      exact ⟨i', ht, h', hend.imp_right fun heq => by rw [heq, Nat.succ_mul]; omega⟩

section Conditions

variable (hn : n < 2 ^ 64) (hS : block src n ⊆ S) (h : Passed m src c n i)

include hn h in
theorem toNat_left : (Cursor.ofNat src n i).n.toNat = n - i := by
  have := h.le
  rw [Cursor.ofNat, BitVec.toNat_ofNat, Nat.mod_eq_of_lt (by omega)]

include hn h in
theorem left_ne_zero : (Cursor.ofNat src n i).n ≠ 0 ↔ i < n := by
  rw [ne_eq, ← BitVec.toNat_inj, toNat_left hn h]
  exact Nat.sub_ne_zero_iff_lt

include hS h in
/-- A condition that looks at a byte, if it looks at one at all. -/
theorem meets_condition {p : Prop} [Decidable p] (hp : p → i < n) :
    Meets S m (fun b => b = false → Passed m src c n (i + 1))
      (if p then do pure ((← byte (Cursor.ofNat src n i).s) == c) else pure true) := by
  by_cases hp' : p
  · rw [if_pos hp', Probe.meets_bind, Probe.within_byte, Probe.run_byte, Probe.meets_pure]
    refine ⟨hS (add_mem_block (hp hp')), fun hne => h.add (hp hp') fun j hj => ?_⟩
    obtain rfl : j = 0 := by omega
    exact ne_of_beq_false hne
  · rw [if_neg hp', Probe.meets_pure]
    exact fun hb => absurd hb Bool.noConfusion

include hn hS h in
theorem meets_unaligned : Meets S m (fun b => b = false → Passed m src c n (i + 1))
    (unaligned c (.ofNat src n i)) :=
  meets_condition hS h fun hp => (left_ne_zero hn h).mp hp.2

include hn hS h in
theorem meets_atByte : Meets S m (fun b => b = false → Passed m src c n (i + 1))
    (atByte c (.ofNat src n i)) :=
  meets_condition hS h (left_ne_zero hn h).mp

include hn h in
/-- The last loop stops at the byte, or at the end. -/
theorem run_atByte (hi : i < n) : (atByte c (.ofNat src n i)).run m = (bytesFrom m src i == c) := by
  rw [atByte, if_pos ((left_ne_zero hn h).mpr hi)]
  rfl

include hn hS h in
theorem meets_inWord : Meets S m (fun b => b = false → Passed m src c n (i + 8))
    (inWord (ONES * c.toBitVec.setWidth 64) (.ofNat src n i)) := by
  have hge : (Cursor.ofNat src n i).n ≥ 8 ↔ 8 ≤ n - i := by
    rw [ge_iff_le, BitVec.le_def, toNat_left hn h]
    rfl
  rw [inWord]
  by_cases hn8 : 8 ≤ n - i
  · have hfits : i + 8 ≤ n := by omega
    rw [if_pos (hge.mpr hn8), Probe.meets_bind, Probe.within_word, Probe.run_word, Probe.meets_pure]
    refine ⟨(block_add_subset hfits).trans hS, fun hzero => h.add hfits fun j hj hc => ?_⟩
    rw [bytesFrom, BitVec.ofNat_add, ← BitVec.add_assoc] at hc
    exact hasZero_xor_ne_zero hj hc (bne_eq_false_iff_eq.mp hzero)
  · rw [if_neg (hge.not.mpr hn8), Probe.meets_pure]
    exact fun hb => absurd hb Bool.noConfusion

end Conditions

/-- The words are passed over, up to one that may have the byte. -/
theorem meets_overWords (hn : n < 2 ^ 64) (hS : block src n ⊆ S) (h : Passed m src c n i) :
    Meets S m (fun t => ∃ i', t = .ofNat src n i' ∧ Passed m src c n i')
      (overWords c (.ofNat src n i)) := by
  rw [overWords, Probe.meets_bind]
  refine ⟨(meets_atByte hn hS h).1, ?_⟩
  split_ifs
  · exact Probe.meets_pure.mpr ⟨i, rfl, h⟩
  · refine Probe.Meets.imp (meets_skip (w := 8) (fun i h => (meets_inWord hn hS h).1)
      (fun i h => (meets_inWord hn hS h).2) h) fun t => ?_
    rintro ⟨i', ht, h', -⟩
    exact ⟨i', ht, h'⟩

/-- **`lilu_os_memchr`** finds the first place of the byte, and reads nothing behind the end. -/
theorem meets_liluOsMemchr {c : BitVec 32} {n : BitVec 64} (hS : block src n.toNat ⊆ S) :
    Meets S m (fun r => ∃ q : Option ℕ, r = q.map (src + BitVec.ofNat 64 ·) ∧
      First (fun i => i < n.toNat ∧ bytesFrom m src i = ⟨c.setWidth 8⟩) q)
      (liluOsMemchr src c n) := by
  have hn := n.isLt
  have hstart : (⟨src, n⟩ : Cursor) = .ofNat src n.toNat 0 := by
    rw [Cursor.ofNat, BitVec.add_zero, Nat.sub_zero, BitVec.ofNat_toNat, BitVec.setWidth_eq]
  have h0 : Passed m src ⟨c.setWidth 8⟩ n.toNat 0 :=
    ⟨Nat.zero_le _, fun j hj => absurd hj j.not_lt_zero⟩
  rw [liluOsMemchr, hstart]
  refine Probe.Meets.bind (meets_skip (w := 1) (k := n.toNat)
    (fun i h => (meets_unaligned hn hS h).1) (fun i h => (meets_unaligned hn hS h).2) h0)
    fun t => ?_
  rintro ⟨i, rfl, h, -⟩
  refine (meets_overWords hn hS h).bind fun t => ?_
  rintro ⟨i, rfl, h⟩
  rw [toNat_left hn h]
  refine Probe.Meets.bind (meets_skip (w := 1) (k := n.toNat - i)
    (fun i h => (meets_atByte hn hS h).1) (fun i h => (meets_atByte hn hS h).2) h) fun t => ?_
  rintro ⟨i', rfl, h', hend⟩
  rw [Probe.meets_pure]
  by_cases hlt : i' < n.toNat
  · rw [if_pos ((left_ne_zero hn h').mpr hlt)]
    have hbyte := hend.resolve_right (by have := h.le; omega)
    rw [run_atByte hn h' hlt, beq_iff_eq] at hbyte
    exact ⟨some i', rfl, ⟨hlt, hbyte⟩, fun j hj hc => h'.before j hj hc.2⟩
  · rw [if_neg ((left_ne_zero hn h').not.mpr hlt)]
    exact ⟨none, rfl, fun j hj => h'.before j (by omega) hj.2⟩

end Search

end Lilu.Util
