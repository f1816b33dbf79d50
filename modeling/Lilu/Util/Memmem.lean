import Lilu.Prelude.Occurrence
import Lilu.Util.TwoWay

/-!
# Searching in memory

`lilu_os_memmem` looks for the needle's first byte, and then, from there on, for the needle: a
window of two, three or four bytes is moved over the haystack in one word, and longer needles are searched
in two ways.

## Main definitions

* `windowMemmem`: the loop that the searches for short needles share
* `liluOsMemmem h0 k n0 l`: the search

## Main results

* `meets_windowMemmem`: the loop finds the first place where the window is the needle
* `memmem_first_occurrence`: the search returns the first occurrence, and reads nothing else
-/

namespace Lilu.Util

open Probe (byte Within Meets)

/-! ## Short needles -/

/-- The loop over a window of as many bytes as the needle has: the needle's word, how a byte is put
into the window, and the bytes that are left. -/
def windowMemmem {w : ℕ} (nw : BitVec w) (put : BitVec w → UInt8 → BitVec w) (l : Ptr) :
    ℕ → Ptr → BitVec w → Probe Ptr (Option Ptr)
  | 0, h, hw => pure (if hw = nw then some (h - l) else none)
  | k + 1, h, hw =>
    if hw = nw then pure (some (h - l))
    else do
      let b ← byte h
      windowMemmem nw put l k (h + 1) (put hw b)

/-- A byte as a number of more bits. -/
def wide (w : ℕ) (b : UInt8) : BitVec w :=
  b.toBitVec.setWidth w

def twobyteMemmem (h : Ptr) (k : BitVec 64) (n : Ptr) : Probe Ptr (Option Ptr) := do
  let n0 ← byte n
  let n1 ← byte (n + 1)
  let h0 ← byte h
  let h1 ← byte (h + 1)
  windowMemmem (wide 16 n0 <<< 8 ||| wide 16 n1) (fun hw b => hw <<< 8 ||| wide 16 b) 2
    (k - 2).toNat (h + 2) (wide 16 h0 <<< 8 ||| wide 16 h1)

def threebyteMemmem (h : Ptr) (k : BitVec 64) (n : Ptr) : Probe Ptr (Option Ptr) := do
  let n0 ← byte n
  let n1 ← byte (n + 1)
  let n2 ← byte (n + 2)
  let h0 ← byte h
  let h1 ← byte (h + 1)
  let h2 ← byte (h + 2)
  windowMemmem (wide 32 n0 <<< 24 ||| wide 32 n1 <<< 16 ||| wide 32 n2 <<< 8)
    (fun hw b => (hw ||| wide 32 b) <<< 8) 3 (k - 3).toNat (h + 3)
    (wide 32 h0 <<< 24 ||| wide 32 h1 <<< 16 ||| wide 32 h2 <<< 8)

def fourbyteMemmem (h : Ptr) (k : BitVec 64) (n : Ptr) : Probe Ptr (Option Ptr) := do
  let n0 ← byte n
  let n1 ← byte (n + 1)
  let n2 ← byte (n + 2)
  let n3 ← byte (n + 3)
  let h0 ← byte h
  let h1 ← byte (h + 1)
  let h2 ← byte (h + 2)
  let h3 ← byte (h + 3)
  windowMemmem (wide 32 n0 <<< 24 ||| wide 32 n1 <<< 16 ||| wide 32 n2 <<< 8 ||| wide 32 n3)
    (fun hw b => hw <<< 8 ||| wide 32 b) 4 (k - 4).toNat (h + 4)
    (wide 32 h0 <<< 24 ||| wide 32 h1 <<< 16 ||| wide 32 h2 <<< 8 ||| wide 32 h3)

/-- The search from the needle's first byte on. -/
def searchFrom (fuel : ℕ) (shift : UInt8 → BitVec 64) (h : Ptr) (k : BitVec 64) (n : Ptr)
    (l : BitVec 64) : Probe Ptr (Option (Option Ptr)) :=
  if k < l then pure (some none)
  else if l = 2 then do pure (some (← twobyteMemmem h k n))
  else if l = 3 then do pure (some (← threebyteMemmem h k n))
  else if l = 4 then do pure (some (← fourbyteMemmem h k n))
  else twowayMemmem fuel shift h (h + k) n l

/-- `lilu_os_memmem`; none if the fuel is used up. -/
def liluOsMemmem (fuel : ℕ) (shift : UInt8 → BitVec 64) (h0 : Ptr) (k : BitVec 64) (n : Ptr)
    (l : BitVec 64) : Probe Ptr (Option (Option Ptr)) :=
  if l = 0 then pure (some (some h0))
  else if k < l then pure (some none)
  else do
    match ← liluOsMemchr h0 (wide 32 (← byte n)) k with
    | none => pure (some none)
    | some h =>
      if l = 1 then pure (some (some h)) else searchFrom fuel shift h (k - (h - h0)) n l

/-! ## Windows -/

section Pack

variable {w : ℕ} {a b : UInt8} {xs ys : List UInt8}

/-- Bytes in a word, the last one lowest. -/
def pack (w : ℕ) (xs : List UInt8) : BitVec w :=
  BitVec.ofNat w (leNat xs.reverse)

theorem wide_eq (w : ℕ) (b : UInt8) : wide w b = BitVec.ofNat w b.toNat :=
  (BitVec.ofNat_toNat w b.toBitVec).symm

theorem pack_singleton : pack w [b] = wide w b := by
  rw [wide_eq]
  rfl

theorem pack_shiftLeft : pack w xs <<< 8 = pack w (xs ++ [0]) := by
  rw [← BitVec.toNat_inj, pack, pack, BitVec.toNat_shiftLeft, BitVec.toNat_ofNat,
    BitVec.toNat_ofNat, List.reverse_append, List.reverse_singleton, List.singleton_append, leNat,
    Nat.shiftLeft_eq, Nat.mod_mul_mod]
  exact congrArg (· % 2 ^ w) (by simp [Nat.mul_comm])

/-- One byte more. -/
theorem pack_concat : pack w xs <<< 8 ||| wide w b = pack w (xs ++ [b]) := by
  have hand : pack w xs <<< 8 &&& wide w b = 0 := by
    apply BitVec.eq_of_getLsbD_eq
    intro i hi
    rw [BitVec.getLsbD_and, BitVec.getLsbD_shiftLeft, wide, BitVec.getLsbD_setWidth]
    by_cases hi8 : i < 8
    · simp [hi8]
    · simp [BitVec.getLsbD_of_ge b.toBitVec i (not_lt.mp hi8)]
  rw [← BitVec.add_eq_or_of_and_eq_zero _ _ hand, pack_shiftLeft, wide_eq, pack, pack,
    ← BitVec.ofNat_add]
  simp [leNat, Nat.add_comm]

theorem pack_three (a b c : UInt8) :
    pack w [a, b, c] = (wide w a <<< 8 ||| wide w b) <<< 8 ||| wide w c := by
  rw [← pack_singleton (w := w) (b := a), pack_concat, pack_concat]
  rfl

/-- A byte that does not fit any more. -/
theorem pack_cons (h : 8 * xs.length = w) : pack w (a :: xs) = pack w xs := by
  have hpow : 256 ^ xs.length = 2 ^ w := by
    rw [← h, pow_mul]
    norm_num
  rw [← BitVec.toNat_inj, pack, pack, BitVec.toNat_ofNat, BitVec.toNat_ofNat, List.reverse_cons,
    leNat_append, List.length_reverse, hpow, Nat.add_mul_mod_self_left]

/-- The window moved by a byte. -/
theorem pack_put (h : 8 * (xs.length + 1) = w) :
    pack w (a :: xs) <<< 8 ||| wide w b = pack w (xs ++ [b]) := by
  rw [pack_concat, List.cons_append, pack_cons]
  rwa [List.length_append, List.length_singleton]

theorem pack_inj (hlen : xs.length = ys.length) (hw : 8 * xs.length ≤ w)
    (h : pack w xs = pack w ys) : xs = ys := by
  have hlt : ∀ zs : List UInt8, zs.length = xs.length → leNat zs.reverse < 2 ^ w := by
    intro zs hzs
    have := leNat_lt zs.reverse
    rw [List.length_reverse, hzs, show 256 = 2 ^ 8 by norm_num, ← pow_mul] at this
    exact this.trans_le (Nat.pow_le_pow_right (by norm_num) hw)
  rw [pack, pack, ← BitVec.toNat_inj, BitVec.toNat_ofNat, BitVec.toNat_ofNat,
    Nat.mod_eq_of_lt (hlt _ rfl), Nat.mod_eq_of_lt (hlt _ hlen.symm)] at h
  refine List.reverse_injective (leNat_inj ?_ h)
  rw [List.length_reverse, List.length_reverse, hlen]

end Pack

section Window

variable {w : ℕ} {m : Ptr → UInt8} {S : Set Ptr} {h₀ n : Ptr} {l k o K : ℕ}

theorem load_eq_iff : load m (h₀ + BitVec.ofNat 64 o) l = load m n l ↔
    Occurs (bytesFrom m n) l (bytesFrom m h₀) o := by
  rw [load, load, List.map_inj_left]
  simp only [List.mem_range, BitVec.add_assoc, ← BitVec.ofNat_add]
  rfl

/-- The window moved by a byte. -/
theorem load_move (h₀ : Ptr) (o : ℕ) (hl : 0 < l) : ∃ xs, xs.length + 1 = l ∧
    load m (h₀ + BitVec.ofNat 64 o) l = m (h₀ + BitVec.ofNat 64 o) :: xs ∧
    load m (h₀ + BitVec.ofNat 64 (o + 1)) l = xs ++ [m (h₀ + BitVec.ofNat 64 (o + l))] := by
  obtain ⟨j, rfl⟩ := Nat.exists_eq_succ_of_ne_zero hl.ne'
  refine ⟨load m (h₀ + BitVec.ofNat 64 (o + 1)) j, by rw [length_load], ?_, ?_⟩
  · rw [Nat.succ_eq_add_one, Nat.add_comm j 1, load_add, BitVec.ofNat_add o 1, ← BitVec.add_assoc]
    simp [load]
  · rw [Nat.succ_eq_add_one, load_add]
    simp [load, BitVec.add_assoc, ← BitVec.ofNat_add, Nat.add_assoc, Nat.add_comm 1 j]

theorem not_foundAt_succ {X Y : ℕ → UInt8} (hbefore : ∀ o' < o, ¬ FoundAt X l Y K o')
    (hnot : ¬ Occurs X l Y o) : ∀ o' < o + 1, ¬ FoundAt X l Y K o' := by
  intro o' ho'
  rcases Nat.lt_succ_iff_lt_or_eq.mp ho' with hlt | rfl
  · exact hbefore o' hlt
  · exact fun h => hnot h.2

/-- **The loop over a window**: it finds the first place where the window is the needle. -/
theorem meets_windowMemmem (pack : List UInt8 → BitVec w) (put : BitVec w → UInt8 → BitVec w)
    (hput : ∀ a xs b, xs.length + 1 = l → put (pack (a :: xs)) b = pack (xs ++ [b]))
    (hinj : ∀ xs ys, xs.length = l → ys.length = l → pack xs = pack ys → xs = ys) (hl : 0 < l)
    (hS : block h₀ K ⊆ S) (hK : o + l + k = K)
    (hbefore : ∀ o' < o, ¬ FoundAt (bytesFrom m n) l (bytesFrom m h₀) K o') :
    Meets S m (FoundFirst m n l h₀ K)
      (windowMemmem (pack (load m n l)) put (BitVec.ofNat 64 l) k (h₀ + BitVec.ofNat 64 (o + l))
        (pack (load m (h₀ + BitVec.ofNat 64 o) l))) := by
  have hhere (o : ℕ) : pack (load m (h₀ + BitVec.ofNat 64 o) l) = pack (load m n l) ↔
      Occurs (bytesFrom m n) l (bytesFrom m h₀) o := by
    rw [← load_eq_iff]
    exact ⟨hinj _ _ length_load length_load, congrArg pack⟩
  have hback (o : ℕ) :
      h₀ + BitVec.ofNat 64 (o + l) - BitVec.ofNat 64 l = h₀ + BitVec.ofNat 64 o := by
    rw [BitVec.ofNat_add, ← BitVec.add_assoc, BitVec.add_sub_cancel]
  induction k generalizing o with
  | zero =>
    rw [windowMemmem, Probe.meets_pure, hback]
    by_cases hocc : Occurs (bytesFrom m n) l (bytesFrom m h₀) o
    · rw [if_pos ((hhere o).mpr hocc)]
      exact ⟨some o, rfl, ⟨by omega, hocc⟩, hbefore⟩
    · rw [if_neg ((hhere o).not.mpr hocc)]
      refine ⟨none, rfl, fun o' h => not_foundAt_succ hbefore hocc o' ?_ h⟩
      have := h.1
      omega
  | succ k ih =>
    rw [windowMemmem, hback]
    by_cases hocc : Occurs (bytesFrom m n) l (bytesFrom m h₀) o
    · rw [if_pos ((hhere o).mpr hocc), Probe.meets_pure]
      exact ⟨some o, rfl, ⟨by omega, hocc⟩, hbefore⟩
    · obtain ⟨xs, hlen, hload, hload'⟩ := load_move (m := m) h₀ o hl
      have hat : h₀ + BitVec.ofNat 64 (o + l) + 1 = h₀ + BitVec.ofNat 64 (o + 1 + l) := by
        rw [BitVec.add_assoc, ← ofNat_succ, Nat.add_right_comm]
      rw [if_neg ((hhere o).not.mpr hocc), Probe.meets_bind, Probe.within_byte, Probe.run_byte,
        hload, hput _ _ _ hlen, ← hload', hat]
      exact ⟨hS (add_mem_block (by omega)), ih (by omega) (not_foundAt_succ hbefore hocc)⟩

end Window

/-! ## Short needles -/

section Short

variable {m : Ptr → UInt8} {S : Set Ptr} {h n : Ptr} {k : BitVec 64}

theorem load_two (a : Ptr) : load m a 2 = [m a, m (a + 1)] := by
  simp [load, List.range_succ]

theorem load_three (a : Ptr) : load m a 3 = [m a, m (a + 1), m (a + 2)] := by
  simp [load, List.range_succ]

theorem load_four (a : Ptr) : load m a 4 = [m a, m (a + 1), m (a + 2), m (a + 3)] := by
  simp [load, List.range_succ]

theorem toNat_sub_ofNat {t : ℕ} (h : t ≤ k.toNat) :
    (k - BitVec.ofNat 64 t).toNat = k.toNat - t := by
  rw [sub_ofNat h, BitVec.toNat_ofNat, Nat.mod_eq_of_lt (by omega)]

/-- The bytes of a needle are read. -/
theorem mem_block_of_lt {a : Ptr} {t : ℕ} (hS : block a t ⊆ S) :
    ∀ i < t, a + BitVec.ofNat 64 i ∈ S :=
  fun _ hi => hS (add_mem_block hi)

theorem meets_twobyteMemmem (hk : 2 ≤ k.toNat) (hn : block n 2 ⊆ S) (hh : block h k.toNat ⊆ S) :
    Meets S m (FoundFirst m n 2 h k.toNat) (twobyteMemmem h k n) := by
  have hword (a : Ptr) : wide 16 (m a) <<< 8 ||| wide 16 (m (a + 1)) = pack 16 (load m a 2) := by
    rw [load_two, ← pack_singleton, pack_concat]
    rfl
  have hleft : (k - 2).toNat = k.toNat - 2 := toNat_sub_ofNat hk
  have hwindow := meets_windowMemmem (m := m) (n := n) (l := 2) (o := 0) (k := k.toNat - 2)
    (pack 16) (fun hw b => hw <<< 8 ||| wide 16 b)
    (fun a xs b hlen => pack_put (by omega))
    (fun xs ys hx hy => pack_inj (hx.trans hy.symm) (by omega)) (by norm_num) hh (by omega)
    (fun o' ho' => absurd ho' o'.not_lt_zero)
  rw [BitVec.add_zero] at hwindow
  simp only [twobyteMemmem, Probe.meets_bind, Probe.within_byte, Probe.run_byte]
  rw [hword, hword, hleft]
  have hmem := mem_block_of_lt hn
  have hmem' := mem_block_of_lt ((block_mono hk).trans hh)
  exact ⟨hn (self_mem_block (by omega)), hmem 1 (by omega), hh (self_mem_block (by omega)),
    hmem' 1 (by omega), hwindow⟩

theorem meets_threebyteMemmem (hk : 3 ≤ k.toNat) (hn : block n 3 ⊆ S) (hh : block h k.toNat ⊆ S) :
    Meets S m (FoundFirst m n 3 h k.toNat) (threebyteMemmem h k n) := by
  have hword (a : Ptr) : wide 32 (m a) <<< 24 ||| wide 32 (m (a + 1)) <<< 16 |||
      wide 32 (m (a + 2)) <<< 8 = pack 32 (load m a 3) <<< 8 := by
    rw [load_three, pack_three]
    simp only [BitVec.shiftLeft_or_distrib, ← BitVec.shiftLeft_add]
  have hput (a : UInt8) (xs : List UInt8) (b : UInt8) (hlen : xs.length + 1 = 3) :
      (pack 32 (a :: xs) <<< 8 ||| wide 32 b) <<< 8 = pack 32 (xs ++ [b]) <<< 8 := by
    rw [pack_concat, pack_shiftLeft, pack_shiftLeft, List.cons_append, List.cons_append, pack_cons]
    rw [List.length_append, List.length_append, List.length_singleton, List.length_singleton]
    omega
  have hinj (xs ys : List UInt8) (hx : xs.length = 3) (hy : ys.length = 3)
      (heq : pack 32 xs <<< 8 = pack 32 ys <<< 8) : xs = ys := by
    rw [pack_shiftLeft, pack_shiftLeft] at heq
    refine List.append_cancel_right (pack_inj ?_ ?_ heq)
    · rw [List.length_append, List.length_append, hx, hy]
    · rw [List.length_append, List.length_singleton]
      omega
  have hleft : (k - 3).toNat = k.toNat - 3 := toNat_sub_ofNat hk
  have hwindow := meets_windowMemmem (m := m) (n := n) (o := 0) (k := k.toNat - 3)
    (fun xs => pack 32 xs <<< 8) (fun hw b => (hw ||| wide 32 b) <<< 8) hput hinj
    (by norm_num) hh (by omega) (fun o' ho' => absurd ho' o'.not_lt_zero)
  rw [BitVec.add_zero] at hwindow
  simp only [threebyteMemmem, Probe.meets_bind, Probe.within_byte, Probe.run_byte]
  rw [hword, hword, hleft]
  have hmem := mem_block_of_lt hn
  have hmem' := mem_block_of_lt ((block_mono hk).trans hh)
  exact ⟨hn (self_mem_block (by omega)), hmem 1 (by omega), hmem 2 (by omega),
    hh (self_mem_block (by omega)), hmem' 1 (by omega), hmem' 2 (by omega), hwindow⟩

theorem meets_fourbyteMemmem (hk : 4 ≤ k.toNat) (hn : block n 4 ⊆ S) (hh : block h k.toNat ⊆ S) :
    Meets S m (FoundFirst m n 4 h k.toNat) (fourbyteMemmem h k n) := by
  have hword (a : Ptr) : wide 32 (m a) <<< 24 ||| wide 32 (m (a + 1)) <<< 16 |||
      wide 32 (m (a + 2)) <<< 8 ||| wide 32 (m (a + 3)) = pack 32 (load m a 4) := by
    have hfour : [m a, m (a + 1), m (a + 2), m (a + 3)] =
        [m a, m (a + 1), m (a + 2)] ++ [m (a + 3)] := rfl
    rw [load_four, hfour, ← pack_concat, pack_three]
    simp only [BitVec.shiftLeft_or_distrib, ← BitVec.shiftLeft_add]
  have hleft : (k - 4).toNat = k.toNat - 4 := toNat_sub_ofNat hk
  have hwindow := meets_windowMemmem (m := m) (n := n) (l := 4) (o := 0) (k := k.toNat - 4)
    (pack 32) (fun hw b => hw <<< 8 ||| wide 32 b)
    (fun a xs b hlen => pack_put (by omega))
    (fun xs ys hx hy => pack_inj (hx.trans hy.symm) (by omega)) (by norm_num) hh (by omega)
    (fun o' ho' => absurd ho' o'.not_lt_zero)
  rw [BitVec.add_zero] at hwindow
  simp only [fourbyteMemmem, Probe.meets_bind, Probe.within_byte, Probe.run_byte]
  rw [hword, hword, hleft]
  have hmem := mem_block_of_lt hn
  have hmem' := mem_block_of_lt ((block_mono hk).trans hh)
  exact ⟨hn (self_mem_block (by omega)), hmem 1 (by omega), hmem 2 (by omega), hmem 3 (by omega),
    hh (self_mem_block (by omega)), hmem' 1 (by omega), hmem' 2 (by omega), hmem' 3 (by omega),
    hwindow⟩

end Short

/-! ## The search -/

section Search

variable {m : Ptr → UInt8} {h₀ n : Ptr} {k l : BitVec 64}

theorem drop_load (o K : ℕ) : (load m h₀ K).drop o = load m (h₀ + BitVec.ofNat 64 o) (K - o) := by
  rcases Nat.lt_or_ge K o with hlt | hge
  · rw [List.drop_eq_nil_of_le (by rw [length_load]; omega), Nat.sub_eq_zero_of_le hlt.le]
    rfl
  · obtain ⟨t, rfl⟩ := Nat.exists_eq_add_of_le hge
    rw [load_add, Nat.add_sub_cancel_left]
    exact List.drop_left' length_load

theorem prefix_drop_iff {l K o : ℕ} : load m n l <+: (load m h₀ K).drop o ↔
    l ≤ K - o ∧ Occurs (bytesFrom m n) l (bytesFrom m h₀) o := by
  rw [drop_load, List.prefix_iff_eq_take, length_load, take_load, ← load_eq_iff]
  constructor
  · intro h
    have hlen := congrArg List.length h
    rw [length_load, length_load] at hlen
    refine ⟨by omega, ?_⟩
    rw [h, Nat.min_eq_left (by omega)]
  · rintro ⟨hle, h⟩
    rw [Nat.min_eq_left hle, h]

/-- The first place of the needle, as an occurrence of one list in another. -/
theorem firstOccurrence_of_first {l K : ℕ} {q : Option ℕ}
    (h : First (FoundAt (bytesFrom m n) l (bytesFrom m h₀) K) q) :
    FirstOccurrence (load m n l) (load m h₀ K) q := by
  cases q with
  | some q =>
    obtain ⟨⟨hfits, hocc⟩, hbefore⟩ := h
    refine ⟨prefix_drop_iff.mpr ⟨by omega, hocc⟩, fun o ho hpre => ?_⟩
    obtain ⟨hle, hocc'⟩ := prefix_drop_iff.mp hpre
    exact hbefore o ho ⟨by omega, hocc'⟩
  | none =>
    intro o hpre
    obtain ⟨hle, hocc⟩ := prefix_drop_iff.mp hpre
    rcases Nat.eq_zero_or_pos l with rfl | hpos
    · exact h 0 ⟨Nat.zero_le _, fun i hi => absurd hi i.not_lt_zero⟩
    · exact h o ⟨by omega, hocc⟩

/-- What is found from the first place on where the needle may be is found at all. -/
theorem FoundFirst.shift {l K i : ℕ} {r : Option Ptr}
    (h : FoundFirst m n l (h₀ + BitVec.ofNat 64 i) (K - i) r) (hi : i ≤ K)
    (hbefore : ∀ o < i, ¬ FoundAt (bytesFrom m n) l (bytesFrom m h₀) K o) :
    FoundFirst m n l h₀ K r := by
  have hat (o : ℕ) : FoundAt (bytesFrom m n) l (bytesFrom m h₀) K (i + o) ↔
      FoundAt (bytesFrom m n) l (bytesFrom m (h₀ + BitVec.ofNat 64 i)) (K - i) o := by
    simp only [FoundAt, Occurs, bytesFrom_add, Nat.add_assoc]
    exact and_congr_left fun _ => by omega
  have hnot (q : ℕ) (hrest : ∀ o < q, ¬ FoundAt (bytesFrom m n) l
      (bytesFrom m (h₀ + BitVec.ofNat 64 i)) (K - i) o) :
      ∀ o < i + q, ¬ FoundAt (bytesFrom m n) l (bytesFrom m h₀) K o := by
    intro o ho hfound
    rcases Nat.lt_or_ge o i with hlt | hge
    · exact hbefore o hlt hfound
    · obtain ⟨t, rfl⟩ := Nat.exists_eq_add_of_le hge
      exact hrest t (by omega) ((hat t).mp hfound)
  obtain ⟨q, rfl, hq⟩ := h
  cases q with
  | some q =>
    refine ⟨some (i + q), ?_, (hat q).mpr hq.1, hnot q hq.2⟩
    rw [Option.map_some, Option.map_some, BitVec.ofNat_add, BitVec.add_assoc]
  | none => exact ⟨none, rfl, fun o => hnot (o + 1) (fun o _ => hq o) o (by omega)⟩

section From

variable {S : Set Ptr} {h : Ptr}

/-- A search, for a needle of its length. -/
theorem meets_ofLength {p : Probe Ptr (Option Ptr)} {L : BitVec 64} (hl : l = L)
    (hp : Meets S m (FoundFirst m n L.toNat h k.toNat) p) :
    Meets S m (fun r => ∃ out, r = some out ∧ FoundFirst m n l.toNat h k.toNat out)
      (do pure (some (← p))) := by
  subst hl
  exact hp.bind fun out hout => Probe.meets_pure.mpr ⟨out, rfl, hout⟩

theorem meets_searchFrom (fuel : ℕ) (shift : UInt8 → BitVec 64) (hk : k.toNat < 2 ^ 63) (hh : block h k.toNat ⊆ S)
    (hn : block n l.toNat ⊆ S) (hl : 0 < l.toNat)
    (hfuel : (l.toNat + 1) * (l.toNat + 1) + k.toNat < fuel) :
    Meets S m (fun r => ∃ out, r = some out ∧ FoundFirst m n l.toNat h k.toNat out)
      (searchFrom fuel shift h k n l) := by
  rw [searchFrom]
  by_cases hlt : k < l
  · rw [if_pos hlt, Probe.meets_pure]
    rw [BitVec.lt_def] at hlt
    refine ⟨none, rfl, none, rfl, fun o hfound => ?_⟩
    have := hfound.1
    omega
  rw [if_neg hlt]
  rw [BitVec.lt_def, not_lt] at hlt
  by_cases h2 : l = 2
  · rw [if_pos h2]
    subst h2
    exact meets_ofLength rfl (meets_twobyteMemmem hlt hn hh)
  rw [if_neg h2]
  by_cases h3 : l = 3
  · rw [if_pos h3]
    subst h3
    exact meets_ofLength rfl (meets_threebyteMemmem hlt hn hh)
  rw [if_neg h3]
  by_cases h4 : l = 4
  · rw [if_pos h4]
    subst h4
    exact meets_ofLength rfl (meets_fourbyteMemmem hlt hn hh)
  rw [if_neg h4]
  have htwoway := meets_twowayMemmem (m := m) (K := k.toNat) shift hl (by omega) hk hn hh hfuel
  rwa [BitVec.ofNat_toNat, BitVec.setWidth_eq] at htwoway

/-- **The search** for a needle of any length. -/
theorem meets_liluOsMemmem (fuel : ℕ) (shift : UInt8 → BitVec 64) (hk : k.toNat < 2 ^ 63) (hh : block h₀ k.toNat ⊆ S)
    (hn : block n l.toNat ⊆ S) (hfuel : (l.toNat + 1) * (l.toNat + 1) + k.toNat < fuel) :
    Meets S m (fun r => ∃ out, r = some out ∧ FoundFirst m n l.toNat h₀ k.toNat out)
      (liluOsMemmem fuel shift h₀ k n l) := by
  rw [liluOsMemmem]
  by_cases hl0 : l = 0
  · subst hl0
    rw [if_pos rfl, Probe.meets_pure]
    refine ⟨_, rfl, some 0, by rw [Option.map_some, BitVec.add_zero], ⟨Nat.zero_le _, ?_⟩, ?_⟩
    · exact fun i hi => absurd hi i.not_lt_zero
    · exact fun o ho => absurd ho o.not_lt_zero
  have hpos : 0 < l.toNat := Nat.pos_of_ne_zero fun h => hl0 (BitVec.eq_of_toNat_eq h)
  rw [if_neg hl0]
  by_cases hlt : k < l
  · rw [if_pos hlt, Probe.meets_pure]
    rw [BitVec.lt_def] at hlt
    refine ⟨none, rfl, none, rfl, fun o hfound => ?_⟩
    have := hfound.1
    omega
  rw [if_neg hlt, Probe.meets_bind, Probe.within_byte, Probe.run_byte]
  refine ⟨hn (self_mem_block hpos), (meets_liluOsMemchr hh).bind fun r => ?_⟩
  have hbyte : (⟨(wide 32 (m n)).setWidth 8⟩ : UInt8) = bytesFrom m n 0 := by
    rw [bytesFrom, BitVec.add_zero, wide, BitVec.setWidth_setWidth_of_le _ (by norm_num),
      BitVec.setWidth_eq]
  rw [hbyte]
  -- where the needle is, its first byte is
  have hfirst {o : ℕ} (h : FoundAt (bytesFrom m n) l.toNat (bytesFrom m h₀) k.toNat o) :
      o < k.toNat ∧ bytesFrom m h₀ o = bytesFrom m n 0 :=
    ⟨by have := h.1; omega, h.2 0 hpos⟩
  rintro ⟨q, rfl, hq⟩
  cases q with
  | none => exact Probe.meets_pure.mpr ⟨none, rfl, none, rfl, fun o h => hq o (hfirst h)⟩
  | some i =>
    obtain ⟨⟨hi, hat⟩, hbefore⟩ := hq
    have hnot : ∀ o < i, ¬ FoundAt (bytesFrom m n) l.toNat (bytesFrom m h₀) k.toNat o :=
      fun o ho h => hbefore o ho (hfirst h)
    dsimp only [Option.map_some]
    by_cases hl1 : l = 1
    · rw [if_pos hl1, Probe.meets_pure]
      subst hl1
      refine ⟨_, rfl, some i, rfl, ⟨hi, fun j hj => ?_⟩, hnot⟩
      obtain rfl : j = 0 := Nat.lt_one_iff.mp hj
      exact hat
    · have hleft : k - (h₀ + BitVec.ofNat 64 i - h₀) = k - BitVec.ofNat 64 i := by ring
      have htoNat := toNat_sub_ofNat (k := k) hi.le
      rw [if_neg hl1, hleft]
      have hsearch := meets_searchFrom (m := m) (S := S) (k := k - BitVec.ofNat 64 i)
        (h := h₀ + BitVec.ofNat 64 i) fuel shift (by omega)
        (htoNat ▸ (block_add_subset (by omega)).trans hh) hn hpos (by omega)
      refine hsearch.imp fun r => ?_
      rintro ⟨out, rfl, hout⟩
      rw [htoNat] at hout
      exact ⟨out, rfl, hout.shift hi.le hnot⟩

end From

/-- **The first occurrence**: the search returns where the needle is for the first time, or that it
is not there, and reads nothing but the needle and the haystack. -/
theorem memmem_first_occurrence (hk : k.toNat < 2 ^ 63) : ∃ f, ∀ fuel ≥ f, ∀ shift,
    Meets (block h₀ k.toNat ∪ block n l.toNat) m
      (fun r => ∃ q : Option ℕ, r = some (q.map (h₀ + BitVec.ofNat 64 ·)) ∧
        FirstOccurrence (load m n l.toNat) (load m h₀ k.toNat) q)
      (liluOsMemmem fuel shift h₀ k n l) := by
  refine ⟨(l.toNat + 1) * (l.toNat + 1) + k.toNat + 1, fun fuel hfuel shift => ?_⟩
  refine (meets_liluOsMemmem fuel shift hk Set.subset_union_left Set.subset_union_right
    (by omega)).imp fun r => ?_
  rintro ⟨out, rfl, q, rfl, hfirst⟩
  exact ⟨q, rfl, firstOccurrence_of_first hfirst⟩

/-- A needle of six bytes with the period three. -/
theorem memmem_first_occurrence_periodic : ∃ f, ∀ fuel ≥ f, ∀ shift,
    Meets (block 0x1000 (14 : BitVec 64).toNat ∪ block 0x2000 (6 : BitVec 64).toNat)
      (fun a => UInt8.ofNat (a.toNat % 3))
      (fun r => ∃ q : Option ℕ, r = some (q.map ((0x1000 : Ptr) + BitVec.ofNat 64 ·)) ∧
        FirstOccurrence
          (load (fun a => UInt8.ofNat (a.toNat % 3)) (0x2000 : Ptr) (6 : BitVec 64).toNat)
          (load (fun a => UInt8.ofNat (a.toNat % 3)) (0x1000 : Ptr) (14 : BitVec 64).toNat) q)
      (liluOsMemmem fuel shift 0x1000 14 0x2000 6) :=
  memmem_first_occurrence (by decide)

end Search

end Lilu.Util
