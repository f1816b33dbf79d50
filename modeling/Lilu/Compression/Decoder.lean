import Mathlib.Data.Nat.Bitwise
import Lilu.Compression.Format

/-!
# The LZSS decoder

The decoder keeps its own ring buffer, of which only the part before the first write is filled with
spaces: the rest is whatever the stack held. It reads a byte of flags for every eight units, stores
literals, and copies from the ring byte by byte while it writes to it.

## Main definitions

* `DecodeState`: ring buffer, flags, input left and output
* `decodeTurn`, `decompressLzss`: one unit, and the whole decoder

## Main results

* `decompressLzss_total`: a run of the decoder ends, whatever the input
* `decompressLzss_stream`: the stream of a parse decodes to the text it stands for
-/

namespace Lilu.Compression

open Function

/-- The decoder's state. -/
structure DecodeState where
  textBuf : ℕ → UInt8
  r : ℕ
  flags : ℕ
  src : List UInt8
  dst : List UInt8

/-- Store a byte to the output and to the ring buffer. -/
def DecodeState.emit (st : DecodeState) (c : UInt8) : DecodeState :=
  { st with
    dst := st.dst ++ [c]
    textBuf := update st.textBuf st.r c
    r := (st.r + 1) &&& (RBSIZE - 1) }

/-- Copy `n` bytes of the ring buffer from `i + k` on, until the destination is full. -/
def copyBytes (dstlen i : ℕ) : ℕ → ℕ → DecodeState → DecodeState
  | 0, _, st => st
  | n + 1, k, st =>
    if st.dst.length < dstlen then
      copyBytes dstlen i n (k + 1) (st.emit (st.textBuf ((i + k) &&& (RBSIZE - 1))))
    else st

/-- Decode the unit that the lowest flag announces. -/
def decodeUnit (dstlen : ℕ) (st : DecodeState) : Turn DecodeState (List UInt8) :=
  if st.flags &&& 1 ≠ 0 then
    match st.src with
    | [] => .leave st.dst
    | c :: src =>
      if st.dst.length < dstlen then .again ({ st with src }.emit c) else .leave st.dst
  else
    match st.src with
    | i :: j :: src =>
      let i := i.toNat ||| ((j.toNat &&& 0xF0) <<< 4)
      let j := (j.toNat &&& 0x0F) + THRESHOLD
      -- a full destination only ends the copy, not the loop
      .again (copyBytes dstlen i (j + 1) 0 { st with src })
    | _ => .leave st.dst

/-- One turn of the decoder: the next flag, from the next flag byte if eight were used up (the
higher byte counts them), and its unit. -/
def decodeTurn (dstlen : ℕ) (st : DecodeState) : Turn DecodeState (List UInt8) :=
  let st := { st with flags := st.flags >>> 1 }
  if st.flags &&& 0x100 = 0 then
    match st.src with
    | [] => .leave st.dst
    | c :: src => decodeUnit dstlen { st with src, flags := c.toNat ||| 0xFF00 }
  else decodeUnit dstlen st

/-- `decompress_lzss`: the bytes stored to a destination of `dstlen` bytes. The part of `text_buf`
that is not filled with spaces has the contents of the stack. -/
def decompressLzss (stack : ℕ → UInt8) (dstlen : ℕ) (src : List UInt8) : Option (List UInt8) :=
  loop (decodeTurn dstlen) (src.length + 1)
    ⟨fun i => if i < RBSIZE - UPLIM then 32 else stack i, RBSIZE - UPLIM, 0, src, []⟩

/-! ## Termination -/

@[simp] theorem src_copyBytes (dstlen i : ℕ) : ∀ (n k : ℕ) (st : DecodeState),
    (copyBytes dstlen i n k st).src = st.src := by
  intro n
  induction n with
  | zero => exact fun _ _ => rfl
  | succ n ih =>
    intro k st
    rw [copyBytes]
    split_ifs
    · rw [ih]
      rfl
    · rfl

theorem length_src_decodeUnit {dstlen : ℕ} {st st' : DecodeState}
    (h : decodeUnit dstlen st = .again st') : st'.src.length < st.src.length := by
  unfold decodeUnit at h
  by_cases hflag : st.flags &&& 1 ≠ 0
  · rw [if_pos hflag] at h
    rcases hsrc : st.src with _ | ⟨c, src⟩ <;> rw [hsrc] at h
    · cases h
    · by_cases hroom : st.dst.length < dstlen
      · simp only [if_pos hroom] at h
        cases h
        exact Nat.lt_succ_self src.length
      · simp only [if_neg hroom] at h
        cases h
  · rw [if_neg hflag] at h
    rcases hsrc : st.src with _ | ⟨i, _ | ⟨j, src⟩⟩ <;> rw [hsrc] at h
    · cases h
    · cases h
    · cases h
      rw [src_copyBytes]
      exact (Nat.lt_succ_self src.length).trans (Nat.lt_succ_self _)

/-- Every turn reads a byte. -/
theorem length_src_decodeTurn {dstlen : ℕ} {st st' : DecodeState}
    (h : decodeTurn dstlen st = .again st') : st'.src.length < st.src.length := by
  unfold decodeTurn at h
  by_cases hflag : st.flags >>> 1 &&& 0x100 = 0
  · simp only [if_pos hflag] at h
    rcases hsrc : st.src with _ | ⟨c, src⟩ <;> rw [hsrc] at h
    · cases h
    · exact (length_src_decodeUnit h).trans (Nat.lt_succ_self src.length)
  · simp only [if_neg hflag] at h
    have := length_src_decodeUnit h
    exact this

/-! ## Bounds -/

theorem length_dst_copyBytes {dstlen i : ℕ} : ∀ (n k : ℕ) {st : DecodeState},
    st.dst.length ≤ dstlen → (copyBytes dstlen i n k st).dst.length ≤ dstlen := by
  intro n
  induction n with
  | zero => exact fun _ _ h => h
  | succ n ih =>
    intro k st h
    rw [copyBytes]
    split_ifs with hroom
    · refine ih (k + 1) ?_
      simp only [DecodeState.emit, List.length_append, List.length_singleton]
      exact hroom
    · exact h

/-- A unit keeps to the destination, whatever the input. -/
theorem length_dst_decodeUnit {dstlen : ℕ} {st : DecodeState} (h : st.dst.length ≤ dstlen) :
    (∀ st', decodeUnit dstlen st = .again st' → st'.dst.length ≤ dstlen) ∧
      ∀ dst, decodeUnit dstlen st = .leave dst → dst.length ≤ dstlen := by
  unfold decodeUnit
  by_cases hflag : st.flags &&& 1 ≠ 0
  · rw [if_pos hflag]
    rcases hsrc : st.src with _ | ⟨c, src⟩
    · exact ⟨by simp, by rintro _ ⟨⟩; exact h⟩
    · by_cases hroom : st.dst.length < dstlen
      · simp only [if_pos hroom]
        refine ⟨?_, by simp⟩
        rintro _ ⟨⟩
        simp only [DecodeState.emit, List.length_append, List.length_singleton]
        exact hroom
      · simp only [if_neg hroom]
        exact ⟨by simp, by rintro _ ⟨⟩; exact h⟩
  · rw [if_neg hflag]
    rcases hsrc : st.src with _ | ⟨i, _ | ⟨j, src⟩⟩
    · exact ⟨by simp, by rintro _ ⟨⟩; exact h⟩
    · exact ⟨by simp, by rintro _ ⟨⟩; exact h⟩
    · refine ⟨?_, by simp⟩
      rintro _ ⟨⟩
      exact length_dst_copyBytes _ _ h

theorem length_dst_decodeTurn {dstlen : ℕ} {st : DecodeState} (h : st.dst.length ≤ dstlen) :
    (∀ st', decodeTurn dstlen st = .again st' → st'.dst.length ≤ dstlen) ∧
      ∀ dst, decodeTurn dstlen st = .leave dst → dst.length ≤ dstlen := by
  unfold decodeTurn
  by_cases hflag : st.flags >>> 1 &&& 0x100 = 0
  · simp only [if_pos hflag]
    rcases hsrc : st.src with _ | ⟨c, src⟩
    · exact ⟨by simp, by rintro _ ⟨⟩; exact h⟩
    · exact length_dst_decodeUnit h
  · simp only [if_neg hflag]
    exact length_dst_decodeUnit h

/-- **The decoder ends** on every input, and keeps to the destination. -/
theorem decompressLzss_total (stack : ℕ → UInt8) (dstlen : ℕ) (src : List UInt8) :
    ∃ dst, decompressLzss stack dstlen src = some dst ∧ dst.length ≤ dstlen :=
  loop_spec (decodeTurn dstlen) (fun st => st.dst.length ≤ dstlen)
    (fun dst => dst.length ≤ dstlen) (fun st => st.src.length)
    (fun _ _ h ht => ⟨(length_dst_decodeTurn h).1 _ ht, length_src_decodeTurn ht⟩)
    (fun _ _ h ht => (length_dst_decodeTurn h).2 _ ht) (Nat.zero_le dstlen)
    (Nat.lt_succ_self src.length)

/-! ## Tokens -/

/-- The decoder has produced the text up to the position `R`. -/
structure Tracks (V : ℕ → UInt8) (R : ℕ) (st : DecodeState) : Prop where
  start : RBSIZE - UPLIM ≤ R
  ring : HoldsWindow st.textBuf RBSIZE V (R - RBSIZE) R
  r : st.r = R % RBSIZE
  dst : st.dst = segment V (RBSIZE - UPLIM) R

variable {V : ℕ → UInt8} {R E dstlen : ℕ} {st : DecodeState}

theorem Tracks.emit (h : Tracks V R st) : Tracks V (R + 1) (st.emit (V R)) := by
  refine ⟨h.start.trans (Nat.le_succ R), ?_, ?_, ?_⟩
  · show HoldsWindow (update st.textBuf st.r (V R)) RBSIZE V (R + 1 - RBSIZE) (R + 1)
    rw [h.r]
    exact h.ring.push (by omega) (by simp only [RBSIZE]; omega)
  · show (st.r + 1) &&& (RBSIZE - 1) = (R + 1) % RBSIZE
    rw [h.r, succ_mod]
  · rw [segment_succ V h.start, ← h.dst]
    rfl

/-- The destination has room for text that ends at `E`. -/
theorem Tracks.room (h : Tracks V R st) (hR : R < E) (hE : E ≤ RBSIZE - UPLIM + dstlen) :
    st.dst.length < dstlen := by
  rw [h.dst, length_segment]
  have := h.start
  omega

/-- **A copy** from an earlier position repeats the text, also where it runs into its own output. -/
theorem Tracks.copyBytes {P len : ℕ} (hP : P < R) (hreach : R ≤ P + (RBSIZE - UPLIM))
    (hV : ∀ k < len, V (P + k) = V (R + k)) (hE : R + len ≤ RBSIZE - UPLIM + dstlen) :
    ∀ (n k : ℕ) {st : DecodeState}, Tracks V (R + k) st → k + n = len →
      Tracks V (R + len) (copyBytes dstlen (P % RBSIZE) n k st) ∧
        (Compression.copyBytes dstlen (P % RBSIZE) n k st).flags = st.flags := by
  intro n
  induction n with
  | zero =>
    intro k st h hk
    obtain rfl : k = len := hk
    exact ⟨h, rfl⟩
  | succ n ih =>
    intro k st h hk
    have hbyte : st.textBuf ((P % RBSIZE + k) &&& (RBSIZE - 1)) = V (R + k) := by
      rw [land_mask, Nat.mod_add_mod, ← hV k (by omega)]
      exact h.ring (P + k) (by simp only [RBSIZE, UPLIM] at *; omega) (by omega)
    rw [Compression.copyBytes, if_pos (h.room (by omega) hE), hbyte]
    exact ih (k + 1) h.emit (by omega)

theorem land_high (x : ℕ) (hx : x < 256) : x &&& 0xF0 = x / 16 * 16 := by
  have h : ∀ x : Fin 256, x.val &&& 0xF0 = x.val / 16 * 16 := by decide +kernel
  exact h ⟨x, hx⟩

/-- Two parts of a number that do not overlap. -/
theorem lor_high (n : ℕ) {lo : ℕ} (hi : ℕ) (h : lo < 2 ^ n) : lo ||| hi * 2 ^ n = hi * 2 ^ n + lo := by
  have := Nat.two_pow_add_eq_or_of_lt h hi
  rw [Nat.mul_comm hi, this, Nat.or_comm]

/-- The two bytes of a copy hold its position and its length. -/
theorem unitBytes_copy {pos len : ℕ} (hpos : pos < RBSIZE) (hlen : THRESHOLD < len)
    (hlen' : len ≤ UPLIM) : ∃ i j : UInt8, unitBytes (.copy pos len) = [i, j] ∧
      i.toNat ||| ((j.toNat &&& 0xF0) <<< 4) = pos ∧ (j.toNat &&& 0x0F) + THRESHOLD + 1 = len := by
  simp only [RBSIZE, THRESHOLD, UPLIM] at hpos hlen hlen'
  have hj : ((pos >>> 4) &&& 0xF0) ||| (len - (THRESHOLD + 1)) = pos / 256 * 16 + (len - 3) := by
    rw [Nat.shiftRight_eq_div_pow, land_high _ (by omega), Nat.div_div_eq_div_mul, Nat.or_comm]
    exact lor_high 4 _ (by simp only [THRESHOLD]; omega)
  have hi : (UInt8.ofNat pos).toNat = pos % 256 := UInt8.toNat_ofNat' ..
  have hj' : (UInt8.ofNat (pos / 256 * 16 + (len - 3))).toNat = pos / 256 * 16 + (len - 3) := by
    rw [UInt8.toNat_ofNat']
    exact Nat.mod_eq_of_lt (by omega)
  refine ⟨_, _, rfl, ?_, ?_⟩
  · have hhigh : (pos / 256 * 16 + (len - 3)) / 16 * 16 * 2 ^ 4 = pos / 256 * 2 ^ 8 := by omega
    rw [hj, hi, hj', land_high _ (by omega), Nat.shiftLeft_eq, hhigh,
      show pos % 256 ||| pos / 256 * 2 ^ 8 = pos / 256 * 2 ^ 8 + pos % 256 from
        lor_high 8 _ (Nat.mod_lt pos (by decide))]
    omega
  · have hlow : pos / 256 * 16 + (len - 3) &&& 0x0F = (pos / 256 * 16 + (len - 3)) % 16 :=
      Nat.and_two_pow_sub_one_eq_mod _ 4
    rw [hj, hj', hlow]
    simp only [THRESHOLD]
    omega

/-- **Decoding a unit** of a token brings the decoder to the token's end. -/
theorem Tracks.decodeUnit {t : Token UInt8} {ts : List (Token UInt8)} (h : Tracks V R st)
    (hparse : Parses V RBSIZE (RBSIZE - UPLIM) R (t :: ts) E) (hsend : Sendable t)
    (hE : E ≤ RBSIZE - UPLIM + dstlen) {rest : List UInt8} (hsrc : st.src = unitBytes t ++ rest)
    (hflag : st.flags &&& 1 = unitFlag t) :
    ∃ st' R', decodeUnit dstlen st = .again st' ∧
      Parses V RBSIZE (RBSIZE - UPLIM) R' ts E ∧ Tracks V R' st' ∧ st'.src = rest ∧
      st'.flags = st.flags := by
  cases hparse with
  | lit hts =>
    refine ⟨({ st with src := rest }.emit (V R)), R + 1, ?_, hts, ?_, rfl, rfl⟩
    · have := h.room hts.le hE
      simp only [Compression.decodeUnit, hflag, unitFlag, hsrc, unitBytes, ne_eq, Nat.one_ne_zero,
        not_false_eq_true, if_true, List.cons_append, List.nil_append, this]
    · have h₀ : Tracks V R { st with src := rest } := ⟨h.start, h.ring, h.r, h.dst⟩
      exact h₀.emit
  | @copy _ _ P len _ hP hreach hV hts =>
    obtain ⟨hlen, hlen'⟩ := hsend
    obtain ⟨i, j, hbytes, hi, hj⟩ :=
      unitBytes_copy (Nat.mod_lt P (by simp [RBSIZE])) hlen hlen'
    have h₀ : Tracks V (R + 0) { st with src := rest } := ⟨h.start, h.ring, h.r, h.dst⟩
    have hroom : R + len ≤ RBSIZE - UPLIM + dstlen := hts.le.trans hE
    obtain ⟨htracks, hflags⟩ := Tracks.copyBytes hP hreach hV hroom len 0 h₀ (Nat.zero_add len)
    refine ⟨Compression.copyBytes dstlen (P % RBSIZE) len 0 { st with src := rest }, R + len,
      ?_, hts, htracks, src_copyBytes .., hflags⟩
    simp only [Compression.decodeUnit, hflag, unitFlag, hsrc, hbytes, ne_eq, not_true_eq_false,
      if_false, List.cons_append, List.nil_append, hi, hj]

/-! ## Flags and groups -/

/-- The flags of the tokens left of a group, below a higher byte that moved down `k` places. -/
theorem flagBits_low {t : Token UInt8} {g : List (Token UInt8)} {k : ℕ} (hk : k ≤ 7) :
    (flagBits (t :: g) + 0xFF00 / 2 ^ k) &&& 1 = unitFlag t ∧
      (flagBits (t :: g) + 0xFF00 / 2 ^ k) >>> 1 = flagBits g + 0xFF00 / 2 ^ (k + 1) := by
  have := unitFlag_le t
  rw [Nat.and_one_is_mod, Nat.shiftRight_eq_div_pow, flagBits]
  interval_cases k <;> omega

theorem land_count (n : ℕ) : n &&& 0x100 = 0 ↔ n / 256 % 2 = 0 := by
  have h := Nat.and_two_pow n 8
  rw [Nat.testBit_eq_decide_div_mod_eq] at h
  rcases Nat.mod_two_eq_zero_or_one (n / 256) with hn | hn
  · simp [show (2 : ℕ) ^ 8 = 256 from rfl, hn] at h ⊢
    exact h
  · simp [show (2 : ℕ) ^ 8 = 256 from rfl, hn] at h ⊢
    omega

theorem flagBits_counts {g : List (Token UInt8)} {k : ℕ} (hk : k ≤ 7) (hg : g.length + k ≤ 8) :
    (flagBits g + 0xFF00 / 2 ^ k) &&& 0x100 ≠ 0 := by
  have hlt : flagBits g < 2 ^ (8 - k) :=
    (flagBits_lt g).trans_le (Nat.pow_le_pow_right (by decide) (by omega))
  rw [ne_eq, land_count]
  interval_cases k <;> omega

/-- Without input the decoder stops. -/
theorem decodeTurn_nil (hsrc : st.src = []) : decodeTurn dstlen st = .leave st.dst := by
  unfold decodeTurn
  simp only [hsrc]
  split_ifs
  · rfl
  · unfold decodeUnit
    simp only
    split_ifs <;> rfl

/-- The unit after the flags: what is left of a group, and the groups behind it. -/
theorem Tracks.decodeGroup {t : Token UInt8} {g ts : List (Token UInt8)} {k : ℕ}
    (h : Tracks V R st) (hparse : Parses V RBSIZE (RBSIZE - UPLIM) R (t :: g ++ ts) E)
    (hsend : Sendable t) (hE : E ≤ RBSIZE - UPLIM + dstlen)
    (hsrc : st.src = (t :: g).flatMap unitBytes ++ stream ts)
    (hflags : st.flags = flagBits (t :: g) + 0xFF00 / 2 ^ k) (hk : g.length + 1 + k ≤ 8) :
    ∃ st' R', Compression.decodeUnit dstlen st = .again st' ∧
      Parses V RBSIZE (RBSIZE - UPLIM) R' (g ++ ts) E ∧ Tracks V R' st' ∧
      st'.src = g.flatMap unitBytes ++ stream ts ∧
      st'.flags >>> 1 = flagBits g + 0xFF00 / 2 ^ (k + 1) := by
  obtain ⟨hlow, hshift⟩ := flagBits_low (t := t) (g := g) (k := k) (by omega)
  rw [List.flatMap_cons, List.append_assoc] at hsrc
  obtain ⟨st', R', hrun, hparse', htracks, hsrc', hflags'⟩ :=
    h.decodeUnit hparse hsend hE hsrc (by rw [hflags, hlow])
  exact ⟨st', R', hrun, hparse', htracks, hsrc', by rw [hflags', hflags, hshift]⟩

/-- **A turn of the decoder** with tokens left decodes the first of them; a new group is read when
none is left of the last one. -/
theorem Tracks.decodeTurn {t : Token UInt8} {us g ts : List (Token UInt8)} {k : ℕ}
    (h : Tracks V R st) (hus : g ++ ts = t :: us)
    (hparse : Parses V RBSIZE (RBSIZE - UPLIM) R (t :: us) E) (hsend : Sendable t)
    (hE : E ≤ RBSIZE - UPLIM + dstlen) (hsrc : st.src = g.flatMap unitBytes ++ stream ts)
    (hflags : st.flags >>> 1 = flagBits g + 0xFF00 / 2 ^ k) (hg : g ≠ [] → g.length + k ≤ 8)
    (hts : ts ≠ [] → 8 ≤ g.length + k) :
    ∃ g' ts' k' st' R', g' ++ ts' = us ∧ decodeTurn dstlen st = .again st' ∧
      Parses V RBSIZE (RBSIZE - UPLIM) R' us E ∧ Tracks V R' st' ∧
      st'.src = g'.flatMap unitBytes ++ stream ts' ∧
      st'.flags >>> 1 = flagBits g' + 0xFF00 / 2 ^ k' ∧ (g' ≠ [] → g'.length + k' ≤ 8) ∧
      (ts' ≠ [] → 8 ≤ g'.length + k') := by
  cases g with
  | nil =>
    -- the next byte has the flags of a new group
    obtain rfl : ts = t :: us := hus
    have hk : 8 ≤ k := by simpa using hts
    have hcount : st.flags >>> 1 &&& 0x100 = 0 := by
      have hle : 0xFF00 / 2 ^ k ≤ 0xFF00 / 2 ^ 8 :=
        Nat.div_le_div_left (Nat.pow_le_pow_right (by decide) hk) (by decide)
      have hlt : 0xFF00 / 2 ^ k < 256 := hle.trans_lt (by decide)
      rw [hflags, land_count, flagBits, Nat.zero_add, Nat.div_eq_of_lt hlt]
    rw [List.flatMap_nil, List.nil_append, stream, pack, List.cons_append] at hsrc
    have hlt := flagBits_lt (t :: us.take 7)
    have hlt' : flagBits (t :: us.take 7) < 2 ^ 8 := hlt.trans_le
      (Nat.pow_le_pow_right (by decide) (by simp))
    have hbyte : (UInt8.ofNat (flagBits (t :: us.take 7))).toNat ||| 0xFF00 =
        flagBits (t :: us.take 7) + 0xFF00 / 2 ^ 0 := by
      rw [UInt8.toNat_ofNat', Nat.mod_eq_of_lt hlt', Nat.add_comm]
      exact lor_high 8 0xFF hlt'
    have h₀ : Tracks V R { st with
        flags := (UInt8.ofNat (flagBits (t :: us.take 7))).toNat ||| 0xFF00
        src := (t :: us.take 7).flatMap unitBytes ++ stream (us.drop 7) } :=
      ⟨h.start, h.ring, h.r, h.dst⟩
    have hus' : t :: us.take 7 ++ us.drop 7 = t :: us := by
      rw [List.cons_append, List.take_append_drop]
    obtain ⟨st', R', hrun, hparse', htracks, hsrc', hflags'⟩ := h₀.decodeGroup
      (hus'.symm ▸ hparse) hsend hE rfl hbyte (by simp)
    refine ⟨us.take 7, us.drop 7, 1, st', R', List.take_append_drop 7 us, ?_,
      List.take_append_drop 7 us ▸ hparse', htracks, hsrc', hflags', fun _ => by simp, fun hne => ?_⟩
    · rw [Compression.decodeTurn]
      simp only [hcount, if_true, hsrc]
      exact hrun
    · have : 7 < us.length := by
        by_contra hle
        exact hne (List.drop_of_length_le (by omega))
      simp
      omega
  | cons u g =>
    obtain ⟨rfl, rfl⟩ := List.cons.inj hus
    have hk : g.length + 1 + k ≤ 8 := by simpa using hg (List.cons_ne_nil u g)
    have hcount := flagBits_counts (g := u :: g) (k := k) (by omega) (by simpa using hk)
    have h₀ : Tracks V R { st with flags := st.flags >>> 1 } := ⟨h.start, h.ring, h.r, h.dst⟩
    obtain ⟨st', R', hrun, hparse', htracks, hsrc', hflags'⟩ := h₀.decodeGroup hparse hsend hE hsrc
      hflags hk
    refine ⟨g, ts, k + 1, st', R', rfl, ?_, hparse', htracks, hsrc', hflags', fun _ => by omega,
      fun hne => ?_⟩
    · rw [Compression.decodeTurn]
      simp only [hflags, hcount, if_false]
      rw [← hflags]
      exact hrun
    · have := hts hne
      rw [List.length_cons] at this
      omega

/-- **The decoder's loop** produces the text that the rest of the stream stands for. -/
theorem loop_decodeTurn (hE : E ≤ RBSIZE - UPLIM + dstlen) : ∀ (us : List (Token UInt8))
    {R k fuel : ℕ} {st : DecodeState} {g ts : List (Token UInt8)}, g ++ ts = us → Tracks V R st →
    Parses V RBSIZE (RBSIZE - UPLIM) R us E → (∀ t ∈ us, Sendable t) →
    st.src = g.flatMap unitBytes ++ stream ts → st.flags >>> 1 = flagBits g + 0xFF00 / 2 ^ k →
    (g ≠ [] → g.length + k ≤ 8) → (ts ≠ [] → 8 ≤ g.length + k) → st.src.length < fuel →
    loop (decodeTurn dstlen) fuel st = some (segment V (RBSIZE - UPLIM) E) := by
  intro us
  induction us with
  | nil =>
    intro R k fuel st g ts hus h hparse hsend hsrc hflags hg hts hfuel
    obtain ⟨rfl, rfl⟩ := List.append_eq_nil_iff.mp hus
    obtain ⟨fuel, rfl⟩ := Nat.exists_eq_succ_of_ne_zero (by omega : fuel ≠ 0)
    cases hparse
    rw [loop_succ_leave (decodeTurn_nil (by simpa using hsrc)), h.dst]
  | cons t us ih =>
    intro R k fuel st g ts hus h hparse hsend hsrc hflags hg hts hfuel
    obtain ⟨fuel, rfl⟩ := Nat.exists_eq_succ_of_ne_zero (by omega : fuel ≠ 0)
    obtain ⟨g', ts', k', st', R', hus', hturn, hparse', htracks, hsrc', hflags', hg', hts'⟩ :=
      h.decodeTurn hus hparse (hsend t List.mem_cons_self) hE hsrc hflags hg hts
    have hless := length_src_decodeTurn hturn
    rw [loop_succ_again hturn]
    exact ih hus' htracks hparse' (fun u hu => hsend u (List.mem_cons_of_mem t hu)) hsrc' hflags'
      hg' hts' (by omega)

/-- **Decoding a stream**: whatever the stack holds, a destination of the text's length gets the
text that the tokens stand for. -/
theorem decompressLzss_stream {ts : List (Token UInt8)} {n : ℕ} (hV : ∀ a < RBSIZE - UPLIM, V a = 32)
    (hparse : Parses V RBSIZE (RBSIZE - UPLIM) (RBSIZE - UPLIM) ts (RBSIZE - UPLIM + n))
    (hsend : ∀ t ∈ ts, Sendable t) (stack : ℕ → UInt8) :
    decompressLzss stack n (stream ts) =
      some (segment V (RBSIZE - UPLIM) (RBSIZE - UPLIM + n)) := by
  have h : Tracks V (RBSIZE - UPLIM) ⟨fun i => if i < RBSIZE - UPLIM then 32 else stack i,
      RBSIZE - UPLIM, 0, stream ts, []⟩ := by
    refine ⟨le_rfl, fun a _ ha => ?_, by simp [RBSIZE, UPLIM], (segment_self ..).symm⟩
    rw [Nat.mod_eq_of_lt (ha.trans (by simp [RBSIZE, UPLIM]))]
    exact (if_pos ha).trans (hV a ha).symm
  -- without flags the first turn reads a flag byte: the higher byte has moved out
  have hflags : 0 >>> 1 = flagBits [] + 0xFF00 / 2 ^ 16 := by decide
  exact loop_decodeTurn (k := 16) (g := []) le_rfl ts rfl h hparse hsend rfl hflags (by simp)
    (by simp) (Nat.lt_succ_self _)

end Lilu.Compression
