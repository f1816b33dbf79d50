import Lilu.Prelude.SlidingWindow
import Lilu.Compression.SearchTrees

/-!
# The LZSS stream format

Eight units of code travel together: a byte of flags, least significant first, and then the units
themselves, a literal as one byte and a copy as two. A copy carries its twelve bit ring position
and its length less three.

## Main definitions

* `unitBytes`, `flagBits`, `pack`: the code of a token, and of a group of tokens
* `stream`: the code of a list of tokens, in groups of eight
* `Sendable`: the tokens that the two bytes of a copy have room for

## Main results

* `stream_group`, `stream_short`: the stream of a full group and of a last, shorter one
* `length_stream_le`: a stream is an eighth longer than the text it stands for, at most
-/

namespace Lilu.Compression

/-- The code unit of a token. -/
def unitBytes : Token UInt8 → List UInt8
  | .lit b => [b]
  | .copy pos len =>
    [UInt8.ofNat pos, UInt8.ofNat (((pos >>> 4) &&& 0xF0) ||| (len - (THRESHOLD + 1)))]

/-- The flag of a token: set for a literal. -/
def unitFlag : Token UInt8 → ℕ
  | .lit _ => 1
  | .copy _ _ => 0

/-- The flags of some tokens, the first one in the lowest bit. -/
def flagBits : List (Token UInt8) → ℕ
  | [] => 0
  | t :: ts => unitFlag t + 2 * flagBits ts

/-- The code of a group of tokens. -/
def pack (ts : List (Token UInt8)) : List UInt8 :=
  UInt8.ofNat (flagBits ts) :: ts.flatMap unitBytes

/-- The code of a list of tokens. -/
def stream : List (Token UInt8) → List UInt8
  | [] => []
  | t :: ts => pack (t :: ts.take 7) ++ stream (ts.drop 7)
termination_by ts => ts.length
decreasing_by simp

/-- A literal, or a copy whose length fits its four bits. -/
def Sendable : Token UInt8 → Prop
  | .lit _ => True
  | .copy _ len => THRESHOLD < len ∧ len ≤ UPLIM

/-! ## Ring positions -/

theorem land_mask (a : ℕ) : a &&& (RBSIZE - 1) = a % RBSIZE :=
  Nat.and_two_pow_sub_one_eq_mod a 12

theorem succ_mod (a : ℕ) : (a % RBSIZE + 1) &&& (RBSIZE - 1) = (a + 1) % RBSIZE := by
  rw [land_mask, Nat.mod_add_mod]

/-! ## Flags -/

theorem unitFlag_le (t : Token UInt8) : unitFlag t ≤ 1 := by
  cases t <;> simp [unitFlag]

theorem flagBits_lt (ts : List (Token UInt8)) : flagBits ts < 2 ^ ts.length := by
  induction ts with
  | nil => simp [flagBits]
  | cons t ts ih =>
    have := unitFlag_le t
    rw [flagBits, List.length_cons, pow_succ]
    omega

theorem flagBits_concat (ts : List (Token UInt8)) (t : Token UInt8) :
    flagBits (ts ++ [t]) = flagBits ts + unitFlag t * 2 ^ ts.length := by
  induction ts with
  | nil => simp [flagBits]
  | cons u ts ih =>
    rw [List.cons_append, flagBits, ih, flagBits, List.length_cons, pow_succ]
    ring

/-! ## Streams -/

@[simp] theorem stream_nil : stream [] = [] := by simp [stream]

theorem stream_of_ne_nil {ts : List (Token UInt8)} (h : ts ≠ []) :
    stream ts = pack (ts.take 8) ++ stream (ts.drop 8) := by
  cases ts with
  | nil => exact absurd rfl h
  | cons t ts => rw [stream, List.take_succ_cons, List.drop_succ_cons]

/-- A full group is sent at once. -/
theorem stream_group {g : List (Token UInt8)} (hg : g.length = 8) (ts : List (Token UInt8)) :
    stream (g ++ ts) = pack g ++ stream ts := by
  have hne : g ++ ts ≠ [] := by
    intro h
    simp [List.append_eq_nil_iff.mp h] at hg
  rw [stream_of_ne_nil hne, ← hg, List.take_left, List.drop_left]

/-- What is left when the text ends is sent as a shorter group. -/
theorem stream_short {g : List (Token UInt8)} (hg : g.length < 8) (hne : g ≠ []) :
    stream g = pack g := by
  rw [stream_of_ne_nil hne, List.take_of_length_le hg.le, List.drop_of_length_le hg.le]
  simp

/-! ## Lengths -/

theorem length_pack (ts : List (Token UInt8)) :
    (pack ts).length = 1 + (ts.flatMap unitBytes).length := by
  simp [pack, Nat.add_comm]

theorem length_stream (ts : List (Token UInt8)) :
    (stream ts).length = (ts.flatMap unitBytes).length + (ts.length + 7) / 8 := by
  induction ts using stream.induct with
  | case1 => simp
  | case2 t ts ih =>
    have hsplit : (ts.take 7).flatMap unitBytes ++ (ts.drop 7).flatMap unitBytes =
        ts.flatMap unitBytes := by
      rw [← List.flatMap_append, List.take_append_drop]
    rw [stream, List.length_append, ih, length_pack, List.flatMap_cons, List.flatMap_cons,
      List.length_append, List.length_append, ← hsplit, List.length_append, List.length_drop,
      List.length_cons]
    omega

/-- A parse has no more tokens than symbols, and none longer than the longest match. -/
theorem Parses.length_bounds {V : ℕ → UInt8} {reach R R' : ℕ} {ts : List (Token UInt8)}
    (h : Parses V RBSIZE reach R ts R') (hs : ∀ t ∈ ts, Sendable t) :
    ts.length ≤ R' - R ∧ (ts.flatMap unitBytes).length ≤ R' - R ∧ R' - R ≤ 18 * ts.length := by
  induction h with
  | nil => simp
  | lit h ih =>
    obtain ⟨h1, h2, h3⟩ := ih fun t ht => hs t (List.mem_cons_of_mem _ ht)
    have := h.le
    simp only [List.flatMap_cons, List.length_append, List.length_cons, unitBytes,
      List.length_nil]
    omega
  | copy _ _ _ h ih =>
    obtain ⟨h1, h2, h3⟩ := ih fun t ht => hs t (List.mem_cons_of_mem _ ht)
    have hlen : THRESHOLD < _ ∧ _ ≤ UPLIM := hs _ List.mem_cons_self
    have := h.le
    simp only [THRESHOLD, UPLIM] at hlen
    simp only [List.flatMap_cons, List.length_append, List.length_cons, unitBytes,
      List.length_nil]
    omega

/-- Where no three symbols occur again, every token is a literal. -/
theorem Parses.length_of_no_match {V : ℕ → UInt8} {reach R R' : ℕ} {ts : List (Token UInt8)}
    (h : Parses V RBSIZE reach R ts R') (hs : ∀ t ∈ ts, Sendable t)
    (hno : ∀ a b, a < b → R ≤ b → b + 3 ≤ R' → ¬ ∀ k < 3, V (a + k) = V (b + k)) :
    (ts.flatMap unitBytes).length = R' - R ∧ ts.length = R' - R := by
  induction h with
  | nil => simp
  | lit h ih =>
    obtain ⟨h1, h2⟩ := ih (fun t ht => hs t (List.mem_cons_of_mem _ ht))
      fun a b hab hb => hno a b hab (by omega)
    have := h.le
    simp only [List.flatMap_cons, List.length_append, List.length_cons, unitBytes,
      List.length_nil]
    omega
  | @copy R _ P len _ hP _ hV h _ =>
    have hlen : THRESHOLD < len ∧ len ≤ UPLIM := hs _ List.mem_cons_self
    have hle := h.le
    simp only [THRESHOLD] at hlen
    exact absurd (fun k hk => hV k (by omega)) (hno P R hP le_rfl (by omega))

/-- **The stream's length**: at most an eighth more than the text, rounded up. -/
theorem length_stream_le {V : ℕ → UInt8} {reach R R' : ℕ} {ts : List (Token UInt8)}
    (h : Parses V RBSIZE reach R ts R') (hs : ∀ t ∈ ts, Sendable t) :
    (stream ts).length ≤ (R' - R) + (R' - R + 7) / 8 := by
  obtain ⟨h1, h2, -⟩ := Parses.length_bounds h hs
  rw [length_stream]
  omega

/-- A stream is not shorter than an eighteenth of the text. -/
theorem le_length_stream {V : ℕ → UInt8} {reach R R' : ℕ} {ts : List (Token UInt8)}
    (h : Parses V RBSIZE reach R ts R') (hs : ∀ t ∈ ts, Sendable t) :
    R' - R ≤ 18 * (stream ts).length := by
  obtain ⟨-, -, h3⟩ := Parses.length_bounds h hs
  have hunit : ts.length ≤ (ts.flatMap unitBytes).length := by
    clear h h3
    induction ts with
    | nil => simp
    | cons t ts ih =>
      have := ih fun u hu => hs u (List.mem_cons_of_mem _ hu)
      cases t <;> simp [unitBytes] at * <;> omega
  rw [length_stream]
  omega

end Lilu.Compression
