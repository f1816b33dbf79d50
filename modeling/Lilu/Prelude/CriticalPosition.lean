import Mathlib.Tactic

/-!
# Critical positions of words

A repetition at a position of a word need not be one of the whole word. There is a position, though,
at which every repetition is: the greater of those at which the greatest suffixes begin, for an
order of the symbols and for the opposite one. A maximal suffix is found by comparing the best
suffix so far with a later one, symbol for symbol, and without going back behind either.

A word is a function with a length `l`, and is not looked at from there on.

## Main definitions

* `SuffixBelow r x l s t`: the suffix at `s` comes before the one at `t`
* `MaximalSuffix r x l c`: the suffix at `c` is the greatest
* `Repeats x l c s`: the word repeats itself at `c`, after `s` symbols
* `Period x l p`: a period
* `SuffixScan r x l a b k p`: how far the search for the maximal suffix has come

## Main results

* `Repeats.period`: every repetition at the critical position is a period, and reaches over the
  start of the word
* `SuffixScan.equal`, `SuffixScan.below`, `SuffixScan.above`: what a comparison leads to
* `SuffixScan.maximal`, `SuffixScan.minimal`: in the end the suffix is maximal, and its least period
  is known
-/

namespace Lilu

variable {α : Type*}

/-- The suffix at `s` ends before the one at `t`, or has the smaller symbol where they first
differ. -/
def SuffixBelow (r : α → α → Prop) (x : ℕ → α) (l s t : ℕ) : Prop :=
  ∃ u, (∀ v < u, x (s + v) = x (t + v)) ∧ t + u < l ∧
    (s + u = l ∨ s + u < l ∧ r (x (s + u)) (x (t + u)))

/-- The suffix at `c` is greater than all others. -/
structure MaximalSuffix (r : α → α → Prop) (x : ℕ → α) (l c : ℕ) : Prop where
  lt : c < l
  below : ∀ s < l, s ≠ c → SuffixBelow r x l s c

/-- As far as the word goes, the `s` symbols before `c` are those behind it. -/
def Repeats (x : ℕ → α) (l c s : ℕ) : Prop :=
  ∀ i < c, c ≤ i + s → i + s < l → x i = x (i + s)

/-- From `c` on, each symbol is the one `p` places behind it. -/
def PeriodFrom (x : ℕ → α) (l c p : ℕ) : Prop :=
  ∀ i, c ≤ i → i + p < l → x i = x (i + p)

/-- The symbols are those `p` places behind them. -/
def Period (x : ℕ → α) (l p : ℕ) : Prop :=
  PeriodFrom x l 0 p

variable {r r' : α → α → Prop} {x : ℕ → α} {l a b c c' k p s t : ℕ}

theorem period_iff : Period x l p ↔ ∀ i, i + p < l → x i = x (i + p) :=
  ⟨fun h i => h i (Nat.zero_le i), fun h i _ => h i⟩

theorem PeriodFrom.mono (h : PeriodFrom x l c p) (hle : c ≤ c') : PeriodFrom x l c' p :=
  fun i hi => h i (hle.trans hi)

/-- Places that are apart by a multiple of a period have the same symbol. -/
theorem PeriodFrom.mul (h : PeriodFrom x l c p) (j : ℕ) : PeriodFrom x l c (j * p) := by
  induction j with
  | zero => simp [PeriodFrom]
  | succ j ih =>
    intro i hi hlt
    rw [Nat.succ_mul, ← Nat.add_assoc] at hlt ⊢
    rw [ih i hi (by omega), h _ (by omega) hlt]

/-! ## The order of suffixes -/

section Order

variable [IsStrictOrder α r]

/-- A suffix is not below another one from which it differs the other way. -/
theorem SuffixBelow.asymm (h : SuffixBelow r x l s t) : ¬ SuffixBelow r x l t s := by
  rintro ⟨v, hv, hlt, hvr⟩
  obtain ⟨u, hu, hlt', hur⟩ := h
  rcases Nat.lt_trichotomy u v with huv | rfl | huv
  · rcases hur with hend | ⟨-, hr⟩
    · omega
    · rw [hv u huv] at hr
      exact irrefl_of r _ hr
  · rcases hur with hend | ⟨-, hr⟩
    · omega
    · rcases hvr with hend | ⟨-, hr'⟩
      · omega
      · exact irrefl_of r _ (trans_of r hr hr')
  · rcases hvr with hend | ⟨-, hr⟩
    · omega
    · rw [hu v huv] at hr
      exact irrefl_of r _ hr

theorem SuffixBelow.trans (h : SuffixBelow r x l s t) (h' : SuffixBelow r x l t c) :
    SuffixBelow r x l s c := by
  obtain ⟨u, hu, hlt, hur⟩ := h
  obtain ⟨v, hv, hlt', hvr⟩ := h'
  rcases Nat.lt_trichotomy u v with huv | rfl | huv
  · refine ⟨u, fun i hi => (hu i hi).trans (hv i (hi.trans huv)), by omega, ?_⟩
    rwa [← hv u huv]
  · refine ⟨u, fun i hi => (hu i hi).trans (hv i hi), hlt', ?_⟩
    rcases hur with hend | ⟨hs, hr⟩
    · exact .inl hend
    · rcases hvr with hend | ⟨-, hr'⟩
      · omega
      · exact .inr ⟨hs, trans_of r hr hr'⟩
  · refine ⟨v, fun i hi => (hu i (hi.trans huv)).trans (hv i hi), hlt', ?_⟩
    rw [hu v huv]
    rcases hvr with hend | ⟨-, hr⟩
    · omega
    · rcases hur with hend | ⟨hs, -⟩
      · exact .inr ⟨by omega, hr⟩
      · exact .inr ⟨by omega, hr⟩

end Order

/-! ## Repetitions at the critical position -/

/-- The suffix behind a repetition ends, or it differs from the one at the repetition. -/
theorem SuffixBelow.repeats (h : SuffixBelow r x l (c + s) c) :
    PeriodFrom x l c s ∨ ∃ u, (∀ v < u, x (c + s + v) = x (c + v)) ∧ c + s + u < l ∧
      r (x (c + s + u)) (x (c + u)) := by
  obtain ⟨u, hu, -, hend | ⟨hlt, hr⟩⟩ := h
  · refine .inl fun i hi hlt => ?_
    have := hu (i - c) (by omega)
    rw [show c + s + (i - c) = i + s by omega, show c + (i - c) = i by omega] at this
    exact this.symm
  · exact .inr ⟨u, hu, hlt, hr⟩

section Critical

variable [IsStrictOrder α r]

/-- A repetition at the start of a maximal suffix reaches over the start of the word. -/
theorem Repeats.lt (h : Repeats x l c s) (hmax : MaximalSuffix r x l c) (hs : 0 < s) : c < s := by
  have hcl := hmax.lt
  by_contra hle
  obtain ⟨u, hu, hlt, hur⟩ := hmax.below (c - s) (by omega) (by omega)
  rcases hur with hend | ⟨-, hr⟩
  · omega
  by_cases hus : u < s
  · -- the symbols before the position are those behind it
    have heq := h (c - s + u) (by omega) (by omega) (by omega)
    rw [show c - s + u + s = c + u by omega] at heq
    rw [heq] at hr
    exact irrefl_of r _ hr
  · -- what is behind the repetition is greater
    obtain ⟨v, rfl⟩ := Nat.exists_eq_add_of_le (not_lt.mp hus)
    have habove : SuffixBelow r x l c (c + s) := by
      refine ⟨v, fun w hw => ?_, by omega, .inr ⟨by omega, ?_⟩⟩
      · have := hu (s + w) (by omega)
        rwa [show c - s + (s + w) = c + w by omega, ← Nat.add_assoc] at this
      · rwa [show c - s + (s + v) = c + v by omega, ← Nat.add_assoc] at hr
    exact habove.asymm (hmax.below (c + s) (by omega) (by omega))

/-- **Critical positions**: at the greater of the two positions at which the greatest suffixes begin,
for an order and for the opposite one, a repetition reaches over the start of the word and is one of
the whole word. -/
theorem Repeats.period (h : Repeats x l c s) (hmax : MaximalSuffix r x l c)
    (hmax' : MaximalSuffix (Function.swap r) x l c') (hle : c' ≤ c) (hs : 0 < s) :
    c < s ∧ Period x l s := by
  have hlt := h.lt hmax hs
  refine ⟨hlt, period_iff.mpr fun i hi => ?_⟩
  by_cases hic : i < c
  · exact h i hic (by omega) hi
  by_cases hend : l ≤ c + s
  · omega
  rcases (hmax.below (c + s) (by omega) (by omega)).repeats with hper | ⟨u, hu, hul, hr⟩
  · exact hper i (not_lt.mp hic) hi
  -- the other suffix differs from what is behind it at the same place, in the other order
  exfalso
  obtain ⟨d, rfl⟩ := Nat.exists_eq_add_of_le hle
  have heq : ∀ v < d + u, x (c' + s + v) = x (c' + v) := by
    intro v hv
    by_cases hvd : v < d
    · rw [Nat.add_right_comm]
      exact (h (c' + v) (by omega) (by omega) (by omega)).symm
    · obtain ⟨w, rfl⟩ := Nat.exists_eq_add_of_le (not_lt.mp hvd)
      have := hu w (by omega)
      rwa [show c' + d + s + w = c' + s + (d + w) by omega, Nat.add_assoc c' d w] at this
  rw [show c' + d + s + u = c' + s + (d + u) by omega, Nat.add_assoc c' d u] at hr
  obtain ⟨v, hv, -, hvr⟩ := hmax'.below (c' + s) (by omega) (by omega)
  rcases Nat.lt_trichotomy v (d + u) with hvu | rfl | hvu
  · rcases hvr with hend' | ⟨-, hr'⟩
    · omega
    · rw [heq v hvu] at hr'
      exact irrefl_of r _ hr'
  · rcases hvr with hend' | ⟨-, hr'⟩
    · omega
    · exact irrefl_of r _ (trans_of r hr hr')
  · rw [hv (d + u) hvu] at hr
    exact irrefl_of r _ hr

end Critical

/-! ## The search for the maximal suffix -/

/-- The suffix at `a` is greater than those before it. Up to `b + k` it repeats its first `p`
symbols, of which `b` is a multiple behind it; and these are greater than what they end with. -/
structure SuffixScan (r : α → α → Prop) (x : ℕ → α) (l a b k p : ℕ) : Prop where
  blocks : ∃ q, b = a + (q + 1) * p
  lt : k < p
  le : b + k ≤ l
  period : PeriodFrom x (b + k) a p
  block : ∀ s, 0 < s → s < p → ∃ u, s + u < p ∧ (∀ v < u, x (a + s + v) = x (a + v)) ∧
    r (x (a + s + u)) (x (a + u))
  before : ∀ s < a, SuffixBelow r x l s a

theorem SuffixScan.start (hl : 0 < l) : SuffixScan r x l 0 1 0 1 where
  blocks := ⟨0, rfl⟩
  lt := Nat.one_pos
  le := hl
  period := fun i _ hi => by omega
  block := fun s hs hs' => by omega
  before := fun s hs => absurd hs (Nat.not_lt_zero s)

namespace SuffixScan

theorem pos (h : SuffixScan r x l a b k p) : 0 < p :=
  (Nat.zero_le k).trans_lt h.lt

theorem add_le (h : SuffixScan r x l a b k p) : a + p ≤ b := by
  obtain ⟨q, rfl⟩ := h.blocks
  rw [Nat.succ_mul]
  omega

/-- The blocks repeat the first one. -/
theorem repeats (h : SuffixScan r x l a b k p) {i j : ℕ} (hlt : a + (j * p + t) + i < b + k) :
    x (a + (j * p + t) + i) = x (a + t + i) := by
  have hsum : a + (j * p + t) + i = a + t + i + j * p := by omega
  rw [hsum] at hlt ⊢
  exact (h.period.mul j (a + t + i) (by omega) hlt).symm

/-- Where a place lies in its block. -/
theorem exists_block (h : SuffixScan r x l a b k p) (hs : 0 < s) :
    ∃ j t, s = j * p + t ∧ t < p ∧ (t = 0 → 0 < j) := by
  refine ⟨s / p, s % p, (Nat.div_add_mod' s p).symm, Nat.mod_lt s h.pos, fun ht => ?_⟩
  exact Nat.div_pos (Nat.le_of_dvd hs (Nat.dvd_of_mod_eq_zero ht)) h.pos

/-- How many blocks are behind a place. -/
theorem exists_behind (h : SuffixScan r x l a b k p) {j : ℕ} (hle : a + (j * p + t) ≤ b + k) :
    ∃ i, b = a + j * p + i * p := by
  obtain ⟨q, hq⟩ := h.blocks
  have hk := h.lt
  have hj : j ≤ q + 1 := by
    by_contra hgt
    have hmul : (q + 1 + 1) * p ≤ j * p := Nat.mul_le_mul_right p (not_le.mp hgt)
    rw [Nat.succ_mul] at hmul
    omega
  obtain ⟨i, hi⟩ := Nat.exists_eq_add_of_le hj
  exact ⟨i, by rw [hq, hi, Nat.add_mul, Nat.add_assoc]⟩

/-- The repetition goes on. -/
theorem equal (h : SuffixScan r x l a b k p) (hlt : b + k < l) (heq : x (a + k) = x (b + k)) :
    if k + 1 = p then SuffixScan r x l a (b + p) 0 p else SuffixScan r x l a b (k + 1) p := by
  obtain ⟨q, hq⟩ := h.blocks
  have hk := h.lt
  have hper : PeriodFrom x (b + (k + 1)) a p := by
    intro i hi hip
    rcases (show i + p ≤ b + k by omega).lt_or_eq with hlt' | hend
    · exact h.period i hi hlt'
    · -- the symbol that was read is the one of the first block, and so of the last
      rw [Nat.succ_mul] at hq
      have hi' : i = a + q * p + k := by omega
      rw [hend, ← heq, hi']
      exact h.repeats (t := 0) (by omega)
  split_ifs with hblock
  · refine ⟨⟨q + 1, by rw [hq]; ring⟩, by omega, by omega, ?_, h.block, h.before⟩
    rw [Nat.add_zero, ← hblock]
    rwa [← hblock] at hper
  · exact ⟨⟨q, hq⟩, by omega, by omega, hper, h.block, h.before⟩

section Order

variable [IsStrictOrder α r]

/-- The repetition ends with a smaller symbol: all of it becomes the block. -/
theorem below (h : SuffixScan r x l a b k p) (hlt : b + k < l) (hr : r (x (b + k)) (x (a + k))) :
    SuffixScan r x l a (b + k + 1) 0 (b + k + 1 - a) := by
  have hle := h.add_le
  have hk := h.lt
  have hp := h.pos
  obtain ⟨q, hq⟩ := h.blocks
  refine ⟨⟨0, by omega⟩, by omega, by omega, fun i hi hip => by omega, ?_, h.before⟩
  intro s hs hsp
  obtain ⟨j, t, rfl, htp, hj⟩ := h.exists_block hs
  obtain ⟨i, hi⟩ := h.exists_behind (show a + (j * p + t) ≤ b + k by omega)
  rcases Nat.eq_zero_or_pos t with rfl | ht
  · -- the blocks from here on are like those from the first on, but for the new symbol
    have hjp : p ≤ j * p := Nat.le_mul_of_pos_left p (hj rfl)
    refine ⟨i * p + k, by omega, fun v hv => h.repeats (by omega), ?_⟩
    have hfirst : x (a + i * p + k) = x (a + k) := h.repeats (t := 0) (by omega)
    rw [show a + (j * p + 0) + (i * p + k) = b + k by omega, ← Nat.add_assoc a]
    rwa [hfirst]
  · obtain ⟨u, hu, hv, hru⟩ := h.block t ht htp
    by_cases hin : a + (j * p + t) + u < b + k
    · refine ⟨u, by omega, fun v hvu => ?_, ?_⟩
      · rw [h.repeats (by omega), hv v hvu]
      · rwa [h.repeats hin]
    · -- the new symbol is smaller than the one of the block, which is not greater than the first
      have hi0 : i = 0 := by
        by_contra hpos
        have := Nat.le_mul_of_pos_left p (Nat.pos_of_ne_zero hpos)
        omega
      subst hi0
      obtain ⟨w, hw⟩ := Nat.exists_eq_add_of_le (show t ≤ k by omega)
      refine ⟨w, by omega, fun v hvw => ?_, ?_⟩
      · rw [h.repeats (by omega), hv v (by omega)]
      · rw [show a + (j * p + t) + w = b + k by omega]
        rw [show a + k = a + t + w by omega] at hr
        rcases (show w ≤ u by omega).lt_or_eq with hlt' | rfl
        · rwa [hv w hlt'] at hr
        · exact trans_of r hr hru

/-- The repetition ends with a greater symbol: its last block begins the greatest suffix. -/
theorem above (h : SuffixScan r x l a b k p) (hlt : b + k < l) (hr : r (x (a + k)) (x (b + k))) :
    SuffixScan r x l b (b + 1) 0 1 := by
  have hle := h.add_le
  have hp := h.pos
  obtain ⟨q, hq⟩ := h.blocks
  -- the blocks before the last one go on with the smaller symbol
  have hblock : ∀ j, a + j * p < b → SuffixBelow r x l (a + (j * p + 0)) b := by
    intro j hj
    refine ⟨k, fun v hv => ?_, hlt, .inr ⟨by omega, ?_⟩⟩
    · have hlast : x (b + v) = x (a + v) := by
        have := h.repeats (t := 0) (i := v) (j := q + 1) (by omega)
        rwa [Nat.add_zero, ← hq] at this
      rw [h.repeats (by omega), hlast, Nat.add_zero]
    · rwa [h.repeats (by omega)]
  have hfirst : SuffixBelow r x l a b := by
    have := hblock 0 (by omega)
    rwa [Nat.zero_mul, Nat.add_zero] at this
  refine ⟨⟨0, by omega⟩, by omega, by omega, fun i _ hi => by omega, fun s hs hs' => by omega, ?_⟩
  intro s hs
  rcases Nat.lt_trichotomy s a with hsa | rfl | hsa
  · exact (h.before s hsa).trans hfirst
  · exact hfirst
  · obtain ⟨s, rfl⟩ := Nat.exists_eq_add_of_le hsa.le
    obtain ⟨j, t, rfl, htp, -⟩ := h.exists_block (show 0 < s by omega)
    rcases Nat.eq_zero_or_pos t with rfl | ht
    · exact hblock j hs
    · -- inside of a block the suffix is below the first block
      obtain ⟨i, hi⟩ := h.exists_behind (show a + (j * p + t) ≤ b + k by omega)
      have hip : p ≤ i * p := by
        apply Nat.le_mul_of_pos_left
        rw [Nat.pos_iff_ne_zero]
        rintro rfl
        omega
      obtain ⟨u, hu, hv, hru⟩ := h.block t ht htp
      have hbelow : SuffixBelow r x l (a + (j * p + t)) a := by
        refine ⟨u, fun v hvu => ?_, by omega, .inr ⟨by omega, ?_⟩⟩
        · rw [h.repeats (by omega), hv v hvu]
        · rwa [h.repeats (by omega)]
      exact hbelow.trans hfirst

end Order

/-- At the end of the word the suffix is maximal. -/
theorem maximal (h : SuffixScan r x l a b k p) (hend : b + k = l) : MaximalSuffix r x l a := by
  have hle := h.add_le
  have hp := h.pos
  refine ⟨by omega, fun s hs hne => ?_⟩
  rcases Nat.lt_or_gt_of_ne hne with hlt | hgt
  · exact h.before s hlt
  obtain ⟨s, rfl⟩ := Nat.exists_eq_add_of_le (Nat.le_of_lt hgt)
  obtain ⟨j, t, rfl, htp, hj⟩ := h.exists_block (show 0 < s by omega)
  rcases Nat.eq_zero_or_pos t with rfl | ht
  · refine ⟨l - (a + (j * p + 0)), fun v hv => h.repeats (by omega), ?_, .inl (by omega)⟩
    have := Nat.le_mul_of_pos_left p (hj rfl)
    omega
  · obtain ⟨u, hu, hv, hru⟩ := h.block t ht htp
    by_cases hin : a + (j * p + t) + u < l
    · refine ⟨u, fun v hvu => ?_, by omega, .inr ⟨hin, ?_⟩⟩
      · rw [h.repeats (by omega), hv v hvu]
      · rwa [h.repeats (by omega)]
    · refine ⟨l - (a + (j * p + t)), fun v hvw => ?_, by omega, .inl (by omega)⟩
      rw [h.repeats (by omega), hv v (by omega)]

/-- The suffix has no smaller period. -/
theorem minimal [IsStrictOrder α r] (h : SuffixScan r x l a b k p) (hs : 0 < s)
    (hper : PeriodFrom x l a s) : p ≤ s := by
  by_contra hlt
  obtain ⟨u, hu, -, hr⟩ := h.block s hs (not_le.mp hlt)
  have hle := h.add_le
  have hl := h.le
  rw [Nat.add_right_comm, ← hper (a + u) (by omega) (by omega)] at hr
  exact irrefl_of r _ hr

end SuffixScan

/-! ## Searching for a word -/

/-- The word is found in another one at `o`. -/
def Occurs (x : ℕ → α) (l : ℕ) (y : ℕ → α) (o : ℕ) : Prop :=
  ∀ i < l, y (o + i) = x i

/-- A position at which every repetition is a period, and the least period of the word from there
on. -/
structure Critical (x : ℕ → α) (l c p : ℕ) : Prop where
  pos : 0 < p
  le : c + p ≤ l
  repeats : ∀ s, 0 < s → Repeats x l c s → c < s ∧ Period x l s
  period : PeriodFrom x l c p
  minimal : ∀ s, 0 < s → PeriodFrom x l c s → p ≤ s

/-- What the two searches for a maximal suffix lead to, with what belongs to the shorter one. -/
theorem SuffixScan.critical [IsStrictOrder α r] {a' b' k' p' : ℕ} (h : SuffixScan r x l a b k p)
    (h' : SuffixScan (Function.swap r) x l a' b' k' p') (hend : b + k = l) (hend' : b' + k' = l)
    (hle : a' ≤ a) : Critical x l a p where
  pos := h.pos
  le := h.add_le.trans (by omega)
  repeats := fun s hs hrep => hrep.period (h.maximal hend) (h'.maximal hend') hle hs
  period := hend ▸ h.period
  minimal := fun s hs hper => h.minimal hs hper

section Search

variable {y : ℕ → α} {o : ℕ}

namespace Critical

/-- A word that overlaps an occurrence repeats itself. -/
theorem repeats_of_occurs (h : Critical x l c p) (hright : ∀ i, c ≤ i → i < k → y (o + i) = x i)
    (hs : 0 < s) (hk : c + s ≤ k ∨ k = l) (hocc : Occurs x l y (o + s)) : c < s ∧ Period x l s := by
  refine h.repeats s hs fun i hi hci hil => ?_
  rw [← hocc i (by omega), ← hright (i + s) hci (by omega), Nat.add_assoc, Nat.add_comm s i]

/-- **A difference behind the position**: the word does not occur before the position has come
behind it. -/
theorem not_occurs_of_ne (h : Critical x l c p) (hright : ∀ i, c ≤ i → i < k → y (o + i) = x i)
    (hk : k < l) (hne : x k ≠ y (o + k)) (hs : 0 < s) (hsk : c + s ≤ k) :
    ¬ Occurs x l y (o + s) := by
  intro hocc
  obtain ⟨-, hper⟩ := h.repeats_of_occurs hright hs (.inl hsk) hocc
  have heq := period_iff.mp hper (k - s) (by omega)
  rw [Nat.sub_add_cancel (by omega)] at heq
  rw [← heq, ← hocc (k - s) (by omega)] at hne
  rw [show o + s + (k - s) = o + k by omega] at hne
  exact hne rfl

/-- **A word with the period**: behind an occurrence of what is from the position on, it occurs
after the period or later. -/
theorem le_of_occurs (h : Critical x l c p) (hright : ∀ i, c ≤ i → i < l → y (o + i) = x i)
    (hs : 0 < s) (hocc : Occurs x l y (o + s)) : p ≤ s := by
  obtain ⟨-, hper⟩ := h.repeats_of_occurs hright hs (.inr rfl) hocc
  exact h.minimal s hs (hper.mono (Nat.zero_le c))

/-- If a period of the word fits behind the position, then the period from there on is one of the
word. -/
theorem period_of_period (h : Critical x l c p) (hper : Period x l s) (hs : 0 < s)
    (hsl : c + s ≤ l) : Period x l p := by
  have hp := h.pos
  obtain ⟨j, t, rfl, ht, htp⟩ : ∃ j t, s = j * p + t ∧ 0 < t ∧ t ≤ p := by
    refine ⟨(s - 1) / p, (s - 1) % p + 1, ?_, Nat.succ_pos _, Nat.mod_lt _ hp⟩
    have := Nat.div_add_mod' (s - 1) p
    omega
  -- what is left of it beside multiples of the other one is a repetition, and so a period
  have hrep : Repeats x l c t := by
    intro i hi hci hit
    have hmul := h.period.mul j (i + t) hci
    have hsum : i + t + j * p = i + (j * p + t) := by omega
    rw [hsum] at hmul
    rw [period_iff.mp hper i (by omega), ← hmul (by omega)]
  obtain ⟨-, hper'⟩ := h.repeats t ht hrep
  have hle := h.minimal t ht (hper'.mono (Nat.zero_le c))
  rwa [show p = t by omega]

/-- The period of a word that has the one from the position on reaches over its start. -/
theorem lt_of_period (h : Critical x l c p) (hper : Period x l p) : c < p :=
  (h.repeats p h.pos fun i _ _ hi => period_iff.mp hper i hi).1

/-- **A word without the period**: it occurs later, by more than either part of the word. -/
theorem lt_of_not_period (h : Critical x l c p) (hnot : ¬ Period x l p)
    (hright : ∀ i, c ≤ i → i < l → y (o + i) = x i) (hs : 0 < s)
    (hocc : Occurs x l y (o + s)) : c < s ∧ l < c + s := by
  obtain ⟨hcs, hper⟩ := h.repeats_of_occurs hright hs (.inr rfl) hocc
  refine ⟨hcs, ?_⟩
  by_contra hle
  exact hnot (h.period_of_period hper hs (not_lt.mp hle))

end Critical

/-- After the period, the rest of a word from the position on is the start of the word. -/
theorem Period.start_of_right (hper : Period x l p) (hc : c ≤ p)
    (hright : ∀ i, c ≤ i → i < l → y (o + i) = x i) : ∀ i < l - p, y (o + p + i) = x i := by
  intro i hi
  rw [Nat.add_assoc, hright (p + i) (by omega) (by omega), Nat.add_comm p i,
    ← period_iff.mp hper i (by omega)]

/-- **What is remembered of the word**: behind its start, up to the period, it does not occur before
the end of that, unless the last symbol is right. -/
theorem Period.not_occurs_of_start (hper : Period x l p) (hstart : ∀ i < l - p, y (o + i) = x i)
    (hp : 0 < p) (hne : x (l - 1) ≠ y (o + (l - 1))) (hs : 0 < s) (hsl : s < l - p) :
    ¬ Occurs x l y (o + s) := by
  intro hocc
  have hlast := hocc (l - 1 - s) (by omega)
  have hend := hocc (l - p - 1 - s) (by omega)
  rw [show o + s + (l - 1 - s) = o + (l - 1) by omega] at hlast
  rw [show o + s + (l - p - 1 - s) = o + (l - p - 1) by omega, hstart _ (by omega)] at hend
  -- both are the symbol that the start and the word end with
  have hper₁ := period_iff.mp hper (l - p - 1 - s) (by omega)
  have hper₂ := period_iff.mp hper (l - p - 1) (by omega)
  rw [show l - p - 1 - s + p = l - 1 - s by omega] at hper₁
  rw [show l - p - 1 + p = l - 1 by omega] at hper₂
  rw [hlast, ← hper₁, ← hend, hper₂] at hne
  exact hne rfl

end Search

end Lilu
