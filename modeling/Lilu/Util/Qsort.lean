import Lilu.Prelude.Effect
import Lilu.Prelude.Rearranged

/-!
# Sorting an array

`qsort` is the kernel's: a quicksort by three ways, whose elements are exchanged by words or by
bytes, as their size and the array's address allow.

## Main definitions

* `Call`: the arguments, and `Call.elt m i`: an element of the array
* `Call.swap`, `Call.vecswap`: two elements, or two ranges of them, change their places
* `Call.insertionSort`, `Call.partition`, `Call.qsort`: the algorithm

## Main results

* `ends_swapcode`: the loop of `swapcode` exchanges two blocks of memory
* `elt_exchange`: exchanging blocks of memory is exchanging ranges of elements
* `ends_swap`, `ends_vecswap`: so they do, with each choice of words or bytes
-/

namespace Lilu.Util.Qsort

/-- Memory by addresses; those of an array do not wrap around. -/
abbrev Mem := ℤ → UInt8

abbrev Run := Effect Mem

/-- A number that becomes an `int`. -/
def int (x : ℤ) : ℤ :=
  x.bmod (2 ^ 32)

/-- A number that becomes a `size_t`. -/
def sizeT (x : ℤ) : ℤ :=
  x % 2 ^ 64

/-- The bytes at an address. -/
def cells (m : Mem) (p : ℤ) (w : ℕ) : List UInt8 :=
  (List.range w).map fun k : ℕ => m (p + k)

/-- The arguments of a call: the array of `n` elements with `es` bytes each, and the comparison,
which looks at the bytes of two elements. -/
structure Call where
  a : ℤ
  n : ℕ
  es : ℕ
  cmp : List UInt8 → List UInt8 → ℤ

/-- What a partition comes to. -/
structure Parts where
  pa : ℤ
  pb : ℤ
  pc : ℤ
  pd : ℤ
  swapCnt : ℤ

namespace Call

variable (c : Call)

/-! ## Accesses -/

/-- Nothing is accessed but the array. -/
def fetch (p : ℤ) (w : ℕ) : Run (List UInt8) := do
  Effect.need (c.a ≤ p ∧ p + w ≤ c.a + c.n * c.es)
  Effect.ask (cells · p w)

/-- A word at an aligned address. -/
def fetchWord (w : ℕ) (p : ℤ) : Run (List UInt8) := do
  Effect.need ((w : ℤ) ∣ p)
  c.fetch p w

def storeWord (w : ℕ) (p : ℤ) (bs : List UInt8) : Run Unit := do
  Effect.need (c.a ≤ p ∧ p + w ≤ c.a + c.n * c.es ∧ (w : ℤ) ∣ p)
  Effect.change fun m x => if p ≤ x ∧ x < p + w then bs.getD (x - p).toNat 0 else m x

def compare (p q : ℤ) : Run ℤ := do
  let x ← c.fetch p c.es
  let y ← c.fetch q c.es
  pure (c.cmp x y)

/-! ## Exchanging elements -/

/-- `t = *pi; *pi = *pj; *pj = t` -/
def swapWord (w : ℕ) (pi pj : ℤ) : Run Unit := do
  let t ← c.fetchWord w pi
  let u ← c.fetchWord w pj
  c.storeWord w pi u
  c.storeWord w pj t

/-- `swapcode`, with as many passes behind the first one. -/
def swapcode (w : ℕ) : ℕ → ℤ → ℤ → Run Unit
  | 0, pi, pj => c.swapWord w pi pj
  | k + 1, pi, pj => do
    c.swapWord w pi pj
    swapcode w k (pi + w) (pj + w)

/-- The passes behind the first one: `while (--i > 0)`. -/
def passes (n : ℤ) (w : ℕ) : ℕ :=
  (sizeT n / w).toNat - 1

def swapfunc (a b : ℤ) (n : ℤ) (swaptype : ℕ) : Run Unit :=
  if swaptype ≤ 1 then c.swapcode 8 (passes n 8) a b else c.swapcode 1 (passes n 1) a b

/-- `SWAPINIT` -/
def swapinit (a : ℤ) : ℕ :=
  if a % 8 ≠ 0 ∨ c.es % 8 ≠ 0 then 2 else if c.es = 8 then 0 else 1

def swap (swaptype : ℕ) (a b : ℤ) : Run Unit :=
  if swaptype = 0 then c.swapWord 8 a b else c.swapfunc a b (int c.es) swaptype

def vecswap (swaptype : ℕ) (a b n : ℤ) : Run Unit :=
  if n > 0 then c.swapfunc a b n swaptype else pure ()

/-! ## The algorithm -/

def med3 (p q r : ℤ) : Run ℤ := do
  if (← c.compare p q) < 0 then
    if (← c.compare q r) < 0 then pure q
    else if (← c.compare p r) < 0 then pure r else pure p
  else if (← c.compare q r) > 0 then pure q
  else if (← c.compare p r) < 0 then pure p else pure r

/-- A pass of the inner loop. -/
def sinkTurn (swaptype : ℕ) (a pl : ℤ) : Run (Turn ℤ Unit) :=
  if pl > a then do
    if (← c.compare (pl - c.es) pl) > 0 then
      c.swap swaptype pl (pl - c.es)
      pure (.again (pl - c.es))
    else pure (.leave ())
  else pure (.leave ())

/-- A pass of the outer loop. -/
def insertTurn (swaptype : ℕ) (a : ℤ) (n : ℕ) (pm : ℤ) : Run (Turn ℤ Unit) :=
  if pm < a + n * c.es then do
    Effect.loop (c.sinkTurn swaptype a) (n + 1) pm
    pure (.again (pm + c.es))
  else pure (.leave ())

def insertionSort (swaptype : ℕ) (a : ℤ) (n : ℕ) : Run Unit :=
  Effect.loop (c.insertTurn swaptype a n) (n + 1) (a + c.es)

/-- The element by which the array is parted. -/
def pivot (a : ℤ) (n : ℕ) : Run ℤ := do
  let pm := a + (n / 2 : ℕ) * c.es
  if n > 7 then
    let pl := a
    let pn := a + (n - 1 : ℕ) * c.es
    if n > 40 then
      let d := int ((n / 8 : ℕ) * c.es)
      let pl ← c.med3 pl (pl + d) (pl + int (2 * d))
      let pm ← c.med3 (pm - d) pm (pm + d)
      let pn ← c.med3 (pn - int (2 * d)) (pn - d) pn
      c.med3 pl pm pn
    else c.med3 pl pm pn
  else pure pm

/-- A pass of the loop that `pb` goes up with. -/
def upTurn (swaptype : ℕ) (a : ℤ) (t : Parts) : Run (Turn Parts Parts) :=
  if t.pb ≤ t.pc then do
    let r ← c.compare t.pb a
    if r ≤ 0 then
      if r = 0 then
        c.swap swaptype t.pa t.pb
        pure (.again { t with swapCnt := 1, pa := t.pa + c.es, pb := t.pb + c.es })
      else pure (.again { t with pb := t.pb + c.es })
    else pure (.leave t)
  else pure (.leave t)

/-- A pass of the loop that `pc` goes down with. -/
def downTurn (swaptype : ℕ) (a : ℤ) (t : Parts) : Run (Turn Parts Parts) :=
  if t.pb ≤ t.pc then do
    let r ← c.compare t.pc a
    if r ≥ 0 then
      if r = 0 then
        c.swap swaptype t.pc t.pd
        pure (.again { t with swapCnt := 1, pd := t.pd - c.es, pc := t.pc - c.es })
      else pure (.again { t with pc := t.pc - c.es })
    else pure (.leave t)
  else pure (.leave t)

/-- A pass of the loop around them. -/
def partTurn (swaptype : ℕ) (a : ℤ) (n : ℕ) (t : Parts) : Run (Turn Parts Parts) := do
  let t ← Effect.loop (c.upTurn swaptype a) (n + 1) t
  let t ← Effect.loop (c.downTurn swaptype a) (n + 1) t
  if t.pb > t.pc then pure (.leave t)
  else
    c.swap swaptype t.pb t.pc
    pure (.again { t with swapCnt := 1, pb := t.pb + c.es, pc := t.pc - c.es })

def partition (swaptype : ℕ) (a : ℤ) (n : ℕ) : Run Parts :=
  let last := a + (n - 1 : ℕ) * c.es
  Effect.loop (c.partTurn swaptype a n) (n + 1) ⟨a + c.es, a + c.es, last, last, 0⟩

/-- The elements that are equal to the parting one come between the lesser and the greater ones. -/
def gather (swaptype : ℕ) (a : ℤ) (n : ℕ) (t : Parts) : Run Unit := do
  let pn := a + n * c.es
  let r := int (if t.pa - a < t.pb - t.pa then t.pa - a else t.pb - t.pa)
  c.vecswap swaptype a (t.pb - r) r
  let rest := sizeT (pn - t.pd - c.es)
  let r := int (if sizeT (t.pd - t.pc) < rest then sizeT (t.pd - t.pc) else rest)
  c.vecswap swaptype t.pb (pn - r) r

/-- `qsort`; it fails if it calls itself more often than that. -/
def qsort : ℕ → ℤ → ℕ → Run Unit
  | 0, _, _ => Effect.fail
  | fuel + 1, a, n => do
    let swaptype := c.swapinit a
    if n < 7 then c.insertionSort swaptype a n
    else
      let pm ← c.pivot a n
      c.swap swaptype a pm
      let t ← c.partition swaptype a n
      if t.swapCnt = 0 then c.insertionSort swaptype a n
      else
        c.gather swaptype a n t
        let r := int (t.pb - t.pa)
        Effect.onlyIf (sizeT r > c.es) (qsort fuel a (sizeT r / c.es).toNat)
        let r := int (t.pd - t.pc)
        Effect.onlyIf (sizeT r > c.es) (qsort fuel (a + n * c.es - r) (sizeT r / c.es).toNat)

end Call

/-! ## Exchanging blocks of memory -/

section Blocks

open Effect (Ends)

variable {c : Call} {m : Mem} {p q : ℤ} {w k : ℕ}

/-- A block lies in the array. -/
def Call.Inside (c : Call) (p w : ℤ) : Prop :=
  c.a ≤ p ∧ p + w ≤ c.a + c.n * c.es

theorem ends_fetch (h : c.Inside p w) :
    Ends (c.fetch p w) m fun bs m' => bs = cells m p w ∧ m' = m := by
  rw [Call.fetch, Effect.ends_bind, Effect.ends_need, Effect.ends_ask]
  exact ⟨h, rfl, rfl⟩

theorem getD_cells {k : ℤ} (h : 0 ≤ k) (h' : k < w) (d : UInt8) :
    (cells m p w).getD k.toNat d = m (k + p) := by
  have hk : p + (k.toNat : ℤ) = k + p := by omega
  rw [cells, List.getD_eq_getElem?_getD, List.getElem?_map, List.getElem?_range (by omega),
    Option.map_some, Option.getD_some, hk]

/-- **A word and another one.** -/
theorem ends_swapWord (hp : c.Inside p w) (hq : c.Inside q w) (hwp : (w : ℤ) ∣ p)
    (hwq : (w : ℤ) ∣ q) (happart : Apart p q w) :
    Ends (c.swapWord w p q) m fun _ m' => ∀ x, m' x = m (exchange p q w x) := by
  simp only [Call.swapWord, Call.fetchWord, Call.fetch, Call.storeWord, Effect.ends_bind,
    Effect.ends_need, Effect.ends_ask, Effect.ends_change]
  refine ⟨hwp, hp, hwq, hq, ⟨hp.1, hp.2, hwp⟩, ⟨hq.1, hq.2, hwq⟩, fun x => ?_⟩
  by_cases hxq : q ≤ x ∧ x < q + w
  · rw [if_pos hxq, getD_cells (by omega) (by omega), exchange_right happart hxq.1 hxq.2]
  · rw [if_neg hxq]
    by_cases hxp : p ≤ x ∧ x < p + w
    · rw [if_pos hxp, getD_cells (by omega) (by omega), exchange_left hxp.1 hxp.2]
    · rw [if_neg hxp, exchange_of_not_mem (by omega) (by omega)]

/-- **The loop of `swapcode`** exchanges two blocks, word by word. -/
theorem ends_swapcode (hp : c.Inside p ((k + 1 : ℕ) * w)) (hq : c.Inside q ((k + 1 : ℕ) * w))
    (hwp : (w : ℤ) ∣ p) (hwq : (w : ℤ) ∣ q) (happart : Apart p q ((k + 1 : ℕ) * w)) :
    Ends (c.swapcode w k p q) m fun _ m' => ∀ x, m' x = m (exchange p q ((k + 1 : ℕ) * w) x) := by
  induction k generalizing p q m with
  | zero =>
    rw [Nat.zero_add, Nat.cast_one, one_mul] at *
    exact ends_swapWord hp hq hwp hwq happart
  | succ k ih =>
    -- the first word, and then the others
    have hlen : ((k + 1 + 1 : ℕ) : ℤ) * w = w + (k + 1 : ℕ) * w := by
      push_cast
      ring
    have hrest : (0 : ℤ) ≤ (k + 1 : ℕ) * w := by positivity
    rw [hlen] at hp hq happart ⊢
    rw [Call.Inside] at hp hq
    have hword : Apart p q w := by
      rw [Apart] at happart ⊢
      omega
    have hbehind : Apart (p + w) (q + w) ((k + 1 : ℕ) * w) := by
      rw [Apart] at happart ⊢
      omega
    rw [Call.swapcode]
    refine (ends_swapWord ⟨hp.1, by omega⟩ ⟨hq.1, by omega⟩ hwp hwq hword).bind fun _ m' hm' => ?_
    refine (ih ⟨by omega, by omega⟩ ⟨by omega, by omega⟩ (dvd_add_self_right.mpr hwp)
      (dvd_add_self_right.mpr hwq) hbehind).imp fun _ m'' hm'' x => ?_
    rw [hm'', hm', exchange_comp (Nat.cast_nonneg w) hrest happart]

end Blocks

/-! ## Exchanging elements -/

section Elements

open Effect (Ends)

variable {c : Call} {m m' : Mem} {i j x y d : ℤ} {swaptype : ℕ}

namespace Call

/-- The address of an element. -/
def loc (c : Call) (i : ℤ) : ℤ :=
  c.a + i * c.es

/-- An element. -/
def elt (c : Call) (m : Mem) (i : ℤ) : List UInt8 :=
  cells m (c.loc i) c.es

/-- The kind of words fits the array. -/
def Fits (c : Call) (swaptype : ℕ) : Prop :=
  (swaptype ≤ 1 → (8 : ℤ) ∣ c.a ∧ 8 ∣ c.es) ∧ (swaptype = 0 → c.es = 8)

end Call

theorem fits_swapinit (i : ℤ) : c.Fits (c.swapinit (c.loc i)) := by
  rw [Call.swapinit]
  split_ifs with hodd hes
  · exact ⟨fun h => absurd h (by norm_num), fun h => absurd h (by norm_num)⟩
  · have hdvd : 8 ∣ c.es := by omega
    have haddr : (8 : ℤ) ∣ c.loc i := by omega
    have hmul : (8 : ℤ) ∣ i * c.es := (Int.natCast_dvd_natCast.mpr hdvd).mul_left i
    exact ⟨fun _ => ⟨(dvd_add_left hmul).mp haddr, hdvd⟩, fun _ => hes⟩
  · have hdvd : 8 ∣ c.es := by omega
    have haddr : (8 : ℤ) ∣ c.loc i := by omega
    have hmul : (8 : ℤ) ∣ i * c.es := (Int.natCast_dvd_natCast.mpr hdvd).mul_left i
    exact ⟨fun _ => ⟨(dvd_add_left hmul).mp haddr, hdvd⟩, fun h => absurd h (by norm_num)⟩

theorem loc_add (i j : ℤ) : c.loc (i + j) = c.loc i + j * c.es := by
  rw [Call.loc, Call.loc]
  ring

theorem loc_lt_iff (hes : 0 < c.es) : c.loc i < c.loc j ↔ i < j := by
  rw [Call.loc, Call.loc]
  constructor
  · intro h
    nlinarith
  · intro h
    nlinarith

theorem inside_elt (hi : 0 ≤ i) (hi' : i + d ≤ c.n) : c.Inside (c.loc i) (d * c.es) := by
  have hes : (0 : ℤ) ≤ c.es := Nat.cast_nonneg _
  constructor
  · rw [Call.loc]
    nlinarith
  · rw [← loc_add, Call.loc]
    nlinarith

theorem loc_le_add_iff {k : ℤ} (hk : 0 ≤ k) (hk' : k < c.es) : c.loc x ≤ c.loc i + k ↔ x ≤ i := by
  have hes : 0 < c.es := by omega
  constructor
  · intro h
    by_contra hlt
    have hle : ¬ c.loc x < c.loc (i + 1) := (loc_lt_iff hes).not.mpr (by omega)
    rw [loc_add] at hle
    omega
  · intro h
    have hle : ¬ c.loc i < c.loc x := (loc_lt_iff hes).not.mpr (by omega)
    omega

/-- A byte of an element, and where it comes from. -/
theorem exchange_loc {k : ℤ} (hk : 0 ≤ k) (hk' : k < c.es) :
    exchange (c.loc x) (c.loc y) (d * c.es) (c.loc i + k) = c.loc (exchange x y d i) + k := by
  have hmem (z : ℤ) : c.loc z ≤ c.loc i + k ∧ c.loc i + k < c.loc z + d * c.es ↔
      z ≤ i ∧ i < z + d := by
    rw [← loc_add, loc_le_add_iff hk hk', ← not_le, loc_le_add_iff hk hk', not_le]
  have hmove (z z' : ℤ) : c.loc i + k - c.loc z + c.loc z' = c.loc (i - z + z') + k := by
    rw [Call.loc, Call.loc, Call.loc, Call.loc]
    ring
  simp only [exchange, hmem, hmove]
  split_ifs <;> rfl

/-- **Exchanging blocks of memory is exchanging ranges of elements.** -/
theorem elt_exchange (h : ∀ z, m' z = m (exchange (c.loc x) (c.loc y) (d * c.es) z)) (i : ℤ) :
    c.elt m' i = c.elt m (exchange x y d i) := by
  rw [Call.elt, Call.elt, cells, cells]
  refine List.map_congr_left fun k hk => ?_
  rw [h, exchange_loc (Nat.cast_nonneg k) (by exact_mod_cast List.mem_range.mp hk)]

theorem apart_loc (hes : 0 < c.es) (h : Apart x y d) : Apart (c.loc x) (c.loc y) (d * c.es) := by
  have hle (z z' : ℤ) : c.loc z ≤ c.loc z' ↔ z ≤ z' := by
    rw [← not_lt, loc_lt_iff hes, not_lt]
  rw [Apart, ← loc_add, ← loc_add, hle, hle]
  rcases h with h | h | rfl
  · exact .inl h
  · exact .inr (.inl h)
  · exact .inr (.inr rfl)

theorem int_of_lt {z : ℤ} (h : 0 ≤ z) (h' : z < 2 ^ 31) : int z = z :=
  Int.bmod_eq_of_le (by omega) (by omega)

/-- All passes, with words of a size. -/
theorem passes_mul {z : ℤ} {w : ℕ} (hz : 0 < z) (hz' : z < 2 ^ 31) (hw : 0 < w) (h : (w : ℤ) ∣ z) :
    ((Call.passes z w + 1 : ℕ) : ℤ) * w = z := by
  obtain ⟨k, rfl⟩ := h
  have hk : 0 < k := by
    by_contra hk
    nlinarith
  have hsize : sizeT (w * k) = w * k := Int.emod_eq_of_lt hz.le (by omega)
  have hpasses : Call.passes (w * k) w + 1 = k.toNat := by
    rw [Call.passes, hsize, Int.mul_ediv_cancel_left _ (by omega)]
    omega
  rw [hpasses, Int.toNat_of_nonneg hk.le, mul_comm]

section Swaps

variable (hes : 0 < c.es) (hsize : (c.n * c.es : ℤ) < 2 ^ 31) (hfit : c.Fits swaptype)
  (hx : 0 ≤ x) (hx' : x + d ≤ c.n) (hy : 0 ≤ y) (hy' : y + d ≤ c.n) (happart : Apart x y d)

include hes hsize hfit hx hx' hy hy' happart

theorem ends_swapfunc (hd : 0 < d) : Ends (c.swapfunc (c.loc x) (c.loc y) (d * c.es) swaptype) m
    fun _ m' => ∀ i, c.elt m' i = c.elt m (exchange x y d i) := by
  have hbytes : 0 < d * (c.es : ℤ) := by positivity
  have hle : d * (c.es : ℤ) < 2 ^ 31 := by nlinarith
  have hin := inside_elt (c := c) hx hx'
  have hin' := inside_elt (c := c) hy hy'
  have happart' := apart_loc hes happart
  rw [Call.swapfunc, Effect.ends_ite]
  constructor
  · intro hst
    obtain ⟨ha, h8⟩ := hfit.1 hst
    have h8' : (8 : ℤ) ∣ c.es := Int.natCast_dvd_natCast.mpr h8
    have hloc (z : ℤ) : ((8 : ℕ) : ℤ) ∣ c.loc z := dvd_add ha (h8'.mul_left z)
    have hlen := passes_mul hbytes hle (w := 8) (by norm_num) (h8'.mul_left d)
    rw [← hlen] at hin hin' happart'
    refine (ends_swapcode hin hin' (hloc x) (hloc y) happart').imp fun _ m' hm' => ?_
    rw [hlen] at hm'
    exact elt_exchange hm'
  · intro _
    have hlen := passes_mul hbytes hle (w := 1) (by norm_num) (one_dvd _)
    rw [← hlen] at hin hin' happart'
    refine (ends_swapcode hin hin' (one_dvd _) (one_dvd _) happart').imp fun _ m' hm' => ?_
    rw [hlen] at hm'
    exact elt_exchange hm'

theorem ends_vecswap : Ends (c.vecswap swaptype (c.loc x) (c.loc y) (d * c.es)) m
    fun _ m' => ∀ i, c.elt m' i = c.elt m (exchange x y d i) := by
  have hpos : d * (c.es : ℤ) > 0 ↔ 0 < d := by
    rw [gt_iff_lt, mul_pos_iff_of_pos_right (by omega)]
  rw [Call.vecswap, Effect.ends_ite, hpos]
  refine ⟨ends_swapfunc hes hsize hfit hx hx' hy hy' happart, fun hd => ?_⟩
  -- there is nothing to exchange
  refine Effect.ends_pure.mpr fun i => ?_
  rw [exchange_of_not_mem (by omega) (by omega)]

end Swaps

theorem apart_one (x y : ℤ) : Apart x y 1 := by
  rw [Apart]
  omega

theorem ends_swap (hes : 0 < c.es) (hsize : (c.n * c.es : ℤ) < 2 ^ 31) (hfit : c.Fits swaptype)
    (hi : 0 ≤ i) (hi' : i < c.n) (hj : 0 ≤ j) (hj' : j < c.n) :
    Ends (c.swap swaptype (c.loc i) (c.loc j)) m
      fun _ m' => ∀ k, c.elt m' k = c.elt m (exchange i j 1 k) := by
  have hle : (c.es : ℤ) < 2 ^ 31 := by nlinarith
  have hone : (1 : ℤ) * c.es = c.es := one_mul _
  rw [Call.swap, Effect.ends_ite]
  constructor
  · intro hst
    obtain ⟨ha, h8⟩ := hfit.1 (by omega)
    have h8' : (8 : ℤ) ∣ c.es := Int.natCast_dvd_natCast.mpr h8
    have hloc (z : ℤ) : ((8 : ℕ) : ℤ) ∣ c.loc z := dvd_add ha (h8'.mul_left z)
    have hw : ((8 : ℕ) : ℤ) = 1 * c.es := by rw [hone, hfit.2 hst]
    have hword := ends_swapWord (m := m) (w := 8) (hw ▸ inside_elt hi (by omega))
      (hw ▸ inside_elt hj (by omega)) (hloc i) (hloc j) (hw ▸ apart_loc hes (apart_one i j))
    refine hword.imp fun _ m' hm' => elt_exchange ?_
    rwa [hw] at hm'
  · intro _
    rw [int_of_lt (by omega) hle, ← hone]
    exact ends_swapfunc hes hsize hfit hi (by omega) hj (by omega) (apart_one i j) one_pos

theorem ends_compare (hi : 0 ≤ i) (hi' : i < c.n) (hj : 0 ≤ j) (hj' : j < c.n) :
    Ends (c.compare (c.loc i) (c.loc j)) m
      fun r m' => r = c.cmp (c.elt m i) (c.elt m j) ∧ m' = m := by
  have hone : (1 : ℤ) * c.es = c.es := one_mul _
  refine (ends_fetch (hone ▸ inside_elt hi (by omega))).bind fun x m' => ?_
  rintro ⟨rfl, rfl⟩
  refine (ends_fetch (hone ▸ inside_elt hj (by omega))).bind fun y m' => ?_
  rintro ⟨rfl, rfl⟩
  exact Effect.ends_pure.mpr ⟨rfl, rfl⟩

end Elements

end Lilu.Util.Qsort
