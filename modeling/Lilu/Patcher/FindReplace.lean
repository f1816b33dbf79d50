import Lilu.Prelude.Loop
import Lilu.Prelude.Apart

/-!
# Finding and replacing bytes

`findAndReplaceWithMask` looks for a pattern from an offset on, and either skips what it finds or
rewrites it, as long as it may write. It goes on behind the pattern's size after a match that is
skipped, and behind the replacement's size after one that is rewritten.

## Main definitions

* `Replacement`: the arguments
* `findPattern`, `pass`, `turn`: the search, what one pass comes to, and what it does
* `findAndReplaceWithMask`: the call
* `wanted`, `granted`: the matches to rewrite, and those of them that are rewritten

## Main results

* `pass_cases`: what a pass comes to
* `loop_ends_with`: what is left where the passes do not overlap
* `findAndReplaceWithMask_spec`: what is rewritten if all sizes are the same
-/

namespace Lilu.Patcher

/-! ## The code -/

/-- The arguments of a call; what lies behind a buffer's size may be read as well. -/
structure Replacement where
  dataSize : ℕ
  find : ℕ → UInt8
  findSize : ℕ
  findMask : Option (ℕ → UInt8)
  replace : ℕ → UInt8
  replaceSize : ℕ
  replaceMask : Option (ℕ → UInt8)
  replaceMaskSize : ℕ
  count : ℕ
  skip : ℕ
  /-- The data and the replacement are two buffers in one address space, so that no offset wraps. -/
  fits : dataSize + replaceSize ≤ 2 ^ 64

section Code

variable (a : Replacement)

/-- The pattern is at an offset. -/
def matchesAt (data : ℕ → UInt8) (o : ℕ) : Bool :=
  (List.range a.findSize).all fun i =>
    match a.findMask with
    | none => data (o + i) == a.find i
    | some m => data (o + i) &&& m i == a.find i

/-- At how many offsets the pattern fits. -/
def offsets : ℕ :=
  if a.findSize = 0 ∨ a.dataSize < a.findSize then 0 else a.dataSize - a.findSize + 1

/-- `findPattern`: the first offset of the pattern from one on. -/
def findPattern (data : ℕ → UInt8) (dataOffset : ℕ) : Option ℕ :=
  if a.findSize = 0 ∨ a.dataSize < a.findSize then none
  else
    let lastOffset := a.dataSize - a.findSize
    -- `currOffset` stops behind the last offset if nothing matches
    let o := seek (matchesAt a data) (· + 1) (lastOffset + 1 - dataOffset) dataOffset
    if o ≤ lastOffset then some o else none

/-- A byte that is rewritten under a mask. -/
def maskByte (d m r : UInt8) : UInt8 :=
  (d &&& ~~~m) ||| (r &&& m)

/-- How many bytes are written at a match. -/
def writeSize : ℕ :=
  match a.replaceMask with
  | none => a.replaceSize
  | some _ => a.findSize

/-- A byte of a match that is rewritten. -/
def newByte (i : ℕ) (d : UInt8) : UInt8 :=
  match a.replaceMask with
  | none => a.replace i
  | some m => maskByte d (m i) (a.replace i)

/-- The data with the match at an offset rewritten: `memcpy`, or byte for byte under the mask. -/
def rewriteAt (data : ℕ → UInt8) (o : ℕ) : ℕ → UInt8 :=
  fun k => if o ≤ k ∧ k < o + writeSize a then newByte a (k - o) (data k) else data k

/-- The state of the loop. -/
structure FindReplace where
  data : ℕ → UInt8
  dataOffset : ℕ := 0
  skip : ℕ
  count : ℕ
  replCount : ℕ := 0
  /-- How often it was asked for write permission. -/
  asked : ℕ := 0

/-- What a pass comes to. -/
inductive Pass where
  | notFound
  | skipped (o : ℕ)
  | refused (o : ℕ)
  | rewrites (o : ℕ)

-- whether the write permission is given, question by question
variable (grants : ℕ → Bool)

def pass (s : FindReplace) : Pass :=
  match findPattern a s.data s.dataOffset with
  | none => .notFound
  | some o => if 0 < s.skip then .skipped o else if grants s.asked then .rewrites o else .refused o

/-- The state after a rewrite; a count of zero is none. -/
def rewritten (s : FindReplace) (o : ℕ) : FindReplace where
  data := rewriteAt a s.data o
  dataOffset := o + a.replaceSize
  skip := s.skip
  count := s.count - 1
  replCount := s.replCount + 1
  asked := s.asked + 1

/-- One pass through the loop, which may be left with the value that is returned. -/
def turn (s : FindReplace) : Turn FindReplace (FindReplace × Bool) :=
  match pass a grants s with
  | .notFound => .leave (s, 0 < s.replCount)
  | .skipped o => .again { s with skip := s.skip - 1, dataOffset := o + a.findSize }
  -- `failed to obtain write permissions`: what was rewritten before stays so
  | .refused o => .leave ({ s with dataOffset := o, asked := s.asked + 1 }, false)
  | .rewrites o =>
    -- a count that comes to zero is left at, one that was zero never gets there
    if s.count = 1 then .leave (rewritten a s o, 0 < (rewritten a s o).replCount)
    else .again (rewritten a s o)

/-- The state before the loop. -/
def FindReplace.start (data : ℕ → UInt8) : FindReplace where
  data := data
  skip := a.skip
  count := a.count

/-- `findAndReplaceWithMask`; none if the fuel for its loop is used up. -/
def findAndReplaceWithMask (fuel : ℕ) (data : ℕ → UInt8) : Option (FindReplace × Bool) :=
  if a.dataSize < a.findSize then some (.start a data, false)
  else loop (turn a grants) fuel (.start a data)

end Code

/-! ## What is rewritten -/

section Wanted

variable (a : Replacement) (grants : ℕ → Bool)

/-- As many of some matches as a count allows; a count of zero is none. -/
def limited (count : ℕ) (l : List ℕ) : List ℕ :=
  if count = 0 then l else l.take count

/-- The matches that are to be rewritten, from a state on. -/
def wanted (s : FindReplace) : List ℕ :=
  limited s.count (taken (matchesAt a s.data) a.findSize a.replaceSize (offsets a - s.dataOffset)
    s.dataOffset 0 s.skip)

/-- Those of them that are rewritten, up to the first for which the permission is refused. -/
def granted : ℕ → List ℕ → List ℕ
  | _, [] => []
  | i, o :: l => if grants i then o :: granted (i + 1) l else []

end Wanted

variable {a : Replacement} {grants : ℕ → Bool} {s s' : FindReplace} {o : ℕ}

theorem offsets_le : offsets a ≤ a.dataSize := by
  rw [offsets]
  split_ifs with h
  · exact Nat.zero_le _
  · omega

/-- The pattern fits at the offsets that are looked at, and is not empty. -/
theorem fits_of_lt (h : o < offsets a) : 0 < a.findSize ∧ o + a.findSize ≤ a.dataSize := by
  rw [offsets] at h
  split_ifs at h with h₀
  · exact absurd h (Nat.not_lt_zero o)
  · omega

theorem iterate_succ_nat (o n : ℕ) : (· + 1)^[n] o = o + n := by
  induction n with
  | zero => rfl
  | succ n ih =>
    rw [Function.iterate_succ_apply', ih]
    rfl

/-- A search that fails has looked at every offset. -/
theorem findPattern_eq_none {data : ℕ → UInt8} (h : findPattern a data o = none) :
    ∀ i < offsets a - o, matchesAt a data (o + i) = false := by
  rw [findPattern] at h
  rw [offsets]
  by_cases h₀ : a.findSize = 0 ∨ a.dataSize < a.findSize
  · rw [if_pos h₀]
    exact fun i hi => by omega
  rw [if_neg h₀] at h ⊢
  obtain ⟨j, hj, hseek, hbefore, -⟩ :=
    seek_spec (matchesAt a data) (· + 1) (a.dataSize - a.findSize + 1 - o) o
  simp only [iterate_succ_nat] at hseek hbefore
  simp only [hseek, ite_eq_right_iff, reduceCtorEq, imp_false] at h
  exact fun i hi => hbefore i (by omega)

/-- **Where a search ends**: at the first match from the offset on. -/
theorem findPattern_eq_some {data : ℕ → UInt8} {p : ℕ} (h : findPattern a data p = some o) :
    ∃ j < offsets a - p, o = p + j ∧ (∀ i < j, matchesAt a data (p + i) = false) ∧
      matchesAt a data (p + j) = true := by
  rw [findPattern] at h
  rw [offsets]
  by_cases h₀ : a.findSize = 0 ∨ a.dataSize < a.findSize
  · rw [if_pos h₀] at h
    cases h
  rw [if_neg h₀] at h ⊢
  obtain ⟨j, hj, hseek, hbefore, hat⟩ :=
    seek_spec (matchesAt a data) (· + 1) (a.dataSize - a.findSize + 1 - p) p
  simp only [iterate_succ_nat] at hseek hbefore hat
  simp only [hseek, Option.ite_none_right_eq_some, Option.some.injEq] at h
  obtain ⟨hle, rfl⟩ := h
  have hlt : j < a.dataSize - a.findSize + 1 - p := by omega
  exact ⟨j, hlt, rfl, hbefore, hat hlt⟩

/-! ## What a pass comes to -/

theorem pass_eq_notFound : pass a grants s = .notFound ↔ findPattern a s.data s.dataOffset = none := by
  rw [pass]
  grind

theorem pass_eq_skipped : pass a grants s = .skipped o ↔
    findPattern a s.data s.dataOffset = some o ∧ 0 < s.skip := by
  rw [pass]
  grind

theorem pass_eq_refused : pass a grants s = .refused o ↔
    findPattern a s.data s.dataOffset = some o ∧ s.skip = 0 ∧ grants s.asked = false := by
  rw [pass]
  grind

theorem pass_eq_rewrites : pass a grants s = .rewrites o ↔
    findPattern a s.data s.dataOffset = some o ∧ s.skip = 0 ∧ grants s.asked = true := by
  rw [pass]
  grind

/-! ## What a pass does to the matches -/

@[simp] theorem limited_nil {count : ℕ} : limited count [] = [] := by
  rw [limited]
  split_ifs
  · rfl
  · exact List.take_nil

/-- The first match uses up one of the count, if there is one. -/
theorem limited_cons {count : ℕ} {l : List ℕ} :
    limited count (o :: l) = o :: if count = 1 then [] else limited (count - 1) l := by
  rw [limited, limited]
  -- without a count, for the last one, and with more to come
  rcases Nat.lt_trichotomy count 1 with hlt | rfl | hgt
  · obtain rfl : count = 0 := by omega
    rfl
  · rfl
  · obtain ⟨n, rfl⟩ := Nat.exists_eq_add_of_lt hgt
    rw [if_neg (by omega), if_neg (by omega), if_neg (by omega)]
    exact List.take_succ_cons

/-- A pass that finds nothing has nothing to rewrite. -/
theorem wanted_of_notFound (h : pass a grants s = .notFound) : wanted a s = [] := by
  rw [wanted, taken_eq_nil (findPattern_eq_none (pass_eq_notFound.mp h)), limited_nil]

/-- A match that is skipped is not one of those to be rewritten. -/
theorem wanted_of_skipped (h : pass a grants s = .skipped o) :
    wanted a { s with skip := s.skip - 1, dataOffset := o + a.findSize } = wanted a s := by
  obtain ⟨hfind, hskip⟩ := pass_eq_skipped.mp h
  obtain ⟨j, hj, rfl, hbefore, hat⟩ := findPattern_eq_some hfind
  obtain ⟨hsize, -⟩ := fits_of_lt (show s.dataOffset + j < offsets a by omega)
  obtain ⟨k, hk⟩ := Nat.exists_eq_add_of_lt hskip
  -- the search goes on behind the match, with as many offsets less
  have hsub : offsets a - s.dataOffset - (j + a.findSize) =
      offsets a - (s.dataOffset + j + a.findSize) := by omega
  simp only [wanted, hk, Nat.zero_add, Nat.add_sub_cancel]
  rw [taken_skip hsize hj hbefore hat, hsub]

/-- A match that is not skipped is the first of those to be rewritten. -/
theorem wanted_of_found (hfind : findPattern a s.data s.dataOffset = some o) (hskip : s.skip = 0) :
    ∃ l, wanted a s = o :: l := by
  obtain ⟨j, hj, rfl, hbefore, hat⟩ := findPattern_eq_some hfind
  obtain ⟨l, hl⟩ := @taken_head (matchesAt a s.data) a.findSize a.replaceSize _ _ _ hj hbefore hat
  rw [wanted, hskip, hl, limited_cons]
  exact ⟨_, rfl⟩

/-- The rewrites do not reach behind the offset from which the search goes on. -/
structure Forward (a : Replacement) : Prop where
  pos : 0 < a.replaceSize
  writes : writeSize a ≤ a.replaceSize

/-- Behind the replacement the data is as before. -/
theorem rewriteAt_of_le {data : ℕ → UInt8} {k : ℕ} (h : o + writeSize a ≤ k) :
    rewriteAt a data o k = data k := by
  rw [rewriteAt, if_neg (by omega)]

theorem matchesAt_congr {data data' : ℕ → UInt8} (h : ∀ k, o ≤ k → data k = data' k) :
    matchesAt a data o = matchesAt a data' o := by
  rw [matchesAt, matchesAt]
  refine congrArg (List.range a.findSize).all (funext fun i => ?_)
  rw [h (o + i) (Nat.le_add_right o i)]

/-- **A match that is rewritten** is the first of those to be, and the others are those that are to
be rewritten from then on. -/
theorem wanted_of_rewrites (hforward : Forward a) (h : pass a grants s = .rewrites o) :
    wanted a s = o :: if s.count = 1 then [] else wanted a (rewritten a s o) := by
  obtain ⟨hfind, hskip, -⟩ := pass_eq_rewrites.mp h
  obtain ⟨j, hj, rfl, hbefore, hat⟩ := findPattern_eq_some hfind
  -- the search goes on in data that is as before
  have hsame : taken (matchesAt a (rewritten a s (s.dataOffset + j)).data) a.findSize a.replaceSize
      (offsets a - (s.dataOffset + j + a.replaceSize)) (s.dataOffset + j + a.replaceSize) 0 0 =
      taken (matchesAt a s.data) a.findSize a.replaceSize
        (offsets a - (s.dataOffset + j + a.replaceSize)) (s.dataOffset + j + a.replaceSize) 0 0 := by
    refine taken_congr fun i _ => matchesAt_congr fun k hk => rewriteAt_of_le ?_
    have := hforward.writes
    omega
  have hsub : offsets a - s.dataOffset - (j + a.replaceSize) =
      offsets a - (s.dataOffset + j + a.replaceSize) := by omega
  have hrest : wanted a (rewritten a s (s.dataOffset + j)) = limited (s.count - 1)
      (taken (matchesAt a (rewritten a s (s.dataOffset + j)).data) a.findSize a.replaceSize
        (offsets a - (s.dataOffset + j + a.replaceSize)) (s.dataOffset + j + a.replaceSize) 0 0) := by
    simp only [wanted, rewritten, hskip]
  rw [hrest, hsame, wanted, hskip, taken_take hforward.pos hj hbefore hat, limited_cons, hsub]

/-- The matches that are rewritten from a state on. -/
def pending (a : Replacement) (grants : ℕ → Bool) (s : FindReplace) : List ℕ :=
  granted grants s.asked (wanted a s)

theorem pending_of_notFound (h : pass a grants s = .notFound) : pending a grants s = [] := by
  rw [pending, wanted_of_notFound h]
  rfl

theorem pending_of_skipped (h : pass a grants s = .skipped o) :
    pending a grants { s with skip := s.skip - 1, dataOffset := o + a.findSize } =
      pending a grants s := by
  rw [pending, pending, wanted_of_skipped h]

theorem pending_of_refused (h : pass a grants s = .refused o) : pending a grants s = [] := by
  obtain ⟨hfind, hskip, hrefused⟩ := pass_eq_refused.mp h
  obtain ⟨l, hl⟩ := wanted_of_found hfind hskip
  rw [pending, hl, granted, hrefused]
  rfl

theorem pending_of_rewrites (hforward : Forward a) (h : pass a grants s = .rewrites o) :
    pending a grants s = o :: if s.count = 1 then [] else pending a grants (rewritten a s o) := by
  rw [pending, wanted_of_rewrites hforward h, granted, (pass_eq_rewrites.mp h).2.2, if_pos rfl]
  split_ifs
  · rfl
  · rfl

theorem size_pos_of_found (h : findPattern a s.data s.dataOffset = some o) : 0 < a.findSize := by
  obtain ⟨j, hj, rfl, -⟩ := findPattern_eq_some h
  exact (fits_of_lt (show s.dataOffset + j < offsets a by omega)).1

/-- Where the search goes on, there are fewer offsets left. -/
theorem found_lt (h : findPattern a s.data s.dataOffset = some o) {n : ℕ} (hn : 0 < n) :
    offsets a - (o + n) < offsets a - s.dataOffset := by
  obtain ⟨j, hj, rfl, -⟩ := findPattern_eq_some h
  omega

/-! ## The loop -/

/-- What is left when some matches are rewritten. -/
def rewriteAll (a : Replacement) (data : ℕ → UInt8) (l : List ℕ) : ℕ → UInt8 :=
  l.foldl (rewriteAt a) data

theorem turn_skipped (h : pass a grants s = .skipped o) :
    turn a grants s = .again { s with skip := s.skip - 1, dataOffset := o + a.findSize } := by
  rw [turn, h]

theorem turn_rewrites (h : pass a grants s = .rewrites o) (hcount : s.count ≠ 1) :
    turn a grants s = .again (rewritten a s o) := by
  rw [turn, h]
  exact if_neg hcount

/-- **The loop** rewrites the matches that it should, up to the first for which the permission is
refused, and tells whether there was any, unless one was refused. -/
theorem loop_ends_with (hforward : Forward a) (s : FindReplace) :
    ∃ n s' b, loop (turn a grants) n s = some (s', b) ∧
      s'.data = rewriteAll a s.data (pending a grants s) ∧
      (b = true ↔ (pending a grants s).length = (wanted a s).length ∧
        0 < s.replCount + (pending a grants s).length) := by
  -- each pass but the last moves the offset on
  induction hμ : offsets a - s.dataOffset using Nat.strong_induction_on generalizing s with
  | _ μ ih =>
    cases hpass : pass a grants s with
    | notFound =>
      refine ⟨1, s, 0 < s.replCount, loop_succ_leave (by rw [turn, hpass]) 0, ?_, ?_⟩
      · rw [pending_of_notFound hpass]
        rfl
      · rw [pending_of_notFound hpass, wanted_of_notFound hpass]
        simp
    | skipped o =>
      have hfind := (pass_eq_skipped.mp hpass).1
      obtain ⟨n, s', b, hloop, hdata, hb⟩ := ih _ (hμ ▸ found_lt hfind (size_pos_of_found hfind))
        { s with skip := s.skip - 1, dataOffset := o + a.findSize } rfl
      rw [pending_of_skipped hpass] at hdata hb
      rw [wanted_of_skipped hpass] at hb
      exact ⟨n + 1, s', b, (loop_succ_again (turn_skipped hpass) n).trans hloop, hdata, hb⟩
    | refused o =>
      obtain ⟨hfind, hskip, -⟩ := pass_eq_refused.mp hpass
      obtain ⟨l, hl⟩ := wanted_of_found hfind hskip
      refine ⟨1, { s with dataOffset := o, asked := s.asked + 1 }, false,
        loop_succ_leave (by rw [turn, hpass]) 0, ?_, ?_⟩
      · rw [pending_of_refused hpass]
        rfl
      · rw [pending_of_refused hpass, hl]
        simp
    | rewrites o =>
      have hwanted := wanted_of_rewrites hforward hpass
      have hpending := pending_of_rewrites hforward hpass
      by_cases hcount : s.count = 1
      · rw [if_pos hcount] at hwanted hpending
        refine ⟨1, rewritten a s o, 0 < (rewritten a s o).replCount, loop_succ_leave ?_ 0, ?_, ?_⟩
        · rw [turn, hpass]
          exact if_pos hcount
        · rw [hpending]
          rfl
        · rw [hpending, hwanted]
          simp [rewritten]
      · rw [if_neg hcount] at hwanted hpending
        have hfound := found_lt (pass_eq_rewrites.mp hpass).1 hforward.pos
        obtain ⟨n, s', b, hloop, hdata, hb⟩ := ih _ (hμ ▸ hfound) (rewritten a s o) rfl
        refine ⟨n + 1, s', b, (loop_succ_again (turn_rewrites hpass hcount) n).trans hloop, ?_, ?_⟩
        · rw [hdata, hpending]
          rfl
        · rw [hb, hpending, hwanted]
          simp [rewritten]

/-! ## One size -/

/-- Matches that do not overlap are rewritten one by one, and nothing else is. -/
theorem rewriteAll_spec {l : List ℕ} {data : ℕ → UInt8}
    (hapart : l.Pairwise fun o o' => o + writeSize a ≤ o') :
    (∀ o ∈ l, ∀ i < writeSize a, rewriteAll a data l (o + i) = newByte a i (data (o + i))) ∧
      ∀ k, (∀ o ∈ l, k < o ∨ o + writeSize a ≤ k) → rewriteAll a data l k = data k := by
  induction l generalizing data with
  | nil => exact ⟨fun o ho => absurd ho List.not_mem_nil, fun _ _ => rfl⟩
  | cons p l ih =>
    obtain ⟨hp, hl⟩ := List.pairwise_cons.mp hapart
    -- the other matches are rewritten in what the first one leaves
    obtain ⟨hin, hout⟩ := @ih (rewriteAt a data p) hl
    have hhere : ∀ i < writeSize a, rewriteAt a data p (p + i) = newByte a i (data (p + i)) := by
      intro i hi
      rw [rewriteAt, if_pos (by omega), Nat.add_sub_cancel_left]
    constructor
    · intro o ho i hi
      rcases List.mem_cons.mp ho with rfl | ho
      · -- the matches behind do not reach back
        refine (hout (o + i) fun q hq => .inl ?_).trans (hhere i hi)
        have := hp q hq
        omega
      · refine (hin o ho i hi).trans ?_
        rw [rewriteAt_of_le ((hp o ho).trans (Nat.le_add_right o i))]
    · intro k hk
      refine (hout k fun q hq => hk q (List.mem_cons_of_mem p hq)).trans ?_
      rw [rewriteAt, if_neg]
      have := hk p List.mem_cons_self
      omega

theorem granted_prefix {l : List ℕ} {i : ℕ} : granted grants i l <+: l := by
  induction l generalizing i with
  | nil => exact List.nil_prefix
  | cons o l ih =>
    rw [granted]
    split_ifs
    · exact (List.prefix_cons_inj o).mpr ih
    · exact List.nil_prefix

theorem limited_prefix {l : List ℕ} {count : ℕ} : limited count l <+: l := by
  rw [limited]
  split_ifs
  · exact List.prefix_rfl
  · exact List.take_prefix count l

/-- **One size for all**: among the leftmost matches that do not overlap, those behind the ones that
are skipped are rewritten, as far as the count and the permissions go. -/
theorem findAndReplaceWithMask_spec (a : Replacement) (grants : ℕ → Bool) (data : ℕ → UInt8) (N : ℕ)
    (hN : 0 < N) (hfind : a.findSize = N) (hreplace : a.replaceSize = N) :
    let all := taken (matchesAt a data) N N (a.dataSize + 1 - N) 0 0 0
    let asked := limited a.count (all.drop a.skip)
    let done := granted grants 0 asked
    LeftmostApart (matchesAt a data) N (a.dataSize + 1 - N) all ∧
    ∃ fuel s b, findAndReplaceWithMask a grants fuel data = some (s, b) ∧
      (∀ o ∈ done, ∀ i < N, s.data (o + i) = newByte a i (data (o + i))) ∧
      (∀ k, (∀ o ∈ done, k < o ∨ o + N ≤ k) → s.data k = data k) ∧
      (b = true ↔ done.length = asked.length ∧ 0 < done.length) := by
  refine ⟨leftmostApart_taken hN, ?_⟩
  have hwrite : writeSize a = N := by
    rw [writeSize]
    split
    · exact hreplace
    · exact hfind
  have hoffsets : offsets a = a.dataSize + 1 - N := by
    rw [offsets, hfind]
    split_ifs <;> omega
  have hwanted : wanted a (.start a data) = limited a.count
      ((taken (matchesAt a data) N N (a.dataSize + 1 - N) 0 0 0).drop a.skip) := by
    rw [← taken_eq_drop, wanted, hoffsets, hfind, hreplace]
    rfl
  obtain ⟨n, s, b, hloop, hdata, hb⟩ := @loop_ends_with a grants
    ⟨hreplace ▸ hN, (hwrite.trans hreplace.symm).le⟩ (.start a data)
  rw [hwanted] at hb
  rw [pending, hwanted] at hdata hb
  -- the matches that are rewritten are some of the leftmost
  have hapart := (@leftmostApart_taken (matchesAt a data) N (a.dataSize + 1 - N) hN).apart
  obtain ⟨hin, hout⟩ := @rewriteAll_spec a (granted grants 0 (limited a.count
      ((taken (matchesAt a data) N N (a.dataSize + 1 - N) 0 0 0).drop a.skip))) data
    (hwrite.symm ▸ ((hapart.sublist (List.drop_sublist _ _)).sublist
      limited_prefix.sublist).sublist granted_prefix.sublist)
  rw [hwrite] at hin hout
  by_cases hsize : a.dataSize < a.findSize
  · -- there is no offset at which the pattern fits
    have hzero : a.dataSize + 1 - N = 0 := by omega
    rw [hzero, taken_zero, List.drop_nil, limited_nil]
    refine ⟨0, .start a data, false, ?_, fun o ho => absurd ho List.not_mem_nil, fun _ _ => rfl, ?_⟩
    · rw [findAndReplaceWithMask, if_pos hsize]
    · simp [granted]
  · refine ⟨n, s, b, ?_, fun o ho i hi => ?_, fun k hk => ?_, ?_⟩
    · rw [findAndReplaceWithMask, if_neg hsize, hloop]
    · rw [hdata]
      exact hin o ho i hi
    · rw [hdata]
      exact hout k hk
    · simpa [FindReplace.start] using hb

/-- Ones among some bytes are replaced. -/
def replaceOnes (dataSize count skip : ℕ) (h : dataSize + 1 ≤ 2 ^ 64) : Replacement where
  dataSize := dataSize
  find := fun _ => 1
  findSize := 1
  findMask := some fun _ => 0x0F
  replace := fun _ => 0x52
  replaceSize := 1
  replaceMask := some fun _ => 0xF2
  replaceMaskSize := 1
  count := count
  skip := skip
  fits := h

/-- The first of three matches is skipped, and two are rewritten. -/
theorem findAndReplaceWithMask_spec_ones : ∃ fuel s b,
    findAndReplaceWithMask (replaceOnes 4 2 1 (by decide)) (fun _ => true) fuel
      (fun k => if k = 1 then 0 else 0x21) = some (s, b) ∧
    s.data 0 = 0x21 ∧ s.data 2 = 0x53 ∧ s.data 3 = 0x53 ∧ b = true := by
  obtain ⟨-, fuel, s, b, hcall, hin, hout, hb⟩ := findAndReplaceWithMask_spec
    (replaceOnes 4 2 1 (by decide)) (fun _ => true) (fun k => if k = 1 then 0 else 0x21) 1 one_pos rfl rfl
  refine ⟨fuel, s, b, hcall, ?_, ?_, ?_, hb.mpr (by decide)⟩
  · exact hout 0 (by decide)
  · exact hin 2 (by decide) 0 one_pos
  · exact hin 3 (by decide) 0 one_pos

/-- The permission is refused for the second match: the call returns false after the first
rewrite. -/
theorem not_findAndReplaceWithMask_refused : ¬ ∃ fuel s b,
    findAndReplaceWithMask (replaceOnes 2 0 0 (by decide)) (fun i => i == 0) fuel (fun _ => 1) =
      some (s, b) ∧ s.data 0 = 0x53 ∧ s.data 1 = 0x53 ∧ (b = true ↔ s.data 0 = 0x53) := by
  rintro ⟨fuel, s, b, hcall, h0, -, hb⟩
  have hrun : loop (turn (replaceOnes 2 0 0 (by decide)) fun i => i == 0) 2
      (.start (replaceOnes 2 0 0 (by decide)) fun _ => 1) = some (_, false) := rfl
  rw [findAndReplaceWithMask, if_neg (by decide)] at hcall
  have hfalse := congrArg Prod.snd (loop_unique hcall hrun)
  exact absurd (hfalse.symm.trans (hb.mpr h0)) Bool.false_ne_true

end Lilu.Patcher
