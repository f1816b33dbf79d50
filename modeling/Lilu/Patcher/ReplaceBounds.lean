import Lilu.Patcher.FindReplace

/-!
# Bounds and ends of a replacement

The search only knows that the pattern fits at a match, but as many bytes are written as the
replacement has if there is no mask, and as many are read as the pattern has if there is one. After
a rewrite the search goes on behind the replacement, which may be empty.

## Main definitions

* `RewriteInside`: what a rewrite touches is in the buffers
* `SizesFit`: the sizes suit the matches that are rewritten
* `StillMatches`: a match that is rewritten is one again
* `Endless`: a call that rewrites the same match again and again

## Main results

* `comes_rewrites_iff`: which matches are rewritten on the way
* `rewrites_inside_iff`: when everything that is touched is in the buffers
* `findAndReplaceWithMask_ends_iff`: when a call ends
-/

namespace Lilu.Patcher

variable {a : Replacement} {grants : ℕ → Bool} {s t : FindReplace} {o : ℕ}

/-! ## What is rewritten on the way -/

/-- **A pass after which the loop goes on** skips a match or rewrites it. -/
theorem turn_again_cases (h : turn a grants s = .again t) :
    (∃ o, pass a grants s = .skipped o ∧
      t = { s with skip := s.skip - 1, dataOffset := o + a.findSize }) ∨
    ∃ o, pass a grants s = .rewrites o ∧ s.count ≠ 1 ∧ t = rewritten a s o := by
  cases hpass : pass a grants s with
  | notFound =>
    rw [turn, hpass] at h
    cases h
  | skipped o =>
    rw [turn, hpass] at h
    exact .inl ⟨o, rfl, (Turn.again.inj h).symm⟩
  | refused o =>
    rw [turn, hpass] at h
    cases h
  | rewrites o =>
    rw [turn, hpass] at h
    dsimp only at h
    split_ifs at h with hcount
    exact .inr ⟨o, rfl, hcount, (Turn.again.inj h).symm⟩

theorem pending_ne_nil (h : pass a grants s = .rewrites o) : pending a grants s ≠ [] := by
  obtain ⟨hfind, hskip, hgrant⟩ := pass_eq_rewrites.mp h
  obtain ⟨l, hl⟩ := wanted_of_found hfind hskip
  rw [pending, hl, granted, if_pos hgrant]
  exact List.cons_ne_nil _ _

/-- Where nothing is to be rewritten, nothing is rewritten on the way. -/
theorem pending_of_comes (h : ComesTo (turn a grants) s t) (hs : pending a grants s = []) :
    pending a grants t = [] := by
  refine h.invariant (fun s => pending a grants s = []) (fun s s' hs hturn => ?_) hs
  rcases turn_again_cases hturn with ⟨o, hpass, rfl⟩ | ⟨o, hpass, -, -⟩
  · exact (pending_of_skipped hpass).trans hs
  · exact absurd hs (pending_ne_nil hpass)

/-- The first match to be rewritten is. -/
theorem exists_comes_of_pending (hs : pending a grants s ≠ []) :
    ∃ t o, ComesTo (turn a grants) s t ∧ pass a grants t = .rewrites o := by
  -- on the offsets that are left: up to the first rewrite, passes only skip
  induction hμ : offsets a - s.dataOffset using Nat.strong_induction_on generalizing s with
  | _ μ ih =>
    cases hpass : pass a grants s with
    | notFound => exact absurd (pending_of_notFound hpass) hs
    | skipped o =>
      have hfind := (pass_eq_skipped.mp hpass).1
      rw [← pending_of_skipped hpass] at hs
      obtain ⟨t, p, ht, hp⟩ := ih _ (hμ ▸ found_lt hfind (size_pos_of_found hfind)) hs rfl
      exact ⟨t, p, .of_again (turn_skipped hpass) ht, hp⟩
    | refused o => exact absurd (pending_of_refused hpass) hs
    | rewrites o => exact ⟨s, o, .start, hpass⟩

/-- **What is rewritten on the way** is what should be, where the rewrites do not reach behind the
offset from which the search goes on. -/
theorem comes_rewrites_iff (hforward : Forward a) :
    (∃ t, ComesTo (turn a grants) s t ∧ pass a grants t = .rewrites o) ↔ o ∈ pending a grants s := by
  constructor
  · rintro ⟨t, ht, hpass⟩
    -- a pass may use up a match that is pending, but never adds one
    have hsubset : pending a grants t ⊆ pending a grants s := by
      refine ht.invariant (fun u => pending a grants u ⊆ pending a grants s) (fun u u' hu hturn => ?_)
        (List.Subset.refl _)
      rcases turn_again_cases hturn with ⟨p, hp, rfl⟩ | ⟨p, hp, hcount, rfl⟩
      · rwa [pending_of_skipped hp]
      · rw [pending_of_rewrites hforward hp, if_neg hcount] at hu
        exact fun q hq => hu (List.mem_cons_of_mem p hq)
    apply hsubset
    rw [pending_of_rewrites hforward hpass]
    exact List.mem_cons_self
  · intro ho
    -- the match comes first, or is pending still in the state after the pass
    induction hμ : offsets a - s.dataOffset using Nat.strong_induction_on generalizing s with
    | _ μ ih =>
      cases hpass : pass a grants s with
      | notFound =>
        rw [pending_of_notFound hpass] at ho
        exact absurd ho List.not_mem_nil
      | skipped p =>
        have hfind := (pass_eq_skipped.mp hpass).1
        rw [← pending_of_skipped hpass] at ho
        obtain ⟨t, ht, hp⟩ := ih _ (hμ ▸ found_lt hfind (size_pos_of_found hfind)) ho rfl
        exact ⟨t, .of_again (turn_skipped hpass) ht, hp⟩
      | refused p =>
        rw [pending_of_refused hpass] at ho
        exact absurd ho List.not_mem_nil
      | rewrites p =>
        rw [pending_of_rewrites hforward hpass] at ho
        rcases List.mem_cons.mp ho with rfl | ho
        · exact ⟨s, .start, hpass⟩
        · split_ifs at ho with hcount
          · exact absurd ho List.not_mem_nil
          · have hfind := (pass_eq_rewrites.mp hpass).1
            obtain ⟨t, ht, hp⟩ := ih _ (hμ ▸ found_lt hfind hforward.pos) ho rfl
            exact ⟨t, .of_again (turn_rewrites hpass hcount) ht, hp⟩

/-! ## Bounds -/

/-- What a rewrite at an offset writes and reads is in the buffers. -/
structure RewriteInside (a : Replacement) (o : ℕ) : Prop where
  written : ∀ k, o ≤ k → k < o + writeSize a → k < a.dataSize
  readReplace : ∀ i < writeSize a, i < a.replaceSize
  readMask : a.replaceMask ≠ none → ∀ i < writeSize a, i < a.replaceMaskSize

/-- The matches that are to be rewritten in some data, as far as the permissions go. -/
def rewrites (a : Replacement) (grants : ℕ → Bool) (data : ℕ → UInt8) : List ℕ :=
  granted grants 0 (limited a.count
    (taken (matchesAt a data) a.findSize a.replaceSize (offsets a) 0 0 a.skip))

/-- The sizes suit some matches: each has room for a replacement without a mask, and one with a mask
has as many bytes as the pattern, if there is any match. -/
def SizesFit (a : Replacement) (l : List ℕ) : Prop :=
  match a.replaceMask with
  | none => ∀ o ∈ l, o + a.replaceSize ≤ a.dataSize
  | some _ => l ≠ [] → a.findSize ≤ a.replaceSize ∧ a.findSize ≤ a.replaceMaskSize

/-- Without a mask as much is written as the replacement has. -/
theorem rewriteInside_of_none (hmask : a.replaceMask = none) (hle : o ≤ a.dataSize) :
    RewriteInside a o ↔ o + a.replaceSize ≤ a.dataSize := by
  have hwrite : writeSize a = a.replaceSize := by rw [writeSize, hmask]
  constructor
  · intro h
    -- the first byte behind the data would be written
    by_contra hlt
    have := h.written a.dataSize hle (by omega)
    omega
  · intro h
    exact ⟨fun k _ hk => by omega, fun i hi => hwrite ▸ hi, fun hne => absurd hmask hne⟩

/-- With a mask as much is written as the pattern has, where it was found. -/
theorem rewriteInside_of_some {m : ℕ → UInt8} (hmask : a.replaceMask = some m)
    (hfits : o + a.findSize ≤ a.dataSize) :
    RewriteInside a o ↔ a.findSize ≤ a.replaceSize ∧ a.findSize ≤ a.replaceMaskSize := by
  have hwrite : writeSize a = a.findSize := by rw [writeSize, hmask]
  constructor
  · intro h
    have hbytes := h.readReplace
    have hmaskBytes := h.readMask (by rw [hmask]; exact Option.some_ne_none m)
    rw [hwrite] at hbytes hmaskBytes
    exact ⟨forall_lt_iff_le.mp hbytes, forall_lt_iff_le.mp hmaskBytes⟩
  · rintro ⟨hbytes, hmaskBytes⟩
    refine ⟨fun k _ hk => by omega, ?_, fun _ => ?_⟩
    · rw [hwrite]
      exact forall_lt_iff_le.mpr hbytes
    · rw [hwrite]
      exact forall_lt_iff_le.mpr hmaskBytes

theorem fits_of_rewrites (h : pass a grants s = .rewrites o) : o + a.findSize ≤ a.dataSize := by
  obtain ⟨j, hj, rfl, -⟩ := findPattern_eq_some (pass_eq_rewrites.mp h).1
  exact (fits_of_lt (show s.dataOffset + j < offsets a by omega)).2

theorem rewrites_eq (a : Replacement) (grants : ℕ → Bool) (data : ℕ → UInt8) :
    pending a grants (.start a data) = rewrites a grants data := by
  rw [pending, wanted, rewrites]
  rfl

/-- Nothing is rewritten in data that the pattern does not fit in. -/
theorem rewrites_eq_nil {data : ℕ → UInt8} (h : a.dataSize < a.findSize) :
    rewrites a grants data = [] := by
  rw [rewrites, offsets, if_pos (.inr h), taken_zero, limited_nil]
  rfl

/-- **Bounds**: everything that is written and read on the way is in the buffers if and only if the
sizes suit the matches that are to be rewritten. -/
theorem rewrites_inside_iff (a : Replacement) (grants : ℕ → Bool) (data : ℕ → UInt8) :
    (∀ s o, ¬ a.dataSize < a.findSize → ComesTo (turn a grants) (.start a data) s →
      pass a grants s = .rewrites o → RewriteInside a o) ↔
    SizesFit a (rewrites a grants data) := by
  rw [SizesFit]
  cases hmask : a.replaceMask with
  | some m =>
    -- the sizes matter only if there is any match, whichever it is
    constructor
    · intro h hne
      obtain ⟨t, o, ht, hpass⟩ := exists_comes_of_pending (rewrites_eq a grants data ▸ hne)
      have hinside := h t o (fun hlt => hne (rewrites_eq_nil hlt)) ht hpass
      exact (rewriteInside_of_some hmask (fits_of_rewrites hpass)).mp hinside
    · intro h t o _ ht hpass
      have hne : rewrites a grants data ≠ [] := by
        rw [← rewrites_eq]
        exact fun hnil => pending_ne_nil hpass (pending_of_comes ht hnil)
      exact (rewriteInside_of_some hmask (fits_of_rewrites hpass)).mpr (h hne)
  | none =>
    have hwrite : writeSize a = a.replaceSize := by rw [writeSize, hmask]
    rcases Nat.eq_zero_or_pos a.replaceSize with hzero | hpos
    · -- an empty replacement writes nothing
      refine ⟨fun _ o ho => ?_, fun _ t o _ _ _ => ?_⟩
      · have ho := granted_prefix.subset ho
        have hmem := limited_prefix.subset ho
        have hlt := lt_of_mem_taken hmem
        have hle := @offsets_le a
        omega
      · rw [hzero] at hwrite
        exact ⟨fun k hk hlt => by omega, fun i hi => by omega, fun hne => absurd hmask hne⟩
    · have hforward : Forward a := ⟨hpos, hwrite.le⟩
      constructor
      · intro h o ho
        have hsize : ¬ a.dataSize < a.findSize := fun hlt => by
          rw [rewrites_eq_nil hlt] at ho
          exact List.not_mem_nil ho
        rw [← rewrites_eq] at ho
        obtain ⟨t, ht, hpass⟩ := (comes_rewrites_iff hforward).mpr ho
        have hle : o ≤ a.dataSize := (Nat.le_add_right _ _).trans (fits_of_rewrites hpass)
        exact (rewriteInside_of_none hmask hle).mp (h t o hsize ht hpass)
      · intro h t o _ ht hpass
        have ho := (comes_rewrites_iff hforward).mp ⟨t, ht, hpass⟩
        rw [rewrites_eq] at ho
        have hle : o ≤ a.dataSize := (Nat.le_add_right _ _).trans (fits_of_rewrites hpass)
        exact (rewriteInside_of_none hmask hle).mpr (h o ho)

/-- A byte is replaced by two, wherever it is. -/
def oneByTwo (dataSize : ℕ) (h : dataSize + 2 ≤ 2 ^ 64) : Replacement where
  dataSize := dataSize
  find := fun _ => 1
  findSize := 1
  findMask := none
  replace := fun _ => 2
  replaceSize := 2
  replaceMask := none
  replaceMaskSize := 0
  count := 0
  skip := 0
  fits := h

/-- A match at the last byte is rewritten beyond the end of the data. -/
theorem not_rewrites_inside_last : ¬ ∀ s o,
    ComesTo (turn (oneByTwo 2 (by decide)) fun _ => true)
      (.start (oneByTwo 2 (by decide)) fun k => if k = 1 then 1 else 0) s →
    pass (oneByTwo 2 (by decide)) (fun _ => true) s = .rewrites o →
    RewriteInside (oneByTwo 2 (by decide)) o := by
  intro h
  have hinside := h _ 1 .start rfl
  exact absurd (hinside.written 2 (by decide) (by decide)) (lt_irrefl 2)

/-! ## When a call ends -/

/-- The bits of the data that are compared with a byte of the pattern. -/
def findBits (a : Replacement) (i : ℕ) : UInt8 :=
  match a.findMask with
  | none => 0xFF
  | some m => m i

/-- A match that is rewritten is one again: an empty replacement without a mask does not change it,
and one with a mask has the bytes of the pattern where it has any. -/
def StillMatches (a : Replacement) : Prop :=
  match a.replaceMask with
  | none => True
  | some m => ∀ i < a.findSize, a.replace i &&& m i &&& findBits a i = a.find i &&& m i

/-- A call that rewrites the same match again and again. -/
structure Endless (a : Replacement) (grants : ℕ → Bool) (data : ℕ → UInt8) : Prop where
  unlimited : a.count = 0
  stays : a.replaceSize = 0
  again : StillMatches a
  granted : ∀ i, grants i = true
  found : a.skip < (taken (matchesAt a data) a.findSize a.findSize (offsets a) 0 0 0).length

theorem matchesAt_iff {data : ℕ → UInt8} : matchesAt a data o = true ↔
    ∀ i < a.findSize, data (o + i) &&& findBits a i = a.find i := by
  rw [matchesAt, List.all_eq_true]
  simp only [List.mem_range, findBits]
  cases a.findMask with
  | none =>
    refine forall₂_congr fun i _ => ?_
    rw [beq_iff_eq, show data (o + i) &&& 0xFF = data (o + i) from UInt8.and_neg_one]
  | some m => exact forall₂_congr fun i _ => beq_iff_eq

/-- A byte that is rewritten matches again if and only if the replacement does under its mask. -/
theorem maskByte_and_iff {d m r b : UInt8} :
    maskByte d m r &&& b = d &&& b ↔ r &&& m &&& b = d &&& b &&& m := by
  rw [maskByte, ← UInt8.toBitVec_inj, ← UInt8.toBitVec_inj, BitVec.eq_of_getElem_eq_iff,
    BitVec.eq_of_getElem_eq_iff]
  refine forall₂_congr fun i hi => ?_
  simp only [UInt8.toBitVec_and, UInt8.toBitVec_or, UInt8.toBitVec_not, BitVec.getElem_and,
    BitVec.getElem_or, BitVec.getElem_not]
  -- one bit of each of the four bytes
  cases d.toBitVec[i] <;> cases m.toBitVec[i] <;> cases r.toBitVec[i] <;> cases b.toBitVec[i] <;> simp

/-- **A match that is rewritten** by an empty replacement is one again if and only if it always
is. -/
theorem matchesAt_rewriteAt_iff {data : ℕ → UInt8} (hzero : a.replaceSize = 0)
    (h : matchesAt a data o = true) : matchesAt a (rewriteAt a data o) o = true ↔ StillMatches a := by
  cases hmask : a.replaceMask with
  | none =>
    -- `memcpy` of nothing leaves the data as it is
    have hwrite : writeSize a = 0 := by rw [writeSize, hmask, hzero]
    have hsame : matchesAt a (rewriteAt a data o) o = matchesAt a data o :=
      matchesAt_congr fun k hk => rewriteAt_of_le (by omega)
    rw [hsame, StillMatches, hmask]
    exact iff_of_true h trivial
  | some m =>
    have hwrite : writeSize a = a.findSize := by rw [writeSize, hmask]
    rw [matchesAt_iff, StillMatches, hmask]
    refine forall₂_congr fun i hi => ?_
    -- the mask decides byte by byte which bits of the match stay
    have hbyte : rewriteAt a data o (o + i) = maskByte (data (o + i)) (m i) (a.replace i) := by
      rw [rewriteAt, if_pos (by omega), Nat.add_sub_cancel_left, newByte, hmask]
    rw [hbyte, ← matchesAt_iff.mp h i hi, maskByte_and_iff]

/-- A loop ends if a measure gets smaller with each match that is skipped or rewritten. -/
theorem exists_loop (Inv : FindReplace → Prop) (μ : FindReplace → ℕ)
    (hskipped : ∀ s o, Inv s → pass a grants s = .skipped o →
      let s' := { s with skip := s.skip - 1, dataOffset := o + a.findSize }
      Inv s' ∧ μ s' < μ s)
    (hrewrites : ∀ s o, Inv s → pass a grants s = .rewrites o → s.count ≠ 1 →
      Inv (rewritten a s o) ∧ μ (rewritten a s o) < μ s) (hs : Inv s) :
    ∃ n r, loop (turn a grants) n s = some r := by
  -- a pass that leaves the loop needs no measure
  have hagain : ∀ s s', Inv s → turn a grants s = .again s' → Inv s' ∧ μ s' < μ s := by
    intro s s' hs hturn
    rcases turn_again_cases hturn with ⟨o, hpass, rfl⟩ | ⟨o, hpass, hcount, rfl⟩
    · exact hskipped s o hs hpass
    · exact hrewrites s o hs hpass hcount
  obtain ⟨r, hr, -⟩ := loop_spec (turn a grants) Inv (fun _ => True) μ hagain
    (fun _ _ _ _ => trivial) hs (Nat.lt_succ_self (μ s))
  exact ⟨_, r, hr⟩

/-- The offset moves on with each match, if the replacement is not empty. -/
theorem ends_of_pos (hpos : 0 < a.replaceSize) : ∃ n r, loop (turn a grants) n s = some r := by
  refine exists_loop (fun _ => True) (fun s => offsets a - s.dataOffset)
    (fun s o _ hpass => ?_) (fun s o _ hpass _ => ?_) trivial
  · have hfind := (pass_eq_skipped.mp hpass).1
    exact ⟨trivial, found_lt hfind (size_pos_of_found hfind)⟩
  · exact ⟨trivial, found_lt (pass_eq_rewrites.mp hpass).1 hpos⟩

/-- A count is used up. -/
theorem ends_of_count (hcount : 0 < s.count) : ∃ n r, loop (turn a grants) n s = some r := by
  refine exists_loop (fun s => 0 < s.count) (fun s => s.skip + s.count)
    (fun s o hs hpass => ?_) (fun s o hs _ hne => ?_) hcount
  · have hskip := (pass_eq_skipped.mp hpass).2
    refine ⟨hs, ?_⟩
    dsimp only
    omega
  · dsimp only [rewritten]
    omega

/-- A permission that is refused ends the call. -/
theorem ends_of_refused {i : ℕ} (hi : grants i = false) (hs : s.asked ≤ i) :
    ∃ n r, loop (turn a grants) n s = some r := by
  refine exists_loop (fun s => s.asked ≤ i) (fun s => s.skip + (i - s.asked))
    (fun s o hs hpass => ?_) (fun s o hs hpass _ => ?_) hs
  · have hskip := (pass_eq_skipped.mp hpass).2
    refine ⟨hs, ?_⟩
    dsimp only
    omega
  · have hgrant := (pass_eq_rewrites.mp hpass).2.2
    have hne : s.asked ≠ i := fun heq => Bool.false_ne_true (hi.symm.trans (heq ▸ hgrant))
    dsimp only [rewritten]
    omega

/-- The offset moves on after two passes, if a match that is rewritten is none any more. -/
theorem ends_of_not_stillMatches (hzero : a.replaceSize = 0) (hstill : ¬ StillMatches a) :
    ∃ n r, loop (turn a grants) n s = some r := by
  refine exists_loop (fun _ => True)
    (fun s => 2 * (offsets a - s.dataOffset) + (matchesAt a s.data s.dataOffset).toNat)
    (fun s o _ hpass => ?_) (fun s o _ hpass _ => ?_) trivial
  · have hfind := (pass_eq_skipped.mp hpass).1
    have hlt := found_lt hfind (size_pos_of_found hfind)
    -- whether there is a match at the new offset counts for one, the way to it for two at least
    have hle := (matchesAt a s.data (o + a.findSize)).toNat_le
    refine ⟨trivial, ?_⟩
    dsimp only
    omega
  · obtain ⟨j, hj, rfl, -, hat⟩ := findPattern_eq_some (pass_eq_rewrites.mp hpass).1
    have hnot : matchesAt a (rewriteAt a s.data (s.dataOffset + j)) (s.dataOffset + j) = false :=
      Bool.eq_false_iff.mpr fun hagain => hstill ((matchesAt_rewriteAt_iff hzero hat).mp hagain)
    refine ⟨trivial, ?_⟩
    dsimp only [rewritten]
    rw [hzero, Nat.add_zero, hnot]
    rcases Nat.eq_zero_or_pos j with rfl | hj'
    · -- the match was where the search began
      rw [Nat.add_zero] at hat ⊢
      rw [hat]
      exact Nat.lt_succ_self _
    · rw [Bool.toNat_false]
      omega

/-- There may be no match but those that are skipped. -/
theorem ends_of_wanted_nil (hs : wanted a s = []) : ∃ n r, loop (turn a grants) n s = some r := by
  refine exists_loop (fun s => wanted a s = []) (fun s => s.skip)
    (fun s o hs hpass => ?_) (fun s o hs hpass _ => ?_) hs
  · have hskip := (pass_eq_skipped.mp hpass).2
    exact ⟨(wanted_of_skipped hpass).trans hs, Nat.sub_lt hskip one_pos⟩
  · obtain ⟨hfind, hskip, -⟩ := pass_eq_rewrites.mp hpass
    obtain ⟨l, hl⟩ := wanted_of_found hfind hskip
    rw [hs] at hl
    cases hl

/-- Without a count, something is to be rewritten if there are more matches than are skipped. -/
theorem wanted_start_eq_nil_iff {data : ℕ → UInt8} (hcount : a.count = 0) :
    wanted a (.start a data) = [] ↔
      (taken (matchesAt a data) a.findSize a.findSize (offsets a) 0 0 0).length ≤ a.skip := by
  rw [wanted, limited, if_pos (show (FindReplace.start a data).count = 0 from hcount)]
  exact taken_nil_iff

/-- After an empty replacement that is a match, there is something to be rewritten again. -/
theorem wanted_rewritten_ne_nil (hzero : a.replaceSize = 0) (hstill : StillMatches a)
    (h : pass a grants s = .rewrites o) : wanted a (rewritten a s o) ≠ [] := by
  obtain ⟨hfind, hskip, -⟩ := pass_eq_rewrites.mp h
  obtain ⟨j, hj, rfl, -, hat⟩ := findPattern_eq_some hfind
  have hagain := (matchesAt_rewriteAt_iff hzero hat).mpr hstill
  have hoffset : (rewritten a s (s.dataOffset + j)).dataOffset = s.dataOffset + j := by
    rw [rewritten, hzero, Nat.add_zero]
  -- the search begins at the match
  have hsome : findPattern a (rewritten a s (s.dataOffset + j)).data
      (rewritten a s (s.dataOffset + j)).dataOffset ≠ none := by
    intro hnone
    rw [hoffset] at hnone
    have hnot := findPattern_eq_none hnone 0 (by omega)
    exact Bool.false_ne_true (hnot.symm.trans hagain)
  obtain ⟨p, hp⟩ := Option.ne_none_iff_exists'.mp hsome
  obtain ⟨l, hl⟩ := wanted_of_found hp hskip
  rw [hl]
  exact List.cons_ne_nil _ _

/-- **A call that does not end** comes to the same match again after each rewrite. -/
theorem loop_of_endless {data : ℕ → UInt8} (h : Endless a grants data) (n : ℕ) :
    loop (turn a grants) n (.start a data) = none := by
  refine loop_never (fun s => s.count = 0 ∧ wanted a s ≠ []) (fun s ⟨hcount, hwanted⟩ => ?_)
    ⟨h.unlimited, ?_⟩
  · cases hpass : pass a grants s with
    | notFound => exact absurd (wanted_of_notFound hpass) hwanted
    | skipped o => exact ⟨_, turn_skipped hpass, hcount, wanted_of_skipped hpass ▸ hwanted⟩
    | refused o =>
      have hrefused := (pass_eq_refused.mp hpass).2.2
      exact absurd (h.granted s.asked) (Bool.eq_false_iff.mp hrefused)
    | rewrites o =>
      refine ⟨_, turn_rewrites hpass (by omega), ?_, wanted_rewritten_ne_nil h.stays h.again hpass⟩
      show s.count - 1 = 0
      omega
  · rw [Ne, wanted_start_eq_nil_iff h.unlimited]
    exact not_le.mpr h.found

/-- **Ends**: a call ends if and only if it does not rewrite the same match again and again. -/
theorem findAndReplaceWithMask_ends_iff (a : Replacement) (grants : ℕ → Bool) (data : ℕ → UInt8) :
    (∃ fuel r, findAndReplaceWithMask a grants fuel data = some r) ↔ ¬ Endless a grants data := by
  -- a call that is turned away at once ends, and has no offset at which it could stay
  by_cases hsize : a.dataSize < a.findSize
  · refine iff_of_true ⟨0, _, if_pos hsize⟩ fun h => ?_
    have hfound := h.found
    rw [offsets, if_pos (.inr hsize), taken_zero] at hfound
    exact absurd hfound (Nat.not_lt_zero _)
  have hcall : ∀ fuel, findAndReplaceWithMask a grants fuel data =
      loop (turn a grants) fuel (.start a data) := fun fuel => if_neg hsize
  simp only [hcall]
  constructor
  · rintro ⟨n, r, hr⟩ h
    rw [loop_of_endless h] at hr
    cases hr
  · intro h
    -- one of the conditions does not hold, and there is a measure for each
    rcases Nat.eq_zero_or_pos a.replaceSize with hzero | hpos
    swap
    · exact ends_of_pos hpos
    rcases Nat.eq_zero_or_pos a.count with hcount | hcount
    swap
    · exact ends_of_count hcount
    by_cases hgrants : ∀ i, grants i = true
    swap
    · obtain ⟨i, hi⟩ := not_forall.mp hgrants
      exact ends_of_refused (Bool.eq_false_iff.mpr hi) (Nat.zero_le i)
    by_cases hstill : StillMatches a
    swap
    · exact ends_of_not_stillMatches hzero hstill
    · refine ends_of_wanted_nil ((wanted_start_eq_nil_iff hcount).mpr (not_lt.mp fun hfound => ?_))
      exact h ⟨hcount, hzero, hstill, hgrants, hfound⟩

/-- A match is replaced by nothing. -/
def oneByNothing (dataSize : ℕ) (h : dataSize + 0 ≤ 2 ^ 64) : Replacement where
  dataSize := dataSize
  find := fun _ => 1
  findSize := 1
  findMask := none
  replace := fun _ => 0
  replaceSize := 0
  replaceMask := none
  replaceMaskSize := 0
  count := 0
  skip := 0
  fits := h

/-- A single byte that matches is replaced by nothing without end. -/
theorem not_findAndReplaceWithMask_ends_one : ¬ ∃ fuel r, findAndReplaceWithMask
    (oneByNothing 1 (by decide)) (fun _ => true) fuel (fun _ => 1) = some r := by
  rintro ⟨fuel, r, hr⟩
  have hendless : Endless (oneByNothing 1 (by decide)) (fun _ => true) (fun _ => 1) :=
    ⟨rfl, rfl, trivial, fun _ => rfl, by decide⟩
  rw [findAndReplaceWithMask, if_neg (by decide), loop_of_endless hendless] at hr
  cases hr

end Lilu.Patcher
