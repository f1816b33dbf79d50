import Lilu.User.PagePatch

/-!
# The words of all entries

The first of the four words is searched for one that is different in all entries. If none is, its
offset stays zero and its values are those of the page's last word. If only the page's last word is,
the other words are looked for behind it, outside the page.

## Main definitions

* `Lookup.Faithful`: four words inside the page, with the values that the entries have there

## Main results

* `faithful_iff`: when the words that are chosen are such
-/

namespace Lilu.UserPatcher

variable {storage : List LookupStorage}

/-- **The four words** that `performPagePatch` compares: each inside the page, with the value that
every entry has there. -/
structure Lookup.Faithful (lookup : Lookup) (storage : List LookupStorage) : Prop where
  number : lookup.rest.length + 1 = matchNum
  inside : ∀ m ∈ lookup.first :: lookup.rest, m.off + 8 ≤ PAGE_SIZE
  values : ∀ m ∈ lookup.first :: lookup.rest, m.values = wordsAt storage m.off

/-- The words after the first are read inside the page, or not at all. -/
theorem of_nextMatches {off₀ n : ℕ} : ∀ {off : ℕ} {rest : List LookupMatch},
    nextMatches storage off₀ n off = some rest → rest.length = n ∧
      ∀ m ∈ rest, m.off + 8 ≤ PAGE_SIZE ∧ m.values = wordsAt storage m.off := by
  induction n with
  | zero =>
    intro off rest h
    obtain rfl := Option.some.inj h
    exact ⟨rfl, nofun⟩
  | succ n ih =>
    intro off rest h
    rw [nextMatches] at h
    set off₁ := if off = PAGE_SIZE then 0 else off
    set off₂ := if off₁ = off₀ then off₁ + 8 else off₁
    obtain ⟨values, hvalues, h⟩ := Option.bind_eq_some_iff.mp h
    obtain ⟨behind, hbehind, rfl⟩ := Option.map_eq_some_iff.mp h
    have hin : off₂ + 8 ≤ PAGE_SIZE := by
      by_contra hout
      rw [obtainValues, if_neg hout] at hvalues
      cases hvalues
    rw [obtainValues_eq hin (Nat.zero_le _)] at hvalues
    obtain rfl := Option.some.inj hvalues
    obtain ⟨hlen, hrest⟩ := ih hbehind
    refine ⟨congrArg (· + 1) hlen, fun m hm => ?_⟩
    rcases List.mem_cons.mp hm with rfl | hm
    · exact ⟨hin, rfl⟩
    · exact hrest m hm

/-- A first word inside the page, with its values, is followed by three others. -/
theorem faithful_of_nextMatches {first : LookupMatch} {rest : List LookupMatch} {off : ℕ}
    (hrest : nextMatches storage first.off (matchNum - 1) off = some rest)
    (hin : first.off + 8 ≤ PAGE_SIZE) (hvalues : first.values = wordsAt storage first.off) :
    Lookup.Faithful ⟨first, rest⟩ storage := by
  obtain ⟨hlen, hothers⟩ := of_nextMatches hrest
  refine ⟨by rw [hlen, matchNum], fun m hm => ?_, fun m hm => ?_⟩
  · rcases List.mem_cons.mp hm with rfl | hm
    · exact hin
    · exact (hothers m hm).1
  · rcases List.mem_cons.mp hm with rfl | hm
    · exact hvalues
    · exact (hothers m hm).2

/-- **The choice of the words**: they are those of the entries, inside the page, if and only if a
word before the page's last one is different in all entries, or none is and all entries have the
same first word as last word. -/
theorem faithful_iff (storage : List LookupStorage) :
    (∃ lookup, loadLookups storage = some lookup ∧ lookup.Faithful storage) ↔
      Separated storage ∨
        (∀ off < PAGE_SIZE, 8 ∣ off → ¬ (wordsAt storage off).Nodup) ∧
          wordsAt storage 0 = wordsAt storage (PAGE_SIZE - 8) := by
  obtain ⟨s, hs, hfound⟩ := findOff_found storage 0 [] (Nat.zero_le _) (Nat.dvd_zero 8) rfl nofun
  have hload : loadLookups storage =
      (nextMatches storage s.2.off (matchNum - 1) s.1).map fun rest => ⟨s.2, rest⟩ := by
    rw [loadLookups, hs, Option.bind_some]
  cases hfound with
  | distinct off hlt hdvd hnodup hfirst =>
    by_cases hlast : off + 8 < PAGE_SIZE
    · refine iff_of_true ?_ (.inl ⟨off, hdvd, hlast, hnodup⟩)
      obtain ⟨rest, hrest, -⟩ := nextMatches_eq storage hlast hdvd (matchNum - 1) off hlt.le hdvd
      rw [hload, hrest]
      exact ⟨_, rfl, faithful_of_nextMatches hrest hlast.le rfl⟩
    · -- the next word would be outside the page
      obtain rfl : off = PAGE_SIZE - 8 := by
        simp only [PAGE_SIZE] at hlt hlast ⊢
        omega
      refine iff_of_false ?_ ?_
      · rintro ⟨lookup, h, -⟩
        rw [hload] at h
        simp [nextMatches_last, matchNum] at h
      · rintro (⟨o, hodvd, hoin, honodup⟩ | ⟨hnone, -⟩)
        · exact hfirst o (by omega) hodvd honodup
        · exact hnone _ hlt hdvd hnodup
  | same hnone =>
    have hsep : ¬ Separated storage := by
      rintro ⟨o, hodvd, hoin, honodup⟩
      exact hnone o (by omega) hodvd honodup
    rw [or_iff_right hsep, and_iff_right hnone]
    have hzero : 0 + 8 < PAGE_SIZE := by simp [PAGE_SIZE]
    obtain ⟨rest, hrest, -⟩ := nextMatches_eq storage hzero (Nat.dvd_zero 8) (matchNum - 1)
      PAGE_SIZE le_rfl (by simp [PAGE_SIZE])
    constructor
    · rintro ⟨lookup, h, hfaithful⟩
      rw [hload, hrest] at h
      obtain rfl := Option.some.inj h
      exact (hfaithful.values _ List.mem_cons_self).symm
    · intro heq
      rw [hload, hrest]
      exact ⟨_, rfl, faithful_of_nextMatches hrest hzero.le heq.symm⟩

/-- **The defect**: two entries have the same page, with a first word of one and a last word of
zero. The zeros are kept for the first word. -/
theorem not_faithful_twins : ∃ a b : LookupStorage,
    loadFilesForPatching (fun _ => {}) [twinMod] (fun _ => some twinFile) 10 = some [a, b] ∧
      ¬ ∃ lookup, loadLookups [a, b] = some lookup ∧ lookup.Faithful [a, b] := by
  obtain ⟨a, b, hrun, -, hapage, hbpage, -⟩ := exists_twinEntries
  refine ⟨a, b, hrun, ?_⟩
  rintro ⟨lookup, hload, hfaithful⟩
  have hsame : ∀ off, wordsAt [a, b] off =
      [word (twinFile.bytes 0x10000 PAGE_SIZE) off, word (twinFile.bytes 0x10000 PAGE_SIZE) off] :=
    fun off => by simp [wordsAt, hapage, hbpage]
  rcases loadLookups_cases [a, b] with ⟨⟨off, -, -, hnodup⟩, -⟩ | ⟨-, hcases⟩
  · rw [hsame] at hnodup
    simp at hnodup
  · have hvalues := hfaithful.values _ List.mem_cons_self
    rw [(hcases lookup hload).1] at hvalues
    dsimp only at hvalues
    rw [hsame, hsame, twinPage_words.2.1, twinPage_words.2.2] at hvalues
    cases hvalues

end Lilu.UserPatcher
