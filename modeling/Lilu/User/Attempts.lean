import Lilu.User.Places

/-!
# Attempts at recording a place

Recording a place needs memory: for an entry if the page has none, and for a reference if the entry
has none of the patch. Without it the place is not left, and the next turn is another attempt at the
same place. The search therefore ends if and only if the memory that a place needs is granted in
some turn after it was come to.

## Main definitions

* `Tries`: the turns in which a run is to record a place, and the entries that there are then
* `Served`: the memory that a place needs is granted in some later turn

## Main results

* `record_false`: what a refusal leaves is served when it was before
* `loadFilesForPatching_terminates_iff`: the run ends if and only if all places are served
* `terminates_always_iff`: it does whatever memory is granted if and only if there is no place
-/

namespace Lilu.UserPatcher

open Lilu.Kext (CString)

/-! ## The memory that a place needs -/

/-- A new entry is granted. -/
def Grant.entry (g : Grant) : Bool :=
  g.create && g.alloc && g.push

/-- A new reference is granted. -/
def Grant.ref (g : Grant) : Bool :=
  g.createRef && g.pushRef

/-- The entry has a reference of the place's patch. -/
def LookupStorage.HasRef (e : LookupStorage) (x : Finding) : Prop :=
  ∃ r ∈ e.refs, r.i = x.patch

/-- No memory at all is granted. -/
def refused : Grant :=
  ⟨false, false, false, false, false, false, false⟩

section Served

variable (grant : ℕ → Grant)

/-- What a place needs is granted from the turn `n` to the turn `last`: a reference, and before it
an entry if there is none. -/
def ServedBy (last n : ℕ) (x : Finding) (storage : List LookupStorage) : Prop :=
  match storage.find? (·.pageOff == x.pageOff) with
  | some e => e.HasRef x ∨ ∃ k, n ≤ k ∧ k ≤ last ∧ (grant k).ref = true
  | none => ∃ k l, n ≤ k ∧ k ≤ l ∧ l ≤ last ∧ (grant k).entry = true ∧ (grant l).ref = true

/-- **What a place needs** is granted in some turn from `n` on. -/
def Served (n : ℕ) (x : Finding) (storage : List LookupStorage) : Prop :=
  ∃ last, ServedBy grant last n x storage

end Served

variable {g : Grant} {x : Finding} {e : LookupStorage} {storage storage' : List LookupStorage}
  {mod : BinaryModInfo} {file : File}

theorem addRef_eq_none : e.addRef g x = none ↔ ¬ e.HasRef x ∧ g.ref = false := by
  cases hfind : e.refs.findIdx? (·.i == x.patch) with
  | some k =>
    obtain ⟨hk, hi, -⟩ := List.findIdx?_eq_some_iff_getElem.mp hfind
    have hhas : e.HasRef x := ⟨e.refs[k], List.getElem_mem hk, beq_iff_eq.mp hi⟩
    simp [LookupStorage.addRef, hfind, hhas]
  | none =>
    have hnot : ¬ e.HasRef x := by
      rintro ⟨r, hr, hi⟩
      exact absurd (List.findIdx?_eq_none_iff.mp hfind r hr) (by simp [hi])
    simp only [LookupStorage.addRef, hfind, hnot, not_false_eq_true, true_and]
    rw [← Bool.not_eq_true, Grant.ref]
    split_ifs with hgrant
    · simp [hgrant]
    · simpa using hgrant

/-- A refusal where the page has an entry: no reference is granted. -/
theorem record_of_find (g : Grant) (mod : BinaryModInfo) (file : File)
    (h : storage.find? (·.pageOff == x.pageOff) = some e) :
    (record g mod file x storage).2 = false ∧ (record g mod file x storage).1 = storage ∧
        ¬ e.HasRef x ∧ g.ref = false ∨
      (record g mod file x storage).2 = true ∧ (e.HasRef x ∨ g.ref = true) := by
  obtain ⟨k, hk⟩ : ∃ k, storage.findIdx? (·.pageOff == x.pageOff) = some k := by
    refine Option.isSome_iff_exists.mp ?_
    rw [List.findIdx?_isSome, List.any_eq_true]
    exact ⟨e, List.mem_of_find?_eq_some h, by simpa using List.find?_some h⟩
  have hget : storage[k]? = some e := by
    rw [← h, List.find?_eq_bind_findIdx?_getElem?, hk, Option.bind_some]
  cases hadd : e.addRef g x with
  | none =>
    rw [record, hk]
    dsimp only
    rw [hget, Option.bind_some, hadd]
    exact .inl ⟨rfl, rfl, addRef_eq_none.mp hadd⟩
  | some e' =>
    rw [record, hk]
    dsimp only
    rw [hget, Option.bind_some, hadd]
    refine .inr ⟨rfl, ?_⟩
    by_contra hnot
    rw [not_or, Bool.not_eq_true] at hnot
    rw [addRef_eq_none.mpr hnot] at hadd
    cases hadd

/-- A refusal where the page has no entry: none is granted, or it stays without a reference. -/
theorem record_of_find_none (g : Grant) (mod : BinaryModInfo) (file : File)
    (h : storage.find? (·.pageOff == x.pageOff) = none) :
    record g mod file x storage = (storage, false) ∧ g.entry = false ∨
      record g mod file x storage = (storage ++ [.fresh mod file x], false) ∧
        g.entry = true ∧ g.ref = false ∨
      (record g mod file x storage).2 = true ∧ g.entry = true ∧ g.ref = true := by
  have hidx : storage.findIdx? (·.pageOff == x.pageOff) = none := by
    rw [List.findIdx?_eq_none_iff]
    intro d hd
    simpa using List.find?_eq_none.mp h d hd
  have hrefs : ¬ (LookupStorage.fresh mod file x).HasRef x := by
    rintro ⟨r, hr, -⟩
    exact List.not_mem_nil hr
  by_cases hentry : g.entry = true
  · have hrun : record g mod file x storage =
        match (LookupStorage.fresh mod file x).addRef g x with
        | some e => (storage ++ [e], true)
        | none => (storage ++ [.fresh mod file x], false) := by
      rw [record, hidx]
      exact if_pos hentry
    cases hadd : (LookupStorage.fresh mod file x).addRef g x with
    | none =>
      rw [hadd] at hrun
      exact .inr (.inl ⟨hrun, hentry, (addRef_eq_none.mp hadd).2⟩)
    | some e' =>
      rw [hadd] at hrun
      refine .inr (.inr ⟨by rw [hrun], hentry, ?_⟩)
      by_contra href
      rw [addRef_eq_none.mpr ⟨hrefs, by simpa using href⟩] at hadd
      cases hadd
  · refine .inl ⟨?_, by simpa using hentry⟩
    rw [record, hidx]
    exact if_neg hentry

/-- The entry of a place that has just been made. -/
theorem find?_append_fresh (h : storage.find? (·.pageOff == x.pageOff) = none) :
    (storage ++ [LookupStorage.fresh mod file x]).find? (·.pageOff == x.pageOff) =
      some (.fresh mod file x) := by
  rw [List.find?_append, h, Option.none_or, List.find?_cons]
  simp [LookupStorage.fresh]

section Attempt

variable {grant : ℕ → Grant} {last n : ℕ}

theorem servedBy_of_find (h : storage.find? (·.pageOff == x.pageOff) = some e) :
    ServedBy grant last n x storage ↔
      e.HasRef x ∨ ∃ k, n ≤ k ∧ k ≤ last ∧ (grant k).ref = true := by
  rw [ServedBy, h]

theorem servedBy_of_find_none (h : storage.find? (·.pageOff == x.pageOff) = none) :
    ServedBy grant last n x storage ↔ ∃ k l, n ≤ k ∧ k ≤ l ∧ l ≤ last ∧
      (grant k).entry = true ∧ (grant l).ref = true := by
  rw [ServedBy, h]

/-- A turn that is not granted is none of those that something is granted in. -/
theorem exists_le_succ_iff {q : ℕ → Prop} (h : ¬ q n) :
    (∃ k, n ≤ k ∧ q k) ↔ ∃ k, n + 1 ≤ k ∧ q k := by
  constructor
  · rintro ⟨k, hk, hq⟩
    have hne : n ≠ k := fun heq => h (heq ▸ hq)
    exact ⟨k, Nat.lt_of_le_of_ne hk hne, hq⟩
  · rintro ⟨k, hk, hq⟩
    exact ⟨k, Nat.le_of_succ_le hk, hq⟩

/-- **A refusal** leaves a place that is served by some turn if it was before. -/
theorem servedBy_record_false (h : record (grant n) mod file x storage = (storage', false)) :
    ServedBy grant last n x storage ↔ ServedBy grant last (n + 1) x storage' := by
  cases hfind : storage.find? (·.pageOff == x.pageOff) with
  | some e =>
    rcases record_of_find (grant n) mod file hfind with
      ⟨-, hsame, hnot, href⟩ | ⟨htrue, -⟩
    · rw [h] at hsame
      obtain rfl : storage' = storage := hsame
      rw [servedBy_of_find hfind, servedBy_of_find hfind]
      exact or_congr_right (exists_le_succ_iff fun hq => by simp [href] at hq)
    · rw [h] at htrue
      cases htrue
  | none =>
    rcases record_of_find_none (grant n) mod file hfind with
      ⟨hrun, hentry⟩ | ⟨hrun, hentry, href⟩ | ⟨htrue, -⟩
    · rw [h] at hrun
      obtain rfl : storage' = storage := congrArg Prod.fst hrun
      rw [servedBy_of_find_none hfind, servedBy_of_find_none hfind]
      simp only [exists_and_left]
      exact exists_le_succ_iff fun ⟨l, _, _, hgrant, _⟩ => by simp [hentry] at hgrant
    · -- the entry is made, and only a reference is needed from now on
      rw [h] at hrun
      obtain rfl : storage' = storage ++ [.fresh mod file x] := congrArg Prod.fst hrun
      have hrefs : ¬ (LookupStorage.fresh mod file x).HasRef x := fun ⟨r, hr, _⟩ =>
        List.not_mem_nil hr
      rw [servedBy_of_find_none hfind, servedBy_of_find (find?_append_fresh hfind),
        or_iff_right hrefs, ← exists_le_succ_iff fun hq => by simp [href] at hq]
      constructor
      · rintro ⟨k, l, hk, hkl, hlast, -, hgrant⟩
        exact ⟨l, hk.trans hkl, hlast, hgrant⟩
      · rintro ⟨l, hl, hlast, hgrant⟩
        exact ⟨n, l, le_rfl, hl, hlast, hentry, hgrant⟩
    · rw [h] at htrue
      cases htrue

/-- A place that is refused is not served by an earlier turn. -/
theorem le_of_servedBy (h : record (grant n) mod file x storage = (storage', false))
    (hs : ServedBy grant last n x storage) : n ≤ last := by
  cases hfind : storage.find? (·.pageOff == x.pageOff) with
  | some e =>
    rcases record_of_find (grant n) mod file hfind with
      ⟨-, -, hnot, -⟩ | ⟨htrue, -⟩
    · rw [servedBy_of_find hfind, or_iff_right hnot] at hs
      obtain ⟨k, hk, hlast, -⟩ := hs
      exact hk.trans hlast
    · rw [h] at htrue
      cases htrue
  | none =>
    rw [servedBy_of_find_none hfind] at hs
    obtain ⟨k, l, hk, hkl, hlast, -⟩ := hs
    exact hk.trans (hkl.trans hlast)

/-- A place that is recorded was served in this turn. -/
theorem servedBy_record_true (h : (record (grant n) mod file x storage).2 = true) :
    ServedBy grant n n x storage := by
  cases hfind : storage.find? (·.pageOff == x.pageOff) with
  | some e =>
    rcases record_of_find (grant n) mod file hfind with
      ⟨hfalse, -⟩ | ⟨-, hgrant⟩
    · rw [h] at hfalse
      cases hfalse
    · rw [servedBy_of_find hfind]
      exact hgrant.imp_right fun href => ⟨n, le_rfl, le_rfl, href⟩
  | none =>
    rw [servedBy_of_find_none hfind]
    rcases record_of_find_none (grant n) mod file hfind with
      ⟨hrun, -⟩ | ⟨hrun, -⟩ | ⟨-, hentry, href⟩
    · rw [hrun] at h
      cases h
    · rw [hrun] at h
      cases h
    · exact ⟨n, n, le_rfl, le_rfl, le_rfl, hentry, href⟩

end Attempt

/-! ## The search in a section -/

section Scan

variable (grant : ℕ → Grant) (file : File) (i p : ℕ) (mod : BinaryModInfo) (patch : BinaryModPatch)
  (bounds : SectionBounds)

/-- The search is at a match that it is to record. -/
def Scan.Uses (s : Scan) : Prop :=
  (s.sectOff + patch.size < bounds.size ∧ s.count ≠ 0) ∧
    Finding.applies file patch ⟨i, p, bounds, s.sectOff⟩ = true ∧ s.skip = 0

variable {grant file i p mod patch bounds}

theorem scanTurn_uses (grant : ℕ → Grant) (mod : BinaryModInfo) {s : Scan}
    (h : s.Uses file i p patch bounds) :
    scanTurn grant file i p mod patch bounds s =
      match record (grant (s.turns + 1)) mod file ⟨i, p, bounds, s.sectOff⟩ s.storage with
      | (storage, true) => .again { s with
          turns := s.turns + 1, sectOff := s.sectOff + 1, count := s.count - 1, storage }
      | (storage, false) => .again { s with turns := s.turns + 1, storage } := by
  obtain ⟨hin, happlies, hskip⟩ := h
  rw [Finding.applies, decide_eq_true_iff] at happlies
  rw [scanTurn, if_pos hin]
  dsimp only
  refine (if_pos happlies).trans ((if_pos hskip).trans ?_)
  rcases record (grant (s.turns + 1)) mod file ⟨i, p, bounds, s.sectOff⟩ s.storage with
    ⟨storage, _ | _⟩ <;> rfl

/-- A place where the search ends is served. -/
theorem served_of_loop {fuel : ℕ} : ∀ {s : Scan}, s.Uses file i p patch bounds →
    (∃ b, loop (scanTurn grant file i p mod patch bounds) fuel s = some b) →
    Served grant (s.turns + 1) ⟨i, p, bounds, s.sectOff⟩ s.storage := by
  induction fuel with
  | zero =>
    rintro s - ⟨b, hb⟩
    cases hb
  | succ fuel ih =>
    rintro s huse ⟨b, hb⟩
    have hturn := scanTurn_uses grant mod huse
    rcases hrecord : record (grant (s.turns + 1)) mod file ⟨i, p, bounds, s.sectOff⟩ s.storage with
      ⟨storage, _ | _⟩ <;> rw [hrecord] at hturn
    · rw [loop_succ_again hturn] at hb
      obtain ⟨last, hlast⟩ := ih (s := { s with turns := s.turns + 1, storage }) huse ⟨b, hb⟩
      exact ⟨last, (servedBy_record_false hrecord).mpr hlast⟩
    · exact ⟨_, servedBy_record_true (congrArg Prod.snd hrecord)⟩

/-- The search leaves a place that is served. -/
theorem comesTo_of_served (mod : BinaryModInfo) {s : Scan} (huse : s.Uses file i p patch bounds)
    {last : ℕ}
    (h : ServedBy grant last (s.turns + 1) ⟨i, p, bounds, s.sectOff⟩ s.storage) :
    ∃ s', ComesTo (scanTurn grant file i p mod patch bounds) s s' ∧ s'.sectOff = s.sectOff + 1 := by
  obtain ⟨m, hm⟩ : ∃ m, last - s.turns < m := ⟨_, Nat.lt_succ_self _⟩
  -- by induction on the number of turns that are left
  induction m generalizing s with
  | zero => exact absurd hm (Nat.not_lt_zero _)
  | succ m ih =>
    have hturn := scanTurn_uses grant mod huse
    rcases hrecord : record (grant (s.turns + 1)) mod file ⟨i, p, bounds, s.sectOff⟩ s.storage with
      ⟨storage, _ | _⟩ <;> rw [hrecord] at hturn
    · have hle := le_of_servedBy hrecord h
      obtain ⟨s', hcomes, hoff⟩ := ih (s := { s with turns := s.turns + 1, storage }) huse
        ((servedBy_record_false hrecord).mp h) (by dsimp only; omega)
      exact ⟨s', hcomes.of_again hturn, hoff⟩
    · exact ⟨_, .again .start hturn, rfl⟩

/-- **The search in a section** ends if and only if every place that it is to record is served. -/
theorem scan_ends_iff (s₀ : Scan) :
    (∃ n b, loop (scanTurn grant file i p mod patch bounds) n s₀ = some b) ↔
      ∀ s, ComesTo (scanTurn grant file i p mod patch bounds) s₀ s → s.Uses file i p patch bounds →
        Served grant (s.turns + 1) ⟨i, p, bounds, s.sectOff⟩ s.storage := by
  constructor
  · intro hends s hcomes huse
    obtain ⟨n, hn⟩ := hcomes.ends_iff.mp hends
    exact served_of_loop huse hn
  · intro h
    obtain ⟨m, hm⟩ : ∃ m, bounds.size - s₀.sectOff < m := ⟨_, Nat.lt_succ_self _⟩
    -- by induction on what is left of the section
    induction m generalizing s₀ with
    | zero => exact absurd hm (Nat.not_lt_zero _)
    | succ m ih =>
      have hnext : ∀ s', ComesTo (scanTurn grant file i p mod patch bounds) s₀ s' →
          bounds.size - s'.sectOff < m →
          ∃ n b, loop (scanTurn grant file i p mod patch bounds) n s₀ = some b :=
        fun s' hcomes hlt => hcomes.ends_iff.mpr
          (ih s' (fun s hs huse => h s (hcomes.trans hs) huse) hlt)
      cases hturn : scanTurn grant file i p mod patch bounds s₀ with
      | leave b => exact ⟨1, b, loop_succ_leave hturn 0⟩
      | again s' =>
        have hstep := ComesTo.again .start hturn
        obtain ⟨⟨hlt, hcount⟩, ⟨-, rfl⟩ | ⟨-, -, rfl⟩ | ⟨happlies, hskip, -⟩⟩ :=
          scanTurn_cases hturn
        · exact hnext _ hstep (by dsimp only; omega)
        · exact hnext _ hstep (by dsimp only; omega)
        · have huse : s₀.Uses file i p patch bounds := ⟨⟨hlt, hcount⟩, happlies, hskip⟩
          obtain ⟨last, hlast⟩ := h s₀ .start huse
          obtain ⟨s'', hcomes, hoff⟩ := comesTo_of_served mod huse hlast
          exact hnext s'' hcomes (by omega)

end Scan

/-! ## The loops -/

section Loops

variable (grant : ℕ → Grant) (mods : List BinaryModInfo)
  (readFileToBuffer : CString → Option File)

/-- The search for a patch is to record the place `x` in the turn `n`. -/
def PatchTries (file : File) (i : ℕ) (mod : BinaryModInfo) (s : List LookupStorage × ℕ)
    (p : ℕ × BinaryModPatch) (n : ℕ) (x : Finding) (storage : List LookupStorage) : Prop :=
  p.2.section_ ≠ SectionDisabled ∧ p.2.segment < SegmentTotal ∧
    (file.findSectionBounds p.2.segment p.2.cpu).size ≠ 0 ∧
    ∃ t, ComesTo (scanTurn grant file i p.1 mod p.2 (file.findSectionBounds p.2.segment p.2.cpu))
        ⟨0, p.2.skip, p.2.count, s.1, s.2⟩ t ∧
      t.Uses file i p.1 p.2 (file.findSectionBounds p.2.segment p.2.cpu) ∧ n = t.turns + 1 ∧
      x = ⟨i, p.1, file.findSectionBounds p.2.segment p.2.cpu, t.sectOff⟩ ∧ storage = t.storage

/-- One of the patches of a binary is come to, whose search is to record the place. -/
def FileTries (s : List LookupStorage × ℕ) (m : ℕ × BinaryModInfo) (n : ℕ) (x : Finding)
    (file : File) (storage : List LookupStorage) : Prop :=
  m.2.patches.any (·.section_ ≠ SectionDisabled) = true ∧ readFileToBuffer m.2.path = some file ∧
    ∃ fuel p t, ComesAt (loadPatch grant fuel file m.1 m.2) s (indexed m.2.patches) p t ∧
      PatchTries grant file m.1 m.2 t p n x storage

/-- **An attempt**: the run comes to a place `x` of a file that it is to record in the turn `n`,
when the entries are `storage`. -/
def Tries (n : ℕ) (x : Finding) (mod : BinaryModInfo) (file : File)
    (storage : List LookupStorage) : Prop :=
  ∃ fuel i t, ComesAt (loadFile grant readFileToBuffer fuel) ([], 0) (indexed mods) (i, mod) t ∧
    FileTries grant readFileToBuffer t (i, mod) n x file storage

variable {grant mods readFileToBuffer}

theorem loadPatch_mono {fuel fuel' : ℕ} {s s' : List LookupStorage × ℕ} {i : ℕ}
    {p : ℕ × BinaryModPatch} (hle : fuel ≤ fuel')
    (h : loadPatch grant fuel file i mod s p = some s') :
    loadPatch grant fuel' file i mod s p = some s' := by
  unfold loadPatch at h ⊢
  dsimp only at h ⊢
  split_ifs at h ⊢
  · exact h
  · exact h
  · exact h
  · exact loop_mono h hle

theorem loadFile_mono {fuel fuel' : ℕ} {s s' : List LookupStorage × ℕ} {m : ℕ × BinaryModInfo}
    (hle : fuel ≤ fuel') (h : loadFile grant readFileToBuffer fuel s m = some s') :
    loadFile grant readFileToBuffer fuel' s m = some s' := by
  unfold loadFile at h ⊢
  split_ifs at h ⊢
  · cases hfile : readFileToBuffer m.2.path with
    | none =>
      rw [hfile] at h
      exact h
    | some file =>
      rw [hfile] at h
      exact foldlM_mono (g := fun fuel => loadPatch grant fuel file m.1 m.2)
        (fun _ _ _ _ _ => loadPatch_mono) hle h
  · exact h

theorem loadPatch_ends_iff {i : ℕ} {s : List LookupStorage × ℕ} {p : ℕ × BinaryModPatch} :
    (∃ fuel s', loadPatch grant fuel file i mod s p = some s') ↔
      ∀ n x storage, PatchTries grant file i mod s p n x storage → Served grant n x storage := by
  unfold loadPatch PatchTries
  dsimp only
  split_ifs with hdisabled hsegment hsize
  · exact iff_of_true ⟨0, s, rfl⟩ fun _ _ _ h => absurd hdisabled h.1
  · exact iff_of_true ⟨0, s, rfl⟩ fun _ _ _ h => absurd h.2.1 (by omega)
  · exact iff_of_true ⟨0, s, rfl⟩ fun _ _ _ h => absurd hsize h.2.2.1
  · rw [scan_ends_iff]
    constructor
    · rintro h n x storage ⟨-, -, -, t, hcomes, huse, rfl, rfl, rfl⟩
      exact h t hcomes huse
    · intro h t hcomes huse
      exact h _ _ _ ⟨hdisabled, by omega, hsize, t, hcomes, huse, rfl, rfl, rfl⟩

theorem loadFile_ends_iff {s : List LookupStorage × ℕ} {m : ℕ × BinaryModInfo} :
    (∃ fuel s', loadFile grant readFileToBuffer fuel s m = some s') ↔ ∀ n x file storage,
      FileTries grant readFileToBuffer s m n x file storage → Served grant n x storage := by
  unfold loadFile FileTries
  split_ifs with hany
  · cases hfile : readFileToBuffer m.2.path with
    | none => exact iff_of_true ⟨0, s, rfl⟩ fun _ _ _ _ h => nomatch h.2.1
    | some file =>
      dsimp only
      rw [foldlM_ends_iff (g := fun fuel => loadPatch grant fuel file m.1 m.2)
        fun _ _ _ _ _ => loadPatch_mono]
      constructor
      · rintro h n x file' storage ⟨-, hread, fuel, p, t, hcomes, htries⟩
        obtain rfl := Option.some.inj hread
        exact loadPatch_ends_iff.mp (h fuel p t hcomes) n x storage htries
      · intro h fuel p t hcomes
        exact loadPatch_ends_iff.mpr fun n x storage htries =>
          h n x file storage ⟨hany, rfl, fuel, p, t, hcomes, htries⟩
  · exact iff_of_true ⟨0, s, rfl⟩ fun _ _ _ _ h => absurd h.1 hany

variable (grant mods readFileToBuffer) in
/-- The run ends, given turns enough. -/
def Terminates : Prop :=
  ∃ fuel storage, loadFilesForPatching grant mods readFileToBuffer fuel = some storage

theorem terminates_iff_served : Terminates grant mods readFileToBuffer ↔
    ∀ n x mod file storage, Tries grant mods readFileToBuffer n x mod file storage →
      Served grant n x storage := by
  have hmap : Terminates grant mods readFileToBuffer ↔
      ∃ fuel s, (indexed mods).foldlM (loadFile grant readFileToBuffer fuel) ([], 0) = some s := by
    refine exists_congr fun fuel => ?_
    simp only [loadFilesForPatching, Option.map_eq_some_iff]
    constructor
    · rintro ⟨_, s, h, -⟩
      exact ⟨s, h⟩
    · rintro ⟨s, h⟩
      exact ⟨s.1, s, h, rfl⟩
  rw [hmap, foldlM_ends_iff (g := loadFile grant readFileToBuffer) fun _ _ _ _ _ => loadFile_mono]
  constructor
  · rintro h n x mod file storage ⟨fuel, i, t, hcomes, htries⟩
    exact loadFile_ends_iff.mp (h fuel (i, mod) t hcomes) n x file storage htries
  · rintro h fuel ⟨i, mod⟩ t hcomes
    exact loadFile_ends_iff.mpr fun n x file storage htries =>
      h n x mod file storage ⟨fuel, i, t, hcomes, htries⟩

/-! ## What is known at an attempt -/

variable {I : List Finding → List LookupStorage → Prop} {later : List Finding} {n : ℕ}

theorem PatchTries.keeps (hI : Keeps mods readFileToBuffer grant I) {m : ℕ × BinaryModInfo}
    (hm : m ∈ indexed mods) (hfile : readFileToBuffer m.2.path = some file)
    {p : ℕ × BinaryModPatch} (hp : p ∈ indexed m.2.patches) {s : List LookupStorage × ℕ}
    (hs : I (patchFindings file m.1 p ++ later) s.1)
    (h : PatchTries grant file m.1 m.2 s p n x storage) :
    FoundIn mods readFileToBuffer x m.2 file ∧ ∃ left, I (x :: left) storage := by
  obtain ⟨hdisabled, hsegment, hsize, t, hcomes, ⟨⟨hlt, hcount⟩, happlies, hskip⟩, -, rfl, rfl⟩ := h
  have hfound : ∀ x : Finding, x.mod = m.1 → x.patch = p.1 →
      file.bytes x.start p.2.size = p.2.find → FoundIn mods readFileToBuffer x m.2 file :=
    fun x hi hpatch happlies =>
      ⟨hi ▸ mem_indexed hm, hfile, p.2, hpatch ▸ mem_indexed hp, happlies⟩
  rw [patchFindings, if_neg hdisabled, if_neg (by omega)] at hs
  dsimp only at hs
  rw [if_neg hsize] at hs
  have hleft := hcomes.invariant
    (fun s =>
      I (s.left file m.1 p.1 p.2 (file.findSectionBounds p.2.segment p.2.cpu) later) s.storage)
    (scanTurn_again hI hfound) hs
  dsimp only [Scan.left] at hleft
  rw [hskip, matchesFrom_of_use hlt happlies hcount, List.cons_append] at hleft
  exact ⟨hfound _ rfl rfl (by simpa [Finding.applies] using happlies), _, hleft⟩

/-- **The run up to an attempt**: what is kept when a finding is recorded holds of the place, and of
the entries that there are. -/
theorem Tries.keeps (hI : Keeps mods readFileToBuffer grant I)
    (h₀ : I (findings mods readFileToBuffer) [])
    (h : Tries grant mods readFileToBuffer n x mod file storage) :
    FoundIn mods readFileToBuffer x mod file ∧ ∃ left, I (x :: left) storage := by
  obtain ⟨fuel, i, t, hcomes, hany, hfile, fuel', p, t', hcomes', htries⟩ := h
  obtain ⟨behind, hmem, ht⟩ := hcomes.invariant
    (fun l (s : List LookupStorage × ℕ) => (∀ m ∈ l, m ∈ indexed mods) ∧
      I (l.flatMap (fileFindings readFileToBuffer)) s.1)
    (fun m l s s' hs hrun => ⟨fun q hq => hs.1 q (List.mem_cons_of_mem _ hq),
      loadFile_keeps hI (hs.1 m List.mem_cons_self)
        (by simpa [List.flatMap_cons] using hs.2) hrun⟩)
    ⟨fun m hm => hm, h₀⟩
  have hm : (i, mod) ∈ indexed mods := hmem _ List.mem_cons_self
  rw [List.flatMap_cons, fileFindings, if_pos hany, hfile] at ht
  obtain ⟨behind', hmem', ht'⟩ := hcomes'.invariant
    (fun l (s : List LookupStorage × ℕ) => (∀ p ∈ l, p ∈ indexed mod.patches) ∧
      I (l.flatMap (patchFindings file i) ++ behind.flatMap (fileFindings readFileToBuffer)) s.1)
    (fun p l s s' hs hrun => ⟨fun q hq => hs.1 q (List.mem_cons_of_mem _ hq),
      loadPatch_keeps hI hm hfile (hs.1 p List.mem_cons_self)
        (by simpa [List.flatMap_cons, List.append_assoc] using hs.2) hrun⟩)
    ⟨fun p hp => hp, ht⟩
  rw [List.flatMap_cons, List.append_assoc] at ht'
  exact htries.keeps hI hm hfile (hmem' _ List.mem_cons_self) ht'

/-- A search that ends comes to all matches that are left. -/
theorem exists_uses {fuel i p : ℕ} {patch : BinaryModPatch} {bounds : SectionBounds}
    {b : List LookupStorage × ℕ} : ∀ {s : Scan},
    loop (scanTurn grant file i p mod patch bounds) fuel s = some b →
    x ∈ matchesFrom file i p patch bounds s.sectOff s.skip s.count →
    ∃ t, ComesTo (scanTurn grant file i p mod patch bounds) s t ∧ t.Uses file i p patch bounds ∧
      x = ⟨i, p, bounds, t.sectOff⟩ := by
  induction fuel with
  | zero =>
    intro s h
    cases h
  | succ fuel ih =>
    intro s h hx
    cases hturn : scanTurn grant file i p mod patch bounds s with
    | leave c =>
      have hend : x ∈ ([] : List Finding) :=
        scanTurn_leave (I := fun left _ => x ∈ left) s c (by simpa [Scan.left] using hx) hturn
      cases hend
    | again s' =>
      rw [loop_succ_again hturn] at h
      have hnext : x ∈ matchesFrom file i p patch bounds s'.sectOff s'.skip s'.count →
          ∃ t, ComesTo (scanTurn grant file i p mod patch bounds) s t ∧
            t.Uses file i p patch bounds ∧ x = ⟨i, p, bounds, t.sectOff⟩ := fun hx' => by
        obtain ⟨t, hcomes, huse⟩ := ih h hx'
        exact ⟨t, hcomes.of_again hturn, huse⟩
      obtain ⟨⟨hlt, hcount⟩, ⟨hnot, rfl⟩ | ⟨happlies, hskip, rfl⟩ |
        ⟨happlies, hskip, storage, hrecord⟩⟩ := scanTurn_cases hturn
      · rw [matchesFrom_of_not_applies hlt hnot] at hx
        exact hnext hx
      · rw [matchesFrom_of_skip hlt happlies hskip] at hx
        exact hnext hx
      · rcases hrecord with ⟨-, rfl⟩ | ⟨-, rfl⟩
        · rw [hskip, matchesFrom_of_use hlt happlies hcount] at hx
          rcases List.mem_cons.mp hx with rfl | hx
          · exact ⟨s, .start, ⟨⟨hlt, hcount⟩, happlies, hskip⟩, rfl⟩
          · rw [← hskip] at hx
            exact hnext hx
        · exact hnext hx

/-- **A run that ends** comes to all findings. -/
theorem exists_tries {fuel : ℕ}
    (h : loadFilesForPatching grant mods readFileToBuffer fuel = some storage)
    (hx : x ∈ findings mods readFileToBuffer) :
    ∃ n mod file storage, Tries grant mods readFileToBuffer n x mod file storage := by
  obtain ⟨s, hrun, -⟩ := Option.map_eq_some_iff.mp h
  obtain ⟨⟨i, mod⟩, hm, hx⟩ := List.mem_flatMap.mp hx
  obtain ⟨t, t', hcomes, hrun⟩ := exists_comesAt hrun hm
  rw [fileFindings] at hx
  rw [loadFile] at hrun
  split_ifs at hx hrun with hany
  · cases hfile : readFileToBuffer mod.path with
    | none =>
      rw [hfile] at hx
      cases hx
    | some file =>
      rw [hfile] at hx hrun
      obtain ⟨p, hp, hx⟩ := List.mem_flatMap.mp hx
      obtain ⟨u, u', hcomes', hrun⟩ := exists_comesAt hrun hp
      rw [patchFindings] at hx
      rw [loadPatch] at hrun
      dsimp only at hx hrun
      split_ifs at hx hrun with hdisabled hsegment hsize
      · cases hx
      · cases hx
      · cases hx
      · obtain ⟨v, hv, huse, rfl⟩ := exists_uses hrun hx
        exact ⟨_, mod, file, _, fuel, i, t, hcomes, hany, hfile, fuel, p, u, hcomes', hdisabled,
          by omega, hsize, v, hv, huse, rfl, rfl, rfl⟩
  · cases hx

/-- Without memory nothing is recorded. -/
theorem record_refused : record refused mod file x [] = ([], false) := by
  have hnone : ([] : List LookupStorage).find? (·.pageOff == x.pageOff) = none := rfl
  rcases record_of_find_none refused mod file hnone with ⟨hrun, -⟩ | ⟨-, h, -⟩ | ⟨-, h, -⟩
  · exact hrun
  · cases h
  · cases h

/-- Without memory a run ends only if there is nothing to record. -/
theorem findings_eq_nil (h : Terminates (fun _ => refused) mods readFileToBuffer) :
    findings mods readFileToBuffer = [] := by
  -- all findings are left in the end
  have hkeeps : Keeps mods readFileToBuffer (fun _ => refused) fun left storage =>
      left = findings mods readFileToBuffer ∧ storage = [] := by
    rintro n x left storage mod file - ⟨hleft, rfl⟩
    rw [record_refused]
    exact ⟨hleft, rfl⟩
  obtain ⟨fuel, storage, hrun⟩ := h
  exact (loadFilesForPatching_keeps hkeeps ⟨rfl, rfl⟩ hrun).1.symm

end Loops

end Lilu.UserPatcher
