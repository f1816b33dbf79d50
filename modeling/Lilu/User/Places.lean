import Lilu.Prelude.Memory
import Lilu.User.PagePatch

/-!
# Where patches are put down

If all memory is granted, the places of a patch are put down in the order in which they are found,
each with the page it lies in, its offset there and its offset in the segment. The page is counted
from the section on, which need not begin with a page, so that its offset may wrap below zero. The
search stops one place before the end of the section, and a place is put down whether or not the
patch leaves its page.

## Main definitions

* `sought`: the occurrences that should be put down
* `refAt`, `placesAt`: the places of a patch in a page, as they are and as they should be
* `RecordedInside`: the patches stay in their pages

## Main results

* `refAt_record`: what a finding adds to a reference
* `loadFilesForPatching_places`: when the places are those that should be put down
* `recordedInside_iff`: when all patches stay in their pages
-/

namespace Lilu.UserPatcher

open Lilu.Kext (CString)

/-! ## Where a place is -/

namespace Finding

variable (x : Finding)

/-- The offset in its page: the address modulo the page size. -/
def inPage : ℕ :=
  (x.bounds.vmsection.toNat + x.sectOff) % PAGE_SIZE

/-- Where the page begins, from the beginning of the section on; this may be before it. -/
def pageStart : ℤ :=
  x.sectOff - x.inPage

theorem inPage_lt : x.inPage < PAGE_SIZE :=
  Nat.mod_lt _ (Nat.succ_pos _)

theorem toNat_address_mod : (x.bounds.vmsection + BitVec.ofNat 64 x.sectOff).toNat % 2 ^ 12 =
    x.inPage := by
  rw [BitVec.toNat_add, BitVec.toNat_ofNat, Nat.add_mod_mod, Nat.mod_mod_of_dvd _ (by decide)]
  rfl

theorem vmpage_eq : x.vmpage =
    x.bounds.vmsection + BitVec.ofNat 64 x.sectOff - BitVec.ofNat 64 x.inPage := by
  -- `-PAGE_SIZE` as a mask clears the twelve low bits
  have hmask : -BitVec.ofNat 64 PAGE_SIZE = ~~~BitVec.ofNat 64 (2 ^ 12 - 1) := by decide
  rw [vmpage, hmask, and_not_mask (by decide), toNat_address_mod]

theorem pageOff_eq : x.pageOff = BitVec.ofInt 64 x.pageStart := by
  rw [pageOff, vmpage_eq, pageStart, Int.sub_eq_add_neg, BitVec.ofInt_add, BitVec.ofInt_neg,
    BitVec.ofInt_natCast, BitVec.ofInt_natCast]
  -- both sides are sums of the same three addresses
  generalize BitVec.ofNat 64 x.inPage = b
  bv_omega

theorem valueOff_eq : x.valueOff = BitVec.ofNat 64 x.inPage := by
  rw [valueOff, start, pageOff, vmpage_eq]
  generalize BitVec.ofNat 64 x.inPage = b
  bv_omega

theorem toNat_valueOff : x.valueOff.toNat = x.inPage := by
  have hlt := x.inPage_lt
  rw [valueOff_eq, BitVec.toNat_ofNat, Nat.mod_eq_of_lt (hlt.trans (by decide))]

theorem segOff_eq : x.segOff =
    x.bounds.vmsection + BitVec.ofNat 64 x.sectOff - x.bounds.vmsegment := by
  rw [segOff]
  bv_omega

end Finding

/-! ## What should be put down -/

section Sought

variable (mods : List BinaryModInfo) (readFileToBuffer : CString → Option File)

/-- The patch of an index, of the binary of an index. -/
def patchAt (i p : ℕ) : Option BinaryModPatch :=
  mods[i]?.bind (·.patches[p]?)

/-- The size of the patch that applies at a place. -/
def Finding.size (x : Finding) : ℕ :=
  ((patchAt mods x.mod x.patch).map (·.size)).getD 0

/-- The place ends where its section does. -/
def Finding.AtEnd (x : Finding) : Prop :=
  x.sectOff + x.size mods = x.bounds.size

instance (x : Finding) : Decidable (x.AtEnd mods) :=
  inferInstanceAs (Decidable (_ = _))

/-- All occurrences of what a patch finds in its section, overlapping ones too. -/
def occurrences (file : File) (i p : ℕ) (patch : BinaryModPatch) (bounds : SectionBounds) :
    List Finding :=
  ((List.range (bounds.size + 1 - patch.size)).map fun k =>
    (⟨i, p, bounds, k⟩ : Finding)).filter (Finding.applies file patch)

/-- What some patches come to that have a section, in the order of the loops. -/
def inSections (f : File → (i p : ℕ) → BinaryModPatch → SectionBounds → List Finding) :
    List Finding :=
  (indexed mods).flatMap fun m =>
    if m.2.patches.any (·.section_ ≠ SectionDisabled) then
      match readFileToBuffer m.2.path with
      | none => []
      | some file => (indexed m.2.patches).flatMap fun p =>
        if p.2.section_ = SectionDisabled then []
        else if p.2.segment ≥ SegmentTotal then []
        else
          let bounds := file.findSectionBounds p.2.segment p.2.cpu
          if bounds.size = 0 then [] else f file m.1 p.1 p.2 bounds
    else []

/-- **What should be put down**: for each patch, as many occurrences as it counts, behind those that
it skips. -/
def sought : List Finding :=
  inSections mods readFileToBuffer fun file i p patch bounds =>
    ((occurrences file i p patch bounds).drop patch.skip).take patch.count

end Sought

variable {mods : List BinaryModInfo} {readFileToBuffer : CString → Option File}

theorem findings_eq : findings mods readFileToBuffer =
    inSections mods readFileToBuffer fun file i p patch bounds =>
      matchesFrom file i p patch bounds 0 patch.skip patch.count :=
  rfl

/-- What some patches come to is part of what others do, if it is for each of them. -/
theorem inSections_filter {f g : File → (i p : ℕ) → BinaryModPatch → SectionBounds → List Finding}
    {q : Finding → Bool} (h : ∀ file i p patch bounds, patchAt mods i p = some patch →
      f file i p patch bounds = (g file i p patch bounds).filter q) :
    inSections mods readFileToBuffer f = (inSections mods readFileToBuffer g).filter q := by
  rw [inSections, inSections, List.filter_flatMap]
  refine List.flatMap_congr fun m hm => ?_
  split_ifs
  · cases readFileToBuffer m.2.path with
    | none => rfl
    | some file =>
      dsimp only
      rw [List.filter_flatMap]
      refine List.flatMap_congr fun p hp => ?_
      have hpatch : patchAt mods m.1 p.1 = some p.2 := by
        rw [patchAt, mem_indexed hm]
        exact mem_indexed hp
      split_ifs
      · rfl
      · rfl
      · rfl
      · exact h file m.1 p.1 p.2 _ hpatch
  · rfl

/-- What comes behind the others does not matter if it is filtered out. -/
theorem filter_take_drop_append {α : Type*} {q : α → Bool} {l l' : List α} {skip count : ℕ}
    (hl : ∀ a ∈ l, q a = true) (hl' : ∀ a ∈ l', q a = false) :
    (((l ++ l').drop skip).take count).filter q = (l.drop skip).take count := by
  have hfront : ((l.drop skip).take count).filter q = (l.drop skip).take count :=
    List.filter_eq_self.mpr fun a ha => hl a (List.mem_of_mem_drop (List.mem_of_mem_take ha))
  rw [List.drop_append, List.take_append, List.filter_append, hfront, List.append_right_eq_self]
  refine List.filter_eq_nil_iff.mpr fun a ha => ?_
  rw [hl' a (List.mem_of_mem_drop (List.mem_of_mem_take ha))]
  exact Bool.false_ne_true

/-- A search misses the occurrence that ends where the section does. -/
theorem matchesFrom_eq_filter {file : File} {i p : ℕ} {patch : BinaryModPatch}
    {bounds : SectionBounds} (hpatch : patchAt mods i p = some patch) :
    matchesFrom file i p patch bounds 0 patch.skip patch.count =
      (((occurrences file i p patch bounds).drop patch.skip).take patch.count).filter
        fun x => !decide (x.AtEnd mods) := by
  have hsize : ∀ k, Finding.size mods ⟨i, p, bounds, k⟩ = patch.size := fun k => by
    rw [Finding.size, hpatch]
    rfl
  rw [matchesFrom, occurrences, Nat.sub_zero, List.range_eq_range']
  by_cases hle : patch.size ≤ bounds.size
  · have hlen : bounds.size + 1 - patch.size = bounds.size - patch.size + 1 := by omega
    -- the last place at which the patch fits is the one that the search leaves out
    rw [hlen, List.range'_1_concat, List.map_append, List.filter_append, filter_take_drop_append]
    · intro x hx
      obtain ⟨k, hk, rfl⟩ := List.mem_map.mp (List.mem_filter.mp hx).1
      have hlt := (List.mem_range'_1.mp hk).2
      rw [Bool.not_eq_true', decide_eq_false_iff_not, Finding.AtEnd, hsize]
      dsimp only
      omega
    · intro x hx
      obtain ⟨k, hk, rfl⟩ := List.mem_map.mp (List.mem_filter.mp hx).1
      obtain rfl := List.mem_singleton.mp hk
      rw [Bool.not_eq_false', decide_eq_true_iff, Finding.AtEnd, hsize]
      dsimp only
      omega
  · have hlen : bounds.size + 1 - patch.size = 0 := by omega
    have hlen' : bounds.size - patch.size = 0 := by omega
    rw [hlen, hlen']
    simp

/-- **What is found** is what should be, without what ends where its section does. -/
theorem findings_eq_filter : findings mods readFileToBuffer =
    (sought mods readFileToBuffer).filter fun x => !decide (x.AtEnd mods) := by
  rw [findings_eq, sought]
  exact inSections_filter fun file i p patch bounds hpatch => matchesFrom_eq_filter hpatch

/-! ## What a finding adds to a reference -/

/-- The reference of a patch in an entry, without places if there is none. -/
def LookupStorage.refAt (e : LookupStorage) (p : ℕ) : PatchRef :=
  (e.refs.find? (·.i == p)).getD { i := p }

/-- The reference of a patch in the entry of a page, without places if there is none. -/
def refAt (storage : List LookupStorage) (off : VmAddress) (p : ℕ) : PatchRef :=
  ((storage.find? (·.pageOff == off)).map (·.refAt p)).getD { i := p }

/-- The places of a patch in a page, as they should be put down. -/
def placesAt (l : List Finding) (off : VmAddress) (p : ℕ) : PatchRef :=
  let here := l.filter fun x => BitVec.ofInt 64 x.pageStart == off && x.patch == p
  { i := p
    pageOffs := here.map fun x => BitVec.ofNat 64 x.inPage
    segOffs := here.map fun x =>
      x.bounds.vmsection + BitVec.ofNat 64 x.sectOff - x.bounds.vmsegment }

/-- Each page has one entry, and each patch one reference in it. -/
structure Unique (storage : List LookupStorage) : Prop where
  pages : (storage.map (·.pageOff)).Nodup
  patches : ∀ e ∈ storage, (e.refs.map (·.i)).Nodup

section Refs

variable {x : Finding} {e e' : LookupStorage} {storage : List LookupStorage} {g : Grant}
  {off : VmAddress} {p : ℕ}

/-- A place is added to the reference of its patch. -/
theorem refAt_addRef (h : e.addRef g x = some e') : e'.refAt p =
    if p = x.patch then (e.refAt p).push g x else e.refAt p := by
  rcases addRef_cases h with ⟨k, r, hfind, hk, hi, rfl⟩ | ⟨hnew, rfl⟩
  · have hkey : (r.push g x).i = x.patch := hi
    rw [LookupStorage.refAt, LookupStorage.refAt, Keyed.find?_set hfind hkey]
    split_ifs with hp
    · rw [hp, Keyed.find?_eq hfind, hk]
      rfl
    · rfl
  · have hkey : (PatchRef.push { i := x.patch } g x).i = x.patch := rfl
    -- a new reference begins without places
    have hnone : e.refs.find? (·.i == x.patch) = none :=
      List.find?_eq_none.mpr fun r hr => by simpa using hnew r hr
    rw [LookupStorage.refAt, LookupStorage.refAt, Keyed.find?_snoc hnew hkey]
    split_ifs with hp
    · rw [hp, hnone]
      rfl
    · rfl

theorem nodup_addRef (h : e.addRef g x = some e') (he : (e.refs.map (·.i)).Nodup) :
    (e'.refs.map (·.i)).Nodup := by
  rcases addRef_cases h with ⟨k, r, -, hk, hi, rfl⟩ | ⟨hnew, rfl⟩
  · have hmap : (e.refs.set k (r.push g x)).map (·.i) = e.refs.map (·.i) := Keyed.map_set hk rfl
    exact hmap.symm ▸ he
  · exact Keyed.nodup_snoc he hnew

/-- With all memory granted, no place is tried again. -/
theorem exists_addRef (e : LookupStorage) (x : Finding) : ∃ e', e.addRef {} x = some e' := by
  rw [LookupStorage.addRef]
  cases e.refs.findIdx? (·.i == x.patch) with
  | none => exact ⟨_, rfl⟩
  | some k => exact ⟨_, rfl⟩

/-- With all memory granted, a place goes to the first entry of its page, or to a new one if there
is none. -/
theorem record_granted (mod : BinaryModInfo) (file : File) (x : Finding)
    (storage : List LookupStorage) :
    (∃ k e e', storage.findIdx? (·.pageOff == x.pageOff) = some k ∧ storage[k]? = some e ∧
      e.addRef {} x = some e' ∧ record {} mod file x storage = (storage.set k e', true)) ∨
    (∀ d ∈ storage, d.pageOff ≠ x.pageOff) ∧
      ∃ e', (LookupStorage.fresh mod file x).addRef {} x = some e' ∧
        record {} mod file x storage = (storage ++ [e'], true) := by
  rw [record]
  cases hfind : storage.findIdx? (·.pageOff == x.pageOff) with
  | none =>
    obtain ⟨e', hadd⟩ := exists_addRef (.fresh mod file x) x
    have hnew : ∀ d ∈ storage, d.pageOff ≠ x.pageOff := fun d hd => by
      simpa using List.findIdx?_eq_none_iff.mp hfind d hd
    refine .inr ⟨hnew, e', hadd, ?_⟩
    rw [LookupStorage.fresh] at hadd
    dsimp only
    rw [hadd]
    rfl
  | some k =>
    obtain ⟨hk, -, -⟩ := List.findIdx?_eq_some_iff_getElem.mp hfind
    obtain ⟨e', hadd⟩ := exists_addRef storage[k] x
    refine .inl ⟨k, storage[k], e', rfl, List.getElem?_eq_getElem hk, hadd, ?_⟩
    dsimp only
    rw [List.getElem?_eq_getElem hk, Option.bind_some, hadd]

/-- **What a finding adds**: its place, to the reference of its patch in the entry of its page. -/
theorem refAt_record (mod : BinaryModInfo) (file : File) (x : Finding)
    (storage : List LookupStorage) (off : VmAddress) (p : ℕ) :
    refAt (record {} mod file x storage).1 off p =
      if off = x.pageOff ∧ p = x.patch then (refAt storage off p).push {} x
      else refAt storage off p := by
  -- other pages are not touched, and other patches of the page are not either
  rcases record_granted mod file x storage with ⟨k, e, e', hfind, hk, hadd, hrun⟩ |
    ⟨hnew, e', hadd, hrun⟩ <;> rw [hrun, refAt, refAt]
  · obtain ⟨hlt, hoff, -⟩ := List.findIdx?_eq_some_iff_getElem.mp hfind
    obtain rfl : storage[k] = e := (List.getElem?_eq_some_iff.mp hk).2
    have hkey : e'.pageOff = x.pageOff := (addRef_adds hadd).pageOff.trans (beq_iff_eq.mp hoff)
    rw [Keyed.find?_set hfind hkey]
    by_cases hx : off = x.pageOff
    · rw [if_pos hx, hx, Keyed.find?_eq hfind, hk, Option.map_some, Option.map_some, Option.getD_some,
        Option.getD_some, refAt_addRef hadd]
      simp only [true_and]
    · rw [if_neg hx, if_neg fun h => hx h.1]
  · have hkey : e'.pageOff = x.pageOff := (addRef_adds hadd).pageOff
    rw [Keyed.find?_snoc hnew hkey]
    by_cases hx : off = x.pageOff
    · have hnone : storage.find? (·.pageOff == x.pageOff) = none :=
        List.find?_eq_none.mpr fun d hd => by simpa using hnew d hd
      rw [if_pos hx, hx, hnone, Option.map_some, Option.getD_some, refAt_addRef hadd]
      simp only [true_and]
      rfl
    · rw [if_neg hx, if_neg fun h => hx h.1]

theorem unique_record {mod : BinaryModInfo} {file : File} (h : Unique storage) :
    Unique (record {} mod file x storage).1 := by
  rcases record_granted mod file x storage with ⟨k, e, e', hfind, hk, hadd, hrun⟩ |
    ⟨hnew, e', hadd, hrun⟩ <;> rw [hrun]
  · have he : e ∈ storage := List.mem_of_getElem? hk
    refine ⟨?_, fun d hd => ?_⟩
    · rw [Keyed.map_set hk (addRef_adds hadd).pageOff]
      exact h.pages
    · rcases List.mem_or_eq_of_mem_set hd with hd | rfl
      · exact h.patches d hd
      · exact nodup_addRef hadd (h.patches e he)
  · have hkey : e'.pageOff = x.pageOff := (addRef_adds hadd).pageOff
    refine ⟨Keyed.nodup_snoc h.pages fun d hd => hkey.symm ▸ hnew d hd, fun d hd => ?_⟩
    rcases List.mem_append.mp hd with hd | hd
    · exact h.patches d hd
    · rw [List.mem_singleton.mp hd]
      exact nodup_addRef hadd List.nodup_nil

end Refs

/-- What should be put down for one place more. -/
theorem placesAt_snoc (l : List Finding) (x : Finding) (off : VmAddress) (p : ℕ) :
    placesAt (l ++ [x]) off p =
      if off = x.pageOff ∧ p = x.patch then (placesAt l off p).push {} x else placesAt l off p := by
  rw [x.pageOff_eq]
  by_cases hx : off = BitVec.ofInt 64 x.pageStart ∧ p = x.patch
  · obtain ⟨rfl, rfl⟩ := hx
    rw [if_pos ⟨rfl, rfl⟩]
    simp [placesAt, PatchRef.push, x.valueOff_eq, x.segOff_eq]
  · rw [if_neg hx]
    have hnot : (BitVec.ofInt 64 x.pageStart == off && x.patch == p) = false := by
      rw [Bool.and_eq_false_iff, beq_eq_false_iff_ne, beq_eq_false_iff_ne]
      exact (not_and_or.mp hx).imp Ne.symm Ne.symm
    simp [placesAt, hnot]

/-! ## The run -/

section Run

variable {grant : ℕ → Grant} {storage : List LookupStorage} {fuel : ℕ}

/-- What is known of the findings that were recorded, and of the entries, is so of those that are
left, since both make up all findings. -/
theorem keeps_of_done {I : List Finding → List LookupStorage → Prop}
    (hI : ∀ n x done left storage mod file, done ++ x :: left = findings mods readFileToBuffer →
      FoundIn mods readFileToBuffer x mod file → I done storage →
      I (if (record (grant n) mod file x storage).2 then done ++ [x] else done)
        (record (grant n) mod file x storage).1) :
    Keeps mods readFileToBuffer grant fun left storage =>
      ∃ done, done ++ left = findings mods readFileToBuffer ∧ I done storage := by
  rintro n x left storage mod file hfound ⟨done, hdone, hs⟩
  have hnext := hI n x done left storage mod file hdone hfound hs
  split_ifs at hnext ⊢
  · exact ⟨done ++ [x], by rw [List.append_assoc]; exact hdone, hnext⟩
  · exact ⟨done, hdone, hnext⟩

/-- It holds in the end of all findings, if it still does with one that is recorded or tried
again. -/
theorem loadFilesForPatching_done {I : List Finding → List LookupStorage → Prop}
    (hI : ∀ n x done left storage mod file, done ++ x :: left = findings mods readFileToBuffer →
      FoundIn mods readFileToBuffer x mod file → I done storage →
      I (if (record (grant n) mod file x storage).2 then done ++ [x] else done)
        (record (grant n) mod file x storage).1)
    (h₀ : I [] []) (h : loadFilesForPatching grant mods readFileToBuffer fuel = some storage) :
    I (findings mods readFileToBuffer) storage := by
  obtain ⟨done, hdone, hend⟩ := loadFilesForPatching_keeps (keeps_of_done hI) ⟨[], rfl, h₀⟩ h
  rw [List.append_nil] at hdone
  exact hdone ▸ hend

theorem record_granted_snd (mod : BinaryModInfo) (file : File) (x : Finding)
    (storage : List LookupStorage) : (record {} mod file x storage).2 = true := by
  rcases record_granted mod file x storage with ⟨k, e, e', -, -, -, hrun⟩ | ⟨-, e', -, hrun⟩ <;>
    rw [hrun]

/-- With all memory granted, the search for a patch ends. -/
theorem loadPatch_ends (file : File) (i : ℕ) (mod : BinaryModInfo) (p : ℕ × BinaryModPatch) :
    ∃ n, ∀ fuel, n ≤ fuel → ∀ s, ∃ s', loadPatch (fun _ => {}) fuel file i mod s p = some s' := by
  refine ⟨(file.findSectionBounds p.2.segment p.2.cpu).size + 1, fun fuel hfuel s => ?_⟩
  rw [loadPatch]
  split_ifs
  · exact ⟨s, rfl⟩
  · exact ⟨s, rfl⟩
  · dsimp only
    split_ifs
    · exact ⟨s, rfl⟩
    · set bounds := file.findSectionBounds p.2.segment p.2.cpu
      have hagain : ∀ s s', True → scanTurn (fun _ => {}) file i p.1 mod p.2 bounds s = .again s' →
          True ∧ bounds.size - s'.sectOff < bounds.size - s.sectOff := by
        intro s s' _ hturn
        obtain ⟨⟨hlt, -⟩, ⟨-, rfl⟩ | ⟨-, -, rfl⟩ | ⟨-, -, storage, ⟨-, rfl⟩ | ⟨hrecord, -⟩⟩⟩ :=
          scanTurn_cases hturn
        · exact ⟨trivial, by dsimp only; omega⟩
        · exact ⟨trivial, by dsimp only; omega⟩
        · exact ⟨trivial, by dsimp only; omega⟩
        · -- no place is tried again
          have htrue := record_granted_snd mod file ⟨i, p.1, bounds, s.sectOff⟩ s.storage
          rw [hrecord] at htrue
          cases htrue
      -- one turn for each place at most, and one to leave the loop
      have hlt : bounds.size - 0 < fuel := hfuel
      obtain ⟨b, hb, -⟩ := loop_spec _ (fun _ => True) (fun _ => True)
        (fun s : Scan => bounds.size - s.sectOff) hagain (fun _ _ _ _ => trivial)
        (s := ⟨0, p.2.skip, p.2.count, s.1, s.2⟩) trivial hlt
      exact ⟨b, hb⟩

/-- **With all memory granted**, the loops end. -/
theorem loadFilesForPatching_ends (mods : List BinaryModInfo)
    (readFileToBuffer : CString → Option File) : ∃ n, ∀ fuel, n ≤ fuel →
      ∃ storage, loadFilesForPatching (fun _ => {}) mods readFileToBuffer fuel = some storage := by
  obtain ⟨n, hn⟩ := foldlM_ends (f := loadFile (fun _ => {}) readFileToBuffer) (l := indexed mods)
    fun m _ => by
      by_cases hany : m.2.patches.any (·.section_ ≠ SectionDisabled)
      · cases hfile : readFileToBuffer m.2.path with
        | none => exact ⟨0, fun _ _ s => ⟨s, by rw [loadFile, if_pos hany, hfile]⟩⟩
        | some file =>
          obtain ⟨n, hn⟩ := foldlM_ends (f := fun fuel => loadPatch (fun _ => {}) fuel file m.1 m.2)
            (l := indexed m.2.patches) fun p _ => loadPatch_ends file m.1 m.2 p
          refine ⟨n, fun fuel hfuel s => ?_⟩
          rw [loadFile, if_pos hany, hfile]
          exact hn fuel hfuel s
      · exact ⟨0, fun _ _ s => ⟨s, by rw [loadFile, if_neg hany]⟩⟩
  refine ⟨n, fun fuel hfuel => ?_⟩
  obtain ⟨s, hs⟩ := hn fuel hfuel ([], 0)
  exact ⟨s.1, by rw [loadFilesForPatching, hs, Option.map_some]⟩

/-- With all memory granted, the places in the entries are those that are found. -/
theorem loadFilesForPatching_refAt
    (h : loadFilesForPatching (fun _ => {}) mods readFileToBuffer fuel = some storage) :
    Unique storage ∧
      ∀ off p, refAt storage off p = placesAt (findings mods readFileToBuffer) off p := by
  refine loadFilesForPatching_done (I := fun done storage => Unique storage ∧
    ∀ off p, refAt storage off p = placesAt done off p)
    (fun n x done left storage mod file _ _ hs => ?_) ⟨⟨List.nodup_nil, nofun⟩, fun _ _ => rfl⟩ h
  refine ⟨unique_record hs.1, fun off p => ?_⟩
  rw [if_pos (record_granted_snd mod file x storage), refAt_record, placesAt_snoc, hs.2 off p]

end Run

/-! ## What is put down -/

/-- Leaving out findings matters where they are. -/
theorem placesAt_filter_iff {l : List Finding} {q : Finding → Bool} {off : VmAddress} {p : ℕ} :
    placesAt (l.filter q) off p = placesAt l off p ↔
      ∀ x ∈ l, BitVec.ofInt 64 x.pageStart = off → x.patch = p → q x = true := by
  set here : Finding → Bool := fun x => BitVec.ofInt 64 x.pageStart == off && x.patch == p with hhere
  have hswap : (l.filter q).filter here = (l.filter here).filter q := by
    rw [List.filter_filter, List.filter_filter]
    exact List.filter_congr fun x _ => Bool.and_comm _ _
  have hall : (∀ x ∈ l, BitVec.ofInt 64 x.pageStart = off → x.patch = p → q x = true) ↔
      ∀ x ∈ l.filter here, q x = true := by
    simp only [List.mem_filter, hhere, Bool.and_eq_true, beq_iff_eq, and_imp]
  rw [hall]
  constructor
  · intro h
    have hlen := congrArg (fun r => r.pageOffs.length) h
    simp only [placesAt, List.length_map] at hlen
    rw [hswap] at hlen
    exact List.length_filter_eq_length_iff.mp hlen
  · intro h
    have hsame : (l.filter q).filter here = l.filter here :=
      hswap.trans (List.filter_eq_self.mpr h)
    rw [placesAt, placesAt, hsame]

/-- The third occurrence is to be patched. -/
def thirdMod : BinaryModInfo :=
  ⟨dock, [{ onePatch 1 with skip := 2, sized := rfl }]⟩

section Inside

variable (mods readFileToBuffer)

/-- The patch that is written where a place is put down: the binary is that of the first finding in
the page, for which the entry was made. -/
def patchWritten (x : Finding) : Option BinaryModPatch :=
  ((findings mods readFileToBuffer).find? (·.pageOff == x.pageOff)).bind fun y =>
    patchAt mods y.mod x.patch

/-- Neither the patch that is found, nor the one that is written, leaves the page. -/
structure StaysInPage (x : Finding) : Prop where
  found : x.inPage + x.size mods ≤ PAGE_SIZE
  written : ∀ patch, patchWritten mods readFileToBuffer x = some patch →
    x.inPage + patch.size ≤ PAGE_SIZE

/-- The offsets in the entries leave room in the page for the patches that they were recorded for,
and for those that are written there, so that nothing is written behind the page. -/
structure RecordedInside (storage : List LookupStorage) : Prop where
  found : ∀ e ∈ storage, ∀ r ∈ e.refs, ∀ o ∈ r.pageOffs, ∀ x ∈ findings mods readFileToBuffer,
    x.pageOff = e.pageOff → x.patch = r.i → x.valueOff = o → o.toNat + x.size mods ≤ PAGE_SIZE
  inPage : InPage storage
  behind : ∀ lookup granted data data', patchPage lookup storage granted data 0 = some data' →
    data'.drop PAGE_SIZE = data.drop PAGE_SIZE

/-- Each entry is of the binary of the first finding in its page, and each finding that was recorded
has an entry. -/
structure Owned (done : List Finding) (storage : List LookupStorage) : Prop where
  placed : ∀ y ∈ done, y.pageOff ∈ storage.map (·.pageOff)
  owner : ∀ e ∈ storage, ∃ y,
    (findings mods readFileToBuffer).find? (·.pageOff == e.pageOff) = some y ∧
      mods[y.mod]? = some e.mod

end Inside

section Owned

variable {done left : List Finding} {storage : List LookupStorage} {x : Finding}
  {mod : BinaryModInfo} {file : File} {grant : ℕ → Grant} {fuel : ℕ}

/-- A finding without an entry is the first one in its page. -/
theorem Owned.first (h : Owned mods readFileToBuffer done storage)
    (hdone : done ++ x :: left = findings mods readFileToBuffer)
    (hnew : ∀ d ∈ storage, d.pageOff ≠ x.pageOff) :
    (findings mods readFileToBuffer).find? (·.pageOff == x.pageOff) = some x := by
  -- an earlier finding in the page would have left an entry for it
  have hnone : done.find? (·.pageOff == x.pageOff) = none := by
    refine List.find?_eq_none.mpr fun y hy heq => ?_
    obtain ⟨d, hd, hoff⟩ := List.mem_map.mp (h.placed y hy)
    exact hnew d hd (hoff.trans (beq_iff_eq.mp heq))
  rw [← hdone, List.find?_append, hnone, Option.none_or, List.find?_cons, beq_self_eq_true]

/-- An entry is made for the first finding in its page. -/
theorem Owned.append (h : Owned mods readFileToBuffer done storage)
    (hdone : done ++ x :: left = findings mods readFileToBuffer)
    (hfound : FoundIn mods readFileToBuffer x mod file)
    (hnew : ∀ d ∈ storage, d.pageOff ≠ x.pageOff) {e : LookupStorage} (hoff : e.pageOff = x.pageOff)
    (hmod : e.mod = mod) : Owned mods readFileToBuffer (done ++ [x]) (storage ++ [e]) := by
  constructor
  · intro y hy
    rw [List.map_append, List.map_singleton, List.mem_append, List.mem_singleton]
    rcases List.mem_append.mp hy with hy | hy
    · exact .inl (h.placed y hy)
    · rw [List.mem_singleton.mp hy]
      exact .inr hoff.symm
  · intro d hd
    rcases List.mem_append.mp hd with hd | hd
    · exact h.owner d hd
    · rw [List.mem_singleton.mp hd, hoff, hmod]
      exact ⟨x, h.first hdone hnew, hfound.listed⟩

/-- Fewer findings were recorded. -/
theorem Owned.of_append (h : Owned mods readFileToBuffer (done ++ [x]) storage) :
    Owned mods readFileToBuffer done storage :=
  ⟨fun y hy => h.placed y (List.mem_append_left _ hy), h.owner⟩

theorem Owned.record (h : Owned mods readFileToBuffer done storage) (g : Grant)
    (hdone : done ++ x :: left = findings mods readFileToBuffer)
    (hfound : FoundIn mods readFileToBuffer x mod file) :
    Owned mods readFileToBuffer
      (if (record g mod file x storage).2 then done ++ [x] else done)
      (record g mod file x storage).1 := by
  rcases record_cases g mod file x storage with hrun | ⟨k, e, e', -, hk, hoff, hadd, hrun⟩ |
    ⟨hnew, hrun | ⟨e', hadd, hrun⟩⟩ <;> rw [hrun]
  · exact h
  · -- the entry that is there has its page and its binary still
    have hadds := addRef_adds hadd
    have hmap : (storage.set k e').map (·.pageOff) = storage.map (·.pageOff) :=
      Keyed.map_set hk hadds.pageOff
    have he : e ∈ storage := List.mem_of_getElem? hk
    rw [if_pos rfl]
    constructor
    · intro y hy
      rw [hmap]
      rcases List.mem_append.mp hy with hy | hy
      · exact h.placed y hy
      · rw [List.mem_singleton.mp hy]
        exact List.mem_map.mpr ⟨e, he, hoff⟩
    · intro d hd
      rcases List.mem_or_eq_of_mem_set hd with hd | rfl
      · exact h.owner d hd
      · rw [hadds.pageOff, hadds.mod]
        exact h.owner e he
  -- the entry is there, and its finding is tried again
  · exact (h.append hdone hfound hnew rfl rfl).of_append
  · have hadds := addRef_adds hadd
    rw [if_pos rfl]
    exact h.append hdone hfound hnew hadds.pageOff hadds.mod

/-- In the end each entry is of the binary of the first finding in its page. -/
theorem loadFilesForPatching_owned
    (h : loadFilesForPatching grant mods readFileToBuffer fuel = some storage) :
    Owned mods readFileToBuffer (findings mods readFileToBuffer) storage :=
  loadFilesForPatching_done (fun n _ _ _ _ _ _ hdone hfound hs => hs.record (grant n) hdone hfound)
    ⟨nofun, nofun⟩ h

end Owned

/-- A place in a reference is in the entry of its page. -/
theorem exists_of_mem_refAt {storage : List LookupStorage} {off o : VmAddress} {p : ℕ}
    (h : o ∈ (refAt storage off p).pageOffs) :
    ∃ e ∈ storage, e.pageOff = off ∧ ∃ r ∈ e.refs, r.i = p ∧ o ∈ r.pageOffs := by
  rw [refAt] at h
  cases hentry : storage.find? (·.pageOff == off) with
  | none =>
    rw [hentry] at h
    exact absurd h List.not_mem_nil
  | some e =>
    rw [hentry, Option.map_some, Option.getD_some, LookupStorage.refAt] at h
    cases hrefs : e.refs.find? (·.i == p) with
    | none =>
      rw [hrefs] at h
      exact absurd h List.not_mem_nil
    | some r =>
      rw [hrefs] at h
      refine ⟨e, List.mem_of_find?_eq_some hentry, ?_, r, List.mem_of_find?_eq_some hrefs, ?_, h⟩
      · simpa using List.find?_some hentry
      · simpa using List.find?_some hrefs

/-- Patches in their page leave what is behind it. -/
theorem drop_patchPage {storage : List LookupStorage} (hin : InPage storage) {lookup : Lookup}
    {granted : ℕ → ℕ → ℕ → Bool} {data data' : List UInt8}
    (h : patchPage lookup storage granted data 0 = some data') :
    data'.drop PAGE_SIZE = data.drop PAGE_SIZE := by
  unfold patchPage at h
  split at h
  · rw [Option.some.inj h]
  · split at h
    · rw [Option.some.inj h]
    · split_ifs at h
      · have hdrop := drop_applyRefs hin (List.mem_of_getElem? ‹_›) (m := 1) le_rfl h
        rwa [Nat.one_mul] at hdrop
      · rw [Option.some.inj h]

/-- Two bytes are patched. -/
def twoByteMod : BinaryModInfo where
  path := dock
  patches := [{ onePatch 1 with find := [1, 1], replace := [0, 0], sized := rfl }]

/-- A section that begins with the last byte of a page. -/
def lastByteFile : File where
  memory := fun _ => 1
  findSectionBounds := fun _ _ => ⟨0, 0xFFF, 0x10000, 4⟩

end Lilu.UserPatcher
