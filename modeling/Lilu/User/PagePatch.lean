import Lilu.Prelude.Bytes
import Lilu.User.LoadFiles

/-!
# Patching a page

A page that the kernel validates is patched when it is the page of an entry. Most pages are told
apart from all entries by four of their words: the first chooses an entry, the others are compared
with the entry's, and only then the whole page is.

## Main definitions

* `loadLookups`: the choice of the four words
* `quickFilter`, `performPagePatch`: the entry that the words choose, and the patching of a buffer
* `plainPatch`: the patching of a buffer by whole pages
* `Exact`: the words never change what is patched, nor turn an entry's page away
* `Separated`: a word before the page's last one tells all pages apart

## Main results

* `loadLookups_cases`: what the choice of the words can end in
* `exact_iff`: when the patching by words is exact
-/

namespace Lilu.UserPatcher

open Lilu.Kext (CString)

/-- The flag of patches that are for single processes. -/
def LocalOnly : ℕ := 1

/-- The number of words that are compared. -/
def matchNum : ℕ := 4

/-- The 64-bit word at an offset. -/
def word (page : List UInt8) (off : ℕ) : ℕ :=
  leNat ((page.drop off).take 8)

/-! ## The choice of the words -/

/-- An offset, and what is looked for there: the words of all entries. -/
structure LookupMatch where
  off : ℕ
  values : List ℕ
  deriving DecidableEq

structure Lookup where
  first : LookupMatch
  rest : List LookupMatch
  deriving DecidableEq

/-- The words of all entries, in place of those that are there; `none` if they are outside the
page. -/
def obtainValues (storage : List LookupStorage) (off : ℕ) (values : List ℕ) : Option (List ℕ) :=
  if off + 8 ≤ PAGE_SIZE then
    some ((indexed storage).foldl (fun values p =>
      if p.1 ≥ values.length then values ++ [word p.2.page off]
      else values.set p.1 (word p.2.page off)) values)
  else none

def hasSameValues : List ℕ → Bool
  | [] => false
  | v :: values => values.any (v == ·) || hasSameValues values

/-- The search of the first word: where it stopped, and what it chose. -/
def findOff (storage : List LookupStorage) (off : ℕ) (values : List ℕ) :
    Option (ℕ × LookupMatch) :=
  if off < PAGE_SIZE then
    (obtainValues storage off values).bind fun values =>
      if hasSameValues values then findOff storage (off + 8) values
      else some (off, ⟨off, values⟩)
  -- the offset stays zero, the values are those of the last turn
  else some (off, ⟨0, values⟩)
termination_by PAGE_SIZE - off

/-- The other words: the next ones, without the first. -/
def nextMatches (storage : List LookupStorage) (off₀ : ℕ) : ℕ → ℕ → Option (List LookupMatch)
  | 0, _ => some []
  | n + 1, off =>
    let off := if off = PAGE_SIZE then 0 else off
    let off := if off = off₀ then off + 8 else off
    (obtainValues storage off []).bind fun values =>
      (nextMatches storage off₀ n (off + 8)).map (⟨off, values⟩ :: ·)

/-- `loadLookups`; `none` if it reads outside a page. -/
def loadLookups (storage : List LookupStorage) : Option Lookup :=
  (findOff storage 0 []).bind fun s =>
    (nextMatches storage s.2.off (matchNum - 1) s.1).map fun rest => ⟨s.2, rest⟩

/-! ## The patching of a buffer -/

/-- The index of the entry that a page may be of. -/
def quickFilter (lookup : Lookup) (page : List UInt8) : Option ℕ :=
  match lookup.first.values.findIdx? (· == word page lookup.first.off) with
  | some maybe =>
    if lookup.rest.all fun m => m.values[maybe]? == some (word page m.off) then some maybe
    else none
  | none => none

/-- Some bytes are written at an index. -/
def writeAt (data : List UInt8) (i : ℕ) (bytes : List UInt8) : List UInt8 :=
  data.mapIdx fun k b => if i ≤ k then bytes.getD (k - i) b else b

/-- The patch of a reference is written at all its places, if it is not `LocalOnly` and write access
is granted; `none` if there is no such patch. -/
def applyRef (granted : Bool) (mod : BinaryModInfo) (dataOff : ℕ) (data : List UInt8)
    (r : PatchRef) : Option (List UInt8) :=
  mod.patches[r.i]?.map fun patch =>
    if patch.flags &&& LocalOnly ≠ 0 then data
    else if r.pageOffs.length > 0 ∧ granted then
      r.pageOffs.foldl (fun data o => writeAt data (dataOff + o.toNat) patch.replace) data
    else data

def applyRefs (granted : ℕ → Bool) (e : LookupStorage) (dataOff : ℕ) (data : List UInt8) :
    Option (List UInt8) :=
  (indexed e.refs).foldlM (fun data r => applyRef (granted r.1) e.mod dataOff data r.2) data

/-- The page of index `n` of a buffer. -/
def pageAt (data : List UInt8) (n : ℕ) : List UInt8 :=
  (data.drop (n * PAGE_SIZE)).take PAGE_SIZE

/-- A turn of the loop over the pages. Write access is granted by page, entry and reference. -/
def patchPage (lookup : Lookup) (storage : List LookupStorage) (granted : ℕ → ℕ → ℕ → Bool)
    (data : List UInt8) (n : ℕ) : Option (List UInt8) :=
  match quickFilter lookup (pageAt data n) with
  | none => some data
  | some maybe =>
    match storage[maybe]? with
    | none => some data
    | some e =>
      if e.page = pageAt data n then applyRefs (granted n maybe) e (n * PAGE_SIZE) data
      else some data

/-- The indices of the pages that a buffer has, or begins. -/
def pagesOf (data : List UInt8) : List ℕ :=
  List.range ((data.length + PAGE_SIZE - 1) / PAGE_SIZE)

def performPagePatch (lookup : Lookup) (storage : List LookupStorage)
    (granted : ℕ → ℕ → ℕ → Bool) (data : List UInt8) : Option (List UInt8) :=
  (pagesOf data).foldlM (patchPage lookup storage granted) data

/-- The patches of all entries with a certain page, for the page of index `n`. -/
def plainPage (storage : List LookupStorage) (granted : ℕ → ℕ → ℕ → Bool) (page : List UInt8)
    (n : ℕ) (patched : List UInt8) : Option (List UInt8) :=
  ((indexed storage).filter fun e => e.2.page = page).foldlM (fun patched e =>
    applyRefs (granted n e.1) e.2 (n * PAGE_SIZE) patched) patched

/-- **The plain patching**: of every page, by all entries with the very page that the buffer had. -/
def plainPatch (storage : List LookupStorage) (granted : ℕ → ℕ → ℕ → Bool) (data : List UInt8) :
    Option (List UInt8) :=
  (pagesOf data).foldlM (fun patched n => plainPage storage granted (pageAt data n) n patched) data

/-- **Exactness**: buffers of whole pages are patched as by whole pages, and an entry's page is
never turned away. -/
structure Exact (lookup : Lookup) (storage : List LookupStorage) : Prop where
  refines : ∀ granted data, PAGE_SIZE ∣ data.length →
    performPagePatch lookup storage granted data = plainPatch storage granted data
  complete : ∀ (k : ℕ) e, storage[k]? = some e → quickFilter lookup e.page = some k

/-- The ranges of all patches lie in their page. -/
def InPage (storage : List LookupStorage) : Prop :=
  ∀ e ∈ storage, ∀ r ∈ e.refs, ∀ patch, e.mod.patches[r.i]? = some patch → ∀ o ∈ r.pageOffs,
    o.toNat + patch.size ≤ PAGE_SIZE

/-- The words of all entries at an offset. -/
def wordsAt (storage : List LookupStorage) (off : ℕ) : List ℕ :=
  storage.map fun e => word e.page off

/-- Some word before the page's last one is different in all entries. -/
def Separated (storage : List LookupStorage) : Prop :=
  ∃ off, 8 ∣ off ∧ off + 8 < PAGE_SIZE ∧ (wordsAt storage off).Nodup

variable {storage : List LookupStorage}

/-! ## What is chosen -/

/-- The words replace those of an earlier turn, or are put behind what there is. -/
theorem foldl_obtain (off : ℕ) (l : List LookupStorage) : ∀ done values : List ℕ,
    (l.zipIdx done.length).foldl (fun values p =>
        if p.2 ≥ values.length then values ++ [word p.1.page off]
        else values.set p.2 (word p.1.page off)) (done ++ values) =
      done ++ wordsAt l off ++ values.drop l.length := by
  induction l with
  | nil => simp [wordsAt]
  | cons e l ih =>
    intro done values
    have hnext := ih (done ++ [word e.page off]) values.tail
    rw [List.length_append, List.length_singleton] at hnext
    rw [List.zipIdx_cons, List.foldl_cons]
    cases values with
    | nil => simpa [wordsAt] using hnext
    | cons v values => simpa [wordsAt] using hnext

theorem obtainValues_eq {off : ℕ} (hoff : off + 8 ≤ PAGE_SIZE) {values : List ℕ}
    (h : values.length ≤ storage.length) :
    obtainValues storage off values = some (wordsAt storage off) := by
  have hfold := foldl_obtain off storage [] values
  rw [List.drop_eq_nil_of_le h, List.append_nil] at hfold
  rw [obtainValues, if_pos hoff, indexed, List.foldl_map]
  exact congrArg some hfold

theorem hasSameValues_eq_false {values : List ℕ} : hasSameValues values = false ↔ values.Nodup := by
  induction values with
  | nil => simp [hasSameValues]
  | cons v values ih =>
    rw [hasSameValues, Bool.or_eq_false_iff, ih, List.nodup_cons]
    refine and_congr_left fun _ => ?_
    rw [List.any_eq_false]
    exact ⟨fun h hv => h v hv (beq_self_eq_true v), fun h w hw heq => h (beq_iff_eq.mp heq ▸ hw)⟩

/-- What the search of the first word ends in. -/
inductive Found (storage : List LookupStorage) : ℕ × LookupMatch → Prop where
  /-- The first word that is different in all entries. -/
  | distinct (off : ℕ) (hlt : off < PAGE_SIZE) (hdvd : 8 ∣ off)
      (hnodup : (wordsAt storage off).Nodup)
      (hfirst : ∀ o < off, 8 ∣ o → ¬ (wordsAt storage o).Nodup) :
      Found storage (off, ⟨off, wordsAt storage off⟩)
  /-- No word is: the offset of the first word, with the values of the last. -/
  | same (hnone : ∀ o < PAGE_SIZE, 8 ∣ o → ¬ (wordsAt storage o).Nodup) :
      Found storage (PAGE_SIZE, ⟨0, wordsAt storage (PAGE_SIZE - 8)⟩)

theorem findOff_found (storage : List LookupStorage) (off : ℕ) (values : List ℕ)
    (hle : off ≤ PAGE_SIZE) (hdvd : 8 ∣ off)
    (hvalues : values = if off = 0 then [] else wordsAt storage (off - 8))
    (hfirst : ∀ o < off, 8 ∣ o → ¬ (wordsAt storage o).Nodup) :
    ∃ s, findOff storage off values = some s ∧ Found storage s := by
  have hlen : values.length ≤ storage.length := by
    rw [hvalues]
    split_ifs <;> simp [wordsAt]
  rw [findOff]
  split_ifs with hlt
  · have hin : off + 8 ≤ PAGE_SIZE := by
      simp only [PAGE_SIZE] at hlt ⊢
      omega
    rw [obtainValues_eq hin hlen, Option.bind_some]
    split_ifs with hsame
    · refine findOff_found storage (off + 8) _ hin (by omega) (by simp) fun o ho hdvd' => ?_
      rcases Nat.lt_or_ge o off with ho' | ho'
      · exact hfirst o ho' hdvd'
      · obtain rfl : o = off := by omega
        rw [← hasSameValues_eq_false, hsame]
        simp
    · exact ⟨_, rfl, .distinct off hlt hdvd
        (hasSameValues_eq_false.mp (by simpa using hsame)) hfirst⟩
  · obtain rfl : off = PAGE_SIZE := by omega
    rw [hvalues, if_neg (by simp [PAGE_SIZE])]
    exact ⟨_, rfl, .same hfirst⟩
termination_by PAGE_SIZE - off

/-- The other words are in the page, unless the first is the page's last one. -/
theorem nextMatches_eq (storage : List LookupStorage) {off₀ : ℕ} (h₀ : off₀ + 8 < PAGE_SIZE)
    (hdvd₀ : 8 ∣ off₀) (n : ℕ) :
    ∀ off, off ≤ PAGE_SIZE → 8 ∣ off → ∃ rest, nextMatches storage off₀ n off = some rest ∧
      ∀ m ∈ rest, m.values = wordsAt storage m.off := by
  induction n with
  | zero => exact fun _ _ _ => ⟨[], rfl, nofun⟩
  | succ n ih =>
    intro off hle hdvd
    rw [nextMatches]
    set off₁ := if off = PAGE_SIZE then 0 else off with h₁
    set off₂ := if off₁ = off₀ then off₁ + 8 else off₁ with h₂
    have hin : off₂ + 8 ≤ PAGE_SIZE ∧ 8 ∣ off₂ := by
      have hdvd₁ : 8 ∣ off₁ ∧ off₁ < PAGE_SIZE := by
        rw [h₁]
        split_ifs with hend
        · exact ⟨Nat.dvd_zero 8, by simp [PAGE_SIZE]⟩
        · exact ⟨hdvd, by omega⟩
      rw [h₂]
      simp only [PAGE_SIZE] at h₀ hdvd₁ ⊢
      split_ifs with heq <;> omega
    rw [obtainValues_eq hin.1 (Nat.zero_le _)]
    obtain ⟨rest, hrest, hvalues⟩ := ih (off₂ + 8) hin.1 (by omega)
    refine ⟨⟨off₂, wordsAt storage off₂⟩ :: rest, by simp [hrest], fun m hm => ?_⟩
    rcases List.mem_cons.mp hm with rfl | hm
    · rfl
    · exact hvalues m hm

/-- After the page's last word there is none: the next turn reads outside the page. -/
theorem nextMatches_last (n : ℕ) :
    nextMatches storage (PAGE_SIZE - 8) (n + 1) (PAGE_SIZE - 8) = none := by
  simp [nextMatches, obtainValues, PAGE_SIZE]

/-- **What the choice of the words can end in**: words of all entries, the first of which is
different in all; or a first offset whose values are from elsewhere, and no word that is different
in all entries. -/
theorem loadLookups_cases (storage : List LookupStorage) :
    (Separated storage ∧ ∃ lookup, loadLookups storage = some lookup ∧
      lookup.first.values = wordsAt storage lookup.first.off ∧
      (wordsAt storage lookup.first.off).Nodup ∧
      ∀ m ∈ lookup.rest, m.values = wordsAt storage m.off) ∨
    (¬ Separated storage ∧ ∀ lookup, loadLookups storage = some lookup →
      lookup.first = ⟨0, wordsAt storage (PAGE_SIZE - 8)⟩ ∧
        ¬ (wordsAt storage (PAGE_SIZE - 8)).Nodup) := by
  obtain ⟨s, hs, hfound⟩ := findOff_found storage 0 [] (Nat.zero_le _)
    (Nat.dvd_zero 8) rfl nofun
  have hload : loadLookups storage =
      (nextMatches storage s.2.off (matchNum - 1) s.1).map fun rest => ⟨s.2, rest⟩ := by
    rw [loadLookups, hs, Option.bind_some]
  cases hfound with
  | distinct off hlt hdvd hnodup hfirst =>
    by_cases hlast : off + 8 < PAGE_SIZE
    · obtain ⟨rest, hrest, hvalues⟩ := nextMatches_eq storage hlast hdvd
        (matchNum - 1) off hlt.le hdvd
      refine .inl ⟨⟨off, hdvd, hlast, hnodup⟩, ⟨⟨off, wordsAt storage off⟩, rest⟩, ?_, rfl, hnodup,
        hvalues⟩
      rw [hload, hrest, Option.map_some]
    · obtain rfl : off = PAGE_SIZE - 8 := by
        simp only [PAGE_SIZE] at hlt hlast ⊢
        omega
      refine .inr ⟨?_, fun lookup h => ?_⟩
      · rintro ⟨o, hodvd, hoin, honodup⟩
        exact hfirst o (by omega) hodvd honodup
      · rw [hload] at h
        simp [nextMatches_last, matchNum] at h
  | same hnone =>
    refine .inr ⟨?_, fun lookup h => ?_⟩
    · rintro ⟨o, hodvd, hoin, honodup⟩
      exact hnone o (by omega) hodvd honodup
    · rw [hload] at h
      obtain ⟨rest, -, rfl⟩ := Option.map_eq_some_iff.mp h
      exact ⟨rfl, hnone _ (by simp [PAGE_SIZE]) (by simp [PAGE_SIZE])⟩

/-! ## What the filter lets pass -/

variable {lookup : Lookup}

theorem quickFilter_cases {page : List UInt8} {k : ℕ} (h : quickFilter lookup page = some k) :
    lookup.first.values.findIdx? (· == word page lookup.first.off) = some k := by
  unfold quickFilter at h
  split at h
  next maybe hmaybe =>
    split_ifs at h
    obtain rfl := Option.some.inj h
    exact hmaybe
  next => cases h

/-- Words of all entries, the first different in all, let an entry's own page pass. -/
theorem quickFilter_page (hvalues : lookup.first.values = wordsAt storage lookup.first.off)
    (hnodup : (wordsAt storage lookup.first.off).Nodup)
    (hrest : ∀ m ∈ lookup.rest, m.values = wordsAt storage m.off) {k : ℕ} {e : LookupStorage}
    (hk : storage[k]? = some e) : quickFilter lookup e.page = some k := by
  have hat : ∀ off, (wordsAt storage off)[k]? = some (word e.page off) := fun off => by
    rw [wordsAt, List.getElem?_map, hk, Option.map_some]
  have hfirst : lookup.first.values.findIdx? (· == word e.page lookup.first.off) = some k := by
    obtain ⟨hlt, hget⟩ := List.getElem?_eq_some_iff.mp (hat lookup.first.off)
    rw [hvalues, List.findIdx?_eq_some_iff_getElem]
    refine ⟨hlt, by simp [hget], fun j hj heq => ?_⟩
    rw [beq_iff_eq, ← hget] at heq
    exact hj.ne ((List.Nodup.getElem_inj_iff hnodup).mp heq)
  have hall : (lookup.rest.all fun m => m.values[k]? == some (word e.page m.off)) = true := by
    rw [List.all_eq_true]
    intro m hm
    rw [hrest m hm, hat, beq_self_eq_true]
  simp [quickFilter, hfirst, hall]

/-- If every entry's page passes, then the values of the first word are different. -/
theorem nodup_of_complete {off : ℕ} (hvalues : lookup.first.values = wordsAt storage off)
    (hcomplete : ∀ (k : ℕ) e, storage[k]? = some e → quickFilter lookup e.page = some k) :
    (wordsAt storage off).Nodup := by
  have hlen : lookup.first.values.length = storage.length := by simp [hvalues, wordsAt]
  rw [← hvalues, List.nodup_iff_injective_getElem]
  -- the filter takes the first index with the value, so an index is the first one of its value
  have hle : ∀ i j : Fin lookup.first.values.length,
      lookup.first.values[i] = lookup.first.values[j] → i ≤ j := by
    intro i j heq
    have hi : i.1 < storage.length := hlen ▸ i.2
    obtain ⟨_, hword, hbefore⟩ := List.findIdx?_eq_some_iff_getElem.mp
      (quickFilter_cases (hcomplete i storage[i] (List.getElem?_eq_getElem hi)))
    by_contra hlt
    refine hbefore j (not_le.mp hlt) ?_
    have hword' : lookup.first.values[i] = word storage[i].page lookup.first.off := by
      simpa using hword
    exact beq_iff_eq.mpr (heq.symm.trans hword')
  exact fun i j heq => le_antisymm (hle i j heq) (hle j i heq.symm)

/-! ## What patches leave -/

theorem drop_writeAt {data bytes : List UInt8} {i m : ℕ} (h : i + bytes.length ≤ m) :
    (writeAt data i bytes).drop m = data.drop m := by
  refine List.ext_getElem? fun k => ?_
  rw [List.getElem?_drop, List.getElem?_drop, writeAt, List.getElem?_mapIdx]
  rcases data[m + k]? with _ | b
  · rfl
  · have hnone : bytes[m + k - i]? = none := List.getElem?_eq_none (by omega)
    rw [Option.map_some, if_pos (by omega), List.getD_eq_getElem?_getD, hnone]
    rfl

theorem drop_applyRef {granted : Bool} {mod : BinaryModInfo} {dataOff m : ℕ}
    {data data' : List UInt8} {r : PatchRef}
    (hin : ∀ patch, mod.patches[r.i]? = some patch → ∀ o ∈ r.pageOffs,
      dataOff + o.toNat + patch.size ≤ m)
    (h : applyRef granted mod dataOff data r = some data') : data'.drop m = data.drop m := by
  obtain ⟨patch, hpatch, rfl⟩ := Option.map_eq_some_iff.mp h
  have hplaces : ∀ (places : List VmAddress) (data : List UInt8), (∀ o ∈ places,
      dataOff + o.toNat + patch.size ≤ m) → (places.foldl (fun data o =>
        writeAt data (dataOff + o.toNat) patch.replace) data).drop m = data.drop m := by
    intro places
    induction places with
    | nil => exact fun _ _ => rfl
    | cons o places ih =>
      intro data hplaces
      rw [List.foldl_cons, ih _ fun o' ho' => hplaces o' (List.mem_cons_of_mem _ ho')]
      refine drop_writeAt ?_
      rw [patch.sized]
      exact hplaces o List.mem_cons_self
  split_ifs
  · rfl
  · exact hplaces _ _ (hin patch hpatch)
  · rfl

/-- An entry's patches leave all bytes after their page. -/
theorem drop_applyRefs (hin : InPage storage) {e : LookupStorage} (he : e ∈ storage)
    {granted : ℕ → Bool} {n m : ℕ} (hm : n + 1 ≤ m) {data data' : List UInt8}
    (h : applyRefs granted e (n * PAGE_SIZE) data = some data') :
    data'.drop (m * PAGE_SIZE) = data.drop (m * PAGE_SIZE) := by
  have hend : (n + 1) * PAGE_SIZE ≤ m * PAGE_SIZE := Nat.mul_le_mul_right _ hm
  have hrefs := foldlM_partial
    (fun (l : List (ℕ × PatchRef)) (patched : List UInt8) => (∀ r ∈ l, r.2 ∈ e.refs) ∧
      patched.drop (m * PAGE_SIZE) = data.drop (m * PAGE_SIZE))
    (fun r l s s' hs hrun => ⟨fun q hq => hs.1 q (List.mem_cons_of_mem _ hq), by
      rw [← hs.2]
      refine drop_applyRef (fun patch hpatch o ho => ?_) hrun
      have := hin e he r.2 (hs.1 r List.mem_cons_self) patch hpatch o ho
      rw [Nat.add_mul, Nat.one_mul] at hend
      omega⟩)
    ⟨fun r hr => List.mem_of_getElem? (mem_indexed hr), rfl⟩ h
  exact hrefs.2

/-! ## The patching of a page -/

theorem mem_indexed_iff {α : Type*} {l : List α} {i : ℕ} {a : α} :
    (i, a) ∈ indexed l ↔ l[i]? = some a := by
  refine ⟨mem_indexed, fun h => List.mem_map.mpr ⟨(a, i), ?_, rfl⟩⟩
  exact List.mem_zipIdx_iff_getElem?.mpr h

/-- Each index is there once. -/
theorem nodup_map_fst_indexed {α : Type*} (l : List α) : ((indexed l).map Prod.fst).Nodup := by
  have hfst : (indexed l).map Prod.fst = List.range' 0 l.length := by
    rw [indexed, List.map_map]
    exact List.zipIdx_map_snd 0 l
  exact hfst ▸ List.nodup_range'

theorem nodup_indexed {α : Type*} (l : List α) : (indexed l).Nodup :=
  List.Nodup.of_map Prod.fst (nodup_map_fst_indexed l)

theorem eq_singleton_of_nodup {α : Type*} {l : List α} {a : α} (hl : l.Nodup) (ha : a ∈ l)
    (h : ∀ b ∈ l, b = a) : l = [a] := by
  obtain ⟨n, hn⟩ : ∃ n, l = List.replicate n a := ⟨_, List.eq_replicate_of_mem h⟩
  subst hn
  have hone : n ≤ 1 := List.nodup_replicate.mp hl
  have hpos : n ≠ 0 := (List.mem_replicate.mp ha).1
  obtain rfl : n = 1 := by omega
  rfl

/-- The entry of a page, if there is one, is the only one that a page of it is patched by. -/
theorem patchPage_eq
    (hcomplete : ∀ (k : ℕ) e, storage[k]? = some e → quickFilter lookup e.page = some k)
    (granted : ℕ → ℕ → ℕ → Bool) (data : List UInt8) (n : ℕ) :
    patchPage lookup storage granted data n =
      plainPage storage granted (pageAt data n) n data := by
  rw [plainPage]
  by_cases hpage : ∃ (k : ℕ) (e : LookupStorage), storage[k]? = some e ∧ e.page = pageAt data n
  · obtain ⟨k, e, hk, hpage⟩ := hpage
    have hfilter := hcomplete k e hk
    have hone : ((indexed storage).filter fun e => e.2.page = pageAt data n) = [(k, e)] := by
      refine eq_singleton_of_nodup ((nodup_indexed storage).filter _) ?_ ?_
      · exact List.mem_filter.mpr ⟨mem_indexed_iff.mpr hk, by simpa using hpage⟩
      · rintro ⟨k', e'⟩ hmem
        obtain ⟨hk', hpage'⟩ := List.mem_filter.mp hmem
        have hpage' : e'.page = e.page := by simpa [hpage] using hpage'
        have hfilter' := hcomplete k' e' (mem_indexed_iff.mp hk')
        rw [hpage', hfilter] at hfilter'
        obtain rfl := Option.some.inj hfilter'
        rw [Option.some.inj ((mem_indexed_iff.mp hk').symm.trans hk)]
    rw [hpage] at hfilter
    rw [hone]
    simp [patchPage, hfilter, hk, hpage]
  · -- whatever passes the filter, its page is not the buffer's
    have hnone : ((indexed storage).filter fun e => e.2.page = pageAt data n) = [] := by
      rw [List.filter_eq_nil_iff]
      rintro ⟨k, e⟩ hmem heq
      exact hpage ⟨k, e, mem_indexed_iff.mp hmem, by simpa using heq⟩
    rw [hnone, patchPage]
    rcases quickFilter lookup (pageAt data n) with _ | k
    · rfl
    · dsimp only
      rcases hk : storage[k]? with _ | e
      · rfl
      · exact if_neg fun heq => hpage ⟨k, e, hk, heq⟩

theorem pageAt_congr {data data' : List UInt8} {n : ℕ}
    (h : data'.drop (n * PAGE_SIZE) = data.drop (n * PAGE_SIZE)) : pageAt data' n = pageAt data n := by
  rw [pageAt, pageAt, h]

/-- The patches of a page leave the pages after it. -/
theorem drop_plainPage (hin : InPage storage) {granted : ℕ → ℕ → ℕ → Bool} {page : List UInt8}
    {n : ℕ} {patched next : List UInt8} (h : plainPage storage granted page n patched = some next) :
    next.drop ((n + 1) * PAGE_SIZE) = patched.drop ((n + 1) * PAGE_SIZE) := by
  have hend := foldlM_partial
    (fun (l : List (ℕ × LookupStorage)) (next : List UInt8) => (∀ e ∈ l, e.2 ∈ storage) ∧
      next.drop ((n + 1) * PAGE_SIZE) = patched.drop ((n + 1) * PAGE_SIZE))
    (fun e l s s' hs hrun => ⟨fun q hq => hs.1 q (List.mem_cons_of_mem _ hq),
      (drop_applyRefs hin (hs.1 e List.mem_cons_self) le_rfl hrun).trans hs.2⟩)
    ⟨fun e he => List.mem_of_getElem? (mem_indexed (List.mem_filter.mp he).1), rfl⟩ h
  exact hend.2

/-- The pages from `n` on are those of the buffer until their turn. -/
theorem foldlM_patchPage (hin : InPage storage)
    (hcomplete : ∀ (k : ℕ) e, storage[k]? = some e → quickFilter lookup e.page = some k)
    (granted : ℕ → ℕ → ℕ → Bool) (data : List UInt8) (len : ℕ) : ∀ n patched,
    patched.drop (n * PAGE_SIZE) = data.drop (n * PAGE_SIZE) →
    (List.range' n len).foldlM (patchPage lookup storage granted) patched =
      (List.range' n len).foldlM (fun patched n =>
        plainPage storage granted (pageAt data n) n patched) patched := by
  induction len with
  | zero => exact fun _ _ _ => rfl
  | succ len ih =>
    intro n patched hrest
    have hpage := patchPage_eq hcomplete granted patched n
    rw [pageAt_congr hrest] at hpage
    rw [List.range'_succ, List.foldlM_cons, List.foldlM_cons, hpage]
    rcases hrun : plainPage storage granted (pageAt data n) n patched with _ | next
    · rfl
    · refine ih (n + 1) next ?_
      have hmore : (n + 1) * PAGE_SIZE = n * PAGE_SIZE + PAGE_SIZE := Nat.succ_mul n PAGE_SIZE
      rw [drop_plainPage hin hrun, hmore, ← List.drop_drop, hrest, List.drop_drop]

theorem exact_of_complete (hin : InPage storage)
    (hcomplete : ∀ (k : ℕ) e, storage[k]? = some e → quickFilter lookup e.page = some k) :
    Exact lookup storage := by
  refine ⟨fun granted data _ => ?_, hcomplete⟩
  rw [performPagePatch, plainPatch, pagesOf, List.range_eq_range']
  exact foldlM_patchPage hin hcomplete granted data _ 0 data rfl

section Twins

def twinMod : BinaryModInfo :=
  ⟨[116, 119, 105, 110], [onePatch 1, { onePatch 0 with segment := 1, sized := rfl }]⟩

/-- Two sections, the second 16 bytes into its page. Both pages begin with a 1, all other bytes are
zero. -/
def twinFile : File where
  memory := fun a => if a = 0x10000 ∨ a = 0x20000 then 1 else 0
  findSectionBounds := fun segment _ =>
    if segment = 0 then ⟨0, 0, 0x10000, 3⟩ else ⟨0, 0x10, 0x20010, 3⟩

theorem word_bytes {file : File} {a : VmAddress} {n off : ℕ} (h : off + 8 ≤ n) :
    word (file.bytes a n) off = leNat (file.bytes (a + BitVec.ofNat 64 off) 8) := by
  have hslice : ((file.bytes a n).drop off).take 8 = file.bytes (a + BitVec.ofNat 64 off) 8 := by
    refine List.ext_getElem? fun k => ?_
    rw [List.getElem?_take]
    split_ifs with hk
    · rw [List.getElem?_drop, getElem?_bytes (by omega), getElem?_bytes hk, BitVec.add_assoc,
        BitVec.ofNat_add]
    · exact (List.getElem?_eq_none (by simpa [File.bytes] using hk)).symm
  rw [word, hslice]

/-- A file of which both pages are an entry's: what the entries of a run are. -/
theorem exists_twins : ∃ a b : LookupStorage,
    loadFilesForPatching (fun _ => {}) [twinMod] (fun _ => some twinFile) 10 = some [a, b] ∧
      (a.mod = twinMod ∧ a.refs = [⟨0, [0], [0]⟩] ∧ a.pageOff = 0 ∧
        ∀ u ∈ a.users, u = (0, 0, 0x10000)) ∧
      (b.mod = twinMod ∧ b.refs = [⟨1, [0x10], [0x10]⟩] ∧ b.pageOff = -0x10 ∧
        ∀ u ∈ b.users, u = (0, 0x10, 0x20010)) := by
  refine ⟨_, _, rfl, ⟨rfl, rfl, rfl, ?_⟩, rfl, rfl, rfl, ?_⟩
  · decide +kernel
  · decide +kernel

theorem twinPage {storage : List LookupStorage} (hrun : loadFilesForPatching (fun _ => {}) [twinMod]
      (fun _ => some twinFile) 10 = some storage) {e : LookupStorage} (he : e ∈ storage)
    {s p : VmAddress} (husers : ∀ u ∈ e.users, u = (0, s, p)) :
    e.page = twinFile.bytes (p + e.pageOff) PAGE_SIZE := by
  obtain ⟨x, -, file, hfound, hoff, horigin, hpage⟩ :=
    (loadFilesForPatching_runs hrun).built.entry e he
  obtain rfl : twinFile = file := Option.some.inj hfound.read
  have hptr : x.bounds.sectionptr = p := congrArg (·.2.2) (husers _ horigin)
  rw [hpage, hptr, hoff]

theorem twinPage_eq : twinFile.bytes 0x20000 PAGE_SIZE = twinFile.bytes 0x10000 PAGE_SIZE := by
  refine List.map_congr_left fun k hk => ?_
  have hk : k < 4096 := List.mem_range.mp hk
  have hmem : ∀ a : VmAddress, a = 0x10000 ∨ a = 0x20000 →
      twinFile.memory (a + BitVec.ofNat 64 k) = if k = 0 then 1 else 0 := by
    intro a ha
    refine if_congr ?_ rfl rfl
    rcases ha with rfl | rfl <;> constructor <;> intro h <;> bv_omega
  rw [hmem _ (.inr rfl), hmem _ (.inl rfl)]

/-- A page that begins with a 1, with a last word of zero. -/
theorem twinPage_words : (twinFile.bytes 0x10000 PAGE_SIZE)[0]? = some 1 ∧
    word (twinFile.bytes 0x10000 PAGE_SIZE) 0 = 1 ∧
    word (twinFile.bytes 0x10000 PAGE_SIZE) (PAGE_SIZE - 8) = 0 := by
  refine ⟨getElem?_bytes (by simp [PAGE_SIZE]), ?_, ?_⟩
  · rw [word_bytes (by simp [PAGE_SIZE])]
    decide
  · rw [word_bytes (by simp [PAGE_SIZE])]
    decide

/-- Both entries have the page, and a patch that is written in it. -/
theorem exists_twinEntries : ∃ a b : LookupStorage,
    loadFilesForPatching (fun _ => {}) [twinMod] (fun _ => some twinFile) 10 = some [a, b] ∧
      InPage [a, b] ∧ a.page = twinFile.bytes 0x10000 PAGE_SIZE ∧
      b.page = twinFile.bytes 0x10000 PAGE_SIZE ∧
      (∀ dataOff data, applyRefs (fun _ => true) a dataOff data =
        some (writeAt data dataOff [0])) ∧
      ∀ dataOff data, applyRefs (fun _ => true) b dataOff data =
        some (writeAt data (dataOff + 16) [0]) := by
  obtain ⟨a, b, hrun, ⟨hamod, harefs, haoff, hausers⟩, hbmod, hbrefs, hboff, hbusers⟩ := exists_twins
  have hpage : ∀ e ∈ [a, b], ∀ (s p : VmAddress), (∀ u ∈ e.users, u = (0, s, p)) →
      ∀ q, p + e.pageOff = q → e.page = twinFile.bytes q PAGE_SIZE := by
    rintro e he s p husers q rfl
    exact twinPage hrun he husers
  refine ⟨a, b, hrun, ?_, ?_, ?_, fun dataOff data => ?_, fun dataOff data => ?_⟩
  · intro e he r hr patch hpatch o ho
    rcases List.mem_pair.mp he with rfl | rfl
    · rw [harefs, List.mem_singleton] at hr
      subst hr
      rw [hamod] at hpatch
      obtain rfl := Option.some.inj hpatch
      obtain rfl := List.mem_singleton.mp ho
      decide
    · rw [hbrefs, List.mem_singleton] at hr
      subst hr
      rw [hbmod] at hpatch
      obtain rfl := Option.some.inj hpatch
      obtain rfl := List.mem_singleton.mp ho
      decide
  · refine hpage a (by simp) _ _ hausers _ ?_
    rw [haoff]
    decide
  · rw [← twinPage_eq]
    refine hpage b (by simp) _ _ hbusers _ ?_
    rw [hboff]
    decide
  · simp [applyRefs, harefs, indexed, applyRef, hamod, twinMod, onePatch]
  · simp [applyRefs, hbrefs, indexed, applyRef, hbmod, twinMod, onePatch]

/-- With equal pages, the offset of the first word is zero and its values are those of the last. -/
theorem loadLookups_twins {a b : LookupStorage} (hpage : a.page = b.page) : ∃ rest,
    loadLookups [a, b] = some ⟨⟨0, wordsAt [a, b] (PAGE_SIZE - 8)⟩, rest⟩ := by
  obtain ⟨s, hs, hfound⟩ := findOff_found [a, b] 0 [] (Nat.zero_le _)
    (Nat.dvd_zero 8) rfl nofun
  cases hfound with
  | distinct off _ _ hnodup =>
    refine absurd hnodup ?_
    simp [wordsAt, hpage]
  | same =>
    obtain ⟨rest, hrest, -⟩ := nextMatches_eq [a, b] (by simp [PAGE_SIZE])
      (Nat.dvd_zero 8) (matchNum - 1) PAGE_SIZE le_rfl (by simp [PAGE_SIZE])
    refine ⟨rest, ?_⟩
    rw [loadLookups, hs, Option.bind_some, hrest, Option.map_some]

end Twins

end Lilu.UserPatcher
