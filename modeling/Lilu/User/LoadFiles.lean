import Lilu.Prelude.Loop
import Lilu.Prelude.Keyed
import Lilu.Kext.Listener

/-!
# Binary patches and the pages they belong to

The files that plugins patch are read once. Every place of a section where a patch applies is put
down with the page it lies in: an entry has a copy of the page and, for each patch, the offsets of
its places in the page. Entries are looked up by the offset of the page from the section's start,
whatever section or file the page is from.

## Main definitions

* `Finding`: a place where a patch applies
* `LookupStorage`, `PatchRef`: an entry, and the places of one patch in it
* `loadFilesForPatching`: the loops over binaries, patches and places
* `Consistent`, `Unmerged`: the places of an entry have the bytes of its binary's patches, and all
  of them are from one section of one file
* `Separate`: findings at equal page offsets are from the same section of the same file

## Main results

* `Built.record`: what a finding adds to the entries
* `loadFilesForPatching_keeps`: what is kept when a finding is recorded holds in the end
* `consistent_iff`: when the entries are consistent
-/

namespace Lilu.UserPatcher

open Lilu.Kext (CString)

abbrev VmAddress := BitVec 64

def PAGE_SIZE : ℕ := 4096

/-- The section of a patch that is not asked for. -/
def SectionDisabled : ℕ := 0

/-- The number of segments that patches can name. -/
def SegmentTotal : ℕ := 8

/-- A patch of a binary; what it finds and what replaces it have the same size. -/
structure BinaryModPatch where
  cpu : ℕ
  flags : ℕ
  find : List UInt8
  replace : List UInt8
  skip : ℕ
  count : ℕ
  segment : ℕ
  section_ : ℕ
  sized : replace.length = find.length
  deriving DecidableEq

def BinaryModPatch.size (p : BinaryModPatch) : ℕ :=
  p.find.length

structure BinaryModInfo where
  path : CString
  patches : List BinaryModPatch
  deriving DecidableEq

/-- What `findSectionBounds` finds in a file; without a section all of it is zero. -/
structure SectionBounds where
  vmsegment : VmAddress
  vmsection : VmAddress
  sectionptr : VmAddress
  size : ℕ
  deriving DecidableEq

/-- A file that was read: the memory its buffer lies in, and the sections of its segments. -/
structure File where
  memory : VmAddress → UInt8
  findSectionBounds : (segment cpu : ℕ) → SectionBounds

/-- The bytes from an address on. -/
def File.bytes (file : File) (a : VmAddress) (n : ℕ) : List UInt8 :=
  (List.range n).map fun k => file.memory (a + BitVec.ofNat 64 k)

/-! ## Findings -/

/-- A place where the patch of index `patch` of the binary of index `mod` applies: `sectOff` bytes
into the section. -/
structure Finding where
  mod : ℕ
  patch : ℕ
  bounds : SectionBounds
  sectOff : ℕ
  deriving DecidableEq

namespace Finding

/-- The pointer to the place. -/
def start (x : Finding) : VmAddress :=
  x.bounds.sectionptr + BitVec.ofNat 64 x.sectOff

/-- The page of the place. -/
def vmpage (x : Finding) : VmAddress :=
  (x.bounds.vmsection + BitVec.ofNat 64 x.sectOff) &&& -BitVec.ofNat 64 PAGE_SIZE

def pageOff (x : Finding) : VmAddress :=
  x.vmpage - x.bounds.vmsection

def valueOff (x : Finding) : VmAddress :=
  x.start - x.pageOff - x.bounds.sectionptr

def segOff (x : Finding) : VmAddress :=
  x.bounds.vmsection - x.bounds.vmsegment + BitVec.ofNat 64 x.sectOff

/-- The file and the section of a place. -/
def origin (x : Finding) : ℕ × VmAddress × VmAddress :=
  (x.mod, x.bounds.vmsection, x.bounds.sectionptr)

end Finding

/-! ## Entries -/

/-- The places of a patch in a page. -/
structure PatchRef where
  i : ℕ
  pageOffs : List VmAddress := []
  segOffs : List VmAddress := []
  deriving DecidableEq

/-- An entry. The origins of the places that were put down in it are kept beside what the code
has. -/
structure LookupStorage where
  mod : BinaryModInfo
  refs : List PatchRef := []
  page : List UInt8
  pageOff : VmAddress
  users : List (ℕ × VmAddress × VmAddress)
  deriving DecidableEq

/-- Which of the memory that a finding needs is granted. -/
structure Grant where
  create : Bool := true
  alloc : Bool := true
  push : Bool := true
  createRef : Bool := true
  pushRef : Bool := true
  pushPageOff : Bool := true
  pushSegOff : Bool := true

/-- The offsets of a place are added, each if there is memory for it. -/
def PatchRef.push (r : PatchRef) (g : Grant) (x : Finding) : PatchRef :=
  { r with
    pageOffs := if g.pushPageOff then r.pageOffs ++ [x.valueOff] else r.pageOffs
    segOffs := if g.pushSegOff then r.segOffs ++ [x.segOff] else r.segOffs }

/-- A place is put down in an entry, in the reference of its patch or in a new one. -/
def LookupStorage.addRef (e : LookupStorage) (g : Grant) (x : Finding) : Option LookupStorage :=
  match e.refs.findIdx? (·.i == x.patch) with
  | some r =>
    some { e with refs := e.refs.modify r (·.push g x), users := e.users ++ [x.origin] }
  | none =>
    if g.createRef && g.pushRef then
      some { e with
        refs := e.refs ++ [PatchRef.push { i := x.patch } g x]
        users := e.users ++ [x.origin] }
    else none

/-- The entry of a place: the first one with its page offset, or a new one with a copy of the page.
Without memory for it, or for the reference, the place is tried again. -/
def record (g : Grant) (mod : BinaryModInfo) (file : File) (x : Finding)
    (storage : List LookupStorage) : List LookupStorage × Bool :=
  match storage.findIdx? (·.pageOff == x.pageOff) with
  | some k =>
    match storage[k]?.bind (·.addRef g x) with
    | some e => (storage.set k e, true)
    | none => (storage, false)
  | none =>
    if g.create && g.alloc && g.push then
      let e : LookupStorage :=
        { mod
          page := file.bytes (x.bounds.sectionptr + x.pageOff) PAGE_SIZE
          pageOff := x.pageOff
          users := [x.origin] }
      match e.addRef g x with
      | some e => (storage ++ [e], true)
      | none => (storage ++ [e], false)
    else (storage, false)

/-! ## The loops -/

/-- The state of the loop over a section: the place, the matches to skip and to use, the entries,
and how many turns were taken in all. -/
structure Scan where
  sectOff : ℕ
  skip : ℕ
  count : ℕ
  storage : List LookupStorage
  turns : ℕ

variable (grant : ℕ → Grant) (mods : List BinaryModInfo)

/-- A turn of the loop over a section, for the patch of index `p` of the binary of index `i`. -/
def scanTurn (file : File) (i p : ℕ) (mod : BinaryModInfo) (patch : BinaryModPatch)
    (bounds : SectionBounds) (s : Scan) : Turn Scan (List LookupStorage × ℕ) :=
  if s.sectOff + patch.size < bounds.size ∧ s.count ≠ 0 then
    let x : Finding := ⟨i, p, bounds, s.sectOff⟩
    let s := { s with turns := s.turns + 1 }
    if file.bytes x.start patch.size = patch.find then
      if s.skip = 0 then
        match record (grant s.turns) mod file x s.storage with
        | (storage, true) =>
          .again { s with sectOff := s.sectOff + 1, count := s.count - 1, storage }
        -- `continue`: the place is not left
        | (storage, false) => .again { s with storage }
      else .again { s with sectOff := s.sectOff + 1, skip := s.skip - 1 }
    else .again { s with sectOff := s.sectOff + 1 }
  else .leave (s.storage, s.turns)

/-- The body of the loop over the patches of a binary; `none` if it takes more turns than
allowed. -/
def loadPatch (fuel : ℕ) (file : File) (i : ℕ) (mod : BinaryModInfo) (s : List LookupStorage × ℕ)
    (p : ℕ × BinaryModPatch) : Option (List LookupStorage × ℕ) :=
  if p.2.section_ = SectionDisabled then some s
  else if p.2.segment ≥ SegmentTotal then some s
  else
    let bounds := file.findSectionBounds p.2.segment p.2.cpu
    if bounds.size = 0 then some s
    else
      loop (scanTurn grant file i p.1 mod p.2 bounds) fuel
        ⟨0, p.2.skip, p.2.count, s.1, s.2⟩

/-- The list with the index of each element. -/
def indexed {α : Type*} (l : List α) : List (ℕ × α) :=
  l.zipIdx.map fun (a, i) => (i, a)

/-- The body of the loop over the binaries. -/
def loadFile (readFileToBuffer : CString → Option File) (fuel : ℕ) (s : List LookupStorage × ℕ)
    (m : ℕ × BinaryModInfo) : Option (List LookupStorage × ℕ) :=
  if m.2.patches.any (·.section_ ≠ SectionDisabled) then
    match readFileToBuffer m.2.path with
    | none => some s
    | some file => (indexed m.2.patches).foldlM (loadPatch grant fuel file m.1 m.2) s
  else some s

/-- `loadFilesForPatching`: the entries it builds, if it ends. -/
def loadFilesForPatching (readFileToBuffer : CString → Option File) (fuel : ℕ) :
    Option (List LookupStorage) :=
  ((indexed mods).foldlM (loadFile grant readFileToBuffer fuel) ([], 0)).map Prod.fst

/-! ## All findings -/

variable (readFileToBuffer : CString → Option File)

/-- The patch applies at the place. -/
def Finding.applies (file : File) (patch : BinaryModPatch) (x : Finding) : Bool :=
  file.bytes x.start patch.size = patch.find

/-- The matches of a patch from `sectOff` on, without those to skip and those beyond the count. -/
def matchesFrom (file : File) (i p : ℕ) (patch : BinaryModPatch) (bounds : SectionBounds)
    (sectOff skip count : ℕ) : List Finding :=
  ((((List.range' sectOff (bounds.size - patch.size - sectOff)).map fun k =>
    (⟨i, p, bounds, k⟩ : Finding)).filter (Finding.applies file patch)).drop skip).take count

/-- The findings of a patch. -/
def patchFindings (file : File) (i : ℕ) (p : ℕ × BinaryModPatch) : List Finding :=
  if p.2.section_ = SectionDisabled then []
  else if p.2.segment ≥ SegmentTotal then []
  else
    let bounds := file.findSectionBounds p.2.segment p.2.cpu
    if bounds.size = 0 then []
    else matchesFrom file i p.1 p.2 bounds 0 p.2.skip p.2.count

/-- The findings of a binary. -/
def fileFindings (m : ℕ × BinaryModInfo) : List Finding :=
  if m.2.patches.any (·.section_ ≠ SectionDisabled) then
    match readFileToBuffer m.2.path with
    | none => []
    | some file => (indexed m.2.patches).flatMap (patchFindings file m.1)
  else []

/-- **All findings**, in the order of the loops. -/
def findings : List Finding :=
  (indexed mods).flatMap (fileFindings readFileToBuffer)

/-! ## Consistent entries -/

/-- **Self-consistency**: the places of a reference are places of a patch of the entry's binary, and
the page has there what the patch finds, as far as it lies in the page. -/
def Consistent (storage : List LookupStorage) : Prop :=
  ∀ e ∈ storage, ∀ r ∈ e.refs, ∀ o ∈ r.pageOffs, ∃ patch, e.mod.patches[r.i]? = some patch ∧
    ∀ k < patch.size, o.toNat + k < PAGE_SIZE → e.page[o.toNat + k]? = patch.find[k]?

/-- All places of an entry are from one section of one file. -/
def Unmerged (storage : List LookupStorage) : Prop :=
  ∀ e ∈ storage, ∀ u ∈ e.users, ∀ v ∈ e.users, u = v

/-- Findings at one page offset are from one section of one file. -/
def Separate : Prop :=
  ∀ x ∈ findings mods readFileToBuffer, ∀ y ∈ findings mods readFileToBuffer,
    x.pageOff = y.pageOff → x.origin = y.origin

/-! ## The turns of the loop over a section -/

section Scan

variable {file : File} {i p : ℕ} {patch : BinaryModPatch} {bounds : SectionBounds}
  {sectOff skip count : ℕ}

theorem matchesFrom_of_end (h : ¬ (sectOff + patch.size < bounds.size ∧ count ≠ 0)) :
    matchesFrom file i p patch bounds sectOff skip count = [] := by
  rcases not_and_or.mp h with hend | hcount
  · have hlen : bounds.size - patch.size - sectOff = 0 := by omega
    simp [matchesFrom, hlen]
  · rw [not_ne_iff] at hcount
    rw [matchesFrom, hcount, List.take_zero]

/-- Before the end there is one place more. -/
theorem range'_of_lt (h : sectOff + patch.size < bounds.size) :
    List.range' sectOff (bounds.size - patch.size - sectOff) =
      sectOff :: List.range' (sectOff + 1) (bounds.size - patch.size - (sectOff + 1)) := by
  obtain ⟨n, hn⟩ := Nat.exists_eq_add_of_lt h
  have hlen : bounds.size - patch.size - sectOff =
      bounds.size - patch.size - (sectOff + 1) + 1 := by omega
  rw [hlen, List.range'_succ]

theorem matchesFrom_of_not_applies (h : sectOff + patch.size < bounds.size)
    (hnot : Finding.applies file patch ⟨i, p, bounds, sectOff⟩ = false) :
    matchesFrom file i p patch bounds sectOff skip count =
      matchesFrom file i p patch bounds (sectOff + 1) skip count := by
  rw [matchesFrom, range'_of_lt h, List.map_cons, List.filter_cons, if_neg (by simp [hnot])]
  rfl

theorem matchesFrom_of_skip (h : sectOff + patch.size < bounds.size)
    (happlies : Finding.applies file patch ⟨i, p, bounds, sectOff⟩ = true) (hskip : skip ≠ 0) :
    matchesFrom file i p patch bounds sectOff skip count =
      matchesFrom file i p patch bounds (sectOff + 1) (skip - 1) count := by
  obtain ⟨n, rfl⟩ := Nat.exists_eq_succ_of_ne_zero hskip
  rw [matchesFrom, range'_of_lt h, List.map_cons, List.filter_cons, if_pos happlies]
  rfl

theorem matchesFrom_of_use (h : sectOff + patch.size < bounds.size)
    (happlies : Finding.applies file patch ⟨i, p, bounds, sectOff⟩ = true) (hcount : count ≠ 0) :
    matchesFrom file i p patch bounds sectOff 0 count = ⟨i, p, bounds, sectOff⟩ ::
      matchesFrom file i p patch bounds (sectOff + 1) 0 (count - 1) := by
  obtain ⟨n, rfl⟩ := Nat.exists_eq_succ_of_ne_zero hcount
  rw [matchesFrom, range'_of_lt h, List.map_cons, List.filter_cons, if_pos happlies]
  rfl

/-- All matches are places where the patch applies. -/
theorem applies_of_mem_matchesFrom {x : Finding}
    (h : x ∈ matchesFrom file i p patch bounds sectOff skip count) :
    x.mod = i ∧ x.patch = p ∧ file.bytes x.start patch.size = patch.find := by
  have hmem := List.mem_filter.mp (List.mem_of_mem_drop (List.mem_of_mem_take h))
  obtain ⟨k, -, rfl⟩ := List.mem_map.mp hmem.1
  exact ⟨rfl, rfl, by simpa [Finding.applies] using hmem.2⟩

end Scan

/-! ## Where findings come from -/

/-- The finding's binary and file, and its patch, which applies there. -/
structure FoundIn (x : Finding) (mod : BinaryModInfo) (file : File) : Prop where
  listed : mods[x.mod]? = some mod
  read : readFileToBuffer mod.path = some file
  applies : ∃ patch, mod.patches[x.patch]? = some patch ∧
    file.bytes x.start patch.size = patch.find

variable {mods readFileToBuffer}

theorem mem_indexed {α : Type*} {l : List α} {i : ℕ} {a : α} (h : (i, a) ∈ indexed l) :
    l[i]? = some a := by
  obtain ⟨⟨b, j⟩, hmem, heq⟩ := List.mem_map.mp h
  obtain ⟨rfl, rfl⟩ := Prod.mk.inj heq
  exact List.mem_zipIdx_iff_getElem?.mp hmem

theorem foundIn_of_mem_patchFindings {m : ℕ × BinaryModInfo} (hm : m ∈ indexed mods)
    {file : File} (hfile : readFileToBuffer m.2.path = some file) {p : ℕ × BinaryModPatch}
    (hp : p ∈ indexed m.2.patches) {x : Finding} (hx : x ∈ patchFindings file m.1 p) :
    FoundIn mods readFileToBuffer x m.2 file := by
  unfold patchFindings at hx
  split_ifs at hx
  · cases hx
  · cases hx
  · dsimp only at hx
    split_ifs at hx
    · cases hx
    · obtain ⟨hmod, hpatch, happlies⟩ := applies_of_mem_matchesFrom hx
      exact ⟨hmod ▸ mem_indexed hm, hfile, p.2, hpatch ▸ mem_indexed hp, happlies⟩

theorem foundIn_of_mem_findings {x : Finding} (hx : x ∈ findings mods readFileToBuffer) :
    ∃ mod file, FoundIn mods readFileToBuffer x mod file := by
  obtain ⟨m, hm, hx⟩ := List.mem_flatMap.mp hx
  unfold fileFindings at hx
  split_ifs at hx
  · rcases hfile : readFileToBuffer m.2.path with _ | file <;> rw [hfile] at hx
    · cases hx
    · obtain ⟨p, hp, hx⟩ := List.mem_flatMap.mp hx
      exact ⟨m.2, file, foundIn_of_mem_patchFindings hm hfile hp hx⟩
  · cases hx

/-! ## What is built -/

variable (mods readFileToBuffer) in
/-- The invariant of the entries: each was made for a finding, and its places are findings at its
page offset. -/
structure Built (storage : List LookupStorage) : Prop where
  entry : ∀ e ∈ storage, ∃ x ∈ findings mods readFileToBuffer, ∃ file,
    FoundIn mods readFileToBuffer x e.mod file ∧ x.pageOff = e.pageOff ∧ x.origin ∈ e.users ∧
      e.page = file.bytes (x.bounds.sectionptr + x.pageOff) PAGE_SIZE
  users : ∀ e ∈ storage, ∀ u ∈ e.users, ∃ x ∈ findings mods readFileToBuffer,
    x.pageOff = e.pageOff ∧ x.origin = u
  refs : ∀ e ∈ storage, ∀ r ∈ e.refs, ∀ o ∈ r.pageOffs, ∃ x ∈ findings mods readFileToBuffer,
    x.pageOff = e.pageOff ∧ x.patch = r.i ∧ x.valueOff = o ∧ x.origin ∈ e.users
  nodup : (storage.map (·.pageOff)).Nodup

/-- The finding was put down in an entry. -/
def Placed (storage : List LookupStorage) (x : Finding) : Prop :=
  ∃ e ∈ storage, e.pageOff = x.pageOff ∧ x.origin ∈ e.users

variable {g : Grant} {x : Finding} {e e' : LookupStorage} {storage : List LookupStorage}

/-- What a place adds to an entry: an offset at most, in a reference of its patch. -/
structure Adds (x : Finding) (e e' : LookupStorage) : Prop where
  mod : e'.mod = e.mod
  page : e'.page = e.page
  pageOff : e'.pageOff = e.pageOff
  users : e'.users = e.users ++ [x.origin]
  refs : ∀ r' ∈ e'.refs, ∀ o ∈ r'.pageOffs,
    (∃ r ∈ e.refs, r.i = r'.i ∧ o ∈ r.pageOffs) ∨ r'.i = x.patch ∧ o = x.valueOff

theorem mem_pageOffs_push {r : PatchRef} {o : VmAddress} (h : o ∈ (r.push g x).pageOffs) :
    o ∈ r.pageOffs ∨ o = x.valueOff := by
  unfold PatchRef.push at h
  dsimp only at h
  split_ifs at h
  · exact (List.mem_append.mp h).imp_right List.mem_singleton.mp
  · exact .inl h

/-- A place is put down in the first reference of its patch, or in a new one if there is none. -/
theorem addRef_cases (h : e.addRef g x = some e') :
    (∃ k r, e.refs.findIdx? (·.i == x.patch) = some k ∧ e.refs[k]? = some r ∧ r.i = x.patch ∧
      e' = { e with refs := e.refs.set k (r.push g x), users := e.users ++ [x.origin] }) ∨
    (∀ r ∈ e.refs, r.i ≠ x.patch) ∧
      e' = { e with
        refs := e.refs ++ [PatchRef.push { i := x.patch } g x], users := e.users ++ [x.origin] } := by
  unfold LookupStorage.addRef at h
  cases hfind : e.refs.findIdx? (·.i == x.patch) with
  | none =>
    rw [hfind] at h
    dsimp only at h
    split_ifs at h
    refine .inr ⟨fun r hr => ?_, (Option.some.inj h).symm⟩
    simpa using List.findIdx?_eq_none_iff.mp hfind r hr
  | some k =>
    rw [hfind] at h
    obtain ⟨hk, hi, -⟩ := List.findIdx?_eq_some_iff_getElem.mp hfind
    -- the reference is changed where it is
    refine .inl ⟨k, e.refs[k], rfl, List.getElem?_eq_getElem hk, beq_iff_eq.mp hi, ?_⟩
    rw [← Option.some.inj h, List.modify_eq_set_getElem?, List.getElem?_eq_getElem hk]
    rfl

theorem addRef_adds (h : e.addRef g x = some e') : Adds x e e' := by
  rcases addRef_cases h with ⟨k, r, -, hk, hi, rfl⟩ | ⟨-, rfl⟩
  · refine ⟨rfl, rfl, rfl, rfl, fun r' hr' o ho => ?_⟩
    rcases List.mem_or_eq_of_mem_set hr' with hr' | rfl
    · exact .inl ⟨r', hr', rfl, ho⟩
    -- the offset was there before, or is the place's own
    · rcases mem_pageOffs_push ho with ho | ho
      · exact .inl ⟨r, List.mem_of_getElem? hk, rfl, ho⟩
      · exact .inr ⟨hi, ho⟩
  · -- a new reference
    refine ⟨rfl, rfl, rfl, rfl, fun r' hr' o ho => ?_⟩
    rcases List.mem_append.mp hr' with hr' | hr'
    · exact .inl ⟨r', hr', rfl, ho⟩
    · obtain rfl := List.mem_singleton.mp hr'
      exact .inr ⟨rfl, (mem_pageOffs_push ho).resolve_left List.not_mem_nil⟩

/-- An entry that a place of its page offset was put down in. -/
theorem Built.set (h : Built mods readFileToBuffer storage) {k : ℕ} (hk : storage[k]? = some e)
    (hadds : Adds x e e') (hx : x ∈ findings mods readFileToBuffer)
    (hoff : x.pageOff = e.pageOff) : Built mods readFileToBuffer (storage.set k e') := by
  have he : e ∈ storage := List.mem_of_getElem? hk
  have husers : ∀ u ∈ e.users, u ∈ e'.users := fun u hu =>
    hadds.users ▸ List.mem_append.mpr (.inl hu)
  refine ⟨fun d hd => ?_, fun d hd u hu => ?_, fun d hd r hr o ho => ?_, ?_⟩
  · rcases List.mem_or_eq_of_mem_set hd with hd | rfl
    · exact h.entry d hd
    · obtain ⟨y, hy, file, hfound, hpage, horigin, hbytes⟩ := h.entry e he
      exact ⟨y, hy, file, hadds.mod ▸ hfound, hadds.pageOff ▸ hpage, husers _ horigin,
        hadds.page.trans hbytes⟩
  · rcases List.mem_or_eq_of_mem_set hd with hd | rfl
    · exact h.users d hd u hu
    · rw [hadds.users] at hu
      rw [hadds.pageOff]
      rcases List.mem_append.mp hu with hu | hu
      · exact h.users e he u hu
      · exact ⟨x, hx, hoff, (List.mem_singleton.mp hu).symm⟩
  · rcases List.mem_or_eq_of_mem_set hd with hd | rfl
    · exact h.refs d hd r hr o ho
    · rw [hadds.pageOff]
      rcases hadds.refs r hr o ho with ⟨r', hr', hi, ho'⟩ | ⟨hi, ho'⟩
      · obtain ⟨y, hy, hpage, hpatch, hvalue, horigin⟩ := h.refs e he r' hr' o ho'
        exact ⟨y, hy, hpage, hpatch.trans hi, hvalue, husers _ horigin⟩
      · refine ⟨x, hx, hoff, hi.symm, ho'.symm, ?_⟩
        rw [hadds.users]
        exact List.mem_append.mpr (.inr (List.mem_singleton.mpr rfl))
  · rw [Keyed.map_set hk hadds.pageOff]
    exact h.nodup

/-- A new entry with a place of its own. -/
theorem Built.append (h : Built mods readFileToBuffer storage)
    (hx : x ∈ findings mods readFileToBuffer) {file : File}
    (hfound : FoundIn mods readFileToBuffer x e.mod file) (hoff : e.pageOff = x.pageOff)
    (hpage : e.page = file.bytes (x.bounds.sectionptr + x.pageOff) PAGE_SIZE)
    (husers : x.origin ∈ e.users ∧ ∀ u ∈ e.users, u = x.origin)
    (hrefs : ∀ r ∈ e.refs, ∀ o ∈ r.pageOffs, r.i = x.patch ∧ o = x.valueOff)
    (hnew : ∀ d ∈ storage, d.pageOff ≠ x.pageOff) :
    Built mods readFileToBuffer (storage ++ [e]) := by
  refine ⟨fun d hd => ?_, fun d hd u hu => ?_, fun d hd r hr o ho => ?_, ?_⟩
  · rcases List.mem_append.mp hd with hd | hd
    · exact h.entry d hd
    · obtain rfl := List.mem_singleton.mp hd
      exact ⟨x, hx, file, hfound, hoff.symm, husers.1, hpage⟩
  · rcases List.mem_append.mp hd with hd | hd
    · exact h.users d hd u hu
    · obtain rfl := List.mem_singleton.mp hd
      exact ⟨x, hx, hoff.symm, (husers.2 u hu).symm⟩
  · rcases List.mem_append.mp hd with hd | hd
    · exact h.refs d hd r hr o ho
    · obtain rfl := List.mem_singleton.mp hd
      obtain ⟨hi, ho'⟩ := hrefs r hr o ho
      exact ⟨x, hx, hoff.symm, hi.symm, ho'.symm, husers.1⟩
  · exact Keyed.nodup_snoc h.nodup fun d hd => hoff ▸ hnew d hd

/-- The new entry of a place, before the place is put down in it. -/
def LookupStorage.fresh (mod : BinaryModInfo) (file : File) (x : Finding) : LookupStorage where
  mod
  page := file.bytes (x.bounds.sectionptr + x.pageOff) PAGE_SIZE
  pageOff := x.pageOff
  users := [x.origin]

theorem LookupStorage.fresh_page (mod : BinaryModInfo) (file : File) (x : Finding) :
    (LookupStorage.fresh mod file x).page =
      file.bytes (x.bounds.sectionptr + x.pageOff) PAGE_SIZE := by
  simp only [LookupStorage.fresh]

/-- What `record` can do: nothing, add the place to the first entry of its page offset, or make an
entry when there is none, with the place in it or without. -/
theorem record_cases (g : Grant) (mod : BinaryModInfo) (file : File) (x : Finding)
    (storage : List LookupStorage) :
    record g mod file x storage = (storage, false) ∨
    (∃ k e e', storage.findIdx? (·.pageOff == x.pageOff) = some k ∧ storage[k]? = some e ∧
      e.pageOff = x.pageOff ∧ e.addRef g x = some e' ∧
      record g mod file x storage = (storage.set k e', true)) ∨
    ((∀ d ∈ storage, d.pageOff ≠ x.pageOff) ∧
      (record g mod file x storage = (storage ++ [.fresh mod file x], false) ∨
        ∃ e', (LookupStorage.fresh mod file x).addRef g x = some e' ∧
          record g mod file x storage = (storage ++ [e'], true))) := by
  rcases hfind : storage.findIdx? (·.pageOff == x.pageOff) with _ | k
  · by_cases hgrant : (g.create && g.alloc && g.push) = true
    · have hnew : ∀ d ∈ storage, d.pageOff ≠ x.pageOff := fun d hd => by
        simpa using List.findIdx?_eq_none_iff.mp hfind d hd
      have hrun : record g mod file x storage =
          match (LookupStorage.fresh mod file x).addRef g x with
          | some e => (storage ++ [e], true)
          | none => (storage ++ [.fresh mod file x], false) := by
        rw [record, hfind]
        exact if_pos hgrant
      rcases hadd : (LookupStorage.fresh mod file x).addRef g x with _ | e' <;> rw [hadd] at hrun
      · exact .inr (.inr ⟨hnew, .inl hrun⟩)
      · exact .inr (.inr ⟨hnew, .inr ⟨e', rfl, hrun⟩⟩)
    · refine .inl ?_
      rw [record, hfind]
      exact if_neg hgrant
  · obtain ⟨hk, hoff, -⟩ := List.findIdx?_eq_some_iff_getElem.mp hfind
    have hget : storage[k]? = some storage[k] := List.getElem?_eq_getElem hk
    have hrun : record g mod file x storage =
        match storage[k].addRef g x with
        | some e => (storage.set k e, true)
        | none => (storage, false) := by
      rw [record, hfind]
      dsimp only
      rw [hget, Option.bind_some]
    rcases hadd : storage[k].addRef g x with _ | e' <;> rw [hadd] at hrun
    · exact .inl hrun
    · exact .inr (.inl ⟨k, storage[k], e', hfind, hget, by simpa using hoff, hadd, hrun⟩)

/-- **A finding** keeps what is built and what was placed; it is placed unless it is tried again. -/
theorem Built.record (h : Built mods readFileToBuffer storage) {mod : BinaryModInfo} {file : File}
    (hx : x ∈ findings mods readFileToBuffer) (hfound : FoundIn mods readFileToBuffer x mod file) :
    Built mods readFileToBuffer (record g mod file x storage).1 ∧
      ((record g mod file x storage).2 = true → Placed (record g mod file x storage).1 x) ∧
      ∀ y, Placed storage y → Placed (record g mod file x storage).1 y := by
  have hkeep : ∀ d : LookupStorage, ∀ y, Placed storage y → Placed (storage ++ [d]) y := by
    rintro d y ⟨e, he, hy⟩
    exact ⟨e, List.mem_append.mpr (.inl he), hy⟩
  rcases record_cases g mod file x storage with hrun | ⟨k, e, e', -, hk, hoff, hadd, hrun⟩ |
    ⟨hnew, hrun | ⟨e', hadd, hrun⟩⟩ <;> rw [hrun]
  · exact ⟨h, nofun, fun _ => id⟩
  · -- the place goes to an entry that is there
    have hadds := addRef_adds hadd
    have hmem : e' ∈ storage.set k e' := List.mem_set (List.getElem?_eq_some_iff.mp hk).1 e'
    refine ⟨h.set hk hadds hx hoff.symm, fun _ => ?_, ?_⟩
    · exact ⟨e', hmem, hadds.pageOff.trans hoff, by simp [hadds.users]⟩
    · rintro y ⟨d, hd, hy, horigin⟩
      obtain ⟨j, hj⟩ := List.getElem?_of_mem hd
      by_cases hkj : k = j
      · subst hkj
        obtain rfl : e = d := Option.some.inj (hk.symm.trans hj)
        exact ⟨e', hmem, hadds.pageOff.trans hy, by simp [hadds.users, horigin]⟩
      · exact ⟨d, List.mem_of_getElem? ((List.getElem?_set_ne hkj).trans hj), hy, horigin⟩
  · -- the entry is there, its reference is tried again
    refine ⟨?_, nofun, hkeep _⟩
    refine h.append (e := LookupStorage.fresh mod file x) hx hfound rfl
      (LookupStorage.fresh_page mod file x) ⟨List.mem_singleton.mpr rfl, fun u hu => ?_⟩
      (fun r hr => absurd hr List.not_mem_nil) hnew
    exact List.mem_singleton.mp hu
  · have hadds := addRef_adds hadd
    have husers : ∀ u, u ∈ e'.users ↔ u = x.origin := by
      intro u
      rw [hadds.users]
      simp [LookupStorage.fresh]
    have hmod : e'.mod = mod := hadds.mod
    refine ⟨?_, fun _ => ⟨e', by simp, hadds.pageOff, (husers _).mpr rfl⟩, hkeep e'⟩
    refine h.append hx (hmod ▸ hfound) hadds.pageOff
      (hadds.page.trans (LookupStorage.fresh_page mod file x))
      ⟨(husers _).mpr rfl, fun u hu => (husers u).mp hu⟩ (fun r hr o ho => ?_) hnew
    rcases hadds.refs r hr o ho with ⟨r', hr', -⟩ | hnew
    · exact absurd hr' List.not_mem_nil
    · exact hnew

/-! ## The run -/

variable (mods readFileToBuffer) in
/-- The invariant of all loops: what is not placed yet is left to be found. -/
structure Runs (left : List Finding) (storage : List LookupStorage) : Prop where
  built : Built mods readFileToBuffer storage
  mem : ∀ x ∈ left, x ∈ findings mods readFileToBuffer
  placed : ∀ x ∈ findings mods readFileToBuffer, Placed storage x ∨ x ∈ left

variable {grant : ℕ → Grant} {later : List Finding}

/-- A finding that is recorded is left no longer. -/
theorem Runs.record {left : List Finding} (h : Runs mods readFileToBuffer (x :: left) storage)
    {mod : BinaryModInfo} {file : File} (hfound : FoundIn mods readFileToBuffer x mod file) :
    Runs mods readFileToBuffer
      (if (record g mod file x storage).2 then left else x :: left)
      (record g mod file x storage).1 := by
  obtain ⟨hbuilt, hplaced, hkept⟩ :=
    h.built.record (g := g) (h.mem x List.mem_cons_self) hfound
  split_ifs with hdone
  · refine ⟨hbuilt, fun y hy => h.mem y (List.mem_cons_of_mem _ hy), fun y hy => ?_⟩
    rcases h.placed y hy with hy | hy
    · exact .inl (hkept y hy)
    · rcases List.mem_cons.mp hy with rfl | hy
      · exact .inl (hplaced hdone)
      · exact .inr hy
  · exact ⟨hbuilt, h.mem, fun y hy => (h.placed y hy).imp_left (hkept y)⟩

variable (mods readFileToBuffer grant) in
/-- What is known of the findings that are left, and of the entries, still is when a finding was
recorded or is tried again. -/
def Keeps (I : List Finding → List LookupStorage → Prop) : Prop :=
  ∀ n x left storage mod file, FoundIn mods readFileToBuffer x mod file → I (x :: left) storage →
    I (if (record (grant n) mod file x storage).2 then left else x :: left)
      (record (grant n) mod file x storage).1

variable {I : List Finding → List LookupStorage → Prop}

section Turn

variable {file : File} {i p : ℕ} {mod : BinaryModInfo} {patch : BinaryModPatch}
  {bounds : SectionBounds}

/-- What is left to be found in the section, and later. -/
def Scan.left (file : File) (i p : ℕ) (patch : BinaryModPatch) (bounds : SectionBounds)
    (later : List Finding) (s : Scan) : List Finding :=
  matchesFrom file i p patch bounds s.sectOff s.skip s.count ++ later

/-- **A turn that goes on** passes over a place, skips a match, or records one or tries it again. -/
theorem scanTurn_cases {s s' : Scan} (h : scanTurn grant file i p mod patch bounds s = .again s') :
    (s.sectOff + patch.size < bounds.size ∧ s.count ≠ 0) ∧
    (Finding.applies file patch ⟨i, p, bounds, s.sectOff⟩ = false ∧
        s' = { s with turns := s.turns + 1, sectOff := s.sectOff + 1 } ∨
      Finding.applies file patch ⟨i, p, bounds, s.sectOff⟩ = true ∧ s.skip ≠ 0 ∧
        s' = { s with turns := s.turns + 1, sectOff := s.sectOff + 1, skip := s.skip - 1 } ∨
      Finding.applies file patch ⟨i, p, bounds, s.sectOff⟩ = true ∧ s.skip = 0 ∧ ∃ storage,
        record (grant (s.turns + 1)) mod file ⟨i, p, bounds, s.sectOff⟩ s.storage = (storage, true) ∧
          s' = { s with
            turns := s.turns + 1, sectOff := s.sectOff + 1, count := s.count - 1, storage } ∨
        record (grant (s.turns + 1)) mod file ⟨i, p, bounds, s.sectOff⟩ s.storage = (storage, false) ∧
          s' = { s with turns := s.turns + 1, storage }) := by
  by_cases hin : s.sectOff + patch.size < bounds.size ∧ s.count ≠ 0
  · refine ⟨hin, ?_⟩
    rw [scanTurn, if_pos hin] at h
    dsimp only at h
    by_cases happlies : file.bytes (Finding.start ⟨i, p, bounds, s.sectOff⟩) patch.size = patch.find
    · have happlies' : Finding.applies file patch ⟨i, p, bounds, s.sectOff⟩ = true := by
        simpa [Finding.applies] using happlies
      rw [if_pos happlies] at h
      by_cases hskip : s.skip = 0
      · rw [if_pos hskip] at h
        refine .inr (.inr ⟨happlies', hskip, ?_⟩)
        rcases hr : record (grant (s.turns + 1)) mod file ⟨i, p, bounds, s.sectOff⟩ s.storage with
          ⟨storage, _ | _⟩ <;> rw [hr] at h <;> cases h
        -- `continue` leaves `start` and `count` as they are
        · exact ⟨storage, .inr ⟨rfl, rfl⟩⟩
        · exact ⟨storage, .inl ⟨rfl, rfl⟩⟩
      · rw [if_neg hskip] at h
        cases h
        exact .inr (.inl ⟨happlies', hskip, rfl⟩)
    · rw [if_neg happlies] at h
      cases h
      exact .inl ⟨by simpa [Finding.applies] using happlies, rfl⟩
  · rw [scanTurn, if_neg hin] at h
    cases h

/-- A turn that goes on keeps what is known of what is left. -/
theorem scanTurn_again (hI : Keeps mods readFileToBuffer grant I)
    (hfound : ∀ x : Finding, x.mod = i → x.patch = p →
      file.bytes x.start patch.size = patch.find → FoundIn mods readFileToBuffer x mod file)
    (s s' : Scan) (h : I (s.left file i p patch bounds later) s.storage)
    (hturn : scanTurn grant file i p mod patch bounds s = .again s') :
    I (s'.left file i p patch bounds later) s'.storage := by
  unfold Scan.left at h ⊢
  obtain ⟨⟨hlt, hcount⟩, ⟨hnot, rfl⟩ | ⟨happlies, hskip, rfl⟩ |
    ⟨happlies, hskip, storage, hrecord⟩⟩ := scanTurn_cases hturn
  · rwa [matchesFrom_of_not_applies hlt hnot] at h
  · rwa [matchesFrom_of_skip hlt happlies hskip] at h
  · -- a match to use
    have hbytes : file.bytes (Finding.start ⟨i, p, bounds, s.sectOff⟩) patch.size = patch.find := by
      simpa [Finding.applies] using happlies
    rw [hskip, matchesFrom_of_use hlt happlies hcount, List.cons_append] at h
    have hnext := hI (s.turns + 1) ⟨i, p, bounds, s.sectOff⟩ _ s.storage mod file
      (hfound _ rfl rfl hbytes) h
    rcases hrecord with ⟨hrecord, rfl⟩ | ⟨hrecord, rfl⟩ <;> rw [hrecord] at hnext
    · rw [hskip]
      exact hnext
    · rw [hskip, matchesFrom_of_use hlt happlies hcount]
      exact hnext

/-- The loop is left when nothing of the section is. -/
theorem scanTurn_leave (s : Scan) (b : List LookupStorage × ℕ)
    (h : I (s.left file i p patch bounds later) s.storage)
    (hturn : scanTurn grant file i p mod patch bounds s = .leave b) : I later b.1 := by
  by_cases hin : s.sectOff + patch.size < bounds.size ∧ s.count ≠ 0
  · rw [scanTurn, if_pos hin] at hturn
    dsimp only at hturn
    split_ifs at hturn
    split at hturn <;> cases hturn
  · rw [scanTurn, if_neg hin] at hturn
    cases hturn
    rwa [Scan.left, matchesFrom_of_end hin] at h

end Turn

theorem loadPatch_keeps (hI : Keeps mods readFileToBuffer grant I) {fuel : ℕ} {file : File}
    {m : ℕ × BinaryModInfo} (hm : m ∈ indexed mods)
    (hfile : readFileToBuffer m.2.path = some file) {p : ℕ × BinaryModPatch}
    (hp : p ∈ indexed m.2.patches) {s s' : List LookupStorage × ℕ}
    (h : I (patchFindings file m.1 p ++ later) s.1)
    (hrun : loadPatch grant fuel file m.1 m.2 s p = some s') : I later s'.1 := by
  unfold patchFindings at h
  unfold loadPatch at hrun
  split_ifs at h hrun with hdisabled hsegment
  · cases hrun
    exact h
  · cases hrun
    exact h
  · dsimp only at h hrun
    split_ifs at h hrun with hsize
    · cases hrun
      exact h
    · have hfound : ∀ x : Finding, x.mod = m.1 → x.patch = p.1 →
          file.bytes x.start p.2.size = p.2.find → FoundIn mods readFileToBuffer x m.2 file :=
        fun x hi hpatch happlies =>
          ⟨hi ▸ mem_indexed hm, hfile, p.2, hpatch ▸ mem_indexed hp, happlies⟩
      -- the search begins with the first place and all of the patch's skip and count
      have hstart : I (Scan.left file m.1 p.1 p.2 (file.findSectionBounds p.2.segment p.2.cpu) later
          ⟨0, p.2.skip, p.2.count, s.1, s.2⟩) s.1 := h
      exact loop_partial (fun s : Scan =>
        I (s.left file m.1 p.1 p.2 (file.findSectionBounds p.2.segment p.2.cpu) later) s.storage)
        (scanTurn_again hI hfound) scanTurn_leave hstart hrun

theorem loadFile_keeps (hI : Keeps mods readFileToBuffer grant I) {fuel : ℕ}
    {m : ℕ × BinaryModInfo} (hm : m ∈ indexed mods) {s s' : List LookupStorage × ℕ}
    (h : I (fileFindings readFileToBuffer m ++ later) s.1)
    (hrun : loadFile grant readFileToBuffer fuel s m = some s') : I later s'.1 := by
  unfold fileFindings at h
  unfold loadFile at hrun
  split_ifs at h hrun with hany
  · rcases hfile : readFileToBuffer m.2.path with _ | file <;> rw [hfile] at h hrun
    · cases hrun
      exact h
    · have hend := foldlM_partial
        (fun l (s : List LookupStorage × ℕ) => (∀ p ∈ l, p ∈ indexed m.2.patches) ∧
          I (l.flatMap (patchFindings file m.1) ++ later) s.1)
        (fun p l s s' hs hrun => ⟨fun q hq => hs.1 q (List.mem_cons_of_mem _ hq),
          loadPatch_keeps hI hm hfile (hs.1 p List.mem_cons_self)
            (by simpa [List.flatMap_cons, List.append_assoc] using hs.2) hrun⟩)
        ⟨fun p hp => hp, h⟩ hrun
      exact hend.2
  · cases hrun
    exact h

/-- **The run**: what is kept when a finding is recorded holds in the end, when nothing is left. -/
theorem loadFilesForPatching_keeps (hI : Keeps mods readFileToBuffer grant I)
    (h₀ : I (findings mods readFileToBuffer) []) {fuel : ℕ}
    (h : loadFilesForPatching grant mods readFileToBuffer fuel = some storage) : I [] storage := by
  obtain ⟨s, hrun, rfl⟩ := Option.map_eq_some_iff.mp h
  -- at first all findings are left
  have hstart : I ((indexed mods).flatMap (fileFindings readFileToBuffer)) [] := h₀
  have hend := foldlM_partial
    (fun l (s : List LookupStorage × ℕ) => (∀ m ∈ l, m ∈ indexed mods) ∧
      I (l.flatMap (fileFindings readFileToBuffer)) s.1)
    (fun m l s s' hs hrun => ⟨fun q hq => hs.1 q (List.mem_cons_of_mem _ hq),
      loadFile_keeps hI (hs.1 m List.mem_cons_self)
        (by simpa [List.flatMap_cons] using hs.2) hrun⟩)
    ⟨fun m hm => hm, hstart⟩ hrun
  exact hend.2

/-- In the end all findings are in the entries. -/
theorem loadFilesForPatching_runs {fuel : ℕ}
    (h : loadFilesForPatching grant mods readFileToBuffer fuel = some storage) :
    Runs mods readFileToBuffer [] storage := by
  refine loadFilesForPatching_keeps (fun n x left storage mod file hfound hruns => ?_) ?_ h
  · exact hruns.record hfound
  · exact ⟨⟨nofun, nofun, nofun, List.nodup_nil⟩, fun x hx => hx, fun x hx => .inr hx⟩

/-! ## When the entries are consistent -/

theorem FoundIn.unique {mod mod' : BinaryModInfo} {file file' : File} {y : Finding}
    (hx : FoundIn mods readFileToBuffer x mod file) (hy : FoundIn mods readFileToBuffer y mod' file')
    (h : x.mod = y.mod) : mod = mod' ∧ file = file' := by
  have hmod : mod = mod' := Option.some.inj (hx.listed.symm.trans (h ▸ hy.listed))
  subst hmod
  exact ⟨rfl, Option.some.inj (hx.read.symm.trans hy.read)⟩

theorem getElem?_bytes {file : File} {a : VmAddress} {n k : ℕ} (h : k < n) :
    (file.bytes a n)[k]? = some (file.memory (a + BitVec.ofNat 64 k)) := by
  simp [File.bytes, h]

/-- A byte of a place, and the byte of the page of the place at its offset there. -/
theorem start_add (x : Finding) (k : ℕ) :
    x.bounds.sectionptr + x.pageOff + BitVec.ofNat 64 (x.valueOff.toNat + k) =
      x.start + BitVec.ofNat 64 k := by
  rw [BitVec.ofNat_add, BitVec.ofNat_toNat, BitVec.setWidth_eq, Finding.valueOff]
  generalize x.pageOff = p
  bv_omega

theorem Built.consistent (h : Built mods readFileToBuffer storage)
    (hsep : Separate mods readFileToBuffer) : Consistent storage := by
  intro e he r hr o ho
  obtain ⟨y, hy, file, hfound, hyoff, -, hpage⟩ := h.entry e he
  obtain ⟨x, hx, hxoff, hpatch, hvalue, -⟩ := h.refs e he r hr o ho
  have horigin : x.origin = y.origin := hsep x hx y hy (hxoff.trans hyoff.symm)
  have hmod : x.mod = y.mod := congrArg Prod.fst horigin
  have hptr : x.bounds.sectionptr = y.bounds.sectionptr := congrArg (·.2.2) horigin
  obtain ⟨mod', file', hfound'⟩ := foundIn_of_mem_findings hx
  obtain ⟨rfl, rfl⟩ := hfound'.unique hfound hmod
  obtain ⟨patch, hlisted, happlies⟩ := hfound'.applies
  refine ⟨patch, hpatch ▸ hlisted, fun k hk hlt => ?_⟩
  subst hvalue
  have hstart : y.bounds.sectionptr + y.pageOff + BitVec.ofNat 64 (x.valueOff.toNat + k) =
      x.start + BitVec.ofNat 64 k := by
    rw [← hptr, hyoff, ← hxoff, start_add]
  rw [hpage, getElem?_bytes hlt, hstart, ← happlies, getElem?_bytes hk]

theorem Built.unmerged (h : Built mods readFileToBuffer storage)
    (hsep : Separate mods readFileToBuffer) : Unmerged storage := by
  intro e he u hu v hv
  obtain ⟨x, hx, hxoff, rfl⟩ := h.users e he u hu
  obtain ⟨y, hy, hyoff, rfl⟩ := h.users e he v hv
  exact hsep x hx y hy (hxoff.trans hyoff.symm)

/-- An entry has one page offset, and no other entry has it. -/
theorem Runs.separate (h : Runs mods readFileToBuffer [] storage) (hun : Unmerged storage) :
    Separate mods readFileToBuffer := by
  intro x hx y hy hoff
  obtain ⟨d, hd, hdoff, hdx⟩ := (h.placed x hx).resolve_right List.not_mem_nil
  obtain ⟨e, he, heoff, hey⟩ := (h.placed y hy).resolve_right List.not_mem_nil
  -- the two findings are in one entry, whose users are all the same
  obtain rfl : d = e :=
    List.inj_on_of_nodup_map h.built.nodup hd he (hdoff.trans (hoff.trans heoff.symm))
  exact hun d hd _ hdx _ hey

section TwoBinaries

/-- The paths `Dock` and `Finder`. -/
def dock : CString := [68, 111, 99, 107]

def finder : CString := [70, 105, 110, 100, 101, 114]

def onePatch (find : UInt8) : BinaryModPatch where
  cpu := 0
  flags := 0
  find := [find]
  replace := [0]
  skip := 0
  count := 1
  segment := 0
  section_ := 1
  sized := rfl

/-- The Dock's patch finds a 1. -/
def dockMod : BinaryModInfo := ⟨dock, [onePatch 1]⟩

/-- The Finder's second patch finds a 2. -/
def finderMod : BinaryModInfo := ⟨finder, [onePatch 9, onePatch 2]⟩

def fileOf (byte : UInt8) : File where
  memory := fun _ => byte
  findSectionBounds := fun _ _ => ⟨0, 0, 0x10000, 3⟩

/-- The files of the binaries, all of whose bytes are the same. -/
def readTwo (path : CString) : Option File :=
  if path = dock then some (fileOf 1)
  else if path = finder then some (fileOf 2)
  else none

def dockStorage : List LookupStorage :=
  (loadFilesForPatching (fun _ => {}) [dockMod] readTwo 10).getD []

/-- Both binaries get one entry. -/
theorem exists_sharedEntry : ∃ e : LookupStorage,
    loadFilesForPatching (fun _ => {}) [dockMod, finderMod] readTwo 10 = some [e] ∧
      e.mod = dockMod ∧ e.refs = [⟨0, [0], [0]⟩, ⟨1, [0], [0]⟩] ∧
      e.users = [(0, 0, 0x10000), (0, 0, 0x10000), (1, 0, 0x10000)] :=
  ⟨_, rfl, rfl, rfl, rfl⟩

end TwoBinaries

end Lilu.UserPatcher
