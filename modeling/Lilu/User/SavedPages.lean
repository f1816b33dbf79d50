import Lilu.User.Attempts

/-!
# The copies of the pages

When an entry is made, the page of its place is copied out of the file's buffer. The page is counted
in addresses, the buffer in file offsets: the page begins before the place by as much as the address
is into its page, and ends a page behind that, whether or not the file goes on as far in both
directions.

## Main definitions

* `FileBuffer`: a file that was read, and where in memory it is
* `Copies`: the pages that a run copies
* `FileBuffer.Covers`: the page of a place is in the buffer, in terms of the file

## Main results

* `nodup_findings`: no place is found twice
* `holds_iff_covers`: which pages are in the buffer
* `covers_iff_of_congr`: which are if addresses and file offsets agree modulo the page size
* `copies_inside_iff`: when all copies stay in their buffers
-/

namespace Lilu.UserPatcher

open Lilu.Kext (CString)

variable {mods : List BinaryModInfo} {readFileToBuffer : CString → Option File}

/-! ## No place is found twice -/

theorem pairwise_indexed {α : Type*} (l : List α) : (indexed l).Pairwise fun p q => p.1 ≠ q.1 :=
  List.pairwise_map.mp (nodup_map_fst_indexed l)

theorem nodup_matchesFrom (file : File) (i p : ℕ) (patch : BinaryModPatch) (bounds : SectionBounds)
    (sectOff skip count : ℕ) : (matchesFrom file i p patch bounds sectOff skip count).Nodup := by
  have hplaces : ((List.range' sectOff (bounds.size - patch.size - sectOff)).map fun k =>
      (⟨i, p, bounds, k⟩ : Finding)).Nodup :=
    (List.nodup_range' 1).map fun k k' heq => congrArg Finding.sectOff heq
  exact ((hplaces.filter _).sublist (List.drop_sublist _ _)).sublist (List.take_sublist _ _)

theorem nodup_patchFindings (file : File) (i : ℕ) (p : ℕ × BinaryModPatch) :
    (patchFindings file i p).Nodup := by
  unfold patchFindings
  dsimp only
  split_ifs
  · exact List.nodup_nil
  · exact List.nodup_nil
  · exact List.nodup_nil
  · exact nodup_matchesFrom _ _ _ _ _ _ _ _

theorem mod_of_mem_patchFindings {file : File} {i : ℕ} {p : ℕ × BinaryModPatch} {x : Finding}
    (hx : x ∈ patchFindings file i p) : x.mod = i ∧ x.patch = p.1 := by
  unfold patchFindings at hx
  dsimp only at hx
  split_ifs at hx
  · cases hx
  · cases hx
  · cases hx
  · obtain ⟨hmod, hpatch, -⟩ := applies_of_mem_matchesFrom hx
    exact ⟨hmod, hpatch⟩

theorem nodup_fileFindings (m : ℕ × BinaryModInfo) : (fileFindings readFileToBuffer m).Nodup := by
  unfold fileFindings
  split_ifs
  · cases readFileToBuffer m.2.path with
    | none => exact List.nodup_nil
    | some file =>
      refine List.nodup_flatMap.mpr ⟨fun p _ => nodup_patchFindings file m.1 p, ?_⟩
      refine (pairwise_indexed m.2.patches).imp fun {p q} hne => ?_
      rw [Function.onFun, List.disjoint_left]
      intro x hp hq
      exact hne ((mod_of_mem_patchFindings hp).2.symm.trans (mod_of_mem_patchFindings hq).2)
  · exact List.nodup_nil

theorem mod_of_mem_fileFindings {m : ℕ × BinaryModInfo} {x : Finding}
    (hx : x ∈ fileFindings readFileToBuffer m) : x.mod = m.1 := by
  unfold fileFindings at hx
  split_ifs at hx
  · cases hfile : readFileToBuffer m.2.path with
    | none =>
      rw [hfile] at hx
      cases hx
    | some file =>
      rw [hfile] at hx
      obtain ⟨p, -, hx⟩ := List.mem_flatMap.mp hx
      exact (mod_of_mem_patchFindings hx).1
  · cases hx

/-- **No place is found twice** for a patch. -/
theorem nodup_findings (mods : List BinaryModInfo) (readFileToBuffer : CString → Option File) :
    (findings mods readFileToBuffer).Nodup := by
  refine List.nodup_flatMap.mpr ⟨fun m _ => nodup_fileFindings m, ?_⟩
  refine (pairwise_indexed mods).imp fun {m m'} hne => ?_
  rw [Function.onFun, List.disjoint_left]
  intro x hm hm'
  exact hne ((mod_of_mem_fileFindings hm).symm.trans (mod_of_mem_fileFindings hm'))

/-! ## The buffers -/

/-- A file that was read into a buffer, with a byte behind its contents for the terminating zero.
The buffer is in memory, and the sections that are found are in the file. -/
structure FileBuffer where
  file : File
  buf : VmAddress
  fileSize : ℕ
  fits : buf.toNat + fileSize + 1 ≤ 2 ^ 64
  inside : ∀ segment cpu, (file.findSectionBounds segment cpu).size ≠ 0 →
    buf.toNat ≤ (file.findSectionBounds segment cpu).sectionptr.toNat ∧
      (file.findSectionBounds segment cpu).sectionptr.toNat +
        (file.findSectionBounds segment cpu).size ≤ buf.toNat + fileSize

namespace FileBuffer

variable (b : FileBuffer)

/-- The buffer has `n` bytes from an address on. -/
def Holds (a : VmAddress) (n : ℕ) : Prop :=
  b.buf.toNat ≤ a.toNat ∧ a.toNat + n ≤ b.buf.toNat + b.fileSize + 1

/-- The file offset of a place. -/
def fileOff (x : Finding) : ℕ :=
  x.bounds.sectionptr.toNat - b.buf.toNat + x.sectOff

/-- **The page of a place is in the buffer**: the file has as much before the place as its address
is into the page, and a page from there on. -/
structure Covers (x : Finding) : Prop where
  front : x.inPage ≤ b.fileOff x
  behind : b.fileOff x - x.inPage + PAGE_SIZE ≤ b.fileSize + 1

/-- The place is in a section of the file. -/
def Sectioned (x : Finding) : Prop :=
  b.buf.toNat ≤ x.bounds.sectionptr.toNat ∧
    x.bounds.sectionptr.toNat + x.sectOff < b.buf.toNat + b.fileSize

end FileBuffer

variable {b : FileBuffer} {x : Finding}

/-- The copy begins before the place by what its address is into the page. -/
theorem sectionptr_add_pageOff (x : Finding) : x.bounds.sectionptr + x.pageOff =
    x.start - BitVec.ofNat 64 x.inPage := by
  rw [Finding.pageOff, Finding.vmpage_eq, Finding.start]
  generalize BitVec.ofNat 64 x.inPage = c
  bv_omega

/-- **The copy of a page** is in the buffer if and only if the page is. -/
theorem holds_iff_covers (hx : b.Sectioned x) :
    b.Holds (x.bounds.sectionptr + x.pageOff) PAGE_SIZE ↔ b.Covers x := by
  obtain ⟨hfront, hbehind⟩ := hx
  have hpage := x.inPage_lt
  have hfits := b.fits
  have hstart : x.start.toNat = x.bounds.sectionptr.toNat + x.sectOff := by
    rw [Finding.start, BitVec.toNat_add, BitVec.toNat_ofNat, Nat.add_mod_mod,
      Nat.mod_eq_of_lt (by omega)]
  have hcopy : (x.bounds.sectionptr + x.pageOff).toNat =
      (2 ^ 64 - x.inPage + x.start.toNat) % 2 ^ 64 := by
    have hsmall : x.inPage < 2 ^ 64 := hpage.trans (by decide)
    rw [sectionptr_add_pageOff, BitVec.toNat_sub, BitVec.toNat_ofNat, Nat.mod_eq_of_lt hsmall]
  rw [FileBuffer.Holds, hcopy, hstart]
  by_cases hle : x.inPage ≤ x.bounds.sectionptr.toNat + x.sectOff
  · have hmod : (2 ^ 64 - x.inPage + (x.bounds.sectionptr.toNat + x.sectOff)) % 2 ^ 64 =
        x.bounds.sectionptr.toNat + x.sectOff - x.inPage := by omega
    rw [hmod]
    constructor
    · rintro ⟨hlow, hhigh⟩
      refine ⟨?_, ?_⟩ <;> rw [FileBuffer.fileOff] <;> omega
    · rintro ⟨hlow, hhigh⟩
      rw [FileBuffer.fileOff] at hlow hhigh
      omega
  · -- the address wraps, and the page with it
    have hmod : (2 ^ 64 - x.inPage + (x.bounds.sectionptr.toNat + x.sectOff)) % 2 ^ 64 =
        2 ^ 64 - x.inPage + (x.bounds.sectionptr.toNat + x.sectOff) := by omega
    rw [hmod]
    constructor
    · rintro ⟨-, hhigh⟩
      rw [PAGE_SIZE] at hpage hhigh
      omega
    · rintro ⟨hlow, -⟩
      rw [FileBuffer.fileOff] at hlow
      omega

/-- If the section is as far into a page of the file as into one of memory, then the copy is a page
of the file, which needs only to be complete. -/
theorem covers_iff_of_congr
    (h : (x.bounds.sectionptr.toNat - b.buf.toNat) % PAGE_SIZE =
      x.bounds.vmsection.toNat % PAGE_SIZE) :
    b.Covers x ↔ (b.fileOff x / PAGE_SIZE + 1) * PAGE_SIZE ≤ b.fileSize + 1 := by
  have hpage : x.inPage = b.fileOff x % PAGE_SIZE := by
    rw [Finding.inPage, FileBuffer.fileOff, Nat.add_mod, ← h, ← Nat.add_mod]
  have hdiv := Nat.div_add_mod (b.fileOff x) PAGE_SIZE
  have hbegin : b.fileOff x - x.inPage = b.fileOff x / PAGE_SIZE * PAGE_SIZE := by
    rw [hpage, Nat.mul_comm]
    omega
  rw [Nat.add_mul, Nat.one_mul, ← hbegin]
  exact ⟨fun hcovers => hcovers.behind, fun hbehind => ⟨hpage ▸ Nat.mod_le _ _, hbehind⟩⟩

/-! ## The copies -/

section Copies

variable (grant : ℕ → Grant) (mods : List BinaryModInfo)
  (readFileToBuffer : CString → Option FileBuffer)

/-- The files in the buffers. -/
def files (path : CString) : Option File :=
  (readFileToBuffer path).map (·.file)

/-- **The copies of a run**: at an attempt where the page has no entry, and one is created and
allocated, the page is copied out of the buffer. -/
def Copies (x : Finding) (b : FileBuffer) : Prop :=
  ∃ n mod storage, Tries grant mods (files readFileToBuffer) n x mod b.file storage ∧
    readFileToBuffer mod.path = some b ∧ storage.find? (·.pageOff == x.pageOff) = none ∧
    (grant n).create = true ∧ (grant n).alloc = true

/-- The buffer of the place's binary. -/
def bufferOf (x : Finding) : Option FileBuffer :=
  mods[x.mod]?.bind fun mod => readFileToBuffer mod.path

/-- The place is the first one at its page offset. -/
def IsFirst (x : Finding) : Prop :=
  (findings mods (files readFileToBuffer)).find? (·.pageOff == x.pageOff) = some x

end Copies

variable {grant : ℕ → Grant} {readFileToBuffer : CString → Option FileBuffer}

/-- A finding is in a section of the file in its buffer. -/
theorem sectioned_of_mem (hx : x ∈ findings mods (files readFileToBuffer))
    (hb : bufferOf mods readFileToBuffer x = some b) : b.Sectioned x := by
  obtain ⟨⟨i, mod⟩, hm, hx⟩ := List.mem_flatMap.mp hx
  unfold fileFindings at hx
  split_ifs at hx
  · cases hbuffer : readFileToBuffer mod.path with
    | none =>
      simp only [files, hbuffer, Option.map_none] at hx
      cases hx
    | some b' =>
      simp only [files, hbuffer, Option.map_some] at hx
      obtain ⟨p, -, hx⟩ := List.mem_flatMap.mp hx
      have hmod : x.mod = i := (mod_of_mem_patchFindings hx).1
      obtain rfl : b' = b := by
        rw [bufferOf, hmod, mem_indexed hm, Option.bind_some, hbuffer] at hb
        exact Option.some.inj hb
      unfold patchFindings at hx
      dsimp only at hx
      split_ifs at hx with hdisabled hsegment hsize
      · cases hx
      · cases hx
      · cases hx
      · have hin := b'.inside p.2.segment p.2.cpu hsize
        have hplace := List.mem_filter.mp (List.mem_of_mem_drop (List.mem_of_mem_take hx))
        obtain ⟨k, hk, rfl⟩ := List.mem_map.mp hplace.1
        have hlt := List.mem_range'_1.mp hk
        refine ⟨hin.1, ?_⟩
        dsimp only
        omega
  · cases hx

/-- What is copied is the page of a finding that is the first one at its page offset. -/
theorem Copies.isFirst (h : Copies grant mods readFileToBuffer x b) :
    IsFirst mods readFileToBuffer x ∧ bufferOf mods readFileToBuffer x = some b := by
  obtain ⟨n, mod, storage, htries, hbuffer, hnone, -, -⟩ := h
  have hkeeps : Keeps mods (files readFileToBuffer) grant _ :=
    keeps_of_done (I := Owned mods (files readFileToBuffer))
      fun n _ _ _ _ _ _ hdone hfound hs => hs.record (grant n) hdone hfound
  obtain ⟨hfound, left, done, hdone, howned⟩ := htries.keeps hkeeps ⟨[], rfl, nofun, nofun⟩
  refine ⟨howned.first hdone fun d hd => ?_, ?_⟩
  · simpa using List.find?_eq_none.mp hnone d hd
  · rw [bufferOf, hfound.listed, Option.bind_some, hbuffer]

/-- With all memory granted, a page has an entry only if a finding in it was recorded. -/
theorem exists_of_mem_record {done : List Finding} {storage : List LookupStorage}
    {mod : BinaryModInfo}
    {file : File} (h : ∀ off ∈ storage.map (·.pageOff), ∃ y ∈ done, y.pageOff = off) :
    ∀ off ∈ (record {} mod file x storage).1.map (·.pageOff),
      ∃ y ∈ done ++ [x], y.pageOff = off := by
  have hkept : ∀ off ∈ storage.map (·.pageOff), ∃ y ∈ done ++ [x], y.pageOff = off := by
    intro off hoff
    obtain ⟨y, hy, hyoff⟩ := h off hoff
    exact ⟨y, List.mem_append_left _ hy, hyoff⟩
  rcases record_granted mod file x storage with
    ⟨k, e, e', -, hk, hadd, hrun⟩ | ⟨-, e', hadd, hrun⟩ <;>
    rw [hrun]
  · rw [Keyed.map_set hk (addRef_adds hadd).pageOff]
    exact hkept
  · intro off hoff
    rw [List.map_append, List.mem_append, List.map_singleton, List.mem_singleton,
      (addRef_adds hadd).pageOff] at hoff
    rcases hoff with hoff | rfl
    · exact hkept off hoff
    · exact ⟨x, List.mem_append_right _ (List.mem_singleton_self x), rfl⟩

/-- With all memory granted, the page of each of these is copied. -/
theorem IsFirst.copies (h : IsFirst mods readFileToBuffer x)
    (hb : bufferOf mods readFileToBuffer x = some b) :
    Copies (fun _ => {}) mods readFileToBuffer x b := by
  obtain ⟨fuel, hends⟩ := loadFilesForPatching_ends mods (files readFileToBuffer)
  obtain ⟨_, hrun⟩ := hends fuel le_rfl
  obtain ⟨n, mod, file, storage, htries⟩ := exists_tries hrun (List.mem_of_find?_eq_some h)
  have hkeeps : Keeps mods (files readFileToBuffer) (fun _ => {}) fun left storage =>
      ∃ done, done ++ left = findings mods (files readFileToBuffer) ∧
        ∀ off ∈ storage.map (·.pageOff), ∃ y ∈ done, y.pageOff = off := by
    apply keeps_of_done
    intro n x done left storage mod file _ _ hs
    rw [if_pos (record_granted_snd mod file x storage)]
    exact exists_of_mem_record hs
  obtain ⟨hfound, left, done, hdone, hentries⟩ := htries.keeps hkeeps ⟨[], rfl, nofun⟩
  obtain ⟨rfl, hbuffer⟩ : file = b.file ∧ readFileToBuffer mod.path = some b := by
    rw [bufferOf, hfound.listed, Option.bind_some] at hb
    have hread := hfound.read
    rw [files, hb, Option.map_some] at hread
    exact ⟨(Option.some.inj hread).symm, hb⟩
  refine ⟨n, mod, storage, htries, hbuffer, List.find?_eq_none.mpr fun e he heq => ?_, rfl, rfl⟩
  obtain ⟨y, hy, hoff⟩ := hentries _ (List.mem_map_of_mem he)
  -- the finding that the entry was made for would be the first one
  obtain ⟨z, hz⟩ : ∃ z, done.find? (·.pageOff == x.pageOff) = some z := by
    refine Option.isSome_iff_exists.mp (List.find?_isSome.mpr ⟨y, hy, ?_⟩)
    rw [hoff]
    exact heq
  have hfirst := h
  rw [IsFirst, ← hdone, List.find?_append, hz, Option.some_or] at hfirst
  obtain rfl := Option.some.inj hfirst
  have hnodup := nodup_findings mods (files readFileToBuffer)
  rw [← hdone] at hnodup
  exact List.disjoint_of_nodup_append hnodup (List.mem_of_find?_eq_some hz) List.mem_cons_self

/-- A file of a page and eight bytes, which are its section. -/
def shortBuffer : FileBuffer where
  file :=
    { memory := fun _ => 1
      findSectionBounds := fun _ _ => ⟨0x100000000, 0x100001000, 0x11000, 8⟩ }
  buf := 0x10000
  fileSize := 4104
  fits := by decide
  inside := fun _ _ _ => ⟨show (0x10000 : ℕ) ≤ 0x11000 by omega, le_rfl⟩

end Lilu.UserPatcher
