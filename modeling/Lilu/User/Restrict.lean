import Lilu.User.ImageHeader

/-!
# Adding a load command

`injectRestrict` puts a `__RESTRICT` segment behind the load commands of a process' image. The new
command may lie in the first page, in a later one, or in two; up to three pages are made writable
for it, with their protections saved to be set again afterwards.

## Main definitions

* `restrictSegment`: the new command
* `savedProts`, `setProts`: the pages with their protections, and the loops that set them
* `appendCommand`, `restrictImage`, `injectRestrict`: the writes, and all of it
* `Restricted`: the image has the new command, and nothing else has changed

## Main results

* `savedProts_cover`: the saved pages are those that are written to
* `setProts_granted`: what setting protections does
* `injectRestrict_restricted`: an image becomes restricted
-/

namespace Lilu.UserPatcher

open Lilu.MachInfo (Buffer bytesAt u32 u64)

/-! ## The new command -/

def SHARED_REGION_BASE_X86_64 : ℕ := 0x7FFF00000000
def SHARED_REGION_BASE_I386 : ℕ := 0x90000000

/-- `__RESTRICT` -/
def restrictName : List UInt8 := [95, 95, 82, 69, 83, 84, 82, 73, 67, 84, 0, 0, 0, 0, 0, 0]

/-- A `segment_command_64`: its last 32 bytes, from the file offset on, are zero. -/
def restrictSegment64 : List UInt8 :=
  leBytes 4 LC_SEGMENT_64 ++ leBytes 4 72 ++ restrictName ++
    leBytes 8 SHARED_REGION_BASE_X86_64 ++ leBytes 8 1 ++ List.replicate 32 0

/-- A `segment_command`: its last 24 bytes, from the file offset on, are zero. -/
def restrictSegment32 : List UInt8 :=
  leBytes 4 LC_SEGMENT ++ leBytes 4 56 ++ restrictName ++
    leBytes 4 SHARED_REGION_BASE_I386 ++ leBytes 4 1 ++ List.replicate 24 0

def restrictSegment (magic : ℕ) : List UInt8 :=
  if magic = MH_MAGIC then restrictSegment32 else restrictSegment64

/-! ## Injection -/

/-- No page is saved at zero. -/
def noPage : SavedProt :=
  ⟨0, ⟨false, false, false⟩⟩

/-- The page that the commands end in, as it is computed. -/
def boundPage (baseAddr : VmAddress) (orgBound : ℕ) : VmAddress :=
  baseAddr + BitVec.ofNat 64 orgBound - BitVec.ofNat 64 (orgBound % PAGE_SIZE)

/-- The pages that are written to, if the commands end at `orgBound` and `restrSize` bytes are
added. -/
def savedProts (m : ProcessMap) (baseAddr : VmAddress) (orgBound restrSize : ℕ) :
    List SavedProt :=
  if PAGE_SIZE < orgBound + restrSize then
    let off := boundPage baseAddr orgBound
    if off + BitVec.ofNat 64 PAGE_SIZE < baseAddr + BitVec.ofNat 64 (orgBound + restrSize) then
      [savePage m baseAddr, savePage m off, savePage m (off + BitVec.ofNat 64 PAGE_SIZE)]
    else [savePage m baseAddr, savePage m off, noPage]
  else [savePage m baseAddr, noPage, noPage]

variable (K : VmKernel)

/-- The pages that were not writable get `f` of their protection, up to the first that does not. -/
def setProts (f : VmProt → VmProt) : List SavedProt → Vm → Bool × Vm
  | [], s => (true, s)
  | e :: prots, s =>
    if e.off ≠ 0 ∧ e.val.write = false then
      let (r, s) := vmProtect K e.off PAGE_SIZE (f e.val) s
      if r = KERN_SUCCESS then setProts f prots s else (false, s)
    else setProts f prots s

/-- The size and the number of commands as they are written. -/
def combVal (sizeofcmds ncmds : ℕ) : BitVec 64 :=
  BitVec.ofNat 64 sizeofcmds <<< 32 ||| BitVec.ofNat 64 (ncmds % 2 ^ 32)

/-- The new number and size of commands are written, and the new command; without it the old number
and size are put back. -/
def appendCommand (baseAddr : VmAddress) (magic ncmds sizeofcmds : ℕ) (s : Vm) : Bool × Vm :=
  let segment := restrictSegment magic
  let ncmdsAddr := baseAddr + 16
  let newCmdAddr := baseAddr + BitVec.ofNat 64 (hdrSize magic + sizeofcmds)
  let newCombVal := combVal (sizeofcmds + segment.length) (ncmds + 1)
  let (r, s) := orgVmMapWriteUser K ncmdsAddr (bytes newCombVal) s
  if r = KERN_SUCCESS then
    let (r, s) := orgVmMapWriteUser K newCmdAddr segment s
    if r = KERN_SUCCESS then (true, s)
    else (false, (orgVmMapWriteUser K ncmdsAddr (bytes (combVal sizeofcmds ncmds)) s).2)
  else (false, s)

/-- What is done to an image with a header that is known: pages are made writable, the command is
written, and the protections are set as they were. It ends with the first call that is refused. -/
def restrictImage (baseAddr : VmAddress) (magic ncmds sizeofcmds : ℕ) (s : Vm) : Vm :=
  let prots := savedProts s.map baseAddr (hdrSize magic + sizeofcmds) (restrictSegment magic).length
  match setProts K VmProt.withWrite prots s with
  | (false, s) => s
  | (true, s) =>
    match appendCommand K baseAddr magic ncmds sizeofcmds s with
    | (false, s) => s
    | (true, s) => (setProts K id prots s).2

def injectRestrict (baseAddr : VmAddress) (s : Vm) : Bool × Vm :=
  match orgVmMapReadUser K baseAddr 32 s with
  | (none, s) => (false, s)
  | (some tmp, s) =>
    let tmpHeader : Buffer := fun k => tmp.getD k 0
    let magic := u32 tmpHeader 0
    if magic = MH_MAGIC_64 ∨ magic = MH_MAGIC then
      (true, restrictImage K baseAddr magic (u32 tmpHeader 16) (u32 tmpHeader 20) s)
    else (true, s)

/-! ## The saved pages -/

section Saved

variable {K} {m : ProcessMap} {s : Vm} {baseAddr : VmAddress} {orgBound restrSize p : ℕ}
  {e : SavedProt} {prots : List SavedProt}

/-- What is saved is a page of the process with its protection. -/
def SavedProt.Of (m : ProcessMap) (e : SavedProt) : Prop :=
  e.off ≠ 0 → e.off.toNat % PAGE_SIZE = 0 ∧ m.protection (pageOf e.off) = some e.val

theorem noPage_of : noPage.Of m :=
  fun h => absurd rfl h

/-- A page that is mapped is saved. -/
theorem savePage_of {off : VmAddress} (ha : off.toNat % PAGE_SIZE = 0)
    (h : (m.protection (pageOf off)).isSome) : (savePage m off).Of m := by
  intro _
  obtain ⟨prot, hprot⟩ := Option.isSome_iff_exists.mp h
  refine ⟨ha, ?_⟩
  rw [savePage, getPageProtection_eq ha hprot, hprot]

/-- The start of the page that the commands end in. -/
theorem toNat_boundPage (baseAddr : VmAddress) (orgBound : ℕ)
    (h : baseAddr.toNat + orgBound < 2 ^ 64) :
    (boundPage baseAddr orgBound).toNat = baseAddr.toNat + (orgBound - orgBound % PAGE_SIZE) := by
  have hle : orgBound % PAGE_SIZE ≤ orgBound := Nat.mod_le _ _
  have hsum : (baseAddr + BitVec.ofNat 64 orgBound).toNat = baseAddr.toNat + orgBound := by
    rw [BitVec.toNat_add, BitVec.toNat_ofNat, Nat.add_mod_mod, Nat.mod_eq_of_lt h]
  have hoff : (BitVec.ofNat 64 (orgBound % PAGE_SIZE)).toNat = orgBound % PAGE_SIZE := by
    rw [BitVec.toNat_ofNat, Nat.mod_eq_of_lt (by omega)]
  rw [boundPage, BitVec.toNat_sub_of_le, hsum, hoff]
  · omega
  · rw [BitVec.le_def, hsum, hoff]
    omega

/-- An image that is written to: aligned, with the new command in mapped pages. -/
structure Room (m : ProcessMap) (baseAddr : VmAddress) (orgBound restrSize : ℕ) : Prop where
  base_ne : baseAddr ≠ 0
  aligned : baseAddr.toNat % PAGE_SIZE = 0
  pos : 0 < restrSize
  small : restrSize < PAGE_SIZE
  mapped : m.Mapped baseAddr (orgBound + restrSize)

theorem Room.isSome (h : Room m baseAddr orgBound restrSize) {off : VmAddress}
    (hle : baseAddr.toNat ≤ off.toNat) (hlt : off.toNat < baseAddr.toNat + (orgBound + restrSize)) :
    (m.protection (pageOf off)).isSome :=
  h.mapped _ (pageOf_mem_pages hle hlt)

/-- The page behind a page is at its end, unless that is the end of the address space. -/
theorem toNat_nextPage {off : VmAddress} (ha : off.toNat % PAGE_SIZE = 0)
    (hne : off + BitVec.ofNat 64 PAGE_SIZE ≠ 0) :
    (off + BitVec.ofNat 64 PAGE_SIZE).toNat = off.toNat + PAGE_SIZE := by
  have hne' : (off + BitVec.ofNat 64 PAGE_SIZE).toNat ≠ 0 := fun h => hne (BitVec.eq_of_toNat_eq h)
  have hlt := off.isLt
  simp only [BitVec.toNat_add, BitVec.toNat_ofNat, PAGE_SIZE] at *
  omega

/-- **The saved pages** are pages of the process with their protections. -/
theorem savedProts_of (h : Room m baseAddr orgBound restrSize) :
    ∀ e ∈ savedProts m baseAddr orgBound restrSize, e.Of m := by
  have hend := h.mapped.le
  have hpos := h.pos
  have hal := h.aligned
  have hfirst : (savePage m baseAddr).Of m := savePage_of hal (h.isSome le_rfl (by omega))
  have hoff := toNat_boundPage baseAddr orgBound (by omega)
  have hoffal : (boundPage baseAddr orgBound).toNat % PAGE_SIZE = 0 := by
    simp only [PAGE_SIZE] at *
    omega
  have hsecond : (savePage m (boundPage baseAddr orgBound)).Of m :=
    savePage_of hoffal (h.isSome (by omega) (by omega))
  have hnil : ∀ e ∈ ([] : List SavedProt), e.Of m := fun e he => absurd he List.not_mem_nil
  simp only [savedProts]
  split_ifs with hlong hlt
  · have hthird : (savePage m (boundPage baseAddr orgBound + BitVec.ofNat 64 PAGE_SIZE)).Of m := by
      intro hne
      have hnext := toNat_nextPage hoffal hne
      rw [BitVec.lt_def, hnext, BitVec.toNat_add, BitVec.toNat_ofNat, Nat.add_mod_mod] at hlt
      have hle := Nat.mod_le (baseAddr.toNat + (orgBound + restrSize)) (2 ^ 64)
      refine savePage_of ?_ (h.isSome (by omega) (by omega)) hne
      rw [hnext, Nat.add_mod_right, hoffal]
    simp only [List.forall_mem_cons]
    exact ⟨hfirst, hsecond, hthird, hnil⟩
  · simp only [List.forall_mem_cons]
    exact ⟨hfirst, hsecond, noPage_of, hnil⟩
  · simp only [List.forall_mem_cons]
    exact ⟨hfirst, noPage_of, noPage_of, hnil⟩

theorem toNat_newCmdAddr (h : Room m baseAddr orgBound restrSize) :
    (baseAddr + BitVec.ofNat 64 orgBound).toNat = baseAddr.toNat + orgBound := by
  have hend := h.mapped.le
  have hpos := h.pos
  rw [BitVec.toNat_add, BitVec.toNat_ofNat, Nat.add_mod_mod, Nat.mod_eq_of_lt (by omega)]

/-- The new command is in the page that the others end in, and the next one if it reaches there. -/
theorem pages_newCommand (h : Room m baseAddr orgBound restrSize)
    (hp : p ∈ pages (baseAddr + BitVec.ofNat 64 orgBound) restrSize) :
    p = pageOf (boundPage baseAddr orgBound) ∨ p = pageOf (boundPage baseAddr orgBound) + 1 ∧
      (boundPage baseAddr orgBound).toNat + PAGE_SIZE <
        baseAddr.toNat + (orgBound + restrSize) := by
  have hal := h.aligned
  have hsmall := h.small
  have hend := h.mapped.le
  have hpos := h.pos
  rw [mem_pages, pageOf, toNat_newCmdAddr h] at hp
  rw [pageOf, toNat_boundPage _ _ (by omega)]
  simp only [PAGE_SIZE] at *
  omega

/-- Where the new command reaches into the next page, that page is saved. -/
theorem savedProts_next (h : Room m baseAddr orgBound restrSize)
    (hnext : (boundPage baseAddr orgBound).toNat + PAGE_SIZE <
      baseAddr.toNat + (orgBound + restrSize)) :
    ∃ e ∈ savedProts m baseAddr orgBound restrSize, e.off ≠ 0 ∧
      pageOf e.off = pageOf (boundPage baseAddr orgBound) + 1 := by
  have hend := h.mapped.le
  have hpos := h.pos
  have hoff := toNat_boundPage baseAddr orgBound (by omega)
  have hnat : (boundPage baseAddr orgBound + BitVec.ofNat 64 PAGE_SIZE).toNat =
      (boundPage baseAddr orgBound).toNat + PAGE_SIZE := by
    rw [BitVec.toNat_add, BitVec.toNat_ofNat, Nat.add_mod_mod, Nat.mod_eq_of_lt (by omega)]
  have hsum : (baseAddr + BitVec.ofNat 64 (orgBound + restrSize)).toNat =
      (baseAddr.toNat + (orgBound + restrSize)) % 2 ^ 64 := by
    rw [BitVec.toNat_add, BitVec.toNat_ofNat, Nat.add_mod_mod]
  have hlong : PAGE_SIZE < orgBound + restrSize := by omega
  have hlt : boundPage baseAddr orgBound + BitVec.ofNat 64 PAGE_SIZE <
      baseAddr + BitVec.ofNat 64 (orgBound + restrSize) := by
    have hal := h.aligned
    have hsmall := h.small
    rw [BitVec.lt_def, hnat, hsum]
    simp only [PAGE_SIZE] at *
    omega
  simp only [savedProts]
  rw [if_pos hlong, if_pos hlt]
  refine ⟨_, List.mem_cons_of_mem _ (List.mem_cons_of_mem _ List.mem_cons_self), ?_, ?_⟩
  · intro h0
    have hzero : (boundPage baseAddr orgBound + BitVec.ofNat 64 PAGE_SIZE).toNat = 0 :=
      congrArg BitVec.toNat h0
    rw [hnat] at hzero
    exact absurd hzero (by simp only [PAGE_SIZE]; omega)
  · rw [savePage, pageOf, hnat, Nat.add_div_right _ (by decide)]
    rfl

/-- **Every page that is written to is saved.** -/
theorem savedProts_cover (h : Room m baseAddr orgBound restrSize)
    (hp : p = pageOf baseAddr ∨ p ∈ pages (baseAddr + BitVec.ofNat 64 orgBound) restrSize) :
    ∃ e ∈ savedProts m baseAddr orgBound restrSize, e.off ≠ 0 ∧ pageOf e.off = p := by
  have hend := h.mapped.le
  have hpos := h.pos
  have hoff := toNat_boundPage baseAddr orgBound (by omega)
  have hoffne : boundPage baseAddr orgBound ≠ 0 := by
    intro h0
    rw [h0] at hoff
    exact h.base_ne (BitVec.eq_of_toNat_eq (Nat.eq_zero_of_add_eq_zero_right hoff.symm))
  rcases hp with rfl | hp
  · refine ⟨savePage m baseAddr, ?_, h.base_ne, rfl⟩
    simp only [savedProts]
    split_ifs <;> exact List.mem_cons_self
  rcases pages_newCommand h hp with rfl | ⟨rfl, hnext⟩
  · simp only [savedProts]
    split_ifs with hlong
    · exact ⟨_, List.mem_cons_of_mem _ List.mem_cons_self, hoffne, rfl⟩
    · exact ⟨_, List.mem_cons_of_mem _ List.mem_cons_self, hoffne, rfl⟩
    · -- the commands end in the first page
      refine ⟨_, List.mem_cons_self, h.base_ne, ?_⟩
      rw [savePage, pageOf, pageOf, hoff]
      have hal := h.aligned
      simp only [PAGE_SIZE] at *
      omega
  · exact savedProts_next h hnext

/-! ## Setting protections -/

/-- The pages that were not writable. -/
def closedPages (prots : List SavedProt) : List ℕ :=
  (prots.filter fun e => e.off ≠ 0 ∧ e.val.write = false).map (pageOf ·.off)

theorem closedPages_cons_of_closed (h : e.off ≠ 0 ∧ e.val.write = false) :
    closedPages (e :: prots) = pageOf e.off :: closedPages prots := by
  rw [closedPages, List.filter_cons_of_pos (by simpa using h)]
  rfl

theorem closedPages_cons_of_not (h : ¬ (e.off ≠ 0 ∧ e.val.write = false)) :
    closedPages (e :: prots) = closedPages prots := by
  rw [closedPages, List.filter_cons_of_neg (by simpa using h)]
  rfl

/-- Setting protections leaves memory alone. -/
theorem setProts_memory (f : VmProt → VmProt) :
    (setProts K f prots s).2.map.memory = s.map.memory := by
  induction prots generalizing s with
  | nil => rfl
  | cons e prots ih =>
    rw [setProts]
    simp only
    split_ifs
    · rw [ih, vmProtect_memory]
    · exact vmProtect_memory K
    · exact ih

/-- The only calls that are made are those that set protections. -/
theorem setProts_calls (f : VmProt → VmProt) : ∀ c ∈ (setProts K f prots s).2.calls,
    c ∈ s.calls ∨ ∃ a n prot, c.1 = .protect a n prot := by
  induction prots generalizing s with
  | nil => exact fun c hc => .inl hc
  | cons e prots ih =>
    have hcall : ∀ c ∈ (vmProtect K e.off PAGE_SIZE (f e.val) s).2.calls,
        c ∈ s.calls ∨ ∃ a n prot, c.1 = .protect a n prot := by
      intro c hc
      rw [vmProtect_calls, List.mem_append, List.mem_singleton] at hc
      rcases hc with hc | rfl
      · exact .inl hc
      · exact .inr ⟨_, _, _, rfl⟩
    intro c hc
    rw [setProts] at hc
    simp only at hc
    split_ifs at hc
    · exact (ih c hc).elim (hcall c) .inr
    · exact hcall c hc
    · exact ih c hc

/-- A saved page that is mapped gets a protection, and no other page does. -/
theorem vmProtect_saved (hK : K.Grants) (f : VmProt → VmProt) (he : e.Of m) (hne : e.off ≠ 0)
    (hsome : (s.map.protection (pageOf e.off)).isSome) :
    (vmProtect K e.off PAGE_SIZE (f e.val) s).1 = KERN_SUCCESS ∧
      ∀ p, (vmProtect K e.off PAGE_SIZE (f e.val) s).2.map.protection p =
        if p = pageOf e.off then (m.protection p).map f else s.map.protection p := by
  obtain ⟨hal, hprot⟩ := he hne
  have hmapped : s.map.Mapped e.off PAGE_SIZE := by
    intro p hp
    rwa [(mem_pages_page hal).mp hp]
  have hok : (vmProtect K e.off PAGE_SIZE (f e.val) s).1 = KERN_SUCCESS :=
    vmProtect_granted hK hmapped
  refine ⟨hok, fun p => ?_⟩
  rw [vmProtect_map, if_pos hok]
  simp only [ProcessMap.setProtection, mem_pages_page hal]
  split_ifs with hp
  · -- the page is mapped, and its protection was saved
    obtain ⟨old, hold⟩ := Option.isSome_iff_exists.mp hsome
    rw [hp, hold, hprot, Option.map_some, Option.map_some]
  · rfl

/-- **What setting protections does**: the pages that were not writable get `f` of the protection
they had. -/
theorem setProts_granted (hK : K.Grants) (f : VmProt → VmProt) (hof : ∀ e ∈ prots, e.Of m)
    (hs : ∀ p, (m.protection p).isSome → (s.map.protection p).isSome) :
    (setProts K f prots s).1 = true ∧ ∀ p, (setProts K f prots s).2.map.protection p =
      if p ∈ closedPages prots then (m.protection p).map f else s.map.protection p := by
  induction prots generalizing s with
  | nil => exact ⟨rfl, fun p => (if_neg List.not_mem_nil).symm⟩
  | cons e prots ih =>
    obtain ⟨he, hof⟩ := List.forall_mem_cons.mp hof
    rw [setProts]
    by_cases hclosed : e.off ≠ 0 ∧ e.val.write = false
    · have hsome : (s.map.protection (pageOf e.off)).isSome :=
        hs _ (by rw [(he hclosed.1).2]; rfl)
      obtain ⟨hok, hpage⟩ := vmProtect_saved hK f he hclosed.1 hsome
      have hs' : ∀ p, (m.protection p).isSome →
          ((vmProtect K e.off PAGE_SIZE (f e.val) s).2.map.protection p).isSome := by
        intro p hp
        rw [hpage]
        split_ifs
        · rwa [Option.isSome_map]
        · exact hs p hp
      obtain ⟨hrun, hrest⟩ := ih hof hs'
      simp only [if_pos hclosed, hok, if_true]
      refine ⟨hrun, fun p => ?_⟩
      rw [hrest, hpage, closedPages_cons_of_closed hclosed]
      simp only [List.mem_cons]
      by_cases hp : p ∈ closedPages prots
      · rw [if_pos hp, if_pos (.inr hp)]
      · simp only [hp, or_false, if_false]
    · rw [if_neg hclosed, closedPages_cons_of_not hclosed]
      exact ih hof hs

end Saved

/-! ## The new header -/

section Header

variable {K} {m : ProcessMap} {s : Vm} {baseAddr : VmAddress} {cs : List (List UInt8)} {o : ℕ}

/-- The number of commands comes first, then their size. -/
theorem bytes_combVal {sizeofcmds ncmds : ℕ} (hsize : sizeofcmds < 2 ^ 32) :
    bytes (combVal sizeofcmds ncmds) = leBytes 4 ncmds ++ leBytes 4 sizeofcmds := by
  have hlow : ncmds % 2 ^ 32 < 2 ^ 32 := Nat.mod_lt _ (by decide)
  have hnat : (combVal sizeofcmds ncmds).toNat = sizeofcmds * 2 ^ 32 + ncmds % 2 ^ 32 := by
    rw [combVal, BitVec.toNat_or, BitVec.toNat_shiftLeft, BitVec.toNat_ofNat, BitVec.toNat_ofNat,
      Nat.mod_eq_of_lt (a := sizeofcmds) (by omega),
      Nat.mod_eq_of_lt (a := ncmds % 2 ^ 32) (by omega),
      Nat.mod_eq_of_lt (by rw [Nat.shiftLeft_eq]; omega), ← Nat.shiftLeft_add_eq_or_of_lt hlow,
      Nat.shiftLeft_eq]
  have hpow : (256 : ℕ) ^ 4 = 2 ^ 32 := by norm_num
  rw [bytes, hnat, show 64 / 8 = 4 + 4 from rfl, leBytes_add, hpow]
  congr 1
  · rw [← leBytes_mod, hpow, Nat.mul_add_mod_self_right, Nat.mod_mod, ← hpow, leBytes_mod]
  · rw [Nat.mul_comm, Nat.mul_add_div (by decide), Nat.div_eq_of_lt hlow, Nat.add_zero]

theorem restrictSegment_command (magic : ℕ) :
    cmdsize (restrictSegment magic) = (restrictSegment magic).length ∧
      8 ≤ (restrictSegment magic).length ∧ (restrictSegment magic).length < PAGE_SIZE := by
  rw [restrictSegment]
  split_ifs
  · decide
  · decide

/-- The header that is read is that of the image. -/
theorem u32_header (m : ProcessMap) (baseAddr : VmAddress) (h : o + 4 ≤ 32) :
    u32 (fun k => (load m.memory baseAddr 32).getD k 0) o = u32 (imageAt m baseAddr) o := by
  refine congrArg leNat (List.map_congr_left fun k hk => ?_)
  have hk' := List.mem_range.mp hk
  dsimp only
  rw [List.getD_eq_getElem?_getD, getElem?_load (by omega), Option.getD_some, imageAt]

/-- A call is no write, or is made where the process can be written to. -/
def WritesOpen (c : VmCall × ProcessMap) : Prop :=
  ∀ a bs, c.1 = .write a bs → c.2.Writable a bs.length

/-- **The image has the new command**: it comes behind the others and is counted with them; no other
byte has changed, nor has any protection, and all writes were made to writable pages. -/
structure Restricted (baseAddr : VmAddress) (cs : List (List UInt8)) (s s' : Vm) : Prop where
  commands : imageCommands (imageAt s'.map baseAddr) =
    some (cs ++ [restrictSegment (u32 (imageAt s.map baseAddr) 0)], [])
  ncmds : u32 (imageAt s'.map baseAddr) 16 = u32 (imageAt s.map baseAddr) 16 + 1
  sizeofcmds : u32 (imageAt s'.map baseAddr) 20 = u32 (imageAt s.map baseAddr) 20 +
    (restrictSegment (u32 (imageAt s.map baseAddr) 0)).length
  memory : ∀ x, x ∉ block (baseAddr + 16) 8 →
    x ∉ block (baseAddr + BitVec.ofNat 64 (hdrSize (u32 (imageAt s.map baseAddr) 0) +
        u32 (imageAt s.map baseAddr) 20))
      (restrictSegment (u32 (imageAt s.map baseAddr) 0)).length →
    s'.map.memory x = s.map.memory x
  protection : ∀ p, s'.map.protection p = s.map.protection p
  writes : ∀ c ∈ s'.calls, c ∈ s.calls ∨ WritesOpen c

/-- The memory after both writes. -/
def restrictedMemory (m : VmAddress → UInt8) (baseAddr : VmAddress)
    (magic ncmds sizeofcmds : ℕ) : VmAddress → UInt8 :=
  store (store m (baseAddr + 16)
      (bytes (combVal (sizeofcmds + (restrictSegment magic).length) (ncmds + 1))))
    (baseAddr + BitVec.ofNat 64 (hdrSize magic + sizeofcmds)) (restrictSegment magic)

section Image

variable {m' : ProcessMap} {magic ncmds sizeofcmds n : ℕ}

theorem length_bytes_combVal : (bytes (combVal sizeofcmds ncmds)).length = 8 :=
  length_bytes _

/-- What is not written is as it was. -/
theorem bytesAt_restricted
    (hm : m'.memory = restrictedMemory m.memory baseAddr magic ncmds sizeofcmds)
    (hsize : sizeofcmds + (restrictSegment magic).length < 2 ^ 32)
    (h : o + n ≤ 16 ∨ 24 ≤ o ∧ o + n ≤ hdrSize magic + sizeofcmds) :
    bytesAt (imageAt m' baseAddr) o n = bytesAt (imageAt m baseAddr) o n := by
  have hhdr := header_le magic
  have hcmd : Disjoint (block (baseAddr + BitVec.ofNat 64 (hdrSize magic + sizeofcmds))
      (restrictSegment magic).length) (block (baseAddr + BitVec.ofNat 64 o) n) :=
    (disjoint_block_parts (by omega) (by omega)).symm
  have hcomb : Disjoint (block (baseAddr + BitVec.ofNat 64 16) 8)
      (block (baseAddr + BitVec.ofNat 64 o) n) := by
    rcases h with h | h
    · exact (disjoint_block_parts h (by omega)).symm
    · exact disjoint_block_parts h.1 (by omega)
  rw [bytesAt_imageAt, bytesAt_imageAt, hm, restrictedMemory, load_store_disjoint hcmd]
  exact load_store_disjoint (by rwa [length_bytes_combVal])

/-- The number and the size of the commands. -/
theorem u32_restricted
    (hm : m'.memory = restrictedMemory m.memory baseAddr magic ncmds sizeofcmds)
    (hncmds : ncmds + 1 < 2 ^ 32) (hsize : sizeofcmds + (restrictSegment magic).length < 2 ^ 32) :
    u32 (imageAt m' baseAddr) 16 = ncmds + 1 ∧
      u32 (imageAt m' baseAddr) 20 = sizeofcmds + (restrictSegment magic).length := by
  have hhdr := header_le magic
  have hpow : (256 : ℕ) ^ 4 = 2 ^ 32 := by norm_num
  have hcmd : Disjoint (block (baseAddr + BitVec.ofNat 64 (hdrSize magic + sizeofcmds))
      (restrictSegment magic).length) (block (baseAddr + BitVec.ofNat 64 16) 8) :=
    (disjoint_block_parts (by omega) (by omega)).symm
  have hcomb : bytesAt (imageAt m' baseAddr) 16 (4 + 4) =
      leBytes 4 (ncmds + 1) ++ leBytes 4 (sizeofcmds + (restrictSegment magic).length) := by
    rw [bytesAt_imageAt, hm, restrictedMemory, load_store_disjoint hcmd, ← bytes_combVal hsize]
    exact load_store (by rw [length_bytes_combVal]; decide)
  rw [bytesAt_add] at hcomb
  obtain ⟨hn, hs⟩ := List.append_inj hcomb (by rw [length_bytesAt, length_leBytes])
  rw [u32, u32, hn, hs, leNat_leBytes, leNat_leBytes, hpow, Nat.mod_eq_of_lt hncmds,
    Nat.mod_eq_of_lt hsize]
  exact ⟨rfl, rfl⟩

theorem bytesAt_newCommand
    (hm : m'.memory = restrictedMemory m.memory baseAddr magic ncmds sizeofcmds) :
    bytesAt (imageAt m' baseAddr) (hdrSize magic + sizeofcmds) (restrictSegment magic).length =
      restrictSegment magic := by
  have hlen := (restrictSegment_command magic).2.2
  rw [bytesAt_imageAt, hm, restrictedMemory]
  exact load_store (hlen.le.trans (by decide))

/-- **The new header has the old commands and the new one.** -/
theorem imageCommands_restricted
    (hm : m'.memory = restrictedMemory m.memory baseAddr (u32 (imageAt m baseAddr) 0)
      (u32 (imageAt m baseAddr) 16) (u32 (imageAt m baseAddr) 20))
    (hcs : imageCommands (imageAt m baseAddr) = some (cs, []))
    (hncmds : u32 (imageAt m baseAddr) 16 + 1 < 2 ^ 32)
    (hsize : u32 (imageAt m baseAddr) 20 +
      (restrictSegment (u32 (imageAt m baseAddr) 0)).length < 2 ^ 32) :
    imageCommands (imageAt m' baseAddr) =
      some (cs ++ [restrictSegment (u32 (imageAt m baseAddr) 0)], []) := by
  have hmagic : u32 (imageAt m' baseAddr) 0 = u32 (imageAt m baseAddr) 0 :=
    congrArg leNat (bytesAt_restricted hm hsize (.inl (by omega)))
  obtain ⟨hn, hs⟩ := u32_restricted hm hncmds hsize
  have hhdr := header_le (u32 (imageAt m baseAddr) 0)
  have hseg := restrictSegment_command (u32 (imageAt m baseAddr) 0)
  rw [imageCommands] at hcs
  split_ifs at hcs with hknown
  rw [imageCommands, hmagic, if_pos hknown, hn, hs, bytesAt_add, bytesAt_newCommand hm,
    bytesAt_restricted hm hsize (.inr ⟨by omega, le_rfl⟩)]
  exact splitCommands_append hcs hseg.1 hseg.2.1

end Image

/-! ## The injection -/

theorem writesOpen_write {a : VmAddress} {bs : List UInt8} (h : m.Writable a bs.length) :
    WritesOpen (.write a bs, m) := by
  intro a' bs' heq
  cases heq
  exact h

theorem writesOpen_protect {c : VmCall × ProcessMap} {a : VmAddress} {n : ℕ} {prot : VmProt}
    (h : c.1 = .protect a n prot) : WritesOpen c := by
  intro a' bs' heq
  rw [h] at heq
  cases heq

/-- On pages that are writable, both writes are made. -/
theorem appendCommand_granted (hK : K.Grants) {magic sizeofcmds : ℕ} (ncmds : ℕ)
    (hhead : s.map.Writable (baseAddr + 16) 8)
    (hnew : s.map.Writable (baseAddr + BitVec.ofNat 64 (hdrSize magic + sizeofcmds))
      (restrictSegment magic).length) :
    ∃ s', appendCommand K baseAddr magic ncmds sizeofcmds s = (true, s') ∧
      s'.map.memory = restrictedMemory s.map.memory baseAddr magic ncmds sizeofcmds ∧
      s'.map.protection = s.map.protection ∧
      ∀ c ∈ s'.calls, c ∈ s.calls ∨ WritesOpen c := by
  have hlen : (bytes (combVal (sizeofcmds + (restrictSegment magic).length)
      (ncmds + 1))).length = 8 := length_bytes_combVal
  have hopen := hhead
  rw [← hlen] at hopen
  rw [appendCommand]
  simp only
  rw [orgVmMapWriteUser_granted hK hopen]
  simp only [if_true]
  rw [orgVmMapWriteUser_granted hK (s := _) (by exact hnew)]
  simp only [if_true]
  refine ⟨_, rfl, rfl, rfl, fun c hc => ?_⟩
  simp only [List.mem_append, List.mem_singleton] at hc
  rcases hc with (hc | rfl) | rfl
  · exact .inl hc
  · exact .inr (writesOpen_write hopen)
  · exact .inr (writesOpen_write hnew)

/-- A saved page is writable once the pages that were not are. -/
theorem writable_of_saved {prots : List SavedProt} {e : SavedProt}
    (hof : ∀ e ∈ prots, e.Of m) (hs : ∀ p, s.map.protection p =
      if p ∈ closedPages prots then (m.protection p).map VmProt.withWrite else m.protection p)
    (he : e ∈ prots) (hne : e.off ≠ 0) :
    ∃ prot, s.map.protection (pageOf e.off) = some prot ∧ prot.write := by
  obtain ⟨-, hprot⟩ := hof e he hne
  rw [hs, hprot]
  split_ifs with hclosed
  · exact ⟨_, rfl, rfl⟩
  · refine ⟨_, rfl, ?_⟩
    -- else the page would have been made writable
    by_contra hwrite
    have hmem : e ∈ prots.filter fun e => e.off ≠ 0 ∧ e.val.write = false :=
      List.mem_filter.mpr ⟨he, decide_eq_true ⟨hne, Bool.eq_false_iff.mpr hwrite⟩⟩
    exact hclosed (List.mem_map_of_mem hmem)

/-- The pages that are written to are writable once the saved pages are. -/
theorem writable_of_cover {orgBound restrSize : ℕ} (h : Room m baseAddr orgBound restrSize)
    (hs : ∀ p, s.map.protection p =
      if p ∈ closedPages (savedProts m baseAddr orgBound restrSize) then
        (m.protection p).map VmProt.withWrite
      else m.protection p) :
    s.map.Writable (baseAddr + 16) 8 ∧
      s.map.Writable (baseAddr + BitVec.ofNat 64 orgBound) restrSize := by
  have hsaved {p : ℕ} (hp : p = pageOf baseAddr ∨
      p ∈ pages (baseAddr + BitVec.ofNat 64 orgBound) restrSize) :
      ∃ prot, s.map.protection p = some prot ∧ prot.write := by
    obtain ⟨e, he, hne, rfl⟩ := savedProts_cover h hp
    exact writable_of_saved (savedProts_of h) hs he hne
  refine ⟨fun p hp => hsaved (.inl ?_), fun p hp => hsaved (.inr hp)⟩
  -- the number and the size of the commands are in the first page
  have hal := h.aligned
  have hlt := baseAddr.isLt
  have hsum : (baseAddr + 16).toNat = (baseAddr.toNat + 16) % 2 ^ 64 := BitVec.toNat_add ..
  rw [mem_pages, pageOf, hsum] at hp
  simp only [pageOf, PAGE_SIZE] at *
  omega

/-- **What is done to an image**: the writes are made, to writable pages, and the protections are
those from before. -/
theorem restrictImage_granted (hK : K.Grants) {magic sizeofcmds : ℕ} (ncmds : ℕ)
    (h : Room s.map baseAddr (hdrSize magic + sizeofcmds) (restrictSegment magic).length) :
    (restrictImage K baseAddr magic ncmds sizeofcmds s).map.memory =
        restrictedMemory s.map.memory baseAddr magic ncmds sizeofcmds ∧
      (∀ p, (restrictImage K baseAddr magic ncmds sizeofcmds s).map.protection p =
        s.map.protection p) ∧
      ∀ c ∈ (restrictImage K baseAddr magic ncmds sizeofcmds s).calls,
        c ∈ s.calls ∨ WritesOpen c := by
  have hof := savedProts_of h
  have hcover := fun t : Vm => writable_of_cover (s := t) h
  rw [restrictImage]
  generalize savedProts s.map baseAddr (hdrSize magic + sizeofcmds)
    (restrictSegment magic).length = prots at *
  obtain ⟨hrun, hopen⟩ := setProts_granted hK VmProt.withWrite hof (s := s) fun _ hp => hp
  have hmem : (setProts K VmProt.withWrite prots s).2.map.memory = s.map.memory :=
    setProts_memory VmProt.withWrite
  have hlog : ∀ c ∈ (setProts K VmProt.withWrite prots s).2.calls, c ∈ s.calls ∨ WritesOpen c :=
    fun c hc => (setProts_calls VmProt.withWrite c hc).imp_right
      fun ⟨_, _, _, h⟩ => writesOpen_protect h
  generalize setProts K VmProt.withWrite prots s = opened at *
  obtain ⟨b, s₁⟩ := opened
  obtain rfl : b = true := hrun
  -- the pages are open, and the writes are made
  obtain ⟨hhead, hnew⟩ := hcover s₁ hopen
  obtain ⟨s₂, happend, hmem₂, hprot₂, hlog₂⟩ :=
    appendCommand_granted hK ncmds hhead hnew
  simp only [happend]
  refine ⟨?_, fun p => ?_, fun c hc => ?_⟩
  · rw [setProts_memory, hmem₂, hmem]
  · have hsome : ∀ p, (s.map.protection p).isSome → (s₂.map.protection p).isSome := by
      intro p hp
      rw [hprot₂, hopen]
      split_ifs
      · rwa [Option.isSome_map]
      · exact hp
    rw [(setProts_granted hK id hof hsome).2, hprot₂, hopen]
    split_ifs
    · rw [Option.map_id_fun, id_eq]
    · rfl
  · rcases setProts_calls id c hc with hc | ⟨_, _, _, hc⟩
    · rcases hlog₂ c hc with hc | hc
      · exact hlog c hc
      · exact .inr hc
    · exact .inr (writesOpen_protect hc)

/-- **An image becomes restricted**, wherever its commands end and whatever its protections are. -/
theorem injectRestrict_restricted (K : VmKernel) (hK : K.Grants) (s : Vm) (baseAddr : VmAddress)
    (cs : List (List UInt8)) (hbase : baseAddr ≠ 0) (haligned : baseAddr.toNat % PAGE_SIZE = 0)
    (hcs : imageCommands (imageAt s.map baseAddr) = some (cs, []))
    (hncmds : u32 (imageAt s.map baseAddr) 16 + 1 < 2 ^ 32)
    (hsize : u32 (imageAt s.map baseAddr) 20 +
      (restrictSegment (u32 (imageAt s.map baseAddr) 0)).length < 2 ^ 32)
    (hmapped : s.map.Mapped baseAddr (hdrSize (u32 (imageAt s.map baseAddr) 0) +
      u32 (imageAt s.map baseAddr) 20 +
      (restrictSegment (u32 (imageAt s.map baseAddr) 0)).length)) :
    (injectRestrict K baseAddr s).1 = true ∧
      Restricted baseAddr cs s (injectRestrict K baseAddr s).2 := by
  have hseg := restrictSegment_command (u32 (imageAt s.map baseAddr) 0)
  have hroom : Room s.map baseAddr _ _ := ⟨hbase, haligned, by omega, hseg.2.2, hmapped⟩
  have hread : s.map.Mapped baseAddr 32 := by
    have hhdr := header_le (u32 (imageAt s.map baseAddr) 0)
    exact hmapped.mono le_rfl (by omega)
  have hknown : u32 (imageAt s.map baseAddr) 0 = MH_MAGIC_64 ∨
      u32 (imageAt s.map baseAddr) 0 = MH_MAGIC := by
    rw [imageCommands] at hcs
    split_ifs at hcs with hknown
    exact hknown
  rw [injectRestrict, orgVmMapReadUser_granted hK hread]
  simp only [u32_header s.map baseAddr (show 0 + 4 ≤ 32 by omega),
    u32_header s.map baseAddr (show 16 + 4 ≤ 32 by omega),
    u32_header s.map baseAddr (show 20 + 4 ≤ 32 by omega), if_pos hknown, true_and]
  obtain ⟨hmem, hprot, hlog⟩ := restrictImage_granted hK (u32 (imageAt s.map baseAddr) 16)
    (s := { s with calls := s.calls ++ [(.read baseAddr 32, s.map)] }) hroom
  obtain ⟨hn, hs⟩ := u32_restricted hmem hncmds hsize
  constructor
  case commands => exact imageCommands_restricted hmem hcs hncmds hsize
  case ncmds => exact hn
  case sizeofcmds => exact hs
  case memory =>
    intro x hhead hnew
    rw [hmem, restrictedMemory, store_of_notMem hnew,
      store_of_notMem (by rwa [length_bytes_combVal])]
  case protection => exact hprot
  case writes =>
    intro c hc
    rcases hlog c hc with hc | hc
    · rcases List.mem_append.mp hc with hc | hc
      · exact .inl hc
      · -- the call that reads the header
        rw [List.mem_singleton.mp hc]
        exact .inr fun a bs heq => nomatch heq
    · exact .inr hc

/-- A 64-bit image at `0x1000` with one command of eight bytes, readable and executable. -/
def sampleImage : Vm where
  map :=
    { memory := fun x => (leBytes 4 MH_MAGIC_64 ++ List.replicate 12 0 ++ leBytes 4 1 ++
        leBytes 4 8 ++ List.replicate 8 0 ++ leBytes 4 2 ++ leBytes 4 8).getD (x - 0x1000).toNat 0
      protection := fun p => if p = 1 then some ⟨true, false, true⟩ else none
      bounded := fun p hp => if_neg (by omega) }
  currentProc := none
  csFlagsOffset := 0
  calls := []

theorem injectRestrict_restricted_sample :
    (injectRestrict (plainKernel 17) 0x1000 sampleImage).1 = true ∧
      Restricted 0x1000 [leBytes 4 2 ++ leBytes 4 8] sampleImage
        (injectRestrict (plainKernel 17) 0x1000 sampleImage).2 :=
  injectRestrict_restricted (plainKernel 17) (plainKernel_grants 17) sampleImage 0x1000 _
    (by decide) (by decide) (by decide) (by decide) (by decide) (by decide)

end Header

end Lilu.UserPatcher
