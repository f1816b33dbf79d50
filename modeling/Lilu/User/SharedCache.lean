import Lilu.Prelude.Loop
import Lilu.User.ProcessMap

/-!
# Patching the shared cache

The shared cache is mapped to a process with its text and data segments. `patchSharedCache` goes
through the places that are put down for the patches of each binary. Where the bytes are those that
are expected, their page is made writable for the time of a write, and readable and executable after
it, whatever it was before.

## Main definitions

* `ModSegments`: where the segments of a binary lie in the cache
* `writePlace`, `patchPlace`, `patchSharedCache`: what is done at a place, and the loops over all of
  them
* `cachePlaces`: the places in the order in which they are visited
* `KeepsMap`: protections are as they were, and memory changes where the expected bytes were only

## Main results

* `patchSharedCache_eq`: the loops visit the places
* `patchPlace_protection`, `patchPlace_memory`: what a visit changes
* `keepsMap_iff`: when the protections are kept
-/

namespace Lilu.UserPatcher

/-! ## The loops -/

def SegmentsTextEnd : ℕ := 4
def SegmentsDataStart : ℕ := 5
def SegmentsDataEnd : ℕ := 7

/-- Where the segments of a binary lie in the shared cache; zero if they are not known. -/
structure ModSegments where
  startTEXT : VmAddress
  endTEXT : VmAddress
  startDATA : VmAddress
  endDATA : VmAddress
  deriving DecidableEq

/-- The bounds of the segment that a patch is for. -/
def ModSegments.bounds (mod : ModSegments) (segment : ℕ) : VmAddress × VmAddress :=
  if segment ≤ SegmentsTextEnd then (mod.startTEXT, mod.endTEXT)
  else if SegmentsDataStart ≤ segment ∧ segment ≤ SegmentsDataEnd then
    (mod.startDATA, mod.endDATA)
  else (0, 0)

/-- A place in the cache, the bytes that are expected there, and those to put there instead. -/
structure CachePlace where
  place : VmAddress
  expected : List UInt8
  put : List UInt8
  sized : put.length = expected.length

/-- The page of a place, as it is computed. -/
def CachePlace.vmpage (x : CachePlace) : VmAddress :=
  x.place &&& -BitVec.ofNat 64 PAGE_SIZE

variable (K : VmKernel)

def protAll : VmProt := ⟨true, true, true⟩
def protReadExecute : VmProt := ⟨true, false, true⟩

/-- What is done where the expected bytes are: the page is opened, written to and closed. -/
def writePlace (x : CachePlace) (s : Vm) : Vm :=
  let (r, s) := vmProtect K x.vmpage PAGE_SIZE protAll s
  if r = KERN_SUCCESS then
    let s := (orgVmMapWriteUser K x.place x.put s).2
    (vmProtect K x.vmpage PAGE_SIZE protReadExecute s).2
  else s

/-- What is done at a place. -/
def patchPlace (s : Vm) (x : CachePlace) : Vm :=
  match orgVmMapReadUser K x.place x.expected.length s with
  | (none, s) => s
  | (some tmp, s) => if tmp = x.expected then writePlace K x s else s

/-- The place at an offset of a segment, for a patch that is applied or taken back. -/
def BinaryModPatch.placeAt (patch : BinaryModPatch) (applyChanges : Bool) (modStart : VmAddress)
    (slide : BitVec 32) (segOff : VmAddress) : CachePlace where
  place := modStart + segOff + slide.setWidth 64
  expected := if applyChanges then patch.find else patch.replace
  put := if applyChanges then patch.replace else patch.find
  sized := by cases applyChanges <;> simp [patch.sized]

/-- The state of the patcher: the process, and the slide that is stored for later. -/
structure CacheState where
  vm : Vm
  storedSharedCacheSlide : BitVec 32
  sharedCacheSlideStored : Bool

/-- What the loops go by: the segments of each binary, which buffers are granted (by the indices of
entry and reference), the slide, the processor type, and whether patches are applied or taken
back. -/
structure CacheRequest where
  segments : BinaryModInfo → ModSegments
  create : ℕ → ℕ → Bool
  slide : BitVec 32
  cpu : ℕ
  applyChanges : Bool

/-- The body of the loop over the references of the entry of index `i`. -/
def patchRef (q : CacheRequest) (i : ℕ) (e : LookupStorage) (s : Vm) (r : ℕ × PatchRef) : Vm :=
  match e.mod.patches[r.2.i]? with
  | none => s
  | some patch =>
    let (modStart, modEnd) := (q.segments e.mod).bounds patch.segment
    if modStart ≠ 0 ∧ modEnd ≠ 0 ∧ r.2.segOffs.length ≠ 0 ∧ patch.cpu = q.cpu then
      if q.create i r.1 then
        r.2.segOffs.foldl
          (fun s segOff => patchPlace K s (patch.placeAt q.applyChanges modStart q.slide segOff)) s
      else s
    else s

def patchSharedCache (q : CacheRequest) (lookupStorage : List LookupStorage) (s : CacheState) :
    CacheState :=
  let s :=
    if q.applyChanges ∧ s.sharedCacheSlideStored = false then
      { s with storedSharedCacheSlide := q.slide, sharedCacheSlideStored := true }
    else s
  { s with
    vm := (indexed lookupStorage).foldl
      (fun s e => (indexed e.2.refs).foldl (patchRef K q e.1 e.2) s) s.vm }

/-! ## The places -/

/-- The places of a reference that are visited. -/
def refPlaces (q : CacheRequest) (i : ℕ) (e : LookupStorage) (r : ℕ × PatchRef) :
    List CachePlace :=
  match e.mod.patches[r.2.i]? with
  | none => []
  | some patch =>
    let (modStart, modEnd) := (q.segments e.mod).bounds patch.segment
    if modStart ≠ 0 ∧ modEnd ≠ 0 ∧ patch.cpu = q.cpu ∧ q.create i r.1 then
      r.2.segOffs.map (patch.placeAt q.applyChanges modStart q.slide)
    else []

/-- The places in the order in which they are visited. -/
def cachePlaces (q : CacheRequest) (lookupStorage : List LookupStorage) : List CachePlace :=
  (indexed lookupStorage).flatMap fun e => (indexed e.2.refs).flatMap (refPlaces q e.1 e.2)

variable {K} {q : CacheRequest} {lookupStorage : List LookupStorage} {s t : Vm} {x : CachePlace}
  {a : VmAddress} {p : ℕ}

theorem patchRef_eq (i : ℕ) (e : LookupStorage) (r : ℕ × PatchRef) :
    patchRef K q i e s r = (refPlaces q i e r).foldl (patchPlace K) s := by
  unfold patchRef refPlaces
  cases e.mod.patches[r.2.i]? with
  | none => rfl
  | some patch =>
    simp only
    split_ifs with hbounds hcreate hall hall hall
    · rw [List.foldl_map]
    · exact absurd ⟨hbounds.1, hbounds.2.1, hbounds.2.2.2, hcreate⟩ hall
    · exact absurd hall.2.2.2 hcreate
    · rfl
    · have hnil : r.2.segOffs = [] := by
        by_contra hne
        exact hbounds ⟨hall.1, hall.2.1, fun h => hne (List.length_eq_zero_iff.mp h), hall.2.2.1⟩
      rw [hnil]
      rfl
    · rfl

/-- **The loops visit the places**, one after the other. -/
theorem patchSharedCache_eq (c : CacheState) : (patchSharedCache K q lookupStorage c).vm =
    (cachePlaces q lookupStorage).foldl (patchPlace K) c.vm := by
  have hvm : (patchSharedCache K q lookupStorage c).vm = (indexed lookupStorage).foldl
      (fun s e => (indexed e.2.refs).foldl (patchRef K q e.1 e.2) s) c.vm := by
    rw [patchSharedCache]
    split_ifs <;> rfl
  have hrefs (e : ℕ × LookupStorage) (s : Vm) :
      (indexed e.2.refs).foldl (patchRef K q e.1 e.2) s =
        ((indexed e.2.refs).flatMap (refPlaces q e.1 e.2)).foldl (patchPlace K) s := by
    rw [List.foldl_flatMap]
    exact congrArg (fun f => List.foldl f s _) (funext₂ fun s r => patchRef_eq e.1 e.2 r)
  rw [hvm, cachePlaces, List.foldl_flatMap]
  exact congrArg (fun f => List.foldl f c.vm _) (funext₂ fun s e => hrefs e s)

/-! ## A visit -/

variable (K) in
/-- The place is read and has the expected bytes. -/
def CachePlace.Hit (x : CachePlace) (s : Vm) : Prop :=
  K.answer (.read x.place x.expected.length) s = KERN_SUCCESS ∧
    load s.map.memory x.place x.expected.length = x.expected

theorem toNat_vmpage : x.vmpage.toNat = pageOf x.place * PAGE_SIZE := by
  -- `-PAGE_SIZE` as a mask clears the twelve low bits
  have hmask : -BitVec.ofNat 64 PAGE_SIZE = ~~~BitVec.ofNat 64 (2 ^ 12 - 1) := by decide
  have hlow := Nat.mod_le x.place.toNat (2 ^ 12)
  have hlt := x.place.isLt
  have hoff : (BitVec.ofNat 64 (x.place.toNat % 2 ^ 12)).toNat = x.place.toNat % 2 ^ 12 := by
    rw [BitVec.toNat_ofNat, Nat.mod_eq_of_lt (by omega)]
  rw [CachePlace.vmpage, hmask, and_not_mask (by decide), BitVec.toNat_sub_of_le, hoff, pageOf,
    PAGE_SIZE]
  · omega
  · rw [BitVec.le_def, hoff]
    exact hlow

theorem mem_pages_vmpage : p ∈ pages x.vmpage PAGE_SIZE ↔ p = pageOf x.place := by
  have hP : 0 < PAGE_SIZE := by decide
  rw [mem_pages_page (by rw [toNat_vmpage, Nat.mul_mod_left]), pageOf, toNat_vmpage,
    Nat.mul_div_cancel _ hP]

theorem setProtection_vmpage (m : ProcessMap) (prot : VmProt) :
    (m.setProtection x.vmpage PAGE_SIZE prot).protection p =
      if p = pageOf x.place then (m.protection p).map fun _ => prot else m.protection p := by
  simp only [ProcessMap.setProtection, mem_pages_vmpage]

theorem mapped_vmpage {m : ProcessMap} (h : (m.protection (pageOf x.place)).isSome) :
    m.Mapped x.vmpage PAGE_SIZE := by
  intro p hp
  rwa [mem_pages_vmpage.mp hp]

/-- What does not have the expected bytes is left as it is. -/
theorem patchPlace_of_not_hit (h : ¬ x.Hit K s) : (patchPlace K s x).map = s.map := by
  rw [patchPlace, orgVmMapReadUser_eq]
  by_cases hr : K.answer (.read x.place x.expected.length) s = KERN_SUCCESS
  · have hne : load s.map.memory x.place x.expected.length ≠ x.expected := fun heq => h ⟨hr, heq⟩
    simp only [if_pos hr, if_neg hne]
  · simp only [if_neg hr]

theorem patchPlace_of_hit (h : x.Hit K s) : patchPlace K s x = writePlace K x
    { s with calls := s.calls ++ [(.read x.place x.expected.length, s.map)] } := by
  rw [patchPlace, orgVmMapReadUser_eq, if_pos h.1, h.2]
  exact if_pos rfl

/-- Without a page there is no protection to set. -/
theorem protection_of_refused {prot : VmProt} (hK : K.Grants)
    (h : (vmProtect K x.vmpage PAGE_SIZE prot s).1 ≠ KERN_SUCCESS) :
    s.map.protection (pageOf x.place) = none := by
  by_contra hne
  exact h (vmProtect_granted hK (mapped_vmpage (Option.isSome_iff_ne_none.mpr hne)))

/-- The page of a place gets a protection, if there is such a page. -/
theorem vmProtect_vmpage (hK : K.Grants) (prot : VmProt) :
    (vmProtect K x.vmpage PAGE_SIZE prot s).2.map.protection p =
      if p = pageOf x.place then (s.map.protection p).map fun _ => prot
      else s.map.protection p := by
  rw [vmProtect_map]
  by_cases hok : (vmProtect K x.vmpage PAGE_SIZE prot s).1 = KERN_SUCCESS
  · rw [if_pos hok, setProtection_vmpage]
  · rw [if_neg hok]
    split_ifs with hp
    · rw [hp, protection_of_refused hK hok, Option.map_none]
    · rfl

/-- **A page that is written to is readable and executable afterwards.** -/
theorem writePlace_protection (hK : K.Grants) : (writePlace K x s).map.protection p =
    if p = pageOf x.place then (s.map.protection p).map fun _ => protReadExecute
    else s.map.protection p := by
  rw [writePlace]
  simp only
  by_cases hok : (vmProtect K x.vmpage PAGE_SIZE protAll s).1 = KERN_SUCCESS
  · rw [if_pos hok, vmProtect_vmpage hK, orgVmMapWriteUser_protection, vmProtect_vmpage hK]
    split_ifs
    · rw [Option.map_map]
      rfl
    · rfl
  · rw [if_neg hok, vmProtect_map, if_neg hok]
    split_ifs with hp
    · rw [hp, protection_of_refused hK hok, Option.map_none]
    · rfl

theorem patchPlace_protection (hK : K.Grants) (h : x.Hit K s) :
    (patchPlace K s x).map.protection p =
      if p = pageOf x.place then (s.map.protection p).map fun _ => protReadExecute
      else s.map.protection p := by
  rw [patchPlace_of_hit h, writePlace_protection hK]

/-- **Memory changes where the expected bytes are.** -/
theorem patchPlace_memory (h : (patchPlace K s x).map.memory a ≠ s.map.memory a) :
    x.Hit K s ∧ a ∈ block x.place x.expected.length := by
  have hhit : x.Hit K s := by
    by_contra hno
    exact h (by rw [patchPlace_of_not_hit hno])
  refine ⟨hhit, ?_⟩
  by_contra ha
  have hput : a ∉ block x.place x.put.length := by rwa [x.sized]
  apply h
  rw [patchPlace_of_hit hhit, writePlace]
  simp only
  split_ifs
  · rw [vmProtect_memory, orgVmMapWriteUser_memory K hput, vmProtect_memory]
  · rw [vmProtect_memory]

/-- A visit leaves a page as it is, or readable and executable. -/
theorem patchPlace_protection_cases (hK : K.Grants) (s : Vm) (x : CachePlace) (p : ℕ) :
    (patchPlace K s x).map.protection p = s.map.protection p ∨
      (patchPlace K s x).map.protection p =
        (s.map.protection p).map fun _ => protReadExecute := by
  by_cases h : x.Hit K s
  · rw [patchPlace_protection hK h]
    split_ifs
    · exact .inr rfl
    · exact .inl rfl
  · exact .inl (by rw [patchPlace_of_not_hit h])

/-! ## All visits -/

/-- **What should be kept**: the protection of every page, and the memory, except for places that
have the expected bytes when they are visited. -/
structure KeepsMap (K : VmKernel) (places : List CachePlace) (s s' : Vm) : Prop where
  protection : ∀ p, s'.map.protection p = s.map.protection p
  memory : ∀ a, s'.map.memory a ≠ s.map.memory a → ∃ x t, FoldsAt (patchPlace K) s places x t ∧
    x.Hit K t ∧ a ∈ block x.place x.expected.length

/-- A page that is hit is readable and executable in the end. -/
theorem protection_of_hit {places : List CachePlace} {prot : VmProt} (hK : K.Grants)
    (hat : FoldsAt (patchPlace K) s places x t) (hhit : x.Hit K t)
    (hmapped : s.map.protection (pageOf x.place) = some prot) :
    (places.foldl (patchPlace K) s).map.protection (pageOf x.place) = some protReadExecute := by
  -- the page is mapped when it is visited, and is not changed again
  have hsome : (t.map.protection (pageOf x.place)).isSome := by
    refine hat.before (P := fun s : Vm => (s.map.protection (pageOf x.place)).isSome)
      (fun s y hs => ?_) (by rw [hmapped]; rfl)
    rcases patchPlace_protection_cases hK s y (pageOf x.place) with h | h
    · rwa [h]
    · rwa [h, Option.isSome_map]
  obtain ⟨old, hold⟩ := Option.isSome_iff_exists.mp hsome
  refine hat.behind (P := fun s : Vm => s.map.protection (pageOf x.place) = some protReadExecute)
    (fun s y hs => ?_) ?_
  · rcases patchPlace_protection_cases hK s y (pageOf x.place) with h | h
    · rwa [h]
    · rw [h, hs, Option.map_some]
  · rw [patchPlace_protection hK hhit, if_pos rfl, hold, Option.map_some]

/-- **When the protections are kept**: if every place that has the expected bytes when it is visited
lies in a page that was readable and executable, and not writable. -/
theorem keepsMap_iff (K : VmKernel) (hK : K.Grants) (q : CacheRequest)
    (lookupStorage : List LookupStorage) (c : CacheState) :
    KeepsMap K (cachePlaces q lookupStorage) c.vm (patchSharedCache K q lookupStorage c).vm ↔
      ∀ x t, FoldsAt (patchPlace K) c.vm (cachePlaces q lookupStorage) x t → x.Hit K t →
        ∀ prot, c.vm.map.protection (pageOf x.place) = some prot → prot = protReadExecute := by
  rw [patchSharedCache_eq]
  constructor
  · intro hkeeps x t hat hhit prot hprot
    have hend := protection_of_hit hK hat hhit hprot
    rw [hkeeps.protection, hprot] at hend
    exact Option.some.inj hend
  · intro hread
    constructor
    · intro p
      by_contra hne
      -- the first visit that changes the page finds it as it was
      obtain ⟨x, t, hat, hsame, hchange⟩ := foldl_change (g := fun s : Vm => s.map.protection p) hne
      by_cases hhit : x.Hit K t
      · rw [patchPlace_protection hK hhit, hsame] at hchange
        split_ifs at hchange with hp
        · subst hp
          cases hprot : c.vm.map.protection (pageOf x.place) with
          | none => exact hchange (by rw [hprot, Option.map_none])
          | some prot =>
            rw [hprot, Option.map_some, hread x t hat hhit prot hprot] at hchange
            exact hchange rfl
        · exact hchange rfl
      · rw [patchPlace_of_not_hit hhit] at hchange
        exact hchange hsame
    · intro a hne
      obtain ⟨x, t, hat, hsame, hchange⟩ := foldl_change (g := fun s : Vm => s.map.memory a) hne
      rw [← hsame] at hchange
      exact ⟨x, t, hat, patchPlace_memory hchange⟩

/-! ### A page of data -/

def samplePatch : BinaryModPatch where
  cpu := 7
  flags := 0
  find := [1]
  replace := [2]
  skip := 0
  count := 1
  segment := SegmentsDataStart
  section_ := 1
  sized := rfl

/-- One place, 16 bytes into the data of its binary. -/
def sampleStorage : List LookupStorage :=
  [{ mod := ⟨[47], [samplePatch]⟩
     refs := [⟨0, [16], [16]⟩]
     page := []
     pageOff := 0
     users := [] }]

def sampleRequest : CacheRequest where
  segments _ := ⟨0x8000, 0x9000, 0x10000, 0x11000⟩
  create _ _ := true
  slide := 0
  cpu := 7
  applyChanges := true

/-- The data is readable and writable. -/
def sampleCache : CacheState where
  vm :=
    { map :=
        { memory := fun _ => 1
          protection := fun p => if p = 16 then some ⟨true, true, false⟩ else none
          bounded := fun p hp => if_neg (by omega) }
      currentProc := none
      csFlagsOffset := 0
      calls := [] }
  storedSharedCacheSlide := 0
  sharedCacheSlideStored := false

theorem not_keepsMap_data : ¬ KeepsMap (plainKernel 17) (cachePlaces sampleRequest sampleStorage)
    sampleCache.vm
    (patchSharedCache (plainKernel 17) sampleRequest sampleStorage sampleCache).vm := by
  intro h
  have hprot := h.protection 16
  -- the page of data cannot be written to anymore, and can be executed
  have hend : (patchSharedCache (plainKernel 17) sampleRequest sampleStorage
      sampleCache).vm.map.protection 16 = some protReadExecute := by
    decide
  rw [hend] at hprot
  exact absurd hprot (by decide)

theorem keepsMap_iff_data : KeepsMap (plainKernel 17) (cachePlaces sampleRequest sampleStorage)
    sampleCache.vm
    (patchSharedCache (plainKernel 17) sampleRequest sampleStorage sampleCache).vm ↔
      ∀ x t, FoldsAt (patchPlace (plainKernel 17)) sampleCache.vm
        (cachePlaces sampleRequest sampleStorage) x t → x.Hit (plainKernel 17) t →
          ∀ prot, sampleCache.vm.map.protection (pageOf x.place) = some prot →
            prot = protReadExecute :=
  keepsMap_iff _ (plainKernel_grants 17) _ _ _

end Lilu.UserPatcher
