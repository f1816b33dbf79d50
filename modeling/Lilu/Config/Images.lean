import Lilu.Kext.Requests

/-!
# The kernel's images

The kernel patcher loads the kernel's image at its start, from the prelinked cache if the system
uses one and from the kernel's own file otherwise. A pointer to the prelinked image is kept beside
the list of images. When a later part of the start fails, the list is emptied and the start is tried
again at the next occasion; the pointer stays.

## Main definitions

* `KernelPatcher`: the images and the pointer
* `init`, `deinit`: the start of the patcher and its end
* `Event`, `step`: the calls that `Configuration` makes
* `Safe`: the pointer is null or points into the list, and no empty list was indexed
* `Keeps`: a call that loads or has loaded the prelinked image goes through

## Main results

* `safe_step_iff`: when a call keeps the patcher safe
* `safe_iff`: when all states of a run are safe
-/

namespace Lilu.Configuration

open Lilu.Kext

/-- The bytes of a string literal. -/
def cstring (s : String) : CString :=
  s.toList.map fun c => UInt8.ofNat c.toNat

def kernelName : CString := cstring "kernel"

def prelinkKernelPaths : List CString :=
  [cstring "/System/Library/Caches/com.apple.kext.caches/Startup/kernelcache",
    cstring "/System/Library/PrelinkedKernels/prelinkedkernel",
    cstring "/macOS Install Data/Locked Files/Boot Files/prelinkedkernel",
    cstring "/com.apple.boot.R/prelinkedkernel",
    cstring "/com.apple.boot.S/System/Library/PrelinkedKernels/prelinkedkernel",
    cstring "/com.apple.recovery.boot/prelinkedkernel",
    cstring "/kernelcache"]

def kernelPaths : List CString :=
  [cstring "/System/Library/Kernels/kernel", cstring "/mach_kernel"]

/-- The index of the kernel's image. -/
def KernelID : ℕ := 0

/-- The kernel patcher: its list of images lives until it is freed, and a pointer to an image is the
life of the list that it points into and the place there. -/
structure KernelPatcher where
  images : Listener
  /-- How often the list was freed. -/
  life : ℕ := 0
  prelinkInfo : Option (ℕ × ℕ) := none
  kernelWriteLock : Bool := false
  /-- An empty list was indexed. -/
  undefined : Bool := false

/-- What happens in a call of `init`: how images load, whether the lock is granted, and whether the
addresses of the running kernel are found. -/
structure Outcome where
  usingPrelinkedCache : Bool
  prelink : Loader
  kernel : Loader
  lock : Bool
  running : Bool

namespace KernelPatcher

/-- The pointer to the image of index `i`, if there is one. -/
def pointer (s : KernelPatcher) (i : ℕ) : Option (ℕ × ℕ) :=
  if i < s.images.kinfos.length then some (s.life, i) else none

/-- `init`: the prelinked image. -/
def loadPrelinked (s : KernelPatcher) (o : Outcome) : KernelPatcher :=
  let (id, images) := s.images.loadKinfoById o.prelink kernelName prelinkKernelPaths false false
  let s := { s with images }
  if images.code = .NoError ∧ id = KernelID then
    match s.pointer KernelID with
    | some p => { s with prelinkInfo := some p }
    | none => { s with undefined := true }
  else { s with images := images.clearError }

/-- `init`: the lock, and the addresses of the running kernel. -/
def initRunning (s : KernelPatcher) (o : Outcome) : KernelPatcher :=
  if !s.kernelWriteLock && !o.lock then { s with images := { s.images with code := .LockError } }
  else
    let s := { s with kernelWriteLock := true }
    match s.pointer KernelID with
    | none => { s with undefined := true }
    | some _ =>
      if o.running then s
      else { s with images := { s.images with code := .KernRunningInitFailure } }

/-- `init` after the prelinked image: the kernel's own file is loaded if there is none. -/
def loadKernel (s : KernelPatcher) (o : Outcome) : KernelPatcher :=
  if s.prelinkInfo = none then
    let (id, images) := s.images.loadKinfoById o.kernel kernelName kernelPaths false false
    let s := { s with images }
    if images.code ≠ .NoError ∨ id ≠ KernelID then s else s.initRunning o
  else s.initRunning o

/-- `KernelPatcher::init`. -/
def init (s : KernelPatcher) (o : Outcome) : KernelPatcher :=
  let s := if o.usingPrelinkedCache then s.loadPrelinked o else s
  s.loadKernel o

/-- `KernelPatcher::deinit`. -/
def deinit (s : KernelPatcher) : KernelPatcher :=
  { s with
    images := { s.images with kinfos := [] }
    life := s.life + 1
    kernelWriteLock := false }

def clearError (s : KernelPatcher) : KernelPatcher :=
  { s with images := s.images.clearError }

/-- The end of a start: on failure everything is given back. -/
def settle (s : KernelPatcher) (ok : Bool) : KernelPatcher :=
  if ok then s else s.deinit.clearError

/-- `performEarlyInit`: routing leaves an error code and succeeds or fails. -/
def performEarlyInit (s : KernelPatcher) (o : Outcome) (code : Error) (routed : Bool) :
    KernelPatcher :=
  let s := s.init o
  if s.undefined then s
  else if s.images.code ≠ .NoError then s.settle false
  else { s with images := { s.images with code } }.settle routed

/-- `performCommonInit`: the callbacks load more images, and the user patcher starts or fails. -/
def performCommonInit (s : KernelPatcher) (more : List MachInfo) (code : Error) (user : Bool) :
    KernelPatcher :=
  { s with images := { s.images with kinfos := s.images.kinfos ++ more, code } }.settle user

/-- `performInit`. -/
def performInit (s : KernelPatcher) (o : Outcome) (more : List MachInfo) (code : Error)
    (user : Bool) : KernelPatcher :=
  let s := s.init o
  if s.undefined then s
  else if s.images.code ≠ .NoError then s.settle false
  else s.performCommonInit more code user

/-- The calls that start and end the patcher, with what happens in them. -/
inductive Event where
  | performEarlyInit (o : Outcome) (code : Error) (routed : Bool)
  | performInit (o : Outcome) (more : List MachInfo) (code : Error) (user : Bool)
  | performCommonInit (more : List MachInfo) (code : Error) (user : Bool)

/-- What happens in a call. -/
def step (s : KernelPatcher) (e : Event) : KernelPatcher :=
  if s.undefined then s
  else match e with
  | .performEarlyInit o code routed => s.performEarlyInit o code routed
  | .performInit o more code user => s.performInit o more code user
  | .performCommonInit more code user => s.performCommonInit more code user

/-! ## Safe states -/

/-- The pointer to the prelinked image is null or points to one that is in the list. -/
def Live (s : KernelPatcher) : Prop :=
  ∀ p, s.prelinkInfo = some p → s.pointer p.2 = some p

/-- The pointer is live, and the list was never indexed when it was empty. -/
def Safe (s : KernelPatcher) : Prop :=
  s.Live ∧ s.undefined = false

/-- The image of the kernel is loaded to the first place of the list, without an error. -/
def Loads (L : Loader) (s : Listener) (paths : List CString) : Prop :=
  s.code = .NoError ∧ s.kinfos = [] ∧ L.createInfo s = true ∧
    L.init kernelName paths false false = .success ∧ L.storeInfo s = true

/-- After `init` the pointer to the prelinked image is set: it was before, or the image is
loaded. -/
def Gets (s : KernelPatcher) (o : Outcome) : Prop :=
  s.prelinkInfo ≠ none ∨ o.usingPrelinkedCache = true ∧ Loads o.prelink s.images prelinkKernelPaths

/-- Nothing else goes wrong in `init`. -/
def Succeeds (s : KernelPatcher) (o : Outcome) : Prop :=
  (o.usingPrelinkedCache = true ∨ s.images.code = .NoError) ∧
    (s.kernelWriteLock = true ∨ o.lock = true) ∧ o.running = true

/-- **The prelinked image is kept**: a call that gets it, or comes after one that did, does not
fail. -/
def Keeps (s : KernelPatcher) : Event → Prop
  | .performEarlyInit o _ routed => s.Gets o → s.Succeeds o ∧ routed = true
  | .performInit o _ _ user => s.Gets o → s.Succeeds o ∧ user = true
  | .performCommonInit _ _ user => s.prelinkInfo ≠ none → user = true

/-! ## Loading the kernel's image -/

variable {L : Loader} {l : Listener} {paths : List CString}

/-- What a load does to the list of images, told by the state before it. -/
theorem loadKinfoById_cases (L : Loader) (l : Listener) (paths : List CString) :
    (Loads L l paths ∧ ∃ image, l.loadKinfoById L kernelName paths false false =
      (KernelID, { l with kinfos := [image] })) ∨
    (¬ Loads L l paths ∧ ∃ id code kinfos, l.loadKinfoById L kernelName paths false false =
      (id, { l with code, kinfos }) ∧ l.kinfos.length ≤ kinfos.length ∧
        ¬ (code = .NoError ∧ id = KernelID)) := by
  cases hfind : l.kinfos.findIdx? (·.objectId == some kernelName) with
  | some i =>
    have hne : l.kinfos ≠ [] := by
      intro hnil
      simp [hnil] at hfind
    refine .inr ⟨fun h => hne h.2.1, i, .AlreadyDone, l.kinfos, ?_, le_rfl, by simp⟩
    simp [Listener.loadKinfoById, hfind]
  | none =>
    cases hcreate : L.createInfo l with
    | false =>
      refine .inr ⟨fun h => ?_, INVALID, .MemoryIssue, l.kinfos, ?_, le_rfl, by simp⟩
      · cases hcreate.symm.trans h.2.2.1
      · simp [Listener.loadKinfoById, hfind, hcreate]
    | true =>
      cases hinit : L.init kernelName paths false false with
      | notSupported =>
        refine .inr ⟨fun h => ?_, INVALID, .Unsupported, l.kinfos, ?_, le_rfl, by simp⟩
        · cases hinit.symm.trans h.2.2.2.1
        · simp [Listener.loadKinfoById, hfind, hcreate, hinit]
      | failure =>
        refine .inr ⟨fun h => ?_, INVALID, .NoKinfoFound, l.kinfos, ?_, le_rfl, by simp⟩
        · cases hinit.symm.trans h.2.2.2.1
        · simp [Listener.loadKinfoById, hfind, hcreate, hinit]
      | success =>
        cases hstore : L.storeInfo l with
        | false =>
          refine .inr ⟨fun h => ?_, INVALID, .MemoryIssue, l.kinfos, ?_, le_rfl, by simp⟩
          · cases hstore.symm.trans h.2.2.2.2
          · simp [Listener.loadKinfoById, hfind, hcreate, hinit, hstore]
        | true =>
          -- the image is stored, at the first place if there was none
          have hrun : l.loadKinfoById L kernelName paths false false = (l.kinfos.length, { l with
              kinfos := l.kinfos ++
                [{ L.image kernelName paths with objectId := some kernelName }] }) := by
            simp [Listener.loadKinfoById, hfind, hcreate, hinit, hstore]
          by_cases hloads : l.code = .NoError ∧ l.kinfos = []
          · refine .inl ⟨⟨hloads.1, hloads.2, hcreate, hinit, hstore⟩,
              { L.image kernelName paths with objectId := some kernelName }, ?_⟩
            rw [hrun, hloads.2]
            rfl
          · refine .inr ⟨fun h => hloads ⟨h.1, h.2.1⟩, l.kinfos.length, l.code, _, hrun, ?_, ?_⟩
            · simp
            · exact fun h => hloads ⟨h.1, List.eq_nil_of_length_eq_zero h.2⟩

/-! ## What the start does -/

variable {s : KernelPatcher} {o : Outcome}

theorem pointer_of_lt {i : ℕ} (h : i < s.images.kinfos.length) : s.pointer i = some (s.life, i) :=
  if_pos h

/-- A pointer stays live while the list grows. -/
theorem Live.grow (h : s.Live) {images : Listener}
    (hlen : s.images.kinfos.length ≤ images.kinfos.length) : ({ s with images } : _).Live := by
  intro p hp
  have hptr := h p hp
  unfold pointer at hptr ⊢
  split_ifs at hptr with hlt
  rw [if_pos (hlt.trans_le hlen)]
  exact hptr

/-- A live pointer shows that the list is not empty. -/
theorem Live.length_pos (h : s.Live) (hp : s.prelinkInfo ≠ none) : 0 < s.images.kinfos.length := by
  obtain ⟨p, hp⟩ := Option.ne_none_iff_exists'.mp hp
  have hptr := h p hp
  unfold pointer at hptr
  split_ifs at hptr with hlt
  exact (Nat.zero_le _).trans_lt hlt

/-- The first part of `init`: it gets the prelinked image, or leaves no error. -/
theorem loadPrelinked_cases (s : KernelPatcher) (o : Outcome) :
    (Loads o.prelink s.images prelinkKernelPaths ∧ ∃ image, s.loadPrelinked o =
      { s with images := { s.images with kinfos := [image] }, prelinkInfo := some (s.life, 0) }) ∨
    (¬ Loads o.prelink s.images prelinkKernelPaths ∧ ∃ kinfos, s.loadPrelinked o =
      { s with images := { s.images with code := .NoError, kinfos } } ∧
        s.images.kinfos.length ≤ kinfos.length) := by
  unfold KernelPatcher.loadPrelinked
  rcases loadKinfoById_cases o.prelink s.images prelinkKernelPaths with
    ⟨hloads, image, hrun⟩ | ⟨hloads, id, code, kinfos, hrun, hlen, hbad⟩
  · refine .inl ⟨hloads, image, ?_⟩
    rw [hrun]
    simp [hloads.1, pointer, KernelID]
  · refine .inr ⟨hloads, kinfos, ?_, hlen⟩
    rw [hrun]
    simp only [if_neg hbad, Listener.clearError]

/-- The image at the first place is there. -/
theorem initRunning_eq (hpos : 0 < s.images.kinfos.length) : ∃ code, s.initRunning o =
      { s with
        images := { s.images with code }
        kernelWriteLock := s.kernelWriteLock || o.lock } ∧
      (code = .NoError ↔ s.images.code = .NoError ∧
        (s.kernelWriteLock = true ∨ o.lock = true) ∧ o.running = true) := by
  have hptr : s.pointer KernelID = some (s.life, KernelID) := pointer_of_lt hpos
  unfold KernelPatcher.initRunning
  by_cases hlock : s.kernelWriteLock = true ∨ o.lock = true
  · have hgranted : (!s.kernelWriteLock && !o.lock) = false := by
      rcases hlock with hlock | hlock <;> simp [hlock]
    have hor : (s.kernelWriteLock || o.lock) = true := by simpa using hlock
    have hptr' : KernelPatcher.pointer { s with kernelWriteLock := true } KernelID =
        some (s.life, KernelID) := hptr
    rw [hgranted, hor]
    simp only [Bool.false_eq_true, if_false, hptr']
    cases hrunning : o.running with
    | false => exact ⟨.KernRunningInitFailure, rfl, by simp⟩
    | true => exact ⟨s.images.code, rfl, by simp [hlock]⟩
  · have hdenied : (!s.kernelWriteLock && !o.lock) = true := by simpa using hlock
    have hor : (s.kernelWriteLock || o.lock) = s.kernelWriteLock := by
      simp only [not_or, Bool.not_eq_true] at hlock
      rw [hlock.2, Bool.or_false]
    rw [hdenied, hor]
    exact ⟨.LockError, rfl, by simp [hlock]⟩

/-- The end of `init` from a safe state with an image at the first place. -/
theorem Safe.initRunning (h : s.Safe) (hpos : 0 < s.images.kinfos.length) :
    (s.initRunning o).Safe ∧ (s.initRunning o).prelinkInfo = s.prelinkInfo ∧
      ((s.initRunning o).images.code = .NoError ↔ s.images.code = .NoError ∧
        (s.kernelWriteLock = true ∨ o.lock = true) ∧ o.running = true) := by
  obtain ⟨code, heq, hcode⟩ := initRunning_eq (o := o) hpos
  rw [heq]
  exact ⟨⟨h.1.grow le_rfl, h.2⟩, rfl, hcode⟩

/-- Without a prelinked image the kernel's own file is loaded, or `init` ends. -/
theorem loadKernel_cases (hnull : s.prelinkInfo = none) (o : Outcome) :
    (∃ images, s.loadKernel o = KernelPatcher.initRunning { s with images } o ∧
      0 < images.kinfos.length) ∨ ∃ images, s.loadKernel o = { s with images } := by
  unfold KernelPatcher.loadKernel
  rw [if_pos hnull]
  rcases loadKinfoById_cases o.kernel s.images kernelPaths with
    ⟨hloads, image, hrun⟩ | ⟨hloads, id, code, kinfos, hrun, hlen, hbad⟩ <;> rw [hrun]
  · refine .inl ⟨{ s.images with kinfos := [image] }, if_neg ?_, Nat.zero_lt_one⟩
    simp [hloads.1]
  · exact .inr ⟨{ s.images with code, kinfos }, if_pos (not_and_or.mp hbad)⟩

/-- The second part of `init` from a safe state: it is safe, and leaves the pointer. -/
theorem Safe.loadKernel (h : s.Safe) : (s.loadKernel o).Safe ∧
    (s.loadKernel o).prelinkInfo = s.prelinkInfo ∧
    (s.prelinkInfo ≠ none → ((s.loadKernel o).images.code = .NoError ↔ s.images.code = .NoError ∧
      (s.kernelWriteLock = true ∨ o.lock = true) ∧ o.running = true)) := by
  by_cases hnull : s.prelinkInfo = none
  · have hsafe : ∀ images, ({ s with images } : KernelPatcher).Safe :=
      fun images => ⟨fun p hp => absurd (hnull.symm.trans hp) (by simp), h.2⟩
    rcases loadKernel_cases hnull o with ⟨images, hrun, hpos⟩ | ⟨images, hrun⟩
    · obtain ⟨hsafe', hptr, -⟩ := (hsafe images).initRunning (o := o) hpos
      rw [hrun]
      exact ⟨hsafe', hptr, fun hne => absurd hnull hne⟩
    · rw [hrun]
      exact ⟨hsafe images, rfl, fun hne => absurd hnull hne⟩
  · obtain ⟨hsafe, hptr, hcode⟩ := h.initRunning (o := o) (h.1.length_pos hnull)
    have hrun : s.loadKernel o = s.initRunning o := if_neg hnull
    rw [hrun]
    exact ⟨hsafe, hptr, fun _ => hcode⟩

/-- **The start of the patcher** from a safe state is safe. It leaves the pointer set exactly if it
gets the prelinked image, and then there is an error exactly if something else went wrong. -/
theorem Safe.init (h : s.Safe) : (s.init o).Safe ∧
    ((s.init o).prelinkInfo ≠ none ↔ s.Gets o) ∧
    (s.Gets o → ((s.init o).images.code = .NoError ↔ s.Succeeds o)) := by
  unfold KernelPatcher.init Gets Succeeds
  cases hcache : o.usingPrelinkedCache with
  | false =>
    obtain ⟨hsafe, hptr, hcode⟩ := h.loadKernel (o := o)
    simp only [Bool.false_eq_true, if_false, false_and, or_false, false_or]
    exact ⟨hsafe, by rw [hptr], hcode⟩
  | true =>
    simp only [if_true, true_and, true_or]
    rcases loadPrelinked_cases s o with ⟨hloads, image, hrun⟩ | ⟨hloads, kinfos, hrun, hlen⟩
    · have h' : (s.loadPrelinked o).Safe := by
        rw [hrun]
        refine ⟨?_, h.2⟩
        rintro p ⟨⟩
        rfl
      obtain ⟨hsafe, hptr, hcode⟩ := h'.loadKernel (o := o)
      rw [hrun] at hptr hcode
      refine ⟨hsafe, ?_, fun _ => ?_⟩
      · rw [hrun, hptr]
        exact iff_of_true (by simp) (.inr hloads)
      · rw [hrun, hcode (by simp)]
        exact and_iff_right hloads.1
    · have h' : (s.loadPrelinked o).Safe := by
        rw [hrun]
        exact ⟨h.1.grow hlen, h.2⟩
      obtain ⟨hsafe, hptr, hcode⟩ := h'.loadKernel (o := o)
      rw [hrun] at hptr hcode
      refine ⟨hsafe, ?_, fun hgets => ?_⟩
      · rw [hrun, hptr]
        exact (or_iff_left hloads).symm
      · rw [hrun, hcode (hgets.resolve_right hloads)]
        exact and_iff_right rfl

/-! ## Runs -/

/-- The end of a call: on failure the pointer may not be set. -/
theorem safe_settle_iff (h : s.Safe) (ok : Bool) :
    (s.settle ok).Safe ↔ (s.prelinkInfo ≠ none → ok = true) := by
  cases ok with
  | true => exact iff_of_true h fun _ => rfl
  | false =>
    constructor
    · intro hsafe hne
      obtain ⟨p, hp⟩ := Option.ne_none_iff_exists'.mp hne
      have hptr := hsafe.1 p hp
      cases hptr
    · intro hnull
      have hnone : s.prelinkInfo = none := by simpa using hnull
      exact ⟨fun p hp => absurd hp (by simp [settle, deinit, clearError, hnone]), h.2⟩

/-- Images that are added, and another error, keep a state safe. -/
theorem Safe.images (h : s.Safe) (more : List MachInfo) (code : Error) :
    ({ s with images := { s.images with kinfos := s.images.kinfos ++ more, code } } :
      KernelPatcher).Safe :=
  ⟨h.1.grow (by simp), h.2⟩

/-- **A call keeps the patcher safe** exactly if the prelinked image is kept. -/
theorem safe_step_iff (h : s.Safe) (e : Event) : (s.step e).Safe ↔ s.Keeps e := by
  have hdefined : ¬ s.undefined = true := by simp [h.2]
  unfold KernelPatcher.step
  rw [if_neg hdefined]
  cases e with
  | performCommonInit more code user => exact safe_settle_iff (h.images more code) user
  | performEarlyInit o code routed =>
    obtain ⟨hsafe, hgets, hcode⟩ := h.init (o := o)
    unfold KernelPatcher.performEarlyInit Keeps
    dsimp only
    rw [if_neg (by simp [hsafe.2])]
    by_cases herror : (s.init o).images.code = .NoError
    · have h' : KernelPatcher.Safe { s.init o with images := { (s.init o).images with code } } :=
        ⟨hsafe.1.grow le_rfl, hsafe.2⟩
      rw [if_neg (not_not.mpr herror), safe_settle_iff h' routed, ← hgets]
      exact imp_congr_right fun hne => (and_iff_right ((hcode (hgets.mp hne)).mp herror)).symm
    · rw [if_pos herror, safe_settle_iff hsafe false, ← hgets]
      refine imp_congr_right fun hne => iff_of_false (by simp) fun hok => ?_
      exact herror ((hcode (hgets.mp hne)).mpr hok.1)
  | performInit o more code user =>
    obtain ⟨hsafe, hgets, hcode⟩ := h.init (o := o)
    unfold KernelPatcher.performInit Keeps
    dsimp only
    rw [if_neg (by simp [hsafe.2])]
    by_cases herror : (s.init o).images.code = .NoError
    · rw [if_neg (not_not.mpr herror), performCommonInit, safe_settle_iff (hsafe.images more code),
        ← hgets]
      exact imp_congr_right fun hne => (and_iff_right ((hcode (hgets.mp hne)).mp herror)).symm
    · rw [if_pos herror, safe_settle_iff hsafe false, ← hgets]
      refine imp_congr_right fun hne => iff_of_false (by simp) fun hok => ?_
      exact herror ((hcode (hgets.mp hne)).mpr hok.1)

/-- The patcher before the first call. -/
def fresh : KernelPatcher :=
  { images := { kinfos := [] } }

/-- **All states are safe**: in every state of a run the pointer is null or points into the list,
and no empty list was indexed, exactly if every call that gets the prelinked image, or comes after
one that did, goes through. -/
theorem safe_iff (es : List Event) :
    Throughout step Safe fresh es ↔ Along step Keeps fresh es := by
  have hfresh : fresh.Safe := ⟨fun p hp => absurd hp (by simp [fresh]), rfl⟩
  exact @throughout_iff_along _ _ step (fun _ => True) Safe Keeps (fun _ _ h _ => h)
    (fun _ e _ h => safe_step_iff h e) es fresh trivial hfresh

/-- A loader for which everything succeeds or fails. -/
def loader (init : InitResult) : Loader where
  init _ _ _ _ := init
  image id _ := ⟨some id, false, (0, 0)⟩
  createInfo _ := true
  storeInfo _ := true
  setupKextListening _ := .NoError
  createHandler _ := true
  storeHandler _ := true

/-- **A dangling pointer**: the prelinked image is loaded but the running kernel is not found, and
the list is freed. At the second try the prelinked image does not load, and the empty list is
indexed. -/
theorem not_safe_retry :
    ¬ Throughout step Safe fresh
        [.performEarlyInit ⟨true, loader .success, loader .success, true, false⟩ .NoError true] ∧
      (step (step fresh
        (.performEarlyInit ⟨true, loader .success, loader .success, true, false⟩ .NoError true))
        (.performInit ⟨true, loader .failure, loader .success, true, true⟩ [] .NoError
          true)).undefined = true := by
  refine ⟨fun h => ?_, rfl⟩
  have hlive := h.last.1 (0, 0) rfl
  cases hlive

end KernelPatcher

end Lilu.Configuration
