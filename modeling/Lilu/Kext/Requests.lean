import Lilu.Kext.Listener

/-!
# Queueing the requested kexts

Plugins store arrays of kexts that they ask for. When the patcher is loaded, their images are loaded
one after the other, and a handler is queued for every image that was. An image that is there
already is taken as one that a handler was queued for before. The error that is left in the patcher
by whoever used it last is taken for the outcome of the first load.

## Main definitions

* `loadKinfo`: load an image, or find it
* `processPatcherLoadCallbacks`: the loop over the stored kexts
* `Queues`: what makes an entry of the loop queue a handler, read off the state before the loop

## Main results

* `allQueued_iff`: when every stored kext whose image is there has a handler
-/

namespace Lilu.Kext

/-- What `MachInfo::init` returns. -/
inductive InitResult where
  | success
  | notSupported
  | failure
  deriving DecidableEq, Repr

/-- The stored requests: the plugins' kexts in memory, the arrays of them that were stored, each
by its first kext and its size, and the patcher. -/
structure Requests where
  patcher : Listener
  infos : ℕ → KextInfo
  storedKexts : List (ℕ × ℕ)

/-- What the loop rests on: how images load, whether memory is granted, and the error that setting
up kext listening leaves. -/
structure Loader where
  init : (id : CString) → (paths : List CString) → (fsonly fsfallback : Bool) → InitResult
  image : (id : CString) → (paths : List CString) → MachInfo
  createInfo : Listener → Bool
  storeInfo : Listener → Bool
  setupKextListening : Listener → Error
  createHandler : Listener → Bool
  storeHandler : Listener → Bool

variable (L : Loader)

/-- The index that stands for none. -/
def INVALID : ℕ := 0

namespace Listener

/-- `KernelPatcher::loadKinfo` for a kext: the index of its image. -/
def loadKinfoById (s : Listener) (id : CString) (paths : List CString) (fsonly fsfallback : Bool) :
    ℕ × Listener :=
  match s.kinfos.findIdx? (·.objectId == some id) with
  | some i => (i, { s with code := .AlreadyDone })
  | none =>
    if !L.createInfo s then (INVALID, { s with code := .MemoryIssue })
    else match L.init id paths fsonly fsfallback with
    | .failure => (INVALID, { s with code := .NoKinfoFound })
    | .notSupported => (INVALID, { s with code := .Unsupported })
    | .success =>
      if !L.storeInfo s then (INVALID, { s with code := .MemoryIssue })
      else (s.kinfos.length,
        { s with kinfos := s.kinfos ++ [{ L.image id paths with objectId := some id }] })

/-- `KernelPatcher::loadKinfo` for a plugin's kext: the kext and the patcher afterwards. -/
def loadKinfo (s : Listener) (info : KextInfo) : KextInfo × Listener :=
  if info.loadIndex ≠ KextInfo.Unloaded then (info, s)
  else
    let (idx, s) := s.loadKinfoById L info.id info.paths (info.sys .FSOnly) (info.sys .FSFallback)
    if s.code = .NoError ∨ s.code = .AlreadyDone then ({ info with loadIndex := idx }, s)
    else (info, s)

/-- `KernelPatcher::clearError`. -/
def clearError (s : Listener) : Listener :=
  { s with code := .NoError }

/-- `KernelPatcher::setupKextListening`, which does nothing the second time. -/
def setupKextListening (s : Listener) : Listener :=
  if s.listening then s
  else match L.setupKextListening s with
  | .NoError => { s with listening := s.code = .NoError }
  | error => { s with code := error }

/-- The features of a kext whose image is there already are added to its handler. -/
def mergeFeatures (s : Listener) (error : Error) (info : KextInfo) : Listener :=
  if error = .AlreadyDone ∧ (info.sys .Loaded || info.sys .Reloadable) then
    s.updateKextHandlerFeatures info
  else s

/-- Queue a handler for a kext whose image was loaded, and whether the loop goes on. -/
def queueHandler (s : Listener) (info : KextInfo) : Listener × Bool :=
  let s := s.setupKextListening L
  if s.code ≠ .NoError then (s.clearError, false)
  else if !L.createHandler s then (s, false)
  else
    let handler : KextHandler :=
      { id := info.id
        index := info.loadIndex
        loaded := info.sys .Loaded
        reloadable := info.sys .Reloadable }
    let s := s.waitOnKext handler (L.storeHandler s)
    if s.code ≠ .NoError then (s.clearError, false)
    else (s, true)

end Listener

/-- The kext is neither disabled nor without the paths it needs. -/
def KextInfo.eligible (info : KextInfo) : Bool :=
  !info.sys .Disabled && !(info.sys .FSOnly && info.paths.length == 0)

namespace Requests

/-- A pass of the loop over the stored kexts, and whether the loop goes on. -/
def processEntry (r : Requests) (p : ℕ) : Requests × Bool :=
  if !(r.infos p).eligible then (r, true)
  else
    let (info, s) := r.patcher.loadKinfo L (r.infos p)
    let r := { r with infos := Function.update r.infos p info }
    if s.code ≠ .NoError then
      ({ r with patcher := s.clearError.mergeFeatures s.code info }, true)
    else
      let (s, goOn) := s.queueHandler L info
      ({ r with patcher := s }, goOn)

/-- The kexts of the stored arrays, in the order of the loops. -/
def entries (r : Requests) : List ℕ :=
  r.storedKexts.flatMap fun (first, num) => (List.range num).map (first + ·)

/-- The loops over the stored kexts; a failure to queue a handler leaves both. -/
def processEntries (r : Requests) : List ℕ → Requests
  | [] => r
  | p :: ps =>
    let (r, goOn) := r.processEntry L p
    if goOn then r.processEntries ps else r

/-- `LiluAPI::processPatcherLoadCallbacks`, after the callbacks: the requested kexts are queued. -/
def processPatcherLoadCallbacks (r : Requests) : Requests :=
  r.processEntries L r.entries

/-! ## What the state before the loop tells -/

/-- The image is there. -/
def Known (r : Requests) (id : CString) : Prop :=
  ∃ info ∈ r.patcher.kinfos, info.objectId = some id

/-- A handler waits for the kext. -/
def Queued (r : Requests) (id : CString) : Prop :=
  ∃ h ∈ r.patcher.khandlers, h.id = id

/-- The image of the kext can be loaded, and was not by its owner. -/
def Loads (r : Requests) (p : ℕ) : Prop :=
  (r.infos p).loadIndex = KextInfo.Unloaded ∧ L.init (r.infos p).id (r.infos p).paths
    ((r.infos p).sys .FSOnly) ((r.infos p).sys .FSFallback) = .success

/-- The image is there after these entries. -/
def LoadedBy (r : Requests) (before : List ℕ) (id : CString) : Prop :=
  r.Known id ∨ ∃ q ∈ before, (r.infos q).id = id ∧ r.Loads L q

/-- The kext is not the one whose image comes first: its index is not that of none. -/
def HasIndex (r : Requests) (id : CString) : Prop :=
  ∀ info, r.patcher.kinfos.head? = some info → info.objectId ≠ some id

/-- The same kext was stored before, and was given its index then: its image was there, or its load
did not meet an error of another kind. -/
def Indexed (r : Requests) (before : List ℕ) (p : ℕ) : Prop :=
  r.HasIndex (r.infos p).id ∧ SomeAt (fun before q => q = p ∧ (r.LoadedBy L before (r.infos p).id ∨
    r.Loads L p ∧ (before = [] → r.patcher.code = .NoError ∨ r.patcher.code = .AlreadyDone))) before

/-- The entry queues a handler: it does not come first with an error left, and either it has an
index already or its load is the first that succeeds for its image. -/
def Queues (r : Requests) (before : List ℕ) (p : ℕ) : Prop :=
  (before = [] → r.patcher.code = .NoError) ∧ ((r.infos p).loadIndex ≠ KextInfo.Unloaded ∨
    r.Indexed L before p ∨ r.Loads L p ∧ ¬ r.LoadedBy L before (r.infos p).id)

/-- The entries that are processed. -/
def eligibleEntries (r : Requests) : List ℕ :=
  r.entries.filter fun p => (r.infos p).eligible

/-- Every stored kext that is processed and whose image is there in the end has a handler. -/
def AllQueued (r : Requests) : Prop :=
  ∀ p ∈ r.entries, (r.infos p).eligible → (r.processPatcherLoadCallbacks L).Known (r.infos p).id →
    (r.processPatcherLoadCallbacks L).Queued (r.infos p).id

/-- For every stored kext whose image is there in the end, a handler was there before or some entry
queues one. -/
def SomeQueues (r : Requests) : Prop :=
  ∀ p ∈ r.eligibleEntries, r.LoadedBy L r.eligibleEntries (r.infos p).id →
    r.Queued (r.infos p).id ∨
      SomeAt (fun before q => (r.infos q).id = (r.infos p).id ∧ r.Queues L before q)
        r.eligibleEntries

variable {L}

theorem loadedBy_concat {r : Requests} {before : List ℕ} {p : ℕ} {id : CString} :
    r.LoadedBy L (before ++ [p]) id ↔
      r.LoadedBy L before id ∨ (r.infos p).id = id ∧ r.Loads L p := by
  simp only [LoadedBy, List.mem_append, List.mem_singleton, or_and_right, exists_or,
    exists_eq_left, or_assoc]

theorem LoadedBy.mono {r : Requests} {before after : List ℕ} {id : CString}
    (h : r.LoadedBy L before id) : r.LoadedBy L (before ++ after) id := by
  rcases h with h | ⟨q, hq, hid⟩
  · exact Or.inl h
  · exact Or.inr ⟨q, List.mem_append_left _ hq, hid⟩

/-- A kext was given an index only with its image there. -/
theorem Indexed.loadedBy {r : Requests} {before : List ℕ} {p : ℕ} (h : r.Indexed L before p) :
    r.LoadedBy L before (r.infos p).id := by
  obtain ⟨-, before, q, after, rfl, rfl, hload | ⟨hload, -⟩⟩ := h
  · exact hload.mono
  · exact Or.inr ⟨q, by simp, rfl, hload⟩

theorem indexed_concat {r : Requests} {before : List ℕ} {p q : ℕ} :
    r.Indexed L (before ++ [p]) q ↔ r.Indexed L before q ∨ p = q ∧ r.HasIndex (r.infos q).id ∧
      (r.LoadedBy L before (r.infos q).id ∨ r.Loads L q ∧
        (before = [] → r.patcher.code = .NoError ∨ r.patcher.code = .AlreadyDone)) := by
  rw [Indexed, someAt_concat, Indexed]
  tauto

/-! ## A pass of the loop -/

end Requests

/-- Memory is granted and kext listening can be set up. -/
structure Loader.Succeeds (L : Loader) : Prop where
  createInfo : ∀ s, L.createInfo s = true
  storeInfo : ∀ s, L.storeInfo s = true
  setupKextListening : ∀ s, L.setupKextListening s = .NoError
  createHandler : ∀ s, L.createHandler s = true
  storeHandler : ∀ s, L.storeHandler s = true

namespace Listener

variable {L}

theorem loadKinfo_of_loaded {s : Listener} {info : KextInfo}
    (h : info.loadIndex ≠ KextInfo.Unloaded) : s.loadKinfo L info = (info, s) :=
  if_pos h

/-- An image that is there already. -/
theorem loadKinfo_of_known {s : Listener} {info : KextInfo}
    (hidx : info.loadIndex = KextInfo.Unloaded)
    (hknown : ∃ k ∈ s.kinfos, k.objectId = some info.id) :
    ∃ i, s.loadKinfo L info = ({ info with loadIndex := i }, { s with code := .AlreadyDone }) ∧
      (i ≠ KextInfo.Unloaded ↔ ∀ k, s.kinfos.head? = some k → k.objectId ≠ some info.id) := by
  obtain ⟨k, hk, hid⟩ := hknown
  cases hfind : s.kinfos.findIdx? (·.objectId == some info.id) with
  | none =>
    have hno := List.findIdx?_eq_none_iff.mp hfind k hk
    simp [hid] at hno
  | some i =>
    obtain ⟨hi, hfound, hbefore⟩ := List.findIdx?_eq_some_iff_getElem.mp hfind
    refine ⟨i, by simp [loadKinfo, hidx, loadKinfoById, hfind], ?_⟩
    rw [List.head?_eq_getElem?]
    constructor
    · intro hne k hk
      have h0 := hbefore 0 (Nat.pos_of_ne_zero hne)
      rw [List.getElem?_eq_getElem (by omega)] at hk
      rw [← Option.some.inj hk]
      simpa using h0
    · rintro hhead rfl
      exact hhead _ (List.getElem?_eq_getElem hi) (by simpa using hfound)

theorem loadKinfoById_of_not_known (hL : L.Succeeds) {s : Listener} {id : CString}
    (hknown : ¬ ∃ k ∈ s.kinfos, k.objectId = some id) (paths : List CString)
    (fsonly fsfallback : Bool) : s.loadKinfoById L id paths fsonly fsfallback =
      match L.init id paths fsonly fsfallback with
      | .failure => (INVALID, { s with code := .NoKinfoFound })
      | .notSupported => (INVALID, { s with code := .Unsupported })
      | .success => (s.kinfos.length,
        { s with kinfos := s.kinfos ++ [{ L.image id paths with objectId := some id }] }) := by
  have hfind : s.kinfos.findIdx? (·.objectId == some id) = none := by
    rw [List.findIdx?_eq_none_iff]
    intro k hk
    simpa using fun hid => hknown ⟨k, hk, hid⟩
  rw [loadKinfoById, hfind]
  simp only [hL.createInfo, hL.storeInfo, Bool.not_true, Bool.false_eq_true, if_false]

/-- An image that loads. -/
theorem loadKinfo_of_success (hL : L.Succeeds) {s : Listener} {info : KextInfo}
    (hidx : info.loadIndex = KextInfo.Unloaded)
    (hknown : ¬ ∃ k ∈ s.kinfos, k.objectId = some info.id)
    (hinit : L.init info.id info.paths (info.sys .FSOnly) (info.sys .FSFallback) = .success) :
    s.loadKinfo L info =
      ({ info with loadIndex :=
        if s.code = .NoError ∨ s.code = .AlreadyDone then s.kinfos.length else KextInfo.Unloaded },
      { s with kinfos := s.kinfos ++ [{ L.image info.id info.paths with
        objectId := some info.id }] }) := by
  rw [loadKinfo, if_neg (not_not.mpr hidx), loadKinfoById_of_not_known hL hknown, hinit]
  by_cases hcode : s.code = .NoError ∨ s.code = .AlreadyDone
  · simp only [if_pos hcode]
  · simp only [if_neg hcode, ← hidx]

/-- An image that does not load. -/
theorem loadKinfo_of_failure (hL : L.Succeeds) {s : Listener} {info : KextInfo}
    (hidx : info.loadIndex = KextInfo.Unloaded)
    (hknown : ¬ ∃ k ∈ s.kinfos, k.objectId = some info.id)
    (hinit : L.init info.id info.paths (info.sys .FSOnly) (info.sys .FSFallback) ≠ .success) :
    ∃ error : Error, error ≠ .NoError ∧ error ≠ .AlreadyDone ∧
      s.loadKinfo L info = (info, { s with code := error }) := by
  rw [loadKinfo, if_neg (not_not.mpr hidx), loadKinfoById_of_not_known hL hknown]
  cases hres : L.init info.id info.paths (info.sys .FSOnly) (info.sys .FSFallback) with
  | success => exact absurd hres hinit
  | notSupported => exact ⟨.Unsupported, by simp, by simp, by simp⟩
  | failure => exact ⟨.NoKinfoFound, by simp, by simp, by simp⟩

theorem mergeFeatures_ids (s : Listener) (error : Error) (info : KextInfo) :
    (s.mergeFeatures error info).khandlers.map (·.id) = s.khandlers.map (·.id) := by
  unfold mergeFeatures updateKextHandlerFeatures
  split_ifs
  · split
    · refine List.ext_getElem? fun j => ?_
      simp only [List.getElem?_map, List.getElem?_modify]
      split_ifs <;> simp [KextHandler.withFeatures, Function.comp_def]
    · rfl
  · rfl

theorem mergeFeatures_kinfos (s : Listener) (error : Error) (info : KextInfo) :
    (s.mergeFeatures error info).kinfos = s.kinfos := by
  unfold mergeFeatures updateKextHandlerFeatures
  split_ifs
  · split <;> rfl
  · rfl

theorem mergeFeatures_code (s : Listener) (error : Error) (info : KextInfo) :
    (s.mergeFeatures error info).code = s.code := by
  unfold mergeFeatures updateKextHandlerFeatures
  split_ifs
  · split <;> rfl
  · rfl

/-- A handler that is queued stands behind the others. -/
theorem queueHandler_of_noError (hL : L.Succeeds) {s : Listener} (info : KextInfo)
    (hcode : s.code = .NoError) : ∃ s', s.queueHandler L info = (s', true) ∧ s'.code = .NoError ∧
      s'.kinfos = s.kinfos ∧ s'.khandlers.map (·.id) = s.khandlers.map (·.id) ++ [info.id] := by
  have hsetup : ∃ s₁, s.setupKextListening L = s₁ ∧ s₁.code = .NoError ∧ s₁.listening = true ∧
      s₁.kinfos = s.kinfos ∧ s₁.khandlers = s.khandlers := by
    unfold setupKextListening
    split_ifs with hlis
    · exact ⟨s, rfl, hcode, hlis, rfl, rfl⟩
    · exact ⟨_, rfl, by simp [hL.setupKextListening, hcode]⟩
  obtain ⟨s₁, hs₁, hcode₁, hlis₁, hkinfos₁, hkhandlers₁⟩ := hsetup
  unfold queueHandler
  rw [hs₁]
  simp only [hcode₁, hL.createHandler, hL.storeHandler, waitOnKext, hlis₁, ne_eq, not_true_eq_false,
    if_false, Bool.not_true, Bool.false_eq_true, if_true]
  exact ⟨_, rfl, rfl, hkinfos₁, by simp [hkhandlers₁]⟩

end Listener

namespace Requests

variable {L}

/-- The state of the loop after these entries, as the state before the loop tells it. -/
structure After (L : Loader) (r : Requests) (before : List ℕ) (r' : Requests) : Prop where
  infos : ∀ p, ∃ i, r'.infos p = { r.infos p with loadIndex := i }
  code : r'.patcher.code = if before = [] then r.patcher.code else .NoError
  head : r'.patcher.kinfos.head? = r.patcher.kinfos.head?
  known : ∀ id, r'.Known id ↔ r.LoadedBy L before id
  index : ∀ p, (r'.infos p).loadIndex ≠ KextInfo.Unloaded ↔
    (r.infos p).loadIndex ≠ KextInfo.Unloaded ∨ r.Indexed L before p
  queued : ∀ id, r'.Queued id ↔ r.Queued id ∨
    SomeAt (fun before q => (r.infos q).id = id ∧ r.Queues L before q) before

theorem After.nil (r : Requests) : After L r [] r where
  infos p := ⟨_, rfl⟩
  code := rfl
  head := rfl
  known id := by simp [LoadedBy]
  index p := by simp [Indexed]
  queued id := by simp

/-- One more entry: what it does to its kext, to the images and to the handlers. -/
theorem After.concat {r r' r'' : Requests} {before : List ℕ} {p i : ℕ} (h : After L r before r')
    (hinfos : r''.infos = Function.update r'.infos p { r'.infos p with loadIndex := i })
    (hcode : r''.patcher.code = .NoError)
    (hhead : r''.patcher.kinfos.head? = r'.patcher.kinfos.head?)
    (hknown : ∀ id, r''.Known id ↔ r'.Known id ∨ (r.infos p).id = id ∧ r.Loads L p)
    (hindex : i ≠ KextInfo.Unloaded ↔ (r.infos p).loadIndex ≠ KextInfo.Unloaded ∨
      r.Indexed L (before ++ [p]) p)
    (hqueued : ∀ id, r''.Queued id ↔ r'.Queued id ∨ (r.infos p).id = id ∧ r.Queues L before p) :
    After L r (before ++ [p]) r'' where
  infos q := by
    obtain ⟨j, hj⟩ := h.infos q
    rw [hinfos]
    by_cases hq : q = p
    · subst hq
      rw [Function.update_self, hj]
      exact ⟨i, rfl⟩
    · rw [Function.update_of_ne hq]
      exact ⟨j, hj⟩
  code := by rw [hcode, if_neg (by simp)]
  head := hhead.trans h.head
  known id := by rw [hknown, h.known, loadedBy_concat]
  index q := by
    rw [hinfos]
    by_cases hq : q = p
    · subst hq
      rw [Function.update_self]
      exact hindex
    · rw [Function.update_of_ne hq, h.index, indexed_concat]
      have hne : ¬ (p = q ∧ r.HasIndex (r.infos q).id ∧ (r.LoadedBy L before (r.infos q).id ∨
          r.Loads L q ∧ (before = [] → r.patcher.code = .NoError ∨
            r.patcher.code = .AlreadyDone))) := fun hand => hq hand.1.symm
      rw [or_iff_left hne]
  queued id := by rw [hqueued, h.queued, someAt_concat, or_assoc]

theorem queued_iff_mem {r : Requests} {id : CString} :
    r.Queued id ↔ id ∈ r.patcher.khandlers.map (·.id) := by
  simp [Queued]

theorem queues_of_index {r : Requests} {before : List ℕ} {p : ℕ}
    (hidx : (r.infos p).loadIndex ≠ KextInfo.Unloaded ∨ r.Indexed L before p ∨
      r.Loads L p ∧ ¬ r.LoadedBy L before (r.infos p).id) :
    r.Queues L before p ↔ (before = [] → r.patcher.code = .NoError) :=
  and_iff_left hidx

/-- The error that an entry meets is the one that was left, if it is the first. -/
theorem After.code_eq_iff {r r' : Requests} {before : List ℕ} (h : After L r before r') :
    r'.patcher.code = .NoError ↔ (before = [] → r.patcher.code = .NoError) := by
  rw [h.code]
  split_ifs with hnil
  · simp [hnil]
  · simp [hnil]

theorem processEntry_of_noError {r : Requests} {p : ℕ} {info : KextInfo} {s : Listener}
    (hel : (r.infos p).eligible) (hload : r.patcher.loadKinfo L (r.infos p) = (info, s))
    (hcode : s.code = .NoError) : r.processEntry L p =
      ({ r with patcher := (s.queueHandler L info).1, infos := Function.update r.infos p info },
        (s.queueHandler L info).2) := by
  unfold processEntry
  simp only [hel, Bool.not_true, Bool.false_eq_true, if_false, hload, hcode, ne_eq,
    not_true_eq_false]

theorem processEntry_of_error {r : Requests} {p : ℕ} {info : KextInfo} {s : Listener}
    (hel : (r.infos p).eligible) (hload : r.patcher.loadKinfo L (r.infos p) = (info, s))
    (hcode : s.code ≠ .NoError) : r.processEntry L p =
      ({ r with
        patcher := s.clearError.mergeFeatures s.code info
        infos := Function.update r.infos p info }, true) := by
  unfold processEntry
  simp only [hel, Bool.not_true, Bool.false_eq_true, if_false, hload, hcode, ne_eq,
    not_false_eq_true, if_true]

/-- An entry that finds an error, an old one or one of its load, queues nothing. -/
theorem after_error {r r' : Requests} {before : List ℕ} {p i : ℕ} {s : Listener}
    (h : After L r before r') (hel : (r'.infos p).eligible)
    (hload : r'.patcher.loadKinfo L (r'.infos p) = ({ r'.infos p with loadIndex := i }, s))
    (hcode : s.code ≠ .NoError) (hkhandlers : s.khandlers = r'.patcher.khandlers)
    (hhead : s.kinfos.head? = r'.patcher.kinfos.head?)
    (hknown : ∀ id, (∃ info ∈ s.kinfos, info.objectId = some id) ↔
      r'.Known id ∨ (r.infos p).id = id ∧ r.Loads L p)
    (hindex : i ≠ KextInfo.Unloaded ↔ (r.infos p).loadIndex ≠ KextInfo.Unloaded ∨
      r.Indexed L (before ++ [p]) p) (hqueues : ¬ r.Queues L before p) :
    ∃ r'', r'.processEntry L p = (r'', true) ∧ After L r (before ++ [p]) r'' := by
  rw [processEntry_of_error hel hload hcode]
  refine ⟨_, rfl, h.concat rfl ?_ ?_ (fun id => ?_) hindex fun id => ?_⟩
  · rw [Listener.mergeFeatures_code]
    rfl
  · rw [Listener.mergeFeatures_kinfos]
    exact hhead
  · rw [Known, Listener.mergeFeatures_kinfos]
    exact hknown id
  · rw [queued_iff_mem, Listener.mergeFeatures_ids, or_iff_left fun hand => hqueues hand.2,
      queued_iff_mem, ← hkhandlers]
    rfl

/-- An entry whose load leaves no error of its own queues a handler unless an error was left. -/
theorem after_loaded (hL : L.Succeeds) {r r' : Requests} {before : List ℕ} {p i : ℕ} {s : Listener}
    (h : After L r before r') (hel : (r'.infos p).eligible)
    (hload : r'.patcher.loadKinfo L (r'.infos p) = ({ r'.infos p with loadIndex := i }, s))
    (hcode : s.code = r'.patcher.code) (hkhandlers : s.khandlers = r'.patcher.khandlers)
    (hhead : s.kinfos.head? = r'.patcher.kinfos.head?)
    (hknown : ∀ id, (∃ info ∈ s.kinfos, info.objectId = some id) ↔
      r'.Known id ∨ (r.infos p).id = id ∧ r.Loads L p)
    (hindex : i ≠ KextInfo.Unloaded ↔ (r.infos p).loadIndex ≠ KextInfo.Unloaded ∨
      r.Indexed L (before ++ [p]) p)
    (hqueues : (r.infos p).loadIndex ≠ KextInfo.Unloaded ∨ r.Indexed L before p ∨
      r.Loads L p ∧ ¬ r.LoadedBy L before (r.infos p).id) :
    ∃ r'', r'.processEntry L p = (r'', true) ∧ After L r (before ++ [p]) r'' := by
  have hiff : r.Queues L before p ↔ s.code = .NoError := by
    rw [hcode, h.code_eq_iff]
    exact queues_of_index hqueues
  by_cases hno : s.code = .NoError
  · obtain ⟨s', hs', hcode', hkinfos, hids⟩ := Listener.queueHandler_of_noError hL
      ({ r'.infos p with loadIndex := i } : KextInfo) hno
    obtain ⟨j, hj⟩ := h.infos p
    have hid : (r'.infos p).id = (r.infos p).id := by rw [hj]
    rw [processEntry_of_noError hel hload hno, hs']
    refine ⟨_, rfl, h.concat rfl hcode' (by rw [hkinfos]; exact hhead) (fun id => ?_) hindex
      fun id => ?_⟩
    · rw [Known, hkinfos]
      exact hknown id
    · rw [queued_iff_mem, hids, List.mem_append, List.mem_singleton, hkhandlers, ← queued_iff_mem,
        and_iff_left (hiff.mpr hno), hid, eq_comm]
  · -- the error that was left is taken for one of this load
    exact after_error h hel hload hno hkhandlers hhead hknown hindex (mt hiff.mp hno)

/-- **A pass of the loop** does what the state before the loop tells. -/
theorem after_processEntry (hL : L.Succeeds) {r r' : Requests} {before : List ℕ} {p : ℕ}
    (h : After L r before r') (hkernel : r.patcher.kinfos ≠ []) (hel : (r.infos p).eligible) :
    ∃ r'', r'.processEntry L p = (r'', true) ∧ After L r (before ++ [p]) r'' := by
  obtain ⟨j, hj⟩ := h.infos p
  have hel' : (r'.infos p).eligible := by rw [hj]; exact hel
  have hid : (r'.infos p).id = (r.infos p).id := by rw [hj]
  by_cases hidx : (r'.infos p).loadIndex ≠ KextInfo.Unloaded
  · -- the kext has its index, and its image is there
    have hor := (h.index p).mp hidx
    refine after_loaded hL h hel' (i := (r'.infos p).loadIndex)
      (Listener.loadKinfo_of_loaded hidx) rfl rfl rfl (fun id => ?_) ?_ (hor.imp_right Or.inl)
    · refine (or_iff_left_of_imp ?_).symm
      rintro ⟨rfl, hloads⟩
      exact (h.known _).mpr (hor.resolve_left (not_not.mpr hloads.1)).loadedBy
    · rw [indexed_concat]
      exact iff_of_true hidx (hor.imp_right Or.inl)
  have hidx := not_not.mp hidx
  have hidx₀ : (r.infos p).loadIndex = KextInfo.Unloaded := by
    by_contra hne
    exact (h.index p).mpr (Or.inl hne) hidx
  have hno : ¬ r.Indexed L before p := fun hind => (h.index p).mpr (Or.inr hind) hidx
  -- only this entry can give the kext its index
  have hnow : ((r.infos p).loadIndex ≠ KextInfo.Unloaded ∨ r.Indexed L (before ++ [p]) p) ↔
      r.HasIndex (r.infos p).id ∧ (r.LoadedBy L before (r.infos p).id ∨ r.Loads L p ∧
        (before = [] → r.patcher.code = .NoError ∨ r.patcher.code = .AlreadyDone)) := by
    rw [or_iff_right (not_not.mpr hidx₀), indexed_concat, or_iff_right hno, and_iff_right rfl]
  by_cases hknown : r'.Known (r'.infos p).id
  · -- the image is there already
    have hby : r.LoadedBy L before (r.infos p).id := by rwa [hid, h.known] at hknown
    obtain ⟨i, hload, hi⟩ := Listener.loadKinfo_of_known hidx hknown
    refine after_error h hel' hload (by simp) rfl rfl (fun id => ?_) ?_ ?_
    · refine (or_iff_left_of_imp ?_).symm
      rintro ⟨rfl, -⟩
      rwa [← hid]
    · rw [hi, hnow, and_iff_left (Or.inl hby), h.head, hid]
      exact Iff.rfl
    · rintro ⟨-, hne | hind | ⟨-, hnot⟩⟩
      · exact hne hidx₀
      · exact hno hind
      · exact hnot hby
  have hnot : ¬ r.LoadedBy L before (r.infos p).id := by rwa [hid, h.known] at hknown
  by_cases hinit : L.init (r'.infos p).id (r'.infos p).paths ((r'.infos p).sys .FSOnly)
      ((r'.infos p).sys .FSFallback) = .success
  · -- the image is loaded now
    have hloads : r.Loads L p := ⟨hidx₀, by simpa only [hj] using hinit⟩
    have hne : r'.patcher.kinfos ≠ [] := by
      intro hnil
      have hhead := h.head
      rw [hnil, List.head?_nil, eq_comm, List.head?_eq_none_iff] at hhead
      exact hkernel hhead
    refine after_loaded hL h hel' (Listener.loadKinfo_of_success hL hidx hknown hinit) rfl rfl
      (List.head?_append_of_ne_nil _ hne) (fun id => ?_) ?_ (Or.inr (Or.inr ⟨hloads, hnot⟩))
    · simp only [List.mem_append, List.mem_singleton, or_and_right, exists_or, exists_eq_left,
        Option.some.injEq, hid, and_iff_left hloads]
      exact Iff.rfl
    · have hhas : r.HasIndex (r.infos p).id := fun info hinfo hobj =>
        hnot (Or.inl ⟨info, List.mem_of_mem_head? hinfo, hobj⟩)
      rw [hnow, and_iff_right hhas, or_iff_right hnot, and_iff_right hloads, h.code]
      have hlen : r'.patcher.kinfos.length ≠ KextInfo.Unloaded := mt List.length_eq_zero_iff.mp hne
      by_cases hnil : before = []
      · by_cases hcode : r.patcher.code = .NoError ∨ r.patcher.code = .AlreadyDone
        · simp [hnil, hcode, hlen]
        · simp [hnil, hcode]
      · simp [hnil, hlen]
  · have hloads : ¬ r.Loads L p := fun hloads => hinit (by simpa only [hj] using hloads.2)
    obtain ⟨error, herror, -, hload⟩ := Listener.loadKinfo_of_failure hL hidx hknown hinit
    refine after_error h hel' (i := (r'.infos p).loadIndex) hload herror rfl rfl (fun id => ?_) ?_ ?_
    · exact (or_iff_left fun hand => hloads hand.2).symm
    · rw [hnow]
      exact iff_of_false (not_not.mpr hidx) fun hand =>
        hand.2.elim hnot fun hl => hloads hl.1
    · rintro ⟨-, hne | hind | ⟨hl, -⟩⟩
      · exact hne hidx₀
      · exact hno hind
      · exact hloads hl

/-- **The loop** does what the state before it tells. -/
theorem after_processEntries (hL : L.Succeeds) {r : Requests} (hkernel : r.patcher.kinfos ≠ [])
    (ps : List ℕ) {r' : Requests} {before : List ℕ} (h : After L r before r') :
    After L r (before ++ ps.filter fun p => (r.infos p).eligible) (r'.processEntries L ps) := by
  induction ps generalizing r' before with
  | nil => rwa [List.filter_nil, List.append_nil]
  | cons p ps ih =>
    unfold processEntries
    by_cases hel : (r.infos p).eligible
    · obtain ⟨r'', hstep, hafter⟩ := after_processEntry hL h hkernel hel
      simp only [hstep, if_true, List.filter_cons, if_pos hel]
      have hrest := ih hafter
      rwa [List.append_assoc, List.singleton_append] at hrest
    · obtain ⟨j, hj⟩ := h.infos p
      have hskip : r'.processEntry L p = (r', true) := by
        unfold processEntry
        rw [if_pos]
        rw [hj, Bool.not_eq_true']
        exact Bool.eq_false_iff.mpr hel
      simp only [hskip, if_true, List.filter_cons, if_neg hel]
      exact ih h

/-- **Every kext whose image is there has a handler** exactly if for each one there was a handler
before the loop, or an entry for it queues one: not the first entry with an error left, and either
one that was given its index before, or the first whose load succeeds. -/
theorem allQueued_iff (hL : L.Succeeds) {r : Requests} (hkernel : r.patcher.kinfos ≠ []) :
    r.AllQueued L ↔ r.SomeQueues L := by
  have hafter := after_processEntries hL hkernel r.entries (After.nil (L := L) r)
  rw [List.nil_append] at hafter
  have hknown : ∀ id, (r.processPatcherLoadCallbacks L).Known id ↔
      r.LoadedBy L r.eligibleEntries id := hafter.known
  have hqueued : ∀ id, (r.processPatcherLoadCallbacks L).Queued id ↔ r.Queued id ∨
      SomeAt (fun before q => (r.infos q).id = id ∧ r.Queues L before q) r.eligibleEntries :=
    hafter.queued
  have hmem : ∀ p, p ∈ r.eligibleEntries ↔ p ∈ r.entries ∧ (r.infos p).eligible :=
    fun p => List.mem_filter
  unfold AllQueued SomeQueues
  constructor
  · intro hall p hp hload
    obtain ⟨hentry, hel⟩ := (hmem p).mp hp
    exact (hqueued _).mp (hall p hentry hel ((hknown _).mpr hload))
  · intro hall p hentry hel hload
    exact (hqueued _).mpr (hall p ((hmem p).mpr ⟨hentry, hel⟩) ((hknown _).mp hload))

/-- A loader that loads every image, with all the memory there is. -/
def loader : Loader where
  init _ _ _ _ := .success
  image _ _ := ⟨none, false, (0, 0)⟩
  createInfo _ := true
  storeInfo _ := true
  setupKextListening _ := .NoError
  createHandler _ := true
  storeHandler _ := true

theorem loader_succeeds : loader.Succeeds :=
  ⟨fun _ => rfl, fun _ => rfl, fun _ => rfl, fun _ => rfl, fun _ => rfl⟩

/-- One request, for the kext `a`, to a patcher with these images and this error. -/
def oneRequest (kexts : List MachInfo) (code : Error) : Requests where
  patcher := { code := code, kinfos := ⟨some [107], false, (0, 0)⟩ :: kexts }
  infos _ := { id := [97], paths := [], sys := fun _ => false }
  storedKexts := [(0, 1)]

theorem allQueued_oneRequest : AllQueued loader (oneRequest [] .NoError) :=
  (allQueued_iff loader_succeeds (by simp [oneRequest])).mpr fun p hp _ => by
    refine Or.inr ⟨[], 0, [], rfl, rfl, fun _ => rfl, Or.inr (Or.inr ⟨⟨rfl, rfl⟩, ?_⟩)⟩
    simp [LoadedBy, Known, oneRequest]

/-- **A kext that is not queued**: an error was left before its image was loaded, or its image was
loaded by its name before. -/
theorem not_allQueued_left : loader.Succeeds ∧
    ¬ AllQueued loader (oneRequest [] .NoSymbolFound) ∧
    ¬ AllQueued loader (oneRequest [⟨some [97], false, (0, 0)⟩] .NoError) := by
  refine ⟨loader_succeeds, fun h => ?_, fun h => ?_⟩
  · have hq := h 0 (by decide) rfl ⟨_, List.mem_cons_of_mem _ (List.mem_singleton_self _), rfl⟩
    obtain ⟨g, hg, -⟩ := hq
    exact absurd hg List.not_mem_nil
  · have hq := h 0 (by decide) rfl ⟨_, List.mem_cons_of_mem _ (List.mem_singleton_self _), rfl⟩
    obtain ⟨g, hg, -⟩ := hq
    exact absurd hg List.not_mem_nil

end Requests

end Lilu.Kext
