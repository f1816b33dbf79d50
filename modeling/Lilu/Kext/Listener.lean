import Lilu.Prelude.Runs

/-!
# Listening for kexts

Handlers wait for kexts by name. A kext that is loaded is handed to the first handler that catches
it; kexts that were loaded before are swept once, for the handlers that ask for it. On Big Sur and
newer the sweep is part of the activation, before it takes the place of the first notification.

## Main definitions

* `Listener`: what the patcher knows about handlers and kexts
* `waitOnKext`, `updateKextHandlerFeatures`, `activate`: the calls
* `processKext`, `processAlreadyLoadedKexts`: a kext, and all kexts, against the handlers
* `onOSKextSaveLoadedKextPanicList`, `step`: notifications, and events in general

## Main results

* `Registered.step`: the handlers are distinct objects, in the order of their registration
-/

namespace Lilu.Kext

/-- The bytes of a C string before its terminating zero. -/
abbrev CString := List UInt8

/-- Two C strings agree as far as `strncmp` looks. -/
def strncmp (a b : CString) (n : ℕ) : Bool :=
  a.take n == b.take n

/-- The size of a kext's name, with the terminating zero if there is room for it. -/
def KMOD_MAX_NAME : ℕ := 64

/-- Darwin versions. -/
def KernelVersion.Leopard : ℕ := 9
def KernelVersion.BigSur : ℕ := 20

/-- The patcher's errors. -/
inductive Error where
  | NoError
  | NoKinfoFound
  | NoSymbolFound
  | KernInitFailure
  | KernRunningInitFailure
  | KextListeningFailure
  | DisasmFailure
  | MemoryIssue
  | MemoryProtection
  | PointerRange
  | AlreadyDone
  | LockError
  | Unsupported
  | InvalidSymbolFound
  deriving DecidableEq, Repr

/-- An entry of the kernel's list of loaded kexts. -/
structure Kmod where
  name : CString
  address : ℕ
  size : ℕ
  deriving DecidableEq, Repr

/-- The kernel's list of loaded kexts, the newest first; it has no two kexts of one name. -/
structure Kmods where
  list : List Kmod
  distinct : list.Pairwise fun a b => a.name.take KMOD_MAX_NAME ≠ b.name.take KMOD_MAX_NAME

/-- The list without the newest kext. -/
def Kmods.tail (kmods : Kmods) : Kmods :=
  ⟨kmods.list.tail, kmods.distinct.tail⟩

/-- What is known about an image. -/
structure MachInfo where
  objectId : Option CString
  kernel_collection : Bool
  self_uuid : ℕ × ℕ
  deriving DecidableEq, Repr

/-- A handler that waits for a kext. The objects are told apart by their `serial`, the place in the
order of registrations; it stands for the address. -/
structure KextHandler where
  serial : ℕ := 0
  id : CString
  index : ℕ
  address : ℕ := 0
  size : ℕ := 0
  loaded : Bool := false
  reloadable : Bool := false
  deriving DecidableEq, Repr

/-- What a plugin asks for about a kext. -/
inductive SysFlags where
  | Loaded
  | Reloadable
  | Disabled
  | FSOnly
  | FSFallback
  deriving DecidableEq, Repr

/-- A kext that a plugin asks for. -/
structure KextInfo where
  id : CString
  paths : List CString
  sys : SysFlags → Bool
  loadIndex : ℕ := 0

/-- The load index of a kext that is not loaded. -/
def KextInfo.Unloaded : ℕ := 0

/-- The call of a handler's callback, with the handler as the callback sees it. -/
structure Invocation where
  handler : KextHandler
  kmod : Kmod
  deriving DecidableEq, Repr

/-- What the patcher knows about handlers and kexts, and the callbacks it has called. -/
structure Listener where
  code : Error := .NoError
  /-- `that` is set: kext listening is set up. -/
  listening : Bool := false
  kinfos : List MachInfo
  khandlers : List KextHandler := []
  waitingForAlreadyLoadedKexts : Bool := false
  isKextUnloading : Bool := false
  activated : Bool := false
  /-- How many handlers were registered so far. -/
  registered : ℕ := 0
  invoked : List Invocation := []

/-- The kernel, and the plugins' callbacks: which handlers a callback registers, and whether memory
is granted for each. -/
structure System where
  version : ℕ
  /-- The kernel's own address, which stands for none. -/
  kernelBase : ℕ
  getUUID : ℕ → Option (ℕ × ℕ)
  handler : Listener → KextHandler → List (KextHandler × Bool)

variable (S : System)

/-- `MachInfo::isCurrentBinary`. -/
def MachInfo.isCurrentBinary (info : MachInfo) (base : ℕ) : Bool :=
  if info.kernel_collection then true
  else if S.version < KernelVersion.Leopard then true
  else S.getUUID (if base ≠ 0 then base else S.kernelBase) == some info.self_uuid

/-- A handler with the features of a kext that is asked for again. -/
def KextHandler.withFeatures (h : KextHandler) (info : KextInfo) : KextHandler :=
  { h with
    loaded := h.loaded || info.sys .Loaded
    reloadable := h.reloadable || info.sys .Reloadable }

/-- The handler as its callback sees it. -/
def KextHandler.called (h : KextHandler) (kmod : Kmod) : KextHandler :=
  { h with address := kmod.address, size := kmod.size }

namespace Listener

/-- `KernelPatcher::waitOnKext`; `stored` is whether there is memory for the handler. -/
def waitOnKext (s : Listener) (handler : KextHandler) (stored : Bool) : Listener :=
  if !s.listening then { s with code := .KextListeningFailure }
  else
    let s := { s with waitingForAlreadyLoadedKexts :=
      s.waitingForAlreadyLoadedKexts || handler.loaded }
    if stored then
      { s with
        khandlers := s.khandlers ++ [{ handler with serial := s.registered }]
        registered := s.registered + 1 }
    else { s with code := .MemoryIssue }

/-- `KernelPatcher::updateKextHandlerFeatures`: only the first handler for the kext is updated. -/
def updateKextHandlerFeatures (s : Listener) (info : KextInfo) : Listener :=
  match s.khandlers.findIdx? fun h => h.id == info.id with
  | some i => { s with khandlers := s.khandlers.modify i (·.withFeatures info) }
  | none => s

/-- The handler's kext: the name agrees and the image is the current one. The index of a handler is
one of a loaded image. -/
def isFor (s : Listener) (kmod : Kmod) (h : KextHandler) : Bool :=
  strncmp h.id kmod.name KMOD_MAX_NAME &&
    (s.kinfos[h.index]?).any fun info => info.isCurrentBinary S kmod.address

/-- The handler at which the loop of `processKext` stops. In a sweep only handlers for loaded kexts
count. -/
def catches (s : Listener) (kmod : Kmod) (loaded : Bool) (h : KextHandler) : Bool :=
  !(loaded && !h.loaded) && s.isFor S kmod h

/-- The handlers that a callback registers are stored behind the others. -/
def registerAll (s : Listener) (handlers : List (KextHandler × Bool)) : Listener :=
  handlers.foldl (fun s r => s.waitOnKext r.1 r.2) s

/-- `processKext` removes the item, unless it is reloadable. -/
def removeItem (s : Listener) (i : ℕ) : Listener :=
  if (s.khandlers[i]?).all (·.reloadable) then s
  else { s with khandlers := s.khandlers.eraseIdx i }

/-- The end of a pass of `processKext`'s loop, when the handler is the right one. -/
def invoke (s : Listener) (kmod : Kmod) (i : ℕ) (h : KextHandler) : Listener :=
  let s := { s with
    khandlers := s.khandlers.set i (h.called kmod)
    invoked := s.invoked ++ [Invocation.mk (h.called kmod) kmod] }
  (s.registerAll (S.handler s (h.called kmod))).removeItem i

/-- `KernelPatcher::processKext`. -/
def processKext (s : Listener) (kmod : Kmod) (loaded : Bool) : Listener :=
  match s.khandlers.findIdx? (s.catches S kmod loaded) with
  | none => s
  | some i =>
    match s.khandlers[i]? with
    | none => s
    | some h => s.invoke S kmod i h

/-- `KernelPatcher::processAlreadyLoadedKexts`. -/
def processAlreadyLoadedKexts (s : Listener) (kmods : List Kmod) : Listener :=
  kmods.foldl (fun s kmod => s.processKext S kmod true) s

/-- The sweep, and that it is over. -/
def sweep (s : Listener) (kmods : List Kmod) : Listener :=
  { s.processAlreadyLoadedKexts S kmods with waitingForAlreadyLoadedKexts := false }

/-- `KernelPatcher::activate`. -/
def activate (s : Listener) (kmods : Kmods) : Listener :=
  let s := if KernelVersion.BigSur ≤ S.version ∧ s.waitingForAlreadyLoadedKexts then
      s.sweep S kmods.list
    else s
  { s with activated := true }

/-- `KernelPatcher::onOSKextSaveLoadedKextPanicList`. -/
def onOSKextSaveLoadedKextPanicList (s : Listener) (kmods : Kmods) : Listener :=
  if !s.listening || !s.activated then s
  else if s.isKextUnloading then s
  else if s.waitingForAlreadyLoadedKexts then s.sweep S kmods.list
  else match kmods.list with
  | [] => s
  | kmod :: _ => s.processKext S kmod false

end Listener

/-- A call before the activation. -/
inductive Call where
  /-- `setupKextListening` succeeds. -/
  | setupKextListening
  | waitOnKext (handler : KextHandler) (stored : Bool)
  | updateKextHandlerFeatures (info : KextInfo)

/-- The effect of a call. -/
def Listener.call (s : Listener) : Call → Listener
  | .setupKextListening => { s with listening := true }
  | .waitOnKext handler stored => s.waitOnKext handler stored
  | .updateKextHandlerFeatures info => s.updateKextHandlerFeatures info

/-- What happens after the activation: notifications, with the list of kexts at that time, the
beginning and the end of `onOSKextUnload`, and further registrations. -/
inductive Event where
  | onOSKextSaveLoadedKextPanicList (kmods : Kmods)
  | beginOSKextUnload
  | endOSKextUnload
  | waitOnKext (handler : KextHandler) (stored : Bool)

/-- The effect of an event. -/
def Listener.step (s : Listener) : Event → Listener
  | .onOSKextSaveLoadedKextPanicList kmods => s.onOSKextSaveLoadedKextPanicList S kmods
  | .beginOSKextUnload => { s with isKextUnloading := s.listening || s.isKextUnloading }
  | .endOSKextUnload => { s with isKextUnloading := !s.listening && s.isKextUnloading }
  | .waitOnKext handler stored => s.waitOnKext handler stored

/-- The patcher before the first call. -/
def Listener.fresh (kinfos : List MachInfo) : Listener where
  kinfos := kinfos

/-! ## What the calls change -/

/-- Registrations: handlers are added behind the others, and nothing is called. -/
structure Listener.Extends (s s' : Listener) (new : List KextHandler) : Prop where
  khandlers : s'.khandlers = s.khandlers ++ new
  sorted : new.Pairwise fun a b => a.serial < b.serial
  serial : ∀ h ∈ new, s.registered ≤ h.serial ∧ h.serial < s'.registered
  registered : s.registered ≤ s'.registered
  listens : new ≠ [] → s.listening
  flagged : ∀ h ∈ new, h.loaded → s'.waitingForAlreadyLoadedKexts
  waiting : s.waitingForAlreadyLoadedKexts → s'.waitingForAlreadyLoadedKexts
  listening : s'.listening = s.listening
  kinfos : s'.kinfos = s.kinfos
  isKextUnloading : s'.isKextUnloading = s.isKextUnloading
  activated : s'.activated = s.activated
  invoked : s'.invoked = s.invoked

namespace Listener

variable {S}

theorem Extends.refl (s : Listener) : Extends s s [] := by
  constructor <;> simp

theorem Extends.trans {s s' s'' : Listener} {new new' : List KextHandler}
    (h : Extends s s' new) (h' : Extends s' s'' new') : Extends s s'' (new ++ new') where
  khandlers := by rw [h'.khandlers, h.khandlers, List.append_assoc]
  sorted := List.pairwise_append.mpr ⟨h.sorted, h'.sorted, fun a ha b hb =>
    (h.serial a ha).2.trans_le (h'.serial b hb).1⟩
  serial := by
    intro x hx
    rcases List.mem_append.mp hx with hx | hx
    · exact ⟨(h.serial x hx).1, (h.serial x hx).2.trans_le h'.registered⟩
    · exact ⟨h.registered.trans (h'.serial x hx).1, (h'.serial x hx).2⟩
  registered := h.registered.trans h'.registered
  listens := by
    intro hne
    by_cases hnew : new = []
    · rw [← h.listening]
      exact h'.listens (by simpa [hnew] using hne)
    · exact h.listens hnew
  flagged := by
    intro x hx hloaded
    rcases List.mem_append.mp hx with hx | hx
    · exact h'.waiting (h.flagged x hx hloaded)
    · exact h'.flagged x hx hloaded
  waiting := fun hw => h'.waiting (h.waiting hw)
  listening := h'.listening.trans h.listening
  kinfos := h'.kinfos.trans h.kinfos
  isKextUnloading := h'.isKextUnloading.trans h.isKextUnloading
  activated := h'.activated.trans h.activated
  invoked := h'.invoked.trans h.invoked

theorem extends_waitOnKext (s : Listener) (handler : KextHandler) (stored : Bool) :
    ∃ new, Extends s (s.waitOnKext handler stored) new := by
  unfold waitOnKext
  cases hl : s.listening with
  | false => exact ⟨[], by constructor <;> simp [hl]⟩
  | true =>
    cases stored with
    | false => exact ⟨[], by constructor <;> simp +contextual [hl]⟩
    | true =>
      refine ⟨[{ handler with serial := s.registered }], ?_⟩
      constructor <;> simp +contextual [hl]

theorem extends_registerAll (handlers : List (KextHandler × Bool)) (s : Listener) :
    ∃ new, Extends s (s.registerAll handlers) new := by
  induction handlers generalizing s with
  | nil => exact ⟨[], Extends.refl s⟩
  | cons r handlers ih =>
    obtain ⟨new, hnew⟩ := extends_waitOnKext s r.1 r.2
    obtain ⟨new', hnew'⟩ := ih (s.waitOnKext r.1 r.2)
    exact ⟨new ++ new', hnew.trans hnew'⟩

/-- A kext is handed to a handler of `s`, the one between `pre` and `post`. -/
structure Invokes (s : Listener) (kmod : Kmod) (pre : List KextHandler) (h : KextHandler)
    (post : List KextHandler) (s' : Listener) : Prop where
  handlers : s.khandlers = pre ++ h :: post
  /-- The callback registers handlers, and then the handler goes unless it is reloadable. -/
  effect : ∃ called registered new, called.Extends registered new ∧
    called = { s with
      khandlers := pre ++ h.called kmod :: post
      invoked := s.invoked ++ [Invocation.mk (h.called kmod) kmod] } ∧
    s' = { registered with
      khandlers := pre ++ (if h.reloadable then [h.called kmod] else []) ++ post ++ new }

theorem removeItem_eq {s : Listener} {pre post : List KextHandler} {h : KextHandler}
    (hs : s.khandlers = pre ++ h :: post) : s.removeItem pre.length =
      { s with khandlers := pre ++ (if h.reloadable then [h] else []) ++ post } := by
  have hget : s.khandlers[pre.length]? = some h := by
    rw [hs, List.getElem?_append_right le_rfl, Nat.sub_self, List.getElem?_cons_zero]
  have herase : s.khandlers.eraseIdx pre.length = pre ++ post := by
    rw [hs, List.eraseIdx_append_of_length_le le_rfl, Nat.sub_self, List.eraseIdx_cons_zero]
  rw [removeItem, hget, Option.all_some, herase]
  cases hr : h.reloadable with
  | true => simp [← hs]
  | false => simp

theorem invokes_invoke {s : Listener} {kmod : Kmod} {pre post : List KextHandler} {h : KextHandler}
    (hs : s.khandlers = pre ++ h :: post) :
    Invokes s kmod pre h post (s.invoke S kmod pre.length h) := by
  refine ⟨hs, ?_⟩
  have hset : s.khandlers.set pre.length (h.called kmod) = pre ++ h.called kmod :: post := by
    rw [hs, List.set_append_right _ _ le_rfl, Nat.sub_self, List.set_cons_zero]
  unfold invoke
  rw [hset]
  set called : Listener := { s with
    khandlers := pre ++ h.called kmod :: post
    invoked := s.invoked ++ [Invocation.mk (h.called kmod) kmod] }
  obtain ⟨new, hnew⟩ := extends_registerAll (S.handler called (h.called kmod)) called
  refine ⟨called, _, new, hnew, rfl, ?_⟩
  have hkh : (called.registerAll (S.handler called (h.called kmod))).khandlers =
      pre ++ h.called kmod :: (post ++ new) := by
    rw [hnew.khandlers, List.append_assoc, List.cons_append]
  have hreload : (h.called kmod).reloadable = h.reloadable := rfl
  simp only [removeItem_eq hkh, hreload, List.append_assoc]

/-- **A kext against the handlers**: nothing happens, or the first handler that catches it is
called. -/
theorem processKext_cases (s : Listener) (kmod : Kmod) (loaded : Bool) :
    (∀ h ∈ s.khandlers, s.catches S kmod loaded h = false) ∧ s.processKext S kmod loaded = s ∨
    ∃ pre h post, (∀ x ∈ pre, s.catches S kmod loaded x = false) ∧
      s.catches S kmod loaded h = true ∧
      Invokes s kmod pre h post (s.processKext S kmod loaded) := by
  unfold processKext
  cases hfind : s.khandlers.findIdx? (s.catches S kmod loaded) with
  | none => exact Or.inl ⟨List.findIdx?_eq_none_iff.mp hfind, rfl⟩
  | some i =>
    obtain ⟨hi, hcatch, hpre⟩ := List.findIdx?_eq_some_iff_getElem.mp hfind
    have hsplit : s.khandlers = s.khandlers.take i ++ s.khandlers[i] :: s.khandlers.drop (i + 1) := by
      rw [List.getElem_cons_drop, List.take_append_drop]
    have hlen : (s.khandlers.take i).length = i := List.length_take_of_le hi.le
    refine Or.inr ⟨s.khandlers.take i, s.khandlers[i], s.khandlers.drop (i + 1), ?_, hcatch, ?_⟩
    · intro x hx
      obtain ⟨j, hj, rfl⟩ := List.getElem_of_mem hx
      rw [List.getElem_take]
      simpa using hpre j (by omega)
    · have hinv : Invokes s kmod _ _ _ (s.invoke S kmod _ _) := invokes_invoke hsplit
      rw [hlen] at hinv
      simpa only [List.getElem?_eq_getElem hi] using hinv

/-- Nothing but handlers, flags and the log of callbacks changes. -/
structure SameSetup (s s' : Listener) : Prop where
  kinfos : s'.kinfos = s.kinfos
  listening : s'.listening = s.listening
  activated : s'.activated = s.activated
  isKextUnloading : s'.isKextUnloading = s.isKextUnloading

theorem SameSetup.refl (s : Listener) : SameSetup s s :=
  ⟨rfl, rfl, rfl, rfl⟩

theorem SameSetup.trans {s s' s'' : Listener} (h : SameSetup s s') (h' : SameSetup s' s'') :
    SameSetup s s'' :=
  ⟨h'.kinfos.trans h.kinfos, h'.listening.trans h.listening, h'.activated.trans h.activated,
    h'.isKextUnloading.trans h.isKextUnloading⟩

theorem Invokes.sameSetup {s s' : Listener} {kmod : Kmod} {pre post : List KextHandler}
    {h : KextHandler} (hs : Invokes s kmod pre h post s') : SameSetup s s' := by
  obtain ⟨-, called, registered, new, hnew, rfl, rfl⟩ := hs
  exact ⟨hnew.kinfos, hnew.listening, hnew.activated, hnew.isKextUnloading⟩

theorem Invokes.invoked {s s' : Listener} {kmod : Kmod} {pre post : List KextHandler}
    {h : KextHandler} (hs : Invokes s kmod pre h post s') :
    s'.invoked = s.invoked ++ [Invocation.mk (h.called kmod) kmod] := by
  obtain ⟨-, called, registered, new, hnew, rfl, rfl⟩ := hs
  exact hnew.invoked

theorem Invokes.registered_le {s s' : Listener} {kmod : Kmod} {pre post : List KextHandler}
    {h : KextHandler} (hs : Invokes s kmod pre h post s') : s.registered ≤ s'.registered := by
  obtain ⟨-, called, registered, new, hnew, rfl, rfl⟩ := hs
  exact hnew.registered

theorem processKext_sameSetup (s : Listener) (kmod : Kmod) (loaded : Bool) :
    SameSetup s (s.processKext S kmod loaded) := by
  rcases processKext_cases s kmod loaded with ⟨-, heq⟩ | ⟨pre, h, post, -, -, hinv⟩
  · rw [heq]
    exact SameSetup.refl s
  · exact hinv.sameSetup

theorem processAlreadyLoadedKexts_sameSetup (s : Listener) (kmods : List Kmod) :
    SameSetup s (s.processAlreadyLoadedKexts S kmods) := by
  have hstep : ∀ (t : Listener) (kmod : Kmod), SameSetup s t →
      SameSetup s (t.processKext S kmod true) :=
    fun t kmod h => h.trans (processKext_sameSetup t kmod true)
  exact foldl_invariant hstep kmods (SameSetup.refl s)

/-! ## Registered handlers -/

/-- The handlers are distinct objects, in the order of their registration, and there are some only
if kext listening is set up. -/
structure Registered (s : Listener) : Prop where
  sorted : s.khandlers.Pairwise fun a b => a.serial < b.serial
  lt : ∀ h ∈ s.khandlers, h.serial < s.registered
  listening : s.khandlers ≠ [] → s.listening

theorem registered_fresh (kinfos : List MachInfo) : Registered (fresh kinfos) := by
  constructor <;> simp [fresh]

/-- Handlers of one serial are one object. -/
theorem Registered.eq_of_serial {s : Listener} (hs : Registered s) {g h : KextHandler}
    (hg : g ∈ s.khandlers) (hh : h ∈ s.khandlers) (heq : g.serial = h.serial) : g = h := by
  have hnodup : (s.khandlers.map (·.serial)).Nodup :=
    List.pairwise_map.mpr (hs.sorted.imp fun hlt => hlt.ne)
  exact List.inj_on_of_nodup_map hnodup hg hh heq

theorem Registered.extends {s s' : Listener} {new : List KextHandler} (hs : Registered s)
    (h : Extends s s' new) : Registered s' where
  sorted := by
    rw [h.khandlers]
    exact List.pairwise_append.mpr ⟨hs.sorted, h.sorted, fun a ha b hb =>
      (hs.lt a ha).trans_le (h.serial b hb).1⟩
  lt := by
    rw [h.khandlers]
    intro x hx
    rcases List.mem_append.mp hx with hx | hx
    · exact (hs.lt x hx).trans_le h.registered
    · exact (h.serial x hx).2
  listening := by
    rw [h.khandlers, h.listening]
    intro hne
    by_cases hnew : new = []
    · exact hs.listening (by simpa [hnew] using hne)
    · exact h.listens hnew

/-- Handlers may be removed, or change in anything but their serials. -/
theorem Registered.of_serials {s s' : Listener} (hs : Registered s)
    (hsub : List.Sublist (s'.khandlers.map (·.serial)) (s.khandlers.map (·.serial)))
    (hreg : s'.registered = s.registered) (hlis : s'.listening = s.listening) : Registered s' where
  sorted := by
    have hsorted : (s.khandlers.map (·.serial)).Pairwise (· < ·) := List.pairwise_map.mpr hs.sorted
    exact List.pairwise_map.mp (hsorted.sublist hsub)
  lt := by
    intro h hh
    obtain ⟨g, hg, heq⟩ := List.mem_map.mp (hsub.subset (List.mem_map_of_mem hh))
    rw [hreg, ← heq]
    exact hs.lt g hg
  listening := by
    intro hne
    rw [hlis]
    refine hs.listening fun hnil => hne ?_
    rw [hnil, List.map_nil] at hsub
    exact List.map_eq_nil_iff.mp (List.sublist_nil.mp hsub)

theorem Registered.invokes {s s' : Listener} {kmod : Kmod} {pre post : List KextHandler}
    {h : KextHandler} (hs : Registered s) (hinv : Invokes s kmod pre h post s') :
    Registered s' := by
  obtain ⟨hkh, called, registered, new, hnew, rfl, rfl⟩ := hinv
  have hcalled : Registered { s with
      khandlers := pre ++ h.called kmod :: post
      invoked := s.invoked ++ [Invocation.mk (h.called kmod) kmod] } :=
    hs.of_serials (by simp [hkh, KextHandler.called]) rfl rfl
  have hreg := hcalled.extends hnew
  refine hreg.of_serials ?_ rfl rfl
  rw [hnew.khandlers]
  refine List.Sublist.map _ ?_
  cases h.reloadable with
  | true => simp
  | false => simp

theorem Registered.processKext {s : Listener} (hs : Registered s) (kmod : Kmod) (loaded : Bool) :
    Registered (s.processKext S kmod loaded) := by
  rcases processKext_cases s kmod loaded with ⟨-, heq⟩ | ⟨pre, h, post, -, -, hinv⟩
  · rwa [heq]
  · exact hs.invokes hinv

theorem Registered.sweep {s : Listener} (hs : Registered s) (kmods : List Kmod) :
    Registered (s.sweep S kmods) := by
  have hall : Registered (s.processAlreadyLoadedKexts S kmods) :=
    foldl_invariant (fun _ kmod h => h.processKext kmod true) kmods hs
  exact hall.of_serials (List.Sublist.refl _) rfl rfl

theorem Registered.activate {s : Listener} (hs : Registered s) (kmods : Kmods) :
    Registered (s.activate S kmods) := by
  unfold Listener.activate
  split_ifs
  · exact (hs.sweep kmods.list).of_serials (List.Sublist.refl _) rfl rfl
  · exact hs.of_serials (List.Sublist.refl _) rfl rfl

theorem Registered.updateKextHandlerFeatures {s : Listener} (hs : Registered s) (info : KextInfo) :
    Registered (s.updateKextHandlerFeatures info) := by
  unfold Listener.updateKextHandlerFeatures
  split
  · have hserials : ∀ i, (s.khandlers.modify i (·.withFeatures info)).map (·.serial) =
        s.khandlers.map (·.serial) := by
      intro i
      refine List.ext_getElem? fun j => ?_
      simp only [List.getElem?_map, List.getElem?_modify]
      split_ifs <;> simp [KextHandler.withFeatures, Function.comp_def]
    exact hs.of_serials (hserials _ ▸ List.Sublist.refl _) rfl rfl
  · exact hs

theorem Registered.call {s : Listener} (hs : Registered s) (c : Call) : Registered (s.call c) := by
  cases c with
  | setupKextListening => exact ⟨hs.sorted, hs.lt, fun _ => rfl⟩
  | waitOnKext handler stored =>
    obtain ⟨new, hnew⟩ := extends_waitOnKext s handler stored
    exact hs.extends hnew
  | updateKextHandlerFeatures info => exact hs.updateKextHandlerFeatures info

/-- **Every event** keeps the handlers distinct and in order. -/
theorem Registered.step {s : Listener} (hs : Registered s) (e : Event) :
    Registered (s.step S e) := by
  cases e with
  | onOSKextSaveLoadedKextPanicList kmods =>
    simp only [Listener.step, onOSKextSaveLoadedKextPanicList]
    split_ifs
    · exact hs
    · exact hs
    · exact hs.sweep kmods.list
    · split
      · exact hs
      · exact hs.processKext _ false
  | beginOSKextUnload => exact hs.of_serials (List.Sublist.refl _) rfl rfl
  | endOSKextUnload => exact hs.of_serials (List.Sublist.refl _) rfl rfl
  | waitOnKext handler stored =>
    obtain ⟨new, hnew⟩ := extends_waitOnKext s handler stored
    exact hs.extends hnew

end Listener

end Lilu.Kext
