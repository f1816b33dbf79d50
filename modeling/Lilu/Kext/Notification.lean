import Lilu.Kext.Listener

/-!
# Which kexts reach their handlers

A notification is about one kext, the newest, unless the sweep over loaded kexts is still due: then
the notification is spent on the sweep, which skips the handlers that do not ask for loaded kexts.
The sweep itself is due when a handler that asks for loaded kexts is registered, but not when a
handler is made to ask for them later.

## Main definitions

* `Served`, `NotSpent`: a notification reaches a handler, and when it does
* `Flagged`, `NoSilentRaise`: the sweep is due for the handlers that need it, and what keeps it so
* `AllInvoked`, `NoRivals`: the sweep reaches every handler that needs it, and when it does

## Main results

* `served_iff`: which notifications of a run reach a handler
* `allInvoked_iff`: when all handlers for loaded kexts are called
-/

namespace Lilu.Kext

/-- The kexts of the list are told apart by their names. -/
theorem Kmods.eq_of_name {kmods : Kmods} {k k' : Kmod} (hk : k ∈ kmods.list)
    (hk' : k' ∈ kmods.list) (hname : k.name.take KMOD_MAX_NAME = k'.name.take KMOD_MAX_NAME) :
    k = k' := by
  have hnodup : (kmods.list.map fun k => k.name.take KMOD_MAX_NAME).Nodup :=
    List.pairwise_map.mpr kmods.distinct
  exact List.inj_on_of_nodup_map hnodup hk hk' hname

namespace Listener

variable (S : System)

/-! ## Newly loaded kexts -/

/-- A notification about a newly loaded kext calls a handler for it, if there is one. -/
def Served (s : Listener) : Event → Prop
  | .onOSKextSaveLoadedKextPanicList kmods => ∀ kmod rest, kmods.list = kmod :: rest →
    s.isKextUnloading = false → (∃ h ∈ s.khandlers, s.isFor S kmod h) →
    ∃ h ∈ s.khandlers, s.isFor S kmod h ∧ Invocation.mk (h.called kmod) kmod ∈
      (s.onOSKextSaveLoadedKextPanicList S kmods).invoked.drop s.invoked.length
  | _ => True

/-- The notification is not spent on a sweep that skips all handlers for the kext. -/
def NotSpent (s : Listener) : Event → Prop
  | .onOSKextSaveLoadedKextPanicList kmods => ∀ kmod rest, kmods.list = kmod :: rest →
    s.isKextUnloading = false → (∃ h ∈ s.khandlers, s.isFor S kmod h) →
    s.waitingForAlreadyLoadedKexts → ∃ h ∈ s.khandlers, s.isFor S kmod h ∧ h.loaded
  | _ => True

variable {S}

/-- A sweep only calls handlers for the kexts that it sweeps over. -/
theorem sweep_invoked (s : Listener) (kmods : List Kmod) :
    ∃ new, (s.processAlreadyLoadedKexts S kmods).invoked = s.invoked ++ new ∧
      ∀ inv ∈ new, inv.kmod ∈ kmods := by
  induction kmods generalizing s with
  | nil => exact ⟨[], by simp [processAlreadyLoadedKexts], by simp⟩
  | cons kmod kmods ih =>
    obtain ⟨new, hnew, hmem⟩ := ih (s.processKext S kmod true)
    have hmem' : ∀ inv ∈ new, inv.kmod ∈ kmod :: kmods := fun inv hinv =>
      List.mem_cons_of_mem _ (hmem inv hinv)
    rcases processKext_cases (S := S) s kmod true with ⟨-, heq⟩ | ⟨pre, h, post, -, -, hinv⟩
    · refine ⟨new, ?_, hmem'⟩
      rw [heq] at hnew
      simpa only [processAlreadyLoadedKexts, List.foldl_cons, heq] using hnew
    · refine ⟨Invocation.mk (h.called kmod) kmod :: new, ?_, ?_⟩
      · rw [hinv.invoked, List.append_assoc, List.singleton_append] at hnew
        simpa only [processAlreadyLoadedKexts, List.foldl_cons] using hnew
      · exact List.forall_mem_cons.mpr ⟨List.mem_cons_self, hmem'⟩

theorem catches_false (s : Listener) (kmod : Kmod) (h : KextHandler) :
    s.catches S kmod false h = s.isFor S kmod h := by
  simp [catches]

theorem catches_true (s : Listener) (kmod : Kmod) (h : KextHandler) :
    s.catches S kmod true h = (h.loaded && s.isFor S kmod h) := by
  simp [catches]

/-- The newest kext comes first in a sweep. -/
theorem served_sweep_iff (s : Listener) (kmod : Kmod) (rest : List Kmod) (hrest : kmod ∉ rest) :
    (∃ h ∈ s.khandlers, s.isFor S kmod h ∧ Invocation.mk (h.called kmod) kmod ∈
      (s.sweep S (kmod :: rest)).invoked.drop s.invoked.length) ↔
    ∃ h ∈ s.khandlers, s.isFor S kmod h ∧ h.loaded := by
  obtain ⟨new, hnew, hmem⟩ := sweep_invoked (S := S) (s.processKext S kmod true) rest
  have hsweep : (s.sweep S (kmod :: rest)).invoked =
      (s.processKext S kmod true).invoked ++ new := hnew
  rw [hsweep]
  rcases processKext_cases (S := S) s kmod true with ⟨hno, heq⟩ | ⟨pre, h, post, -, hcatch, hinv⟩
  · -- nobody takes the kext, and the others of the sweep are about other kexts
    rw [heq, List.drop_left]
    constructor
    · rintro ⟨h, -, -, hlog⟩
      exact absurd (hmem _ hlog) hrest
    · rintro ⟨h, hh, hfor, hloaded⟩
      have hskip := hno h hh
      rw [catches_true, hloaded, hfor] at hskip
      cases hskip
  · rw [catches_true, Bool.and_eq_true] at hcatch
    have hmem : h ∈ s.khandlers := by rw [hinv.handlers]; simp
    rw [hinv.invoked, List.append_assoc, List.drop_left]
    exact iff_of_true ⟨h, hmem, hcatch.2, List.mem_append_left _ (List.mem_singleton_self _)⟩
      ⟨h, hmem, hcatch.2, hcatch.1⟩

/-- After the activation, and for as long as there are handlers only with kext listening. -/
structure Listens (s : Listener) : Prop where
  registered : Registered s
  activated : s.activated

theorem served_iff_notSpent {s : Listener} (hs : Listens s) (e : Event) :
    s.Served S e ↔ s.NotSpent S e := by
  cases e with
  | onOSKextSaveLoadedKextPanicList kmods =>
    refine forall_congr' fun kmod => forall_congr' fun rest => forall_congr' fun hlist =>
      forall_congr' fun hunload => forall_congr' fun hsome => ?_
    obtain ⟨g, hg, hfor⟩ := hsome
    have hlis : s.listening := hs.registered.listening (List.ne_nil_of_mem hg)
    have hact := hs.activated
    unfold onOSKextSaveLoadedKextPanicList
    simp only [hlis, hact, hunload, Bool.not_true, Bool.or_self, Bool.false_eq_true, if_false]
    cases hwait : s.waitingForAlreadyLoadedKexts with
    | true =>
      have hdistinct := kmods.distinct
      rw [hlist] at hdistinct ⊢
      have hrest : kmod ∉ rest := fun hmem => (List.pairwise_cons.mp hdistinct).1 kmod hmem rfl
      simpa using served_sweep_iff s kmod rest hrest
    | false =>
      simp only [Bool.false_eq_true, if_false, hlist, false_implies, iff_true]
      rcases processKext_cases (S := S) s kmod false with
        ⟨hno, -⟩ | ⟨pre, h, post, -, hcatch, hinv⟩
      · have hskip := hno g hg
        rw [catches_false, hfor] at hskip
        cases hskip
      · rw [catches_false] at hcatch
        refine ⟨h, by rw [hinv.handlers]; simp, hcatch, ?_⟩
        rw [hinv.invoked, List.drop_left]
        exact List.mem_singleton_self _
  | beginOSKextUnload => exact Iff.rfl
  | endOSKextUnload => exact Iff.rfl
  | waitOnKext handler stored => exact Iff.rfl

theorem Listens.step {s : Listener} (hs : Listens s) (e : Event) : Listens (s.step S e) := by
  refine ⟨hs.registered.step e, ?_⟩
  have hact := hs.activated
  cases e with
  | onOSKextSaveLoadedKextPanicList kmods =>
    simp only [Listener.step, onOSKextSaveLoadedKextPanicList]
    split_ifs
    · exact hact
    · exact hact
    · exact (processAlreadyLoadedKexts_sameSetup s kmods.list).activated.trans hact
    · split
      · exact hact
      · exact (processKext_sameSetup s _ false).activated.trans hact
  | beginOSKextUnload => exact hact
  | endOSKextUnload => exact hact
  | waitOnKext handler stored =>
    obtain ⟨new, hnew⟩ := extends_waitOnKext s handler stored
    exact hnew.activated.trans hact

/-- The patcher after some calls, and the activation. -/
def booted (S : System) (kinfos : List MachInfo) (calls : List Call) (kmods : Kmods) : Listener :=
  (calls.foldl call (fresh kinfos)).activate S kmods

theorem listens_booted (kinfos : List MachInfo) (calls : List Call) (kmods : Kmods) :
    Listens (booted S kinfos calls kmods) :=
  ⟨(foldl_invariant (fun _ c h => h.call c) calls (registered_fresh kinfos)).activate kmods, rfl⟩

/-- **Newly loaded kexts reach a handler** in a run after the activation exactly if no notification
about one is spent on a sweep that skips its handlers. -/
theorem served_iff (kinfos : List MachInfo) (calls : List Call) (kmods : Kmods)
    (events : List Event) :
    Along (step S) (Served S) (booted S kinfos calls kmods) events ↔
      Along (step S) (NotSpent S) (booted S kinfos calls kmods) events :=
  along_congr (fun _ e h => h.step e) (fun _ e h => served_iff_notSpent h e) events
    (listens_booted kinfos calls kmods)

/-- Catalina, with callbacks that do nothing and kexts that all are the right binary. -/
def catalina : System where
  version := 19
  kernelBase := 0
  getUUID _ := some (0, 0)
  handler _ _ := []

/-- Two loaded images, `a` and `b`. -/
def images : List MachInfo :=
  [⟨some [97], false, (0, 0)⟩, ⟨some [98], false, (0, 0)⟩]

/-- The kext `b`, newly loaded. -/
def newKext : Kmods where
  list := [⟨[98], 4096, 16⟩]
  distinct := List.pairwise_singleton _ _

def noKext : Kmods where
  list := []
  distinct := List.Pairwise.nil

/-- **A kext that is missed**: one handler asks for its loaded kext `a`, the other one waits for
`b`, and the first notification after the activation is about `b`. -/
theorem not_served_first : catalina.version < KernelVersion.BigSur ∧
    ¬ Along (step catalina) (Served catalina) (booted catalina images
      [.setupKextListening, .waitOnKext ({ id := [97], index := 0, loaded := true }) true,
        .waitOnKext ({ id := [98], index := 1 }) true] noKext)
      [.onOSKextSaveLoadedKextPanicList newKext] := by
  refine ⟨by decide, fun h => ?_⟩
  obtain ⟨g, -, -, hlog⟩ := h.1 ⟨[98], 4096, 16⟩ [] rfl rfl
    ⟨{ id := [98], index := 1, serial := 1 }, by decide, by decide⟩
  revert hlog
  exact List.not_mem_nil

/-! ## Loaded kexts -/

/-- As long as a handler asks for loaded kexts, the sweep is due. -/
def Flagged (s : Listener) : Prop :=
  (∃ h ∈ s.khandlers, h.loaded) → s.waitingForAlreadyLoadedKexts

/-- No call makes a handler ask for loaded kexts while the sweep is not due. -/
def NoSilentRaise (s : Listener) : Call → Prop
  | .updateKextHandlerFeatures info => ∀ h, s.khandlers.find? (fun h => h.id == info.id) = some h →
    info.sys .Loaded → h.loaded = false → s.waitingForAlreadyLoadedKexts
  | _ => True

theorem flagged_call_iff {s : Listener} (hs : Flagged s) (c : Call) :
    Flagged (s.call c) ↔ NoSilentRaise s c := by
  cases c with
  | setupKextListening => exact iff_of_true hs trivial
  | waitOnKext handler stored =>
    refine iff_of_true ?_ trivial
    obtain ⟨new, hnew⟩ := extends_waitOnKext s handler stored
    rintro ⟨h, hh, hloaded⟩
    rw [call, hnew.khandlers] at hh
    rcases List.mem_append.mp hh with hh | hh
    · exact hnew.waiting (hs ⟨h, hh, hloaded⟩)
    · exact hnew.flagged h hh hloaded
  | updateKextHandlerFeatures info =>
    simp only [call, updateKextHandlerFeatures, NoSilentRaise]
    cases hfind : s.khandlers.findIdx? fun h => h.id == info.id with
    | none =>
      refine iff_of_true hs fun h hsome => ?_
      have hid := List.find?_some hsome
      have hno := List.findIdx?_eq_none_iff.mp hfind h (List.mem_of_find?_eq_some hsome)
      rw [hid] at hno
      cases hno
    | some i =>
      obtain ⟨hi, hid, hpre⟩ := List.findIdx?_eq_some_iff_getElem.mp hfind
      have hsome : s.khandlers.find? (fun h => h.id == info.id) = some s.khandlers[i] :=
        List.find?_eq_some_iff_getElem.mpr ⟨hid, i, hi, rfl, fun j hj => by simpa using hpre j hj⟩
      constructor
      · -- a handler that is raised is in the list afterwards
        rintro hflag h hh hinfo -
        refine hflag ⟨s.khandlers[i].withFeatures info, ?_, ?_⟩
        · refine List.mem_of_getElem? (i := i) ?_
          simp [hi]
        · simp [KextHandler.withFeatures, hinfo]
      · rintro hraise ⟨h, hh, hloaded⟩
        obtain ⟨j, hj, rfl⟩ := List.getElem_of_mem hh
        rw [List.length_modify] at hj
        rw [List.getElem_modify] at hloaded
        by_cases hold : s.khandlers[j].loaded
        · exact hs ⟨_, List.getElem_mem hj, hold⟩
        · -- only the first handler for the kext can have been raised
          by_cases hij : i = j
          · subst hij
            rw [if_pos rfl, KextHandler.withFeatures, Bool.or_eq_true] at hloaded
            exact hraise _ hsome (hloaded.resolve_left hold) (Bool.eq_false_iff.mpr hold)
          · rw [if_neg hij] at hloaded
            exact absurd hloaded hold

/-- The serials of the handlers that a sweep finds for the kext. -/
def catchers (S : System) (s : Listener) (kmod : Kmod) : List ℕ :=
  (s.khandlers.filter (s.catches S kmod true)).map (·.serial)

theorem catches_congr {s s' : Listener} (h : s'.kinfos = s.kinfos) (kmod : Kmod) (loaded : Bool) :
    s'.catches S kmod loaded = s.catches S kmod loaded := by
  funext g
  rw [catches, catches, isFor, isFor, h]

/-- A handler is for kexts of one name only. -/
theorem name_eq_of_isFor {s : Listener} {kmod kmod' : Kmod} {h : KextHandler}
    (hfor : s.isFor S kmod h) (hfor' : s.isFor S kmod' h) :
    kmod.name.take KMOD_MAX_NAME = kmod'.name.take KMOD_MAX_NAME := by
  simp only [isFor, strncmp, Bool.and_eq_true, beq_iff_eq] at hfor hfor'
  exact hfor.1.symm.trans hfor'.1

/-- A kext does not touch the handlers for kexts of other names. -/
theorem processKext_catchers (s : Listener) {kmod kmod' : Kmod}
    (hname : kmod'.name.take KMOD_MAX_NAME ≠ kmod.name.take KMOD_MAX_NAME) :
    ∃ new, catchers S (s.processKext S kmod' true) kmod = catchers S s kmod ++ new ∧
      ∀ n ∈ new, s.registered ≤ n := by
  rcases processKext_cases (S := S) s kmod' true with ⟨-, heq⟩ | ⟨pre, h, post, -, hcatch, hinv⟩
  · exact ⟨[], by rw [heq, List.append_nil], by simp⟩
  · have hkinfos := hinv.sameSetup.kinfos
    obtain ⟨hkh, called, registered, new, hnew, hcalled, hs'⟩ := hinv
    refine ⟨(new.filter (s.catches S kmod true)).map (·.serial), ?_, ?_⟩
    · have hskip : s.catches S kmod true h = false := by
        rw [catches_true, Bool.and_eq_true] at hcatch
        rw [catches_true, Bool.and_eq_false_iff]
        exact Or.inr (Bool.eq_false_iff.mpr fun hfor => hname (name_eq_of_isFor hcatch.2 hfor))
      have hskip' : s.catches S kmod true (h.called kmod') = false := hskip
      rw [catchers, catches_congr hkinfos, hs', catchers, hkh]
      cases h.reloadable <;> simp [hskip, hskip']
    · intro n hn
      obtain ⟨g, hg, rfl⟩ := List.mem_map.mp hn
      have hle := (hnew.serial g (List.mem_filter.mp hg).1).1
      rwa [hcalled] at hle

theorem processKext_registered_le (s : Listener) (kmod : Kmod) (loaded : Bool) :
    s.registered ≤ (s.processKext S kmod loaded).registered := by
  rcases processKext_cases (S := S) s kmod loaded with ⟨-, heq⟩ | ⟨pre, h, post, -, -, hinv⟩
  · rw [heq]
  · exact hinv.registered_le

/-- A kext is handed to the first handler that the sweep finds for it. -/
theorem processKext_invoked (s : Listener) (kmod : Kmod) : ∃ new : List Invocation,
    (s.processKext S kmod true).invoked = s.invoked ++ new ∧ (∀ inv ∈ new, inv.kmod = kmod) ∧
      ∀ n, (∃ inv ∈ new, inv.handler.serial = n) ↔ (catchers S s kmod).head? = some n := by
  rcases processKext_cases (S := S) s kmod true with ⟨hno, heq⟩ | ⟨pre, h, post, hpre, hcatch, hinv⟩
  · refine ⟨[], by rw [heq, List.append_nil], by simp, fun n => ?_⟩
    have hnone : catchers S s kmod = [] := by
      rw [catchers, List.map_eq_nil_iff, List.filter_eq_nil_iff]
      exact fun h hh => Bool.eq_false_iff.mp (hno h hh)
    simp [hnone]
  · refine ⟨[Invocation.mk (h.called kmod) kmod], hinv.invoked, by simp, fun n => ?_⟩
    have hskip : pre.filter (s.catches S kmod true) = [] :=
      List.filter_eq_nil_iff.mpr fun x hx => Bool.eq_false_iff.mp (hpre x hx)
    have hserial : (h.called kmod).serial = h.serial := rfl
    rw [catchers, hinv.handlers, List.filter_append, hskip, List.nil_append,
      List.filter_cons_of_pos hcatch]
    simp [hserial]

/-- What is found later does not come first. -/
theorem head?_append_iff {l new : List ℕ} {n m : ℕ} (hnew : ∀ x ∈ new, m ≤ x) (hn : n < m) :
    (l ++ new).head? = some n ↔ l.head? = some n := by
  cases l with
  | cons x l => rfl
  | nil =>
    refine iff_of_false (fun hhead => ?_) (by simp)
    have := hnew n (List.mem_of_mem_head? hhead)
    omega

/-- **A sweep** hands every kext to the first of the handlers that are there when it begins, unless
it finds none of them for it. -/
theorem sweep_invoked_iff (kmods : List Kmod) (s : Listener)
    (hdistinct : kmods.Pairwise fun a b => a.name.take KMOD_MAX_NAME ≠ b.name.take KMOD_MAX_NAME) :
    ∃ new : List Invocation, (s.processAlreadyLoadedKexts S kmods).invoked = s.invoked ++ new ∧
      ∀ n < s.registered, (∃ inv ∈ new, inv.handler.serial = n) ↔
        ∃ kmod ∈ kmods, (catchers S s kmod).head? = some n := by
  induction kmods generalizing s with
  | nil => exact ⟨[], by simp [processAlreadyLoadedKexts], by simp⟩
  | cons kmod kmods ih =>
    obtain ⟨hname, hdistinct⟩ := List.pairwise_cons.mp hdistinct
    obtain ⟨new, hnew, -, hiff⟩ := processKext_invoked (S := S) s kmod
    obtain ⟨new', hnew', hiff'⟩ := ih (s.processKext S kmod true) hdistinct
    refine ⟨new ++ new', ?_, fun n hn => ?_⟩
    · rw [← List.append_assoc, ← hnew, ← hnew']
      rfl
    have hn' := hn.trans_le (processKext_registered_le (S := S) s kmod true)
    -- handlers that are added on the way stand behind the others
    have hlater : (∃ k ∈ kmods, (catchers S (s.processKext S kmod true) k).head? = some n) ↔
        ∃ k ∈ kmods, (catchers S s k).head? = some n := by
      refine exists_congr fun k => and_congr_right fun hk => ?_
      obtain ⟨added, hadded, hserial⟩ := processKext_catchers (S := S) s (hname k hk)
      rw [hadded, head?_append_iff hserial hn]
    simp only [List.mem_append, List.mem_cons, or_and_right, exists_or, exists_eq_left]
    rw [hiff n, hiff' n hn', hlater]

/-- What has happened when the first kext after the activation was loaded. `loads` are the kexts at
that time, the new one first; on Big Sur and newer only the activation counts. -/
def settled (S : System) (s : Listener) (loads : Kmods) : Listener :=
  let s := s.activate S loads.tail
  if KernelVersion.BigSur ≤ S.version then s else s.onOSKextSaveLoadedKextPanicList S loads

/-- Every handler that asks for its loaded kext is called. -/
def AllInvoked (S : System) (s : Listener) (loads : Kmods) : Prop :=
  ∀ h ∈ s.khandlers, h.loaded → ∀ kmod ∈ loads.tail.list, s.isFor S kmod h →
    ∃ inv ∈ (s.settled S loads).invoked, inv.handler.serial = h.serial

/-- No two handlers ask for the same loaded kext. -/
def NoRivals (S : System) (s : Listener) (loads : Kmods) : Prop :=
  ∀ kmod ∈ loads.tail.list, ∀ g ∈ s.khandlers, ∀ h ∈ s.khandlers, s.catches S kmod true g →
    s.catches S kmod true h → g = h

/-- Before the activation nothing is called. -/
structure Quiet (s : Listener) : Prop where
  registered : Registered s
  invoked : s.invoked = []
  isKextUnloading : s.isKextUnloading = false

theorem Quiet.call {s : Listener} (hs : Quiet s) (c : Call) : Quiet (s.call c) := by
  refine ⟨hs.registered.call c, ?_, ?_⟩
  · cases c with
    | setupKextListening => exact hs.invoked
    | waitOnKext handler stored =>
      obtain ⟨new, hnew⟩ := extends_waitOnKext s handler stored
      exact hnew.invoked.trans hs.invoked
    | updateKextHandlerFeatures info =>
      simp only [Listener.call, updateKextHandlerFeatures]
      split <;> exact hs.invoked
  · cases c with
    | setupKextListening => exact hs.isKextUnloading
    | waitOnKext handler stored =>
      obtain ⟨new, hnew⟩ := extends_waitOnKext s handler stored
      exact hnew.isKextUnloading.trans hs.isKextUnloading
    | updateKextHandlerFeatures info =>
      simp only [Listener.call, updateKextHandlerFeatures]
      split <;> exact hs.isKextUnloading

theorem quiet_calls (kinfos : List MachInfo) (calls : List Call) :
    Quiet (calls.foldl call (fresh kinfos)) :=
  foldl_invariant (fun _ c h => h.call c) calls ⟨registered_fresh kinfos, rfl, rfl⟩

theorem notification_of_waiting {s : Listener} (hlis : s.listening) (hact : s.activated)
    (hunload : s.isKextUnloading = false) (hwait : s.waitingForAlreadyLoadedKexts)
    (kmods : Kmods) : s.onOSKextSaveLoadedKextPanicList S kmods = s.sweep S kmods.list := by
  simp [onOSKextSaveLoadedKextPanicList, hlis, hact, hunload, hwait]

/-- When the sweep is due, it is made by the activation or by the first notification, over the
loaded kexts and maybe the new one. -/
theorem settled_invoked_iff {s : Listener} (hs : Quiet s) (hlis : s.listening)
    (hwait : s.waitingForAlreadyLoadedKexts) (loads : Kmods) : ∃ kmods : List Kmod,
    (∀ kmod ∈ loads.tail.list, kmod ∈ kmods) ∧ (∀ kmod ∈ kmods, kmod ∈ loads.list) ∧
      ∀ n < s.registered, (∃ inv ∈ (s.settled S loads).invoked, inv.handler.serial = n) ↔
        ∃ kmod ∈ kmods, (catchers S s kmod).head? = some n := by
  unfold settled activate
  by_cases hver : KernelVersion.BigSur ≤ S.version
  · refine ⟨loads.tail.list, fun _ => id, fun kmod => List.mem_of_mem_tail, fun n hn => ?_⟩
    obtain ⟨new, hnew, hiff⟩ := sweep_invoked_iff (S := S) loads.tail.list s loads.tail.distinct
    rw [if_pos hver, if_pos ⟨hver, hwait⟩, ← hiff n hn, sweep, hnew, hs.invoked, List.nil_append]
  · refine ⟨loads.list, fun kmod => List.mem_of_mem_tail, fun _ => id, fun n hn => ?_⟩
    set s' : Listener := { s with activated := true }
    obtain ⟨new, hnew, hiff⟩ := sweep_invoked_iff (S := S) loads.list s' loads.distinct
    have hcatchers : ∀ kmod, catchers S s' kmod = catchers S s kmod := fun _ => rfl
    simp only [hcatchers] at hiff
    rw [if_neg hver, if_neg fun h => hver h.1, ← hiff n hn]
    have hsweep : s'.onOSKextSaveLoadedKextPanicList S loads = s'.sweep S loads.list :=
      notification_of_waiting (s := s') hlis rfl hs.isKextUnloading hwait loads
    have hnone : s'.invoked = [] := hs.invoked
    rw [hsweep, sweep, hnew, hnone, List.nil_append]

theorem mem_catchers_iff {s : Listener} {kmod : Kmod} {n : ℕ} : n ∈ catchers S s kmod ↔
    ∃ h ∈ s.khandlers, s.catches S kmod true h ∧ h.serial = n := by
  simp [catchers, and_assoc]

/-- **When the sweep is due** for the handlers that need it, it reaches them all exactly if no two
of them ask for the same kext. -/
theorem allInvoked_iff_noRivals {s : Listener} (hs : Quiet s) (hflag : Flagged s) (loads : Kmods) :
    s.AllInvoked S loads ↔ s.NoRivals S loads := by
  by_cases hsome : ∃ h ∈ s.khandlers, h.loaded
  · have hlis : s.listening := hs.registered.listening (by
      obtain ⟨h, hh, -⟩ := hsome
      exact List.ne_nil_of_mem hh)
    obtain ⟨kmods, htail, hlist, hiff⟩ :=
      settled_invoked_iff (S := S) hs hlis (hflag hsome) loads
    constructor
    · intro hall kmod hkmod g hg h hh hcg hch
      -- each of the two comes first among the handlers for its kext, which is the same
      have hfirst : ∀ x ∈ s.khandlers, s.catches S kmod true x →
          (catchers S s kmod).head? = some x.serial := by
        intro x hx hcx
        have hcx' := hcx
        rw [catches_true, Bool.and_eq_true] at hcx'
        obtain ⟨k, hk, hhead⟩ := (hiff _ (hs.registered.lt x hx)).mp
          (hall x hx hcx'.1 kmod hkmod hcx'.2)
        obtain ⟨y, hy, hcy, hserial⟩ := mem_catchers_iff.mp (List.mem_of_mem_head? hhead)
        obtain rfl := hs.registered.eq_of_serial hy hx hserial
        rw [catches_true, Bool.and_eq_true] at hcy
        obtain rfl := Kmods.eq_of_name (hlist k hk) (List.mem_of_mem_tail hkmod)
          (name_eq_of_isFor hcy.2 hcx'.2)
        exact hhead
      have heq := (hfirst g hg hcg).symm.trans (hfirst h hh hch)
      exact hs.registered.eq_of_serial hg hh (Option.some.inj heq)
    · intro hno h hh hloaded kmod hkmod hfor
      refine (hiff _ (hs.registered.lt h hh)).mpr ⟨kmod, htail kmod hkmod, ?_⟩
      have hch : s.catches S kmod true h := by rw [catches_true, hloaded, hfor]; rfl
      have hmem : h.serial ∈ catchers S s kmod := mem_catchers_iff.mpr ⟨h, hh, hch, rfl⟩
      obtain ⟨n, hn⟩ := Option.ne_none_iff_exists'.mp
        (mt List.head?_eq_none_iff.mp (List.ne_nil_of_mem hmem))
      obtain ⟨g, hg, hcg, rfl⟩ := mem_catchers_iff.mp (List.mem_of_mem_head? hn)
      rw [hn, hno kmod hkmod g hg h hh hcg hch]
  · refine iff_of_true (fun h hh hloaded => absurd ⟨h, hh, hloaded⟩ hsome) ?_
    intro kmod _ g hg h _ hcg _
    rw [catches_true, Bool.and_eq_true] at hcg
    exact absurd ⟨g, hg, hcg.1⟩ hsome

/-- **Loaded kexts reach their handlers**, and the sweep is due whenever a handler needs it, exactly
if no call makes a handler ask for loaded kexts while the sweep is not due, and no two handlers end
up asking for the same loaded kext. -/
theorem allInvoked_iff (kinfos : List MachInfo) (calls : List Call) (loads : Kmods) :
    Throughout call Flagged (fresh kinfos) calls ∧
        (calls.foldl call (fresh kinfos)).AllInvoked S loads ↔
      Along call NoSilentRaise (fresh kinfos) calls ∧
        (calls.foldl call (fresh kinfos)).NoRivals S loads := by
  have hquiet : Quiet (fresh kinfos) := ⟨registered_fresh kinfos, rfl, rfl⟩
  have hend := quiet_calls kinfos calls
  have hflag : Flagged (fresh kinfos) := by
    rintro ⟨h, hh, -⟩
    exact absurd hh List.not_mem_nil
  have hrun : Throughout call Flagged (fresh kinfos) calls ↔
      Along call NoSilentRaise (fresh kinfos) calls :=
    throughout_iff_along (fun _ c h _ => h.call c) (fun _ c _ hf => flagged_call_iff hf c) calls
      hquiet hflag
  rw [← hrun]
  exact and_congr_right fun hall => allInvoked_iff_noRivals hend hall.last loads

/-- Big Sur, otherwise like `catalina`. -/
def bigSur : System :=
  { catalina with version := 20 }

/-- **A loaded kext that is missed**: the handler for `b` is made to ask for the loaded kext after
it was registered, and nothing else makes the sweep due. -/
theorem not_allInvoked_updated : ∃ calls : List Call, ∃ loads : Kmods,
    (∃ h ∈ (calls.foldl call (fresh images)).khandlers, h.loaded ∧
      ∃ kmod ∈ loads.tail.list, (calls.foldl call (fresh images)).isFor bigSur kmod h) ∧
    ((calls.foldl call (fresh images)).settled bigSur loads).invoked = [] ∧
    ((calls.foldl call (fresh images)).settled catalina loads).invoked = [] ∧
    ¬ Throughout call Flagged (fresh images) calls := by
  refine ⟨[.setupKextListening, .waitOnKext { id := [98], index := 1 } true,
      .updateKextHandlerFeatures ⟨[98], [], (· == .Loaded), 0⟩],
    ⟨[⟨[99], 8192, 16⟩, ⟨[98], 4096, 16⟩], by decide⟩, ?_, rfl, rfl, ?_⟩
  · exact ⟨_, List.mem_singleton_self _, rfl, _, List.mem_singleton_self _, by decide⟩
  · intro h
    exact absurd (h.last ⟨_, List.mem_singleton_self _, rfl⟩) (by decide)

end Listener

end Lilu.Kext
