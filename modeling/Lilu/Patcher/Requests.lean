import Mathlib.Tactic
import Lilu.Patcher.Layout
import Lilu.Patcher.Area

/-!
# Requests of plugins

A plugin hands an array of requests to the patcher, which resolves all symbols first and routes one
function after the other then. Whether a function was routed before is read from its first bytes:
one that starts with a jump of its own is taken for a routed one, and a relative jump that is found
there ends in a panic. With free address slots and a clean area for trampolines there is no other
panic.

## Main definitions

* `RouteRequest.call`: the call that routes the function of a request
* `Comes`: the request that the loop comes to, and the state that it finds
* `Ready`: the image has enough address slots, and the array for trampolines is clean
* `Accepts`: the first bytes of a function are no obstacle

## Main results

* `routeFunctionInternal_panics_iff`: when a route panics
* `routeMultiple_spared_iff`: when the routes of an array of requests do
-/

namespace Lilu.Patcher

variable {env : Env} {s s₀ s₁ s₂ s' : State} {e : Stop} {id n : ℕ} {kernelRoute force : Bool}
  {jump : JumpType} {request later : RouteRequest} {requests : List RouteRequest} {errors : Bool}
  {r : RouteArgs} {route : Route}

/-! ## The eraser does not panic -/

theorem avoids_eraseInst (addr : Addr) (size : ℕ) : Avoids e (eraseInst env addr size) := by
  apply avoids_get.bind
  intro s
  refine Avoids.ite ?_ (avoids_pure _)
  apply (avoids_setKernelWriting _).bind
  intro granted
  refine Avoids.ite ?_ (avoids_pure _)
  exact (avoids_modify _).bind fun _ => (avoids_setKernelWriting _).bind fun _ => avoids_pure _

theorem avoids_eraseFrom (limit : ℤ) (count : ℕ) (addr : Addr) (total : ℤ) :
    Avoids e (eraseFrom env limit count addr total) := by
  induction count generalizing addr total with
  | zero => exact avoids_pure _
  | succ count ih =>
    rw [eraseFrom]
    apply avoids_get.bind
    intro s
    apply (avoids_pure _).ite
    apply (avoids_eraseInst _ _).bind
    intro _
    exact (avoids_pure _).ite (ih _ _)

theorem avoids_prepare (c : Call) : Avoids e (c.prepare env) :=
  (avoids_eraseFrom _ _ _ _).ite (avoids_pure _)

/-! ## What a route leaves for the next one -/

/-- No jump needs more than two instructions of the longest kind. -/
theorem quickInstructionSize_le {min : ℕ} {func : Addr} (hmin : min ≤ longJump) :
    quickInstructionSize env.hde s.mem func min ≤ 29 := by
  by_cases hzero : quickInstructionSize env.hde s.mem func min = 0
  · omega
  · have hle := (quickInstructionSize_bounds hzero).2
    rw [longJump] at hmin
    omega

/-- Room for one more trampoline. -/
theorem noWrap_of_room {min : ℕ} {func : Addr} (hmin : min ≤ longJump)
    (hroom : s.tempExecutableMemoryOff + pageSize ≤ 2 ^ 64) : NoWrap env [] func min s := by
  have hsize : quickInstructionSize env.hde s.mem func min ≤ 29 := quickInstructionSize_le hmin
  rw [NoWrap, longJump, List.length_nil]
  rw [pageSize] at hroom
  omega

/-- What a route may do to the images and to the area. -/
structure Leaves (r : RouteArgs) (env : Env) (s s' : State) : Prop where
  clear : Clear env s'
  off_le : s'.tempExecutableMemoryOff ≤ s.tempExecutableMemoryOff + pageSize
  slots : s'.kinfos = s.kinfos ∨ ∃ id i, r.info = some id ∧ s.kinfos[id]? = some i ∧
    s'.kinfos = s.kinfos.set id i.advance

theorem Clear.congr (hclear : Clear env s) (hmem : Set.EqOn s'.mem s.mem (trampolineArea env))
    (hoff : s'.tempExecutableMemoryOff = s.tempExecutableMemoryOff) : Clear env s' := by
  intro k hk hsize
  have harea : areaAt env k ∈ trampolineArea env := by
    have hpage : areaAt env k =
        env.tempExecutableMemory - BitVec.ofNat 64 pageSize + BitVec.ofNat 64 (pageSize + k) := by
      rw [areaAt, BitVec.ofNat_add, ← BitVec.add_assoc, BitVec.sub_add_cancel]
    rw [hpage]
    exact add_mem_block (Nat.add_lt_add_left hsize _)
  rw [hmem harea]
  exact hclear k (hoff ▸ hk) hsize

theorem TakesSlot.slots {info : Option ℕ} {slot : Addr} (h : TakesSlot info s slot s') :
    s'.kinfos = s.kinfos ∨ ∃ id i, info = some id ∧ s.kinfos[id]? = some i ∧
      s'.kinfos = s.kinfos.set id i.advance := by
  cases h with
  | taken hinfo hid => exact .inr ⟨_, _, hinfo, hid, rfl⟩
  | none => exact .inl rfl

theorem createTrampoline_leaves {min : ℕ} {a : Addr} (hmin : min ≤ longJump)
    (hclear : Clear env s) (hroom : s.tempExecutableMemoryOff + pageSize ≤ 2 ^ 64)
    (h : Returns (createTrampoline env [] r.entry min) s a s') :
    Clear env s' ∧ s'.tempExecutableMemoryOff ≤ s.tempExecutableMemoryOff + pageSize ∧
      s'.kinfos = s.kinfos := by
  have hwrap : NoWrap env [] r.entry min s := noWrap_of_room hmin hroom
  refine ⟨hclear.request hwrap h, ?_, ?_⟩
  · obtain ⟨n, hn, hoff, -⟩ := createTrampoline_frame hwrap h
    have hle : quickInstructionSize env.hde s.mem r.entry min ≤ 29 := quickInstructionSize_le hmin
    rw [List.length_nil, longJump] at hn
    rw [hoff, pageSize]
    omega
  · obtain ⟨-, -, hbuilt⟩ | ⟨-, -, hunbuilt⟩ := createTrampoline_cases h
    · exact hbuilt.kinfos_eq
    · exact hunbuilt.kinfos_eq

theorem Finds.leaves {o : Option Original} (hclear : Clear env s)
    (hroom : s.tempExecutableMemoryOff + pageSize ≤ 2 ^ 64)
    (h : Finds (createTrampoline env []) r s o s') : Leaves r env s s' := by
  have hmade : ∀ {slot a : Addr} {s₁ s' : State}, TakesSlot r.info s slot s₁ →
      Returns (createTrampoline env [] r.entry (Jump.select r.absolute slot).size) s₁ a s' →
      Leaves r env s s' := by
    intro slot a s₁ s' hslot hmade
    have hclear₁ : Clear env s₁ :=
      hclear.congr (fun x _ => congrFun hslot.mem_eq x) hslot.off_eq
    rw [← hslot.off_eq] at hroom
    obtain ⟨hclear', hoff, hkinfos⟩ := createTrampoline_leaves (Jump.size_le _) hclear₁ hroom hmade
    rw [hslot.off_eq] at hoff
    exact ⟨hclear', hoff, hkinfos ▸ hslot.slots⟩
  cases h with
  | redirect _ _ _ _ hslot =>
    refine ⟨hclear.congr (fun x _ => congrFun hslot.mem_eq x) hslot.off_eq, ?_, hslot.slots⟩
    exact (hslot.off_eq.trans_le (Nat.le_add_right _ _))
  | plain => exact ⟨hclear, Nat.le_add_right _ _, .inl rfl⟩
  | wrap _ _ _ hslot hreturns => exact hmade hslot hreturns
  | refuse _ _ _ hslot hreturns => exact hmade hslot hreturns

theorem withOrg_off {org : Option ℕ} {t : Addr} :
    (s.withOrg org t).tempExecutableMemoryOff = s.tempExecutableMemoryOff := by
  cases org <;> rfl

theorem withOrg_kinfos {org : Option ℕ} {t : Addr} : (s.withOrg org t).kinfos = s.kinfos := by
  cases org <;> rfl

/-- A route takes at most one slot, and the array behind the offset stays clean. -/
theorem route_leaves (hl : Layout env r.entry n s) (hclear : Clear env s)
    (hroom : s.tempExecutableMemoryOff + pageSize ≤ 2 ^ 64)
    (h : Returns (routeFunctionInternal env r) s route s') : Leaves r env s s' := by
  have hextend : ∀ {s₁ s₂ : State}, Leaves r env s s₁ →
      Set.EqOn s₂.mem s₁.mem (trampolineArea env) →
      s₂.tempExecutableMemoryOff = s₁.tempExecutableMemoryOff → s₂.kinfos = s₁.kinfos →
      Leaves r env s s₂ := by
    intro s₁ s₂ hleaves hmem hoff hkinfos
    exact ⟨hleaves.clear.congr hmem hoff, hoff ▸ hleaves.off_le, hkinfos ▸ hleaves.slots⟩
  have hnone : Leaves r env s s := ⟨hclear, Nat.le_add_right _ _, .inl rfl⟩
  -- In each outcome the search for the original comes first, and the rest does not touch the area.
  cases routeWith_cases h with
  | outOfRange _ _ hrefused =>
    exact hextend hnone (fun x _ => congrFun hrefused.mem_eq x) hrefused.off_eq hrefused.kinfos_eq
  | noOriginal _ hfinds =>
    exact hextend (hfinds.leaves hclear hroom) (fun x _ => rfl) rfl rfl
  | refused _ hfinds _ hrefused =>
    refine hextend (hfinds.leaves hclear hroom) (fun x _ => ?_)
      (hrefused.off_eq.trans withOrg_off) (hrefused.kinfos_eq.trans withOrg_kinfos)
    rw [hrefused.mem_eq, withOrg_mem]
  | @installed o s₁ s' _ hfinds _ hinstalled =>
    refine hextend (hfinds.leaves hclear hroom) ?_
      (hinstalled.off_eq.trans withOrg_off) (hinstalled.kinfos_eq.trans withOrg_kinfos)
    have hreaches := hfinds.reaches hl.slotsFit
    -- whichever way it is written, the memory is the same
    have hwrite : s'.mem =
        (Jump.select r.absolute o.addressSlot).write r.entry r.dest s₁.mem := by
      obtain hmem | hmem := hinstalled.mem_eq
      · rw [hmem, Jump.wide_eq_write _ hreaches, withOrg_mem]
      · rw [hmem, Jump.pieces_eq_write, withOrg_mem]
    intro x hx
    rw [hwrite]
    apply Jump.write_eqOn
    -- the jump and its slot are apart from the array
    have hplaced : Placed env r.entry n _ r.dest (Jump.write r.entry r.dest s₁.mem _) :=
      placed_write hl hfinds rfl hreaches
    exact fun hcell => hplaced.cells_subset hl hcell hx

/-! ## When a route panics -/

/-- The first bytes of the function are no obstacle for the route: it is out of range, they lead
nowhere, or they are an indirect jump that is redirected by one of its kind. -/
def Accepts (m : Mem) (r : RouteArgs) : Prop :=
  (r.jumpType = .Short ∧ ¬ Near (r.dest - (r.entry + 5))) ∨ (readChain m r.entry).1 = 0 ∨
    ((readChain m r.entry).2 ≠ some .Short ∧ r.jumpType ≠ .Short)

instance (m : Mem) (r : RouteArgs) : Decidable (Accepts m r) :=
  inferInstanceAs (Decidable (_ ∨ _ ∨ _))

/-- **Panics**: with a free slot and a clean array a route panics exactly where it finds a jump that
it may not redirect. -/
theorem routeFunctionInternal_panics_iff (hslots : HasSlots r s) (hclear : Clear env s)
    (hroom : s.tempExecutableMemoryOff + pageSize ≤ 2 ^ 64) :
    Stops (routeFunctionInternal env r) s .panic ↔ ¬ Accepts s.mem r := by
  -- the trampoline does not panic, as the array is clean behind the offset
  have htrampoline : ∀ {slot : Addr} {s₁ : State}, TakesSlot r.info s slot s₁ →
      ¬ Stops (createTrampoline env [] r.entry (Jump.select r.absolute slot).size) s₁ .panic := by
    intro slot s₁ htakes
    apply createTrampoline_returns
    · exact hclear.congr (fun x _ => congrFun htakes.mem_eq x) htakes.off_eq
    · exact noWrap_of_room (Jump.size_le _) (htakes.off_eq ▸ hroom)
  rw [routeFunctionInternal, routeWith_panics_iff, original_panics_iff hslots, Accepts]
  constructor
  · rintro ⟨hnear, ⟨hchain, hshort⟩ | ⟨-, slot, s₁, htakes, -, hstops⟩⟩
    · rintro (hfar | hzero | ⟨hprev, htype⟩)
      · exact hnear hfar
      · exact hchain hzero
      · exact hshort.elim hprev htype
    · exact absurd hstops (htrampoline htakes)
  · intro hno
    rw [not_or, not_or] at hno
    obtain ⟨hnear, hchain, hshort⟩ := hno
    refine ⟨hnear, .inl ⟨hchain, ?_⟩⟩
    rwa [not_and_or, not_not, not_not] at hshort

/-! ## Requests -/

/-- The call that routes the function of a request. -/
def RouteRequest.call (request : RouteRequest) (id : ℕ) (kernelRoute : Bool) (jump : JumpType) :
    Call where
  args :=
    { entry := request.entry, dest := request.dest, buildWrapper := request.org.isSome, kernelRoute,
      revertible := true, jumpType := jump, info := some id, org := request.org }
  erases := request.dest ≠ 0

theorem routeRequest_eq : routeRequest env id kernelRoute jump request = (do
    (request.call id kernelRoute jump).prepare env
    if (← get).kinfos.length ≤ id then throw .undefined
    let wrapper ← routeFunctionInternal env (request.call id kernelRoute jump).args
    pure (if request.org.isSome then wrapper.value ≠ 0 else wrapper.value = 0)) := by
  rw [routeRequest, Call.prepare, RouteRequest.call]
  by_cases hdest : request.dest ≠ 0
  · rw [if_pos hdest, if_pos (decide_eq_true hdest)]
  · rw [if_neg hdest, if_neg (fun herases => hdest (of_decide_eq_true herases)), pure_bind]

/-- The loop comes to a request: the state in which `routeFunctionInternal` is called for it, with
the code of the function as the eraser has left it. -/
inductive Comes (env : Env) (id : ℕ) (kernelRoute force : Bool) (jump : JumpType) :
    List RouteRequest → State → RouteRequest → State → Prop where
  | here {request : RouteRequest} {requests : List RouteRequest} {s s₁ : State}
      (hentry : request.entry ≠ 0)
      (hprepare : Returns ((request.call id kernelRoute jump).prepare env) s () s₁)
      (hid : id < s₁.kinfos.length) :
      Comes env id kernelRoute force jump (request :: requests) s request s₁
  | skipped {request later : RouteRequest} {requests : List RouteRequest} {s s₁ : State}
      (hentry : request.entry = 0)
      (hcomes : Comes env id kernelRoute force jump requests s later s₁) :
      Comes env id kernelRoute force jump (request :: requests) s later s₁
  | routed {request later : RouteRequest} {requests : List RouteRequest} {s s₁ s₂ : State}
      (hentry : request.entry ≠ 0)
      (hroute : Returns (routeRequest env id kernelRoute jump request) s true s₁)
      (hcomes : Comes env id kernelRoute force jump requests s₁ later s₂) :
      Comes env id kernelRoute force jump (request :: requests) s later s₂
  | forced {request later : RouteRequest} {requests : List RouteRequest} {s s₁ s₂ : State}
      (hentry : request.entry ≠ 0)
      (hroute : Returns (routeRequest env id kernelRoute jump request) s false s₁)
      (hforce : force = true)
      (hcomes : Comes env id kernelRoute force jump requests { s₁ with code := .NoError } later s₂) :
      Comes env id kernelRoute force jump (request :: requests) s later s₂

/-- A request panics in its route only. -/
theorem routeRequest_panics_iff : Stops (routeRequest env id kernelRoute jump request) s .panic ↔
    ∃ s₁, Returns ((request.call id kernelRoute jump).prepare env) s () s₁ ∧
      id < s₁.kinfos.length ∧
      Stops (routeFunctionInternal env (request.call id kernelRoute jump).args) s₁ .panic := by
  rw [routeRequest_eq, (avoids_prepare _).stops_bind]
  constructor
  · rintro ⟨_, s₁, hprepare, h⟩
    rw [avoids_get.stops_bind] at h
    obtain ⟨_, _, hs, h⟩ := h
    obtain ⟨rfl, rfl⟩ := returns_get.mp hs
    by_cases hid : s₁.kinfos.length ≤ id
    · rw [if_pos hid, stops_bind] at h
      obtain h | ⟨_, _, h, -⟩ := h
      · exact absurd (stops_throw.mp h) (by decide)
      · exact absurd h not_returns_throw
    · rw [if_neg hid] at h
      dsimp only at h
      rw [stops_bind] at h
      obtain h | ⟨_, _, -, h⟩ := h
      · exact ⟨s₁, hprepare, not_le.mp hid, h⟩
      · exact absurd h (avoids_pure _ _)
  · rintro ⟨s₁, hprepare, hid, h⟩
    refine ⟨(), s₁, hprepare, ?_⟩
    rw [avoids_get.stops_bind]
    refine ⟨s₁, s₁, returns_get.mpr ⟨rfl, rfl⟩, ?_⟩
    rw [if_neg (not_le.mpr hid)]
    dsimp only
    rw [stops_bind]
    exact .inl h

/-- The loop panics exactly where the route of a request does that it comes to. -/
theorem routeRequests_panics_iff :
    Stops (routeRequests env id kernelRoute force jump requests errors) s .panic ↔
      ∃ later s₁, Comes env id kernelRoute force jump requests s later s₁ ∧
        Stops (routeFunctionInternal env (later.call id kernelRoute jump).args) s₁ .panic := by
  -- Induction on the requests, along the loop: a request panics itself, or a later one does.
  induction requests generalizing s errors with
  | nil =>
    refine iff_of_false (avoids_pure _ _) ?_
    rintro ⟨_, _, hcomes, -⟩
    cases hcomes
  | cons request requests ih =>
    rw [routeRequests]
    by_cases hentry : request.entry = 0
    · rw [if_pos hentry, ih]
      constructor
      · rintro ⟨later, s₁, hcomes, h⟩
        exact ⟨later, s₁, .skipped hentry hcomes, h⟩
      · rintro ⟨later, s₁, hcomes, h⟩
        cases hcomes with
        | here hne => exact absurd hentry hne
        | skipped _ hcomes => exact ⟨later, s₁, hcomes, h⟩
        | routed hne => exact absurd hentry hne
        | forced hne => exact absurd hentry hne
    · rw [if_neg hentry, stops_bind, routeRequest_panics_iff]
      constructor
      · rintro (⟨s₁, hprepare, hid, h⟩ | ⟨done, s₁, hroute, h⟩)
        · exact ⟨request, s₁, .here hentry hprepare hid, h⟩
        · cases done with
          | true =>
            rw [if_pos rfl, ih] at h
            obtain ⟨later, s₂, hcomes, h⟩ := h
            exact ⟨later, s₂, .routed hentry hroute hcomes, h⟩
          | false =>
            rw [if_neg (by simp), clearError, setError, (avoids_modify _).stops_bind] at h
            obtain ⟨_, _, hcode, h⟩ := h
            obtain rfl := returns_modify.mp hcode
            -- without force an error is the end of the loop
            split_ifs at h with hforce
            · rw [ih] at h
              obtain ⟨later, s₂, hcomes, h⟩ := h
              exact ⟨later, s₂, .forced hentry hroute hforce hcomes, h⟩
            · exact absurd h (avoids_pure _ _)
      · rintro ⟨later, s₂, hcomes, h⟩
        cases hcomes with
        | here _ hprepare hid => exact .inl ⟨_, hprepare, hid, h⟩
        | skipped hzero => exact absurd hzero hentry
        | @routed _ _ _ _ s₁ _ _ hroute hcomes =>
          refine .inr ⟨true, s₁, hroute, ?_⟩
          rw [if_pos rfl, ih]
          exact ⟨later, s₂, hcomes, h⟩
        | @forced _ _ _ _ s₁ _ _ hroute hforce hcomes =>
          refine .inr ⟨false, s₁, hroute, ?_⟩
          rw [if_neg (by simp), clearError, setError, (avoids_modify _).stops_bind]
          refine ⟨(), _, returns_modify.mpr rfl, ?_⟩
          rw [if_pos hforce, ih]
          exact ⟨later, s₂, hcomes, h⟩

/-! ## Arrays of requests -/

/-- The image can hand out `n` slots. -/
def MachInfo.Holds : ℕ → MachInfo → Prop
  | 0, _ => True
  | n + 1, i => i.HasSlot ∧ Holds n i.advance

theorem MachInfo.Holds.of_succ {i : MachInfo} (h : i.Holds (n + 1)) : i.Holds n := by
  induction n generalizing i with
  | zero => trivial
  | succ n ih => exact ⟨h.1, ih h.2⟩

/-- The array for trampolines is clean, the image has a slot for every request, and the functions
are apart from both. -/
structure Ready (env : Env) (id : ℕ) (requests : List RouteRequest) (s : State) : Prop where
  clear : Clear env s
  room : s.tempExecutableMemoryOff + pageSize * requests.length ≤ 2 ^ 64
  slots : ∃ i, s.kinfos[id]? = some i ∧ i.Holds requests.length
  layout : ∀ request ∈ requests, request.entry ≠ 0 → Layout env request.entry 20 s

theorem Ready.tail (h : Ready env id (request :: requests) s) : Ready env id requests s := by
  obtain ⟨hclear, hroom, ⟨i, hid, hslots⟩, hlayout⟩ := h
  rw [List.length_cons, Nat.mul_succ] at hroom
  exact ⟨hclear, by omega, ⟨i, hid, hslots.of_succ⟩,
    fun request hrequest => hlayout request (List.mem_cons_of_mem _ hrequest)⟩

theorem Ready.code (h : Ready env id requests s) (code : Kext.Error) :
    Ready env id requests { s with code } where
  clear := h.clear
  room := h.room
  slots := h.slots
  layout request hrequest hentry :=
    (h.layout request hrequest hentry).keeps (keeps_of_kinfos rfl)

/-- The eraser stays in the function. -/
theorem Ready.prepare (h : Ready env id (request :: requests) s) (hentry : request.entry ≠ 0)
    (hprepare : Returns ((request.call id kernelRoute jump).prepare env) s () s₁) :
    Ready env id (request :: requests) s₁ := by
  rw [Call.prepare] at hprepare
  split_ifs at hprepare with herases
  · have hmem := fun x => eraseCoverageInstPrefix_mem (by decide) hprepare x
    obtain ⟨mem, _, _, rfl⟩ := eraseFrom_rest hprepare
    refine ⟨h.clear.congr (fun x hx => ?_) rfl, h.room, h.slots, fun later hlater hne => ?_⟩
    · obtain hsame | ⟨hfunction, -⟩ := hmem x
      · exact hsame
      · have happart := (h.layout request (List.mem_cons_self ..) hentry).apart
        exact absurd hx (Set.disjoint_left.mp happart hfunction)
    · exact (h.layout later hlater hne).keeps (keeps_of_kinfos rfl)
  · obtain ⟨-, rfl⟩ := returns_pure.mp hprepare
    exact h

/-- A route leaves the array clean, and a slot for every later request. -/
theorem Ready.afterRoute (h : Ready env id (request :: requests) s) (hentry : request.entry ≠ 0)
    (hroute : Returns (routeFunctionInternal env (request.call id kernelRoute jump).args) s route s') :
    Ready env id requests s' := by
  obtain ⟨hclear, hroom, ⟨i, hid, hslots⟩, hlayout⟩ := h
  rw [List.length_cons, Nat.mul_succ] at hroom
  have hl := hlayout request (List.mem_cons_self ..) hentry
  obtain ⟨hclear', hoff, hkinfos⟩ :=
    route_leaves (r := (request.call id kernelRoute jump).args) hl hclear (by omega) hroute
  refine ⟨hclear', by omega, ?_, fun later hlater hne => ?_⟩
  -- at most one slot is gone
  · obtain hsame | ⟨id', i', hinfo, hid', hset⟩ := hkinfos
    · exact ⟨i, hsame ▸ hid, hslots.of_succ⟩
    · obtain rfl := Option.some.inj hinfo
      obtain rfl := Option.some.inj (hid.symm.trans hid')
      refine ⟨i.advance, ?_, hslots.2⟩
      rw [hset, List.getElem?_set_self (List.getElem?_eq_some_iff.mp hid).1]
  · exact (hlayout later (List.mem_cons_of_mem _ hlater) hne).keeps (route_keeps hroute)

theorem Ready.afterRequest {done : Bool} (h : Ready env id (request :: requests) s)
    (hentry : request.entry ≠ 0)
    (hreturns : Returns (routeRequest env id kernelRoute jump request) s done s') :
    Ready env id requests s' := by
  rw [routeRequest_eq] at hreturns
  simp only [returns_bind, returns_get] at hreturns
  obtain ⟨_, s₁, hprepare, _, _, ⟨rfl, rfl⟩, hreturns⟩ := hreturns
  by_cases hid : s₁.kinfos.length ≤ id
  · rw [if_pos hid] at hreturns
    simp only [returns_bind, not_returns_throw, false_and, exists_false] at hreturns
  · rw [if_neg hid] at hreturns
    simp only [returns_bind, returns_pure] at hreturns
    obtain ⟨route, s₂, hroute, -, rfl⟩ := hreturns
    exact (h.prepare hentry hprepare).afterRoute hentry hroute

/-- Whatever the loop comes to finds a slot and a clean array. -/
theorem Comes.ready (h : Comes env id kernelRoute force jump requests s later s₁)
    (hready : Ready env id requests s) :
    HasSlots (later.call id kernelRoute jump).args s₁ ∧ Clear env s₁ ∧
      s₁.tempExecutableMemoryOff + pageSize ≤ 2 ^ 64 := by
  -- Induction on how the loop comes to the request; each step keeps what is needed.
  induction h with
  | here hentry hprepare hid =>
    obtain ⟨hclear, hroom, ⟨i, hinfo, hslots⟩, -⟩ := hready.prepare hentry hprepare
    rw [List.length_cons, Nat.mul_succ] at hroom
    exact ⟨⟨id, i, rfl, hinfo, hslots.1⟩, hclear, by omega⟩
  | skipped _ _ ih => exact ih hready.tail
  | routed hentry hroute _ ih => exact ih (hready.afterRequest hentry hroute)
  | forced hentry hroute _ _ ih => exact ih ((hready.afterRequest hentry hroute).code _)

/-- **Requests**: once the symbols are resolved, an array of requests of any type does not panic if
and only if the functions that the loop comes to do not start with a jump that cannot be redirected,
be it one of the patcher or their own. -/
theorem routeMultiple_spared_iff {start size : Addr} {resolved : List RouteRequest}
    (hresolve : Returns (resolveRequests env id start size force requests) s
      (some (resolved, errors)) s₀) (hready : Ready env id resolved s₀) :
    ¬ Stops (routeMultipleInternal env id requests start size kernelRoute force jump) s .panic ↔
      ∀ request s₁, Comes env id kernelRoute force jump resolved s₀ request s₁ →
        Accepts s₁.mem (request.call id kernelRoute jump).args := by
  -- the symbols are resolved, so that only the loop is left to panic
  have hloop : Stops (routeMultipleInternal env id requests start size kernelRoute force jump) s
      .panic ↔ Stops (routeRequests env id kernelRoute force jump resolved errors) s₀ .panic := by
    rw [routeMultipleInternal, stops_bind]
    constructor
    · rintro (h | ⟨_, _, hresolve', h⟩)
      · exact absurd h hresolve.not_stops
      · obtain ⟨rfl, rfl⟩ := hresolve'.unique hresolve
        rw [stops_bind] at h
        obtain h | ⟨_, _, -, h⟩ := h
        · exact h
        · exact absurd h (avoids_pure _ _)
    · intro h
      exact .inr ⟨_, _, hresolve, stops_bind.mpr (.inl h)⟩
  rw [hloop, routeRequests_panics_iff]
  constructor
  · intro hno request s₁ hcomes
    obtain ⟨hslots, hclear, hroom⟩ := hcomes.ready hready
    by_contra hrejects
    exact hno ⟨request, s₁, hcomes,
      (routeFunctionInternal_panics_iff hslots hclear hroom).mpr hrejects⟩
  · rintro hall ⟨request, s₁, hcomes, h⟩
    obtain ⟨hslots, hclear, hroom⟩ := hcomes.ready hready
    exact (routeFunctionInternal_panics_iff hslots hclear hroom).mp h (hall request s₁ hcomes)

/-! ## A function that starts with a jump -/

/-- A request for the function at `0x1000`. -/
def sampleRequest : RouteRequest where
  symbol := some []
  dest := 0x1800

/-- `nop`s, zeros in the array for trampolines, and an image with a page of address slots. -/
def clean : State :=
  { nopsAndZeros with kinfos := nops.kinfos }

/-- The function at `0x1000` starts with a jump of its own, to `0x1015`. -/
def tailCall : State :=
  { clean with mem := store clean.mem 0x1000 [0xE9, 0x10, 0, 0, 0] }

theorem ready_of_clean (hkinfos : s.kinfos = nops.kinfos) (hoff : s.tempExecutableMemoryOff = 0)
    (hmem : Set.EqOn s.mem clean.mem (trampolineArea sampleEnv)) :
    Ready sampleEnv 0 [{ sampleRequest with entry := 0x1000 }] s where
  clear := by
    have hclean : Clear sampleEnv clean :=
      fun k _ hk => zero_nopsAndZeros (add_mem_block hk)
    exact hclean.congr hmem hoff
  room := by
    rw [hoff]
    decide
  slots := ⟨⟨0x2000, 0x3000⟩, by rw [hkinfos]; rfl, by decide, trivial⟩
  layout request hrequest _ := by
    obtain rfl := List.mem_singleton.mp hrequest
    exact layout_nops.keeps (keeps_of_kinfos hkinfos)

theorem routeMultiple_spared_clean : ∃ resolved errors s₀,
    Returns (resolveRequests sampleEnv 0 0 0 false [sampleRequest]) clean
        (some (resolved, errors)) s₀ ∧
      (¬ Stops (routeMultipleInternal sampleEnv 0 [sampleRequest] 0 0 true false .Auto) clean .panic ↔
        ∀ request s₁, Comes sampleEnv 0 true false .Auto resolved s₀ request s₁ →
          Accepts s₁.mem (request.call 0 true .Auto).args) :=
  ⟨_, _, _, rfl, routeMultiple_spared_iff rfl (ready_of_clean rfl rfl fun _ _ => rfl)⟩

/-- A function that nobody has routed: its own jump is taken for that of an earlier plugin. -/
theorem not_spared_tailCall :
    ¬ ∀ (env : Env) (id : ℕ) (request : RouteRequest) (jump : JumpType) (s : State),
      s.kpatches = [] → s.originals = [] →
      (∀ resolved errors s₀, Returns (resolveRequests env id 0 0 false [request]) s
        (some (resolved, errors)) s₀ → Ready env id resolved s₀) →
      ¬ Stops (routeMultipleInternal env id [request] 0 0 true false jump) s .panic := by
  intro h
  refine h sampleEnv 0 sampleRequest .Auto tailCall rfl rfl ?_ rfl
  intro resolved errors s₀ hresolve
  have hreturns : Returns (resolveRequests sampleEnv 0 0 0 false [sampleRequest]) tailCall
      (some ([{ sampleRequest with entry := 0x1000 }], false)) tailCall := rfl
  obtain ⟨hsame, rfl⟩ := hresolve.unique hreturns
  obtain ⟨rfl, -⟩ := Prod.mk.inj (Option.some.inj hsame)
  refine ready_of_clean rfl rfl fun x hx => ?_
  have happart := layout_nops.apart
  apply store_of_notMem
  exact fun hfunction => Set.disjoint_left.mp happart (block_mono (by decide) hfunction) hx

end Lilu.Patcher
