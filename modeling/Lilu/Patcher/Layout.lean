import Mathlib.Tactic
import Lilu.Patcher.Erase

/-!
# Runs of routes

Plugins route functions one after the other. What such a run does to a function depends on where
things are: the code of the function, the slots that images may still hand out, and the array of
the trampolines do not overlap.

## Main definitions

* `MachInfo.Free`: the slots that an image may still hand out
* `Layout`: a function, the slots and the trampolines are apart
* `Placed`: a jump stands at a function, with its slot apart from everything else
* `Call`, `Step`, `Run`: calls of the patcher, one after the other

## Main results

* `Layout.keeps`: the layout stays when slots are handed out
* `routed_placed`: a route that does not fail leaves a jump in its place
* `Run.keeps`: no image has more slots after a run than before
-/

namespace Lilu.Patcher

variable {env : Env} {s s₁ s' : State} {r : RouteArgs} {f dest trampoline : Addr} {n : ℕ}
  {route : Route} {j jump : Jump} {m m' : Mem}

/-! ## Slots -/

/-- An address slot that an image may still hand out. -/
inductive MachInfo.Free : MachInfo → Addr → Prop where
  | next {i : MachInfo} (h : i.HasSlot) : i.Free i.address_slots
  | later {i : MachInfo} {a : Addr} (h : i.HasSlot) (ha : i.advance.Free a) : i.Free a

/-- A state in which no image has slots that it did not have before. -/
def Keeps (s s' : State) : Prop :=
  ∀ i' ∈ s'.kinfos, ∃ i ∈ s.kinfos, ∀ a, i'.Free a → i.Free a

/-- The slots of an image are between those that it starts and ends with. -/
theorem MachInfo.Free.bounds {i : MachInfo} {a : Addr} (h : i.Free a)
    (hle : i.address_slots ≤ i.address_slots_end)
    (hend : i.address_slots_end.toNat + 8 < 2 ^ 64) :
    i.address_slots ≤ a ∧ a.toNat + 8 ≤ i.address_slots_end.toNat := by
  have hadd : ∀ {b e : Addr}, b ≤ e → e.toNat + 8 < 2 ^ 64 → (b + 8).toNat = b.toNat + 8 := by
    intro b e hbe he
    have hnat := BitVec.le_def.mp hbe
    rw [BitVec.toNat_add]
    exact Nat.mod_eq_of_lt (by simpa using (Nat.add_le_add_right hnat 8).trans_lt he)
  induction h with
  | next hslot =>
    have hnext := BitVec.le_def.mp hslot.2
    rw [hadd hle hend] at hnext
    exact ⟨BitVec.le_refl _, hnext⟩
  | later hslot _ ih =>
    obtain ⟨hlow, hhigh⟩ := ih hslot.2 hend
    refine ⟨BitVec.le_def.mpr ?_, hhigh⟩
    have hnext := BitVec.le_def.mp hlow
    rw [MachInfo.advance, hadd hle hend] at hnext
    exact (Nat.le_add_right _ 8).trans hnext

theorem Keeps.refl (s : State) : Keeps s s :=
  fun i hi => ⟨i, hi, fun _ ha => ha⟩

theorem keeps_of_kinfos (h : s'.kinfos = s.kinfos) : Keeps s s' :=
  fun i hi => ⟨i, h ▸ hi, fun _ ha => ha⟩

theorem Keeps.trans (h : Keeps s s₁) (h' : Keeps s₁ s') : Keeps s s' := by
  intro i'' hi''
  obtain ⟨i', hi', hfree'⟩ := h' i'' hi''
  obtain ⟨i, hi, hfree⟩ := h i' hi'
  exact ⟨i, hi, fun a ha => hfree a (hfree' a ha)⟩

/-- Handing out a slot leaves the later ones. -/
theorem TakesSlot.keeps {info : Option ℕ} {slot : Addr} (h : TakesSlot info s slot s') :
    Keeps s s' := by
  cases h with
  | taken hinfo hid hslot =>
    intro i' hi'
    -- Only the image that hands the slot out is different, and what is free in it was free.
    obtain hold | rfl := List.mem_or_eq_of_mem_set hi'
    · exact ⟨i', hold, fun _ ha => ha⟩
    · exact ⟨_, List.mem_of_getElem? hid, fun _ ha => .later hslot ha⟩
  | none => exact keeps_of_kinfos rfl

theorem Finds.keeps {o : Option Original} (h : Finds (createTrampoline env []) r s o s') :
    Keeps s s' := by
  cases h with
  | redirect _ _ _ _ hslot => exact (keeps_of_kinfos rfl).trans hslot.keeps
  | plain => exact keeps_of_kinfos rfl
  | wrap _ _ _ hslot hmade =>
    refine hslot.keeps.trans ?_
    obtain ⟨-, -, hbuilt⟩ | ⟨-, -, hunbuilt⟩ := createTrampoline_cases hmade
    · exact keeps_of_kinfos hbuilt.kinfos_eq
    · exact keeps_of_kinfos hunbuilt.kinfos_eq
  | refuse _ _ _ hslot hmade =>
    refine hslot.keeps.trans ?_
    obtain ⟨-, -, hbuilt⟩ | ⟨-, -, hunbuilt⟩ := createTrampoline_cases hmade
    · exact keeps_of_kinfos hbuilt.kinfos_eq
    · exact keeps_of_kinfos hunbuilt.kinfos_eq

/-- What holds of the slots after a route held before. -/
theorem route_keeps (h : Returns (routeFunctionInternal env r) s route s') : Keeps s s' := by
  have horg : ∀ {s : State} {t : Addr}, (s.withOrg r.org t).kinfos = s.kinfos := by
    intro s t
    cases r.org <;> rfl
  cases routeWith_cases h with
  | outOfRange _ _ hrefused => exact keeps_of_kinfos hrefused.kinfos_eq
  | noOriginal _ hfinds => exact hfinds.keeps.trans (keeps_of_kinfos rfl)
  | refused _ hfinds _ hrefused =>
    exact hfinds.keeps.trans (keeps_of_kinfos (hrefused.kinfos_eq.trans horg))
  | installed _ hfinds _ hinstalled =>
    exact hfinds.keeps.trans (keeps_of_kinfos (hinstalled.kinfos_eq.trans horg))

theorem erase_keeps {u : Unit} (h : Returns (eraseCoverageInstPrefix env f 5 longJump) s u s') :
    Keeps s s' := by
  -- The eraser writes code and knows nothing of the slots.
  obtain ⟨_, _, _, rfl⟩ := eraseFrom_rest h
  exact keeps_of_kinfos rfl

/-! ## The layout -/

/-- The first `n` bytes of a function, as many as the eraser can reach or more, are apart from the
slots and the trampolines, and the slots are within 2 GiB of it. -/
structure Layout (env : Env) (f : Addr) (n : ℕ) (s : State) : Prop where
  room : 20 ≤ n
  apart : Disjoint (block f n) (trampolineArea env)
  near : ∀ i ∈ s.kinfos, ∀ a, i.Free a → Near (a - (f + 6))
  slots : ∀ i ∈ s.kinfos, ∀ a, i.Free a → Disjoint (block a 8) (block f n)
  slots_area : ∀ i ∈ s.kinfos, ∀ a, i.Free a → Disjoint (block a 8) (trampolineArea env)

theorem Layout.keeps (h : Layout env f n s) (hk : Keeps s s') : Layout env f n s' where
  room := h.room
  apart := h.apart
  near i' hi' a ha := by
    obtain ⟨i, hi, hfree⟩ := hk i' hi'
    exact h.near i hi a (hfree a ha)
  slots i' hi' a ha := by
    obtain ⟨i, hi, hfree⟩ := hk i' hi'
    exact h.slots i hi a (hfree a ha)
  slots_area i' hi' a ha := by
    obtain ⟨i, hi, hfree⟩ := hk i' hi'
    exact h.slots_area i hi a (hfree a ha)

theorem Layout.slotsFit (h : Layout env r.entry n s) : SlotsFit s r := by
  intro id i _ hid hslot
  have hi := List.mem_of_getElem? hid
  refine ⟨h.near i hi _ (.next hslot), ?_⟩
  exact (h.slots i hi _ (.next hslot)).mono_right
    (block_mono ((by decide : 8 ≤ 20).trans h.room))

/-- The slots of the example image are far enough from a function at `0x1000`. -/
theorem layout_nops : Layout sampleEnv 0x1000 20 nops where
  room := le_rfl
  apart := by
    refine Set.disjoint_left.mpr fun x hx hx' => ?_
    rw [mem_block] at hx
    rw [trampolineArea, mem_block] at hx'
    simp only [sampleEnv, pageSize, tempExecutableMemorySize] at hx'
    bv_omega
  near i hi a ha := by
    obtain rfl := List.mem_singleton.mp hi
    obtain ⟨hlow, hhigh⟩ := ha.bounds (by decide) (by decide)
    rw [near_iff, BitVec.toInt_eq_toNat_of_lt (by bv_omega)]
    bv_omega
  slots i hi a ha := by
    obtain rfl := List.mem_singleton.mp hi
    obtain ⟨hlow, hhigh⟩ := ha.bounds (by decide) (by decide)
    refine Set.disjoint_left.mpr fun x hx hx' => ?_
    rw [mem_block] at hx hx'
    bv_omega
  slots_area i hi a ha := by
    obtain rfl := List.mem_singleton.mp hi
    obtain ⟨hlow, hhigh⟩ := ha.bounds (by decide) (by decide)
    refine Set.disjoint_left.mpr fun x hx hx' => ?_
    rw [mem_block] at hx
    rw [trampolineArea, mem_block] at hx'
    simp only [sampleEnv, pageSize, tempExecutableMemorySize] at hx'
    bv_omega

/-! ## Jumps in a layout -/

/-- A slot that a jump uses was free. -/
theorem Finds.free {create : Addr → ℕ → PatcherM Addr} {original : Original} {a : Addr}
    (h : Finds create r s (some original) s')
    (hj : Jump.select r.absolute original.addressSlot = .medium a) :
    ∃ i ∈ s.kinfos, i.Free a := by
  rw [Jump.select] at hj
  split_ifs at hj with hslot
  obtain rfl := Jump.medium.inj hj
  obtain hzero | ⟨id, i, -, hid, hfree, heq⟩ := h.slot
  · exact absurd hzero hslot
  · exact ⟨i, List.mem_of_getElem? hid, heq ▸ .next hfree⟩

/-- A jump stands at the function, and its slot is apart from the function and the trampolines. -/
structure Placed (env : Env) (f : Addr) (n : ℕ) (j : Jump) (dest : Addr) (m : Mem) : Prop where
  stands : j.Stands f dest m
  reaches : j.Reaches f dest
  slot : ∀ a, j = .medium a →
    Disjoint (block a 8) (block f n) ∧ Disjoint (block a 8) (trampolineArea env)

theorem Placed.reads (h : Placed env f n j dest m) : readChain m f = (dest, some j.type) :=
  h.stands.reads h.reaches

theorem Placed.congr (h : Placed env f n j dest m) (heq : Set.EqOn m' m (j.cells f)) :
    Placed env f n j dest m' :=
  { h with stands := h.stands.congr heq }

/-- A jump is apart from the trampolines. -/
theorem Placed.cells_subset (hl : Layout env f n s) (h : Placed env f n j dest m) :
    j.cells f ⊆ (trampolineArea env)ᶜ := by
  -- No jump is longer than the 14 bytes of the long one.
  have hentry : ∀ {k : ℕ}, k ≤ 14 → block f k ⊆ (trampolineArea env)ᶜ := by
    intro k hk x hx
    exact Set.disjoint_left.mp hl.apart (block_mono ((hk.trans (by decide)).trans hl.room) hx)
  cases j with
  | medium a =>
    rintro x (hx | hx)
    · exact hentry (by decide) hx
    · exact Set.disjoint_left.mp (h.slot a rfl).2 hx
  | short => exact hentry (by decide)
  | long => exact hentry (by decide)

/-- In the function a jump occupies the first bytes only. -/
theorem Placed.cells_inter (h : Placed env f n j dest m) {x : Addr} (hx : x ∈ j.cells f)
    (hf : x ∈ block f n) : x ∈ block f j.size := by
  cases j with
  | medium a => exact hx.resolve_right fun hslot => Set.disjoint_left.mp (h.slot a rfl).1 hslot hf
  | short => exact hx
  | long => exact hx

/-- A jump that is written in a layout is apart from everything else. -/
theorem placed_write {original : Original} (hl : Layout env r.entry n s)
    (hfinds : Finds (createTrampoline env []) r s (some original) s₁)
    (hjump : jump = .select r.absolute original.addressSlot)
    (hreaches : jump.Reaches r.entry r.dest) :
    Placed env r.entry n jump r.dest (jump.write r.entry r.dest m) where
  stands := Jump.stands_write hreaches
  reaches := hreaches
  slot a ha := by
    obtain ⟨i, hi, hfree⟩ := hfinds.free (hjump ▸ ha)
    exact ⟨hl.slots i hi a hfree, hl.slots_area i hi a hfree⟩

/-- **Routes in a layout**: a route that does not fail leaves its jump, and nothing else has changed
but the trampolines. -/
theorem routed_placed (hl : Layout env r.entry n s)
    (h : Returns (routeFunctionInternal env r) s (.routed trampoline jump) s') :
    Placed env r.entry n jump r.dest s'.mem ∧
      ∀ x, x ∉ jump.cells r.entry → x ∉ trampolineArea env → s'.mem x = s.mem x := by
  obtain ⟨original, s₁, hfinds, hjump, hreaches, hmem⟩ := routed_write hl.slotsFit h
  rw [hmem]
  refine ⟨placed_write hl hfinds hjump hreaches, fun x hx harea => ?_⟩
  rw [Jump.write_eqOn _ hx]
  exact hfinds.eqOn_area harea

/-! ## Runs -/

/-- A call that routes a function. The requests of a plugin come with the eraser. -/
structure Call where
  args : RouteArgs
  erases : Bool

/-- What comes before the route of a call. -/
def Call.prepare (env : Env) (c : Call) : PatcherM Unit :=
  if c.erases then eraseCoverageInstPrefix env c.args.entry 5 longJump else pure ()

/-- A call with the states around its route, and how it ended. -/
structure Step where
  call : Call
  before : State
  route : Route
  after : State

/-- Calls that have returned, one after the other. The error code may be set between them. -/
inductive Run (env : Env) (s₀ : State) : List Step → State → Prop where
  | nil : Run env s₀ [] s₀
  | code {steps : List Step} {s : State} (hrun : Run env s₀ steps s) (e : Kext.Error) :
      Run env s₀ steps { s with code := e }
  | call {steps : List Step} {s s₁ s₂ : State} (hrun : Run env s₀ steps s) (c : Call)
      (route : Route) (hprepare : Returns (c.prepare env) s () s₁)
      (hroute : Returns (routeFunctionInternal env c.args) s₁ route s₂) :
      Run env s₀ (steps ++ [⟨c, s₁, route, s₂⟩]) s₂

theorem prepare_keeps {c : Call} {u : Unit} (h : Returns (c.prepare env) s u s') : Keeps s s' := by
  rw [Call.prepare] at h
  split_ifs at h with herases
  · exact erase_keeps h
  · obtain ⟨-, rfl⟩ := returns_pure.mp h
    exact Keeps.refl s

theorem Run.keeps {s₀ : State} {steps : List Step} (h : Run env s₀ steps s) : Keeps s₀ s := by
  induction h with
  | nil => exact Keeps.refl s₀
  | code _ e ih => exact ih.trans (keeps_of_kinfos rfl)
  | call _ c route hprepare hroute ih =>
    exact ih.trans ((prepare_keeps hprepare).trans (route_keeps hroute))

end Lilu.Patcher
