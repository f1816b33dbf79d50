import Lilu.Umm.Allocation

/-!
# The objects of a client

For its client an allocator is a store of objects: each has an address and a number of bytes, some of
which the client has written. A client may write to its objects, and it may give an object back or
ask for another size of it; it asks for no size that takes more blocks than sixteen bits can count.
Whatever such a client does, and in whatever order, its objects keep what it has written to them.

## Main definitions

* `Objects`: the objects, with what is known of their bytes
* `Call`, `Allowed`, `Objects.after`: what a client does, when it may, and what it has then
* `Reached s O`: the runs of the allocator with any such client
* `Stored s O`: the objects are in the heap, apart from each other, and have the known bytes

## Main results

* `umm_store`: in every run the objects are stored, and no call fails
* `umm_null_iff`: memory is refused if and only if there is no room for it
* `umm_best_fit`: memory comes from the smallest gap that is large enough
-/

namespace Lilu.Umm

open Effect (Ends ends_bind ask change need)

/-! ## The client -/

/-- The objects by their addresses; a byte is none as long as it was not written. -/
abbrev Objects := ℕ → Option (List (Option UInt8))

/-- As many bytes as there are to be, the first of them as they were. -/
def resize (size : ℕ) (bytes : List (Option UInt8)) : List (Option UInt8) :=
  (List.range size).map fun i => bytes.getD i none

inductive Call where
  | malloc (size : ℕ)
  | calloc (num item_size : ℕ)
  | realloc (ptr : Option ℕ) (size : ℕ)
  | free (ptr : Option ℕ)
  | write (ptr i : ℕ) (v : UInt8)
  deriving DecidableEq, Repr

def State.poke (a : ℕ) (v : UInt8) (s : State) : State :=
  { s with heap := Function.update s.heap a v }

def Call.run : Call → UmmM (Option ℕ)
  | .malloc size => umm_malloc size
  | .calloc num item_size => umm_calloc num item_size
  | .realloc ptr size => umm_realloc ptr size
  | .free ptr => do
    umm_free ptr
    pure none
  | .write ptr i v => do
    need (ptr + i < UMM_MALLOC_CFG_HEAP_SIZE)
    change (.poke (ptr + i) v)
    pure none

/-- More bytes take more blocks than an `unsigned short` has values. -/
def maxSize : ℕ := 524276

/-- A client passes its own objects, and writes to their bytes. -/
def Allowed (O : Objects) : Call → Prop
  | .malloc size => size ≤ maxSize
  | .calloc num item_size => item_size * num ≤ maxSize
  | .realloc none size => size ≤ maxSize
  | .realloc (some p) size => (O p).isSome ∧ size ≤ maxSize
  | .free none => True
  | .free (some p) => (O p).isSome
  | .write p i _ => ∃ bytes, O p = some bytes ∧ i < bytes.length

/-- The objects after a call and its result. -/
def Objects.after (O : Objects) : Call → Option ℕ → Objects
  | .malloc size, some p => Function.update O p (some (resize size []))
  | .calloc num item_size, some p =>
    Function.update O p (some (List.replicate (item_size * num) (some 0)))
  | .realloc none size, some p => Function.update O p (some (resize size []))
  | .realloc (some q) size, some p =>
    Function.update (Function.update O q none) p (some (resize size ((O q).getD [])))
  | .realloc (some q) 0, none => Function.update O q none
  | .free (some q), _ => Function.update O q none
  | .write q i v, _ => Function.update O q ((O q).map fun bytes => bytes.set i (some v))
  | _, _ => O

/-- What a client can come to, and the heap then. -/
inductive Reached : State → Objects → Prop
  | start (heap : ℕ → UInt8) : Reached { heap } fun _ => none
  | call {s s' : State} {O : Objects} {k : Call} {r : Option ℕ} (h : Reached s O)
      (hk : Allowed O k) (hrun : k.run s = some (r, s')) : Reached s' (O.after k r)

structure Stored (s : State) (O : Objects) : Prop where
  inside : ∀ p bytes, O p = some bytes → p + bytes.length ≤ UMM_MALLOC_CFG_HEAP_SIZE
  apart : ∀ p q bytes bytes', O p = some bytes → O q = some bytes' → p ≠ q →
    p + bytes.length ≤ q ∨ q + bytes'.length ≤ p
  kept : ∀ p bytes, O p = some bytes → ∀ i v, bytes[i]? = some (some v) → s.heap (p + i) = v

/-! ## Objects in chunks -/

/-- The chunks of the objects. -/
def blocksOf (O : Objects) (b : ℕ) : Option ℕ :=
  (O (UMM_DATA b)).map fun bytes => b + umm_blocks bytes.length

/-- How the allocator holds the objects. -/
structure Holds (s : State) (O : Objects) : Prop where
  begun : s.ready = true ∧ (∃ K F, Layout s (blocksOf O) K F) ∨ s.ready = false ∧ O = fun _ => none
  shape : ∀ p bytes, O p = some bytes →
    (∃ b, p = UMM_DATA b) ∧ 0 < bytes.length ∧ bytes.length ≤ maxSize
  kept : ∀ p bytes, O p = some bytes → ∀ i v, bytes[i]? = some (some v) → s.heap (p + i) = v

section

variable {s s' s'' : State} {O O' : Objects} {U U' : ℕ → Option ℕ} {K F K' F' : Set ℕ}
  {b c k m n p q size : ℕ} {bytes : List (Option UInt8)}

/-- The blocks that are taken are enough. -/
theorem umm_blocks_spec (h0 : 0 < size) (hle : size ≤ maxSize) :
    0 < umm_blocks size ∧ size + 4 ≤ 8 * umm_blocks size := by
  rw [maxSize] at hle
  rw [umm_blocks]
  split_ifs
  · omega
  · omega

theorem UMM_DATA_inj : UMM_DATA b = UMM_DATA c ↔ b = c := by
  rw [UMM_DATA, UMM_DATA]
  omega

theorem blocksOf_update {v : Option (List (Option UInt8))} :
    blocksOf (Function.update O (UMM_DATA c) v) =
      Function.update (blocksOf O) c (v.map fun bytes => c + umm_blocks bytes.length) := by
  ext1 b
  rw [blocksOf, Function.update_apply, Function.update_apply, blocksOf]
  simp only [UMM_DATA_inj]
  split_ifs with hbc
  · rw [hbc]
  · rfl

theorem blocksOf_erase (O : Objects) (c : ℕ) :
    blocksOf (Function.update O (UMM_DATA c) none) = Function.update (blocksOf O) c none := by
  rw [blocksOf_update, Option.map_none]

theorem blocksOf_some (h : O (UMM_DATA b) = some bytes) :
    blocksOf O b = some (b + umm_blocks bytes.length) := by
  rw [blocksOf, h, Option.map_some]

theorem length_resize : (resize size bytes).length = size := by
  rw [resize, List.length_map, List.length_range]

theorem getElem?_resize {i : ℕ} {v : UInt8} (h : (resize size bytes)[i]? = some (some v)) :
    i < size ∧ bytes[i]? = some (some v) := by
  rw [resize, List.getElem?_map, Option.map_eq_some_iff] at h
  obtain ⟨j, hj, hv⟩ := h
  obtain ⟨hi, rfl⟩ := List.getElem?_eq_some_iff.mp hj
  rw [List.length_range] at hi
  rw [List.getElem_range, List.getD_eq_getElem?_getD] at hv
  refine ⟨hi, ?_⟩
  cases hb : bytes[i]? with
  | none =>
    rw [hb] at hv
    exact absurd hv (by simp)
  | some w =>
    rw [hb] at hv
    rw [← hv]
    rfl

namespace Holds

/-- An object is in a chunk of its own. -/
theorem chunk (h : Holds s O) (hp : O p = some bytes) : s.ready = true ∧ ∃ K F b,
    Layout s (blocksOf O) K F ∧ p = UMM_DATA b ∧
      blocksOf O b = some (b + umm_blocks bytes.length) ∧
      p + bytes.length ≤ 8 * (b + umm_blocks bytes.length) := by
  obtain ⟨⟨b, rfl⟩, h0, hle⟩ := h.shape p bytes hp
  rcases h.begun with ⟨hr, K, F, hlayout⟩ | ⟨-, rfl⟩
  · refine ⟨hr, K, F, b, hlayout, rfl, blocksOf_some hp, ?_⟩
    have := (umm_blocks_spec h0 hle).2
    rw [UMM_DATA]
    omega
  · exact absurd hp (by simp)

theorem stored (h : Holds s O) : Stored s O := by
  refine ⟨fun p bytes hp => ?_, fun p q bytes bytes' hp hq hpq => ?_, h.kept⟩
  · obtain ⟨-, K, F, b, hlayout, rfl, hb, hfits⟩ := h.chunk hp
    have := (hlayout.bounds hb).2.2
    rw [UMM_MALLOC_CFG_HEAP_SIZE]
    omega
  · obtain ⟨-, K, F, b, hlayout, rfl, hb, hfits⟩ := h.chunk hp
    obtain ⟨-, -, -, c, -, rfl, hc, hfits'⟩ := h.chunk hq
    have hbc : c ≠ b := fun heq => hpq (by rw [heq])
    have hb8 : UMM_DATA b = 8 * b + 4 := rfl
    have hc8 : UMM_DATA c = 8 * c + 4 := rfl
    have := hlayout.disjoint hb hc hbc
    omega

/-- The objects after a step that keeps what is in their chunks. -/
theorem of_same (h : Holds s O) (hr : s'.ready = true) (hl : Layout s' (blocksOf O') K' F')
    (hs : Same (blocksOf O) (blocksOf O') s s')
    (hnew : ∀ p bytes, O' p = some bytes → O p = some bytes ∨
      (∃ b, p = UMM_DATA b) ∧ 0 < bytes.length ∧ bytes.length ≤ maxSize ∧
        ∀ i v, bytes[i]? = some (some v) → s'.heap (p + i) = v) : Holds s' O' := by
  refine ⟨.inl ⟨hr, K', F', hl⟩, fun p bytes hp => ?_, fun p bytes hp i v hv => ?_⟩
  · rcases hnew p bytes hp with hold | ⟨hb, h0, hle, -⟩
    · exact h.shape p bytes hold
    · exact ⟨hb, h0, hle⟩
  · rcases hnew p bytes hp with hold | ⟨-, -, -, hkept⟩
    · obtain ⟨-, -, -, b, -, rfl, hb, hfits⟩ := h.chunk hold
      have hi := (List.getElem?_eq_some_iff.mp hv).1
      have hb8 : UMM_DATA b = 8 * b + 4 := rfl
      rw [hs.heap b _ _ hb (blocksOf_some hp) _ (by omega) (by omega) (by omega)]
      exact h.kept _ bytes hold i v hv
    · exact hkept i v hv

end Holds

/-! ## The start -/

theorem ends_umm_init : Ends umm_init s fun _ s' => s'.ready = true ∧
    Layout s' (fun _ => none) {0, 1, 8191} {1} := by
  have hor : (8192 - 1) ||| UMM_FREELIST_MASK = 0x9FFF := rfl
  simp only [umm_init, ends_bind, Effect.ends_change, ends_setNBLOCK, ends_setNFREE, ends_setPFREE,
    ends_setPBLOCK, umm_numblocks, hor]
  refine ⟨by omega, by omega, by omega, by omega, by omega, by omega, by omega, by omega, by omega,
    rfl, ?_⟩
  generalize hs₀ : ({ heap := fun _ => 0, ready := true } : State) = s₀
  have hzero : s₀.nblock = fun _ => 0 := by
    rw [← hs₀]
    rfl
  generalize hs₁ : ((((((((s₀.setNblock 0 1).setNfree 0 1).setPfree 0 1).setNblock 1
    0x9FFF).setNfree 1 0).setPblock 1 0).setPfree 1 0).setNblock (8192 - 1) 0).setPblock (8192 - 1)
    1 = s₁
  have hnb : s₁.nblock = Function.update (Function.update (Function.update s₀.nblock 0 1) 1
      0x9FFF) 8191 0 := by
    rw [← hs₁]
    simp [State.nblock_setNblock]
  have hpb : s₁.pblock = Function.update (Function.update s₀.pblock 1 0) 8191 1 := by
    rw [← hs₁]
    simp [State.pblock_setPblock]
  have hnf : s₁.nfree = Function.update (Function.update s₀.nfree 0 1) 1 0 := by
    rw [← hs₁]
    simp [State.nfree_setNfree]
  have hpf : s₁.pfree = Function.update (Function.update s₀.pfree 0 1) 1 0 := by
    rw [← hs₁]
    simp [State.pfree_setPfree]
  have h0 : s₁.nblock 0 = 1 := by simp [hnb]
  have h1 : s₁.nblock 1 = 0x9FFF := by simp [hnb]
  have hl : s₁.nblock 8191 = 0 := by simp [hnb]
  have hnext0 : s₁.next 0 = 1 := by rw [State.next, h0]
  have hnext1 : s₁.next 1 = 8191 := by rw [State.next, h1]
  have hring : Ring s₁.nfree s₁.pfree 0 [1] := by
    refine ⟨List.isChain_cons_cons.mpr ⟨⟨?_, ?_⟩, List.isChain_cons_cons.mpr ⟨⟨?_, ?_⟩,
      .singleton 0⟩⟩, ?_, ?_⟩
    · simp [hnf]
    · simp [hpf]
    · simp [hnf]
    · simp [hpf]
    · decide
    · decide
  refine ⟨⟨h0, hl, by simp, by simp, ?_, ?_, ?_, ⟨[1], hring, by simp⟩, by simp, ?_⟩, ?_⟩
  · rintro b (rfl | rfl | rfl)
    · omega
    · omega
    · omega
  · rintro b (rfl | rfl | rfl) hbl
    · rw [hnext0]
      refine ⟨by simp, by omega, by simp [hpb], ?_⟩
      rintro x (rfl | rfl | rfl)
      · omega
      · omega
      · omega
    · rw [hnext1]
      refine ⟨by simp, by omega, by simp [hpb], ?_⟩
      rintro x (rfl | rfl | rfl)
      · omega
      · omega
      · omega
    · exact absurd rfl hbl
  · rintro b (rfl | rfl | rfl)
    · simp [h0]
    · simp [h1]
    · simp [hl]
  · rintro b rfl
    rw [hnext1]
    simp
  · intro b n
    rw [extent_iff]
    simp only [Set.mem_insert_iff, Set.mem_singleton_iff, reduceCtorEq, false_iff]
    tauto

/-- **The heap is set up** before the first call, and not again. -/
theorem ends_initOnce (h : Holds s O) : Ends initOnce s fun _ s' => s'.ready = true ∧ Holds s' O ∧
    (s.ready = true → s' = s) := by
  simp only [initOnce, ends_bind, Effect.ends_ask, Effect.ends_onlyIf]
  refine ⟨fun hf => ?_, fun ht => ?_⟩
  · rcases h.begun with ⟨ht, -⟩ | ⟨-, rfl⟩
    · rw [ht] at hf
      exact absurd hf (by simp)
    · refine ends_umm_init.imp fun _ s' hs' =>
        ⟨hs'.1, ⟨.inl ⟨hs'.1, _, _, hs'.2⟩, ?_, ?_⟩, ?_⟩
      · exact fun p bytes hp => absurd hp (by simp)
      · exact fun p bytes hp => absurd hp (by simp)
      · rw [hf]
        exact fun habs => absurd habs (by simp)
  · rw [Bool.not_eq_false] at ht
    exact ⟨ht, h, fun _ => trivial⟩

/-- A function that begins with setting up the heap runs as it does when this was done. -/
theorem ends_begun {α : Type} {f : UmmM α} {Q : α → State → Prop} (h : Holds s O)
    (hf : ∀ s', s'.ready = true → Holds s' O → (s.ready = true → s' = s) →
      Ends (initOnce >>= fun _ => f) s' Q) : Ends (initOnce >>= fun _ => f) s Q := by
  refine (ends_initOnce h).bind fun _ s' hstep => ?_
  obtain ⟨hr, h', hs'⟩ := hstep
  obtain ⟨r, hrun, hQ⟩ := ends_bind.mp (hf s' hr h' hs')
  have honce : initOnce s' = some ((), s') := by
    simp [initOnce, Effect.onlyIf, hr, ask, bind, pure]
  rw [honce] at hrun
  cases hrun
  exact hQ

/-! ## The calls -/

/-- A gap begins here that is large enough, and none that is large enough is smaller. -/
def BestFit (U : ℕ → Option ℕ) (k c : ℕ) : Prop :=
  ∃ n, Gap U c n ∧ k ≤ n - c ∧ ∀ b m, Gap U b m → k ≤ m - b → n - c ≤ m - b

theorem BestFit.room (h : BestFit U k c) : Room U k := by
  obtain ⟨n, ⟨hc, hlt, hle, hfree, -, -⟩, hkn, -⟩ := h
  exact ⟨c, hc, by omega, fun x hx hxk => hfree x hx (by omega)⟩

/-- What the caller of `umm_malloc` gets: nothing, or a chunk that was not in use. -/
def Got (O : Objects) (size : ℕ) (r : Option ℕ) (s' : State) : Prop :=
  r = none ∧ Holds s' O ∧ (size ≠ 0 → ¬ Room (blocksOf O) (umm_blocks size)) ∨
    ∃ c s₁, r = some (UMM_DATA c) ∧ size ≠ 0 ∧ blocksOf O c = none ∧
      BestFit (blocksOf O) (umm_blocks size) c ∧ Holds s₁ O ∧ s'.ready = true ∧ ∃ K F,
        Layout s' (Function.update (blocksOf O) c (some (c + umm_blocks size))) K F ∧
        Same (blocksOf O) (Function.update (blocksOf O) c (some (c + umm_blocks size))) s₁ s'

theorem holds_layout (h : Holds s O) (hr : s.ready = true) : ∃ K F, Layout s (blocksOf O) K F := by
  rcases h.begun with ⟨-, hl⟩ | ⟨hf, -⟩
  · exact hl
  · rw [hr] at hf
    exact absurd hf (by simp)

theorem ends_malloc_got (h : Holds s O) (hle : size ≤ maxSize) :
    Ends (umm_malloc size) s fun r s' => Got O size r s' := by
  refine ends_begun h fun s₁ hr h₁ _ => ?_
  by_cases h0 : size = 0
  · simp only [h0, if_pos, initOnce, ends_bind, Effect.ends_ask, Effect.ends_onlyIf, hr,
      Effect.ends_pure]
    exact ⟨fun hf => absurd hf (by simp), fun _ => .inl ⟨rfl, h₁, fun hne => absurd rfl hne⟩⟩
  · obtain ⟨K, F, hl⟩ := holds_layout h₁ hr
    have hk := (umm_blocks_spec (Nat.pos_of_ne_zero h0) hle).1
    refine (ends_malloc hl hr h0 hk).imp fun r s' hs' => ?_
    rcases hs' with ⟨rfl, rfl, hsmall⟩ | ⟨c, hc, rfl, hfits, hbest, K', F', hl', hsame⟩
    · refine .inl ⟨rfl, h₁, fun _ hroom => ?_⟩
      obtain ⟨f, hf, hkf⟩ := (hl.room_iff hk).mp hroom
      exact absurd (hsmall f hf) (by omega)
    · refine .inr ⟨c, s₁, rfl, h0, hl.used_none (.inr hc), ⟨s₁.next c, hl.gap_iff.mpr ⟨hc, rfl⟩,
        hfits, fun b m hgap => ?_⟩, h₁, by rw [hsame.ready, hr], K', F', hl', hsame⟩
      obtain ⟨hb, rfl⟩ := hl.gap_iff.mp hgap
      exact hbest b hb

theorem blocksOf_none (h : blocksOf O c = none) : O (UMM_DATA c) = none := by
  rwa [blocksOf, Option.map_eq_none_iff] at h

/-- A new object. -/
theorem Holds.add {s₁ : State} {c : ℕ} (h : Holds s₁ O) (h0 : size ≠ 0)
    (hle : size ≤ maxSize) (hlen : bytes.length = size) (hr : s'.ready = true)
    (hl : Layout s' (Function.update (blocksOf O) c (some (c + umm_blocks size))) K F)
    (hs : Same (blocksOf O) (Function.update (blocksOf O) c (some (c + umm_blocks size))) s₁ s')
    (hkept : ∀ i v, bytes[i]? = some (some v) → s'.heap (UMM_DATA c + i) = v) :
    Holds s' (Function.update O (UMM_DATA c) (some bytes)) := by
  have hU : blocksOf (Function.update O (UMM_DATA c) (some bytes)) =
      Function.update (blocksOf O) c (some (c + umm_blocks size)) := by
    rw [blocksOf_update, Option.map_some, hlen]
  rw [← hU] at hl hs
  refine h.of_same hr hl hs fun p bytes' hp => ?_
  rw [Function.update_apply] at hp
  split_ifs at hp with hpc
  · obtain rfl := Option.some.inj hp
    rw [hpc]
    exact .inr ⟨⟨c, rfl⟩, by omega, by omega, hkept⟩
  · exact .inl hp

theorem holds_malloc (h : Holds s O) (hle : size ≤ maxSize) :
    Ends (umm_malloc size) s fun r s' => Holds s' (O.after (.malloc size) r) ∧
      (∀ p ∈ r, O p = none) ∧ (size ≠ 0 → (r = none ↔ ¬ Room (blocksOf O) (umm_blocks size))) ∧
      ∀ p ∈ r, BestFit (blocksOf O) (umm_blocks size) (p / 8) := by
  refine (ends_malloc_got h hle).imp fun r s' hgot => ?_
  rcases hgot with ⟨rfl, h', hroom⟩ | ⟨c, s₁, rfl, h0, hc, hbest, h₁, hr, K, F, hl, hs⟩
  · exact ⟨h', fun p hp => absurd hp (by simp), fun hne => iff_of_true rfl (hroom hne),
      fun p hp => absurd hp (by simp)⟩
  · have hroom := hbest.room
    refine ⟨h₁.add h0 hle length_resize hr hl hs fun i v hv => ?_, ?_, fun _ => ?_, ?_⟩
    · exact absurd (getElem?_resize hv).2 (by simp)
    · rintro p hp
      obtain rfl := Option.some.inj hp
      exact blocksOf_none hc
    · exact iff_of_false (by simp) (not_not.mpr hroom)
    · rintro p hp
      obtain rfl := Option.some.inj hp
      rwa [UMM_DATA, show (8 * c + 4) / 8 = c by omega]

theorem holds_calloc {num item_size : ℕ} (h : Holds s O) (hle : item_size * num ≤ maxSize) :
    Ends (umm_calloc num item_size) s fun r s' => Holds s' (O.after (.calloc num item_size) r) ∧
      (∀ p ∈ r, O p = none) ∧
      (item_size * num ≠ 0 → (r = none ↔ ¬ Room (blocksOf O) (umm_blocks (item_size * num)))) := by
  have hmod : item_size * num % sizeMod = item_size * num := by
    rw [maxSize] at hle
    rw [sizeMod]
    exact Nat.mod_eq_of_lt (by omega)
  simp only [umm_calloc, hmod]
  refine (ends_malloc_got h hle).bind fun r s' hgot => ?_
  rcases hgot with ⟨rfl, h', hroom⟩ | ⟨c, s₁, rfl, h0, hc, hbest, h₁, hr, K, F, hl, hs⟩
  · simp only [Effect.ends_pure]
    exact ⟨h', fun p hp => absurd hp (by simp), fun hne => iff_of_true trivial (hroom hne)⟩
  · have hfits := (umm_blocks_spec (Nat.pos_of_ne_zero h0) hle).2
    have hroom := hbest.room
    have hc₁ := Function.update_self c (some (c + umm_blocks (item_size * num))) (blocksOf O)
    have hbounds := hl.bounds hc₁
    have h8 : UMM_DATA c = 8 * c + 4 := rfl
    simp only [ends_bind, memset, inRange, Effect.ends_need, Effect.ends_change, Effect.ends_pure]
    have hheap : UMM_MALLOC_CFG_HEAP_SIZE = 0x10000 := rfl
    refine ⟨by omega, ?_⟩
    have hout : ∀ a, a < 8 * c + 4 ∨ 8 * (c + umm_blocks (item_size * num)) ≤ a →
        (s'.clear (UMM_DATA c) (item_size * num)).heap a = s'.heap a := by
      intro a ha
      rw [State.clear]
      exact if_neg fun hin => by omega
    refine ⟨h₁.add h0 hle (by rw [List.length_replicate]) hr (hl.write hc₁ hout).1
      (hs.write hl hc₁ hc rfl hout) fun i v hv => ?_, ?_, fun _ => ?_⟩
    · rw [List.getElem?_replicate] at hv
      split_ifs at hv with hi
      obtain rfl := Option.some.inj (Option.some.inj hv)
      rw [State.clear]
      exact if_pos ⟨by omega, by omega⟩
    · rintro p hp
      obtain rfl := Option.some.inj hp
      exact blocksOf_none hc
    · exact iff_of_false (by simp) (not_not.mpr hroom)

theorem holds_free (h : Holds s O) (hp : O p = some bytes) :
    Ends (umm_free (some p)) s fun _ s' => Holds s' (Function.update O p none) := by
  obtain ⟨hr, K, F, b, hl, rfl, hb, -⟩ := h.chunk hp
  refine (ends_free hl hb).imp fun _ s' hstep => ?_
  obtain ⟨K', F', hl', hs⟩ := hstep
  have hU := blocksOf_erase O b
  rw [← hU] at hl' hs
  refine h.of_same (by rw [hs.ready, hr]) hl' hs fun q bytes' hq => .inl ?_
  rw [Function.update_apply] at hq
  split_ifs at hq with hqb
  exact hq

/-- Where a chunk could be put, there was room for it. -/
theorem Layout.room_of_update {U : ℕ → Option ℕ} {c k : ℕ}
    (h : Layout s (Function.update U c (some (c + k))) K F) (hc : U c = none) : Room U k := by
  have hc' := Function.update_self c (some (c + k)) U
  have hbounds := h.bounds hc'
  refine ⟨c, hbounds.1, hbounds.2.2, fun x hcx hx => ?_⟩
  rintro ⟨d, m, hd, hdx, hxm⟩
  have hdc : d ≠ c := by
    rintro rfl
    rw [hc] at hd
    exact absurd hd (by simp)
  have hd' : Function.update U c (some (c + k)) d = some m := by
    rw [Function.update_of_ne hdc, hd]
  have hdisjoint := h.disjoint hc' hd' hdc
  omega

theorem holds_realloc (h : Holds s O) (hp : O p = some bytes) (hle : size ≤ maxSize) :
    Ends (umm_realloc (some p) size) s fun r s' =>
      Holds s' (O.after (.realloc (some p) size) r) ∧ (∀ q ∈ r, O q = none ∨ q = p) ∧
      (size ≠ 0 →
        (r = none ↔ ¬ Room (blocksOf (Function.update O p none)) (umm_blocks size))) := by
  obtain ⟨hr, K, F, b, hl, rfl, hb, hfits⟩ := h.chunk hp
  have hU := blocksOf_erase O b
  by_cases h0 : size = 0
  · simp only [umm_realloc, initOnce, ends_bind, Effect.ends_ask, Effect.ends_onlyIf, hr, h0, if_pos,
      Effect.ends_pure]
    refine ⟨fun hf => absurd hf (by simp), fun _ => (holds_free h hp).imp fun _ s' h' => ?_⟩
    exact ⟨h', fun q hq => absurd hq (by simp), fun hne => absurd rfl hne⟩
  · obtain ⟨hk, hfits'⟩ := umm_blocks_spec (Nat.pos_of_ne_zero h0) hle
    rw [hU]
    refine (ends_realloc hl hr hb h0 hk).imp fun r s' hs' => ?_
    rcases hs' with ⟨rfl, rfl, hroom⟩ | ⟨c, rfl, hfresh, ⟨K', F', hl'⟩, hs, hdata⟩
    · -- refused: the object stays as it was
      refine ⟨?_, fun q hq => absurd hq (by simp), fun _ => iff_of_true rfl hroom⟩
      obtain ⟨m, rfl⟩ := Nat.exists_eq_succ_of_ne_zero h0
      exact h
    · have hU' : blocksOf (Function.update (Function.update O (UMM_DATA b) none) (UMM_DATA c)
          (some (resize size bytes))) = Function.update (Function.update (blocksOf O) b none) c
          (some (c + umm_blocks size)) := by
        rw [blocksOf_update, hU, Option.map_some, length_resize]
      refine ⟨?_, ?_, fun _ => iff_of_false (by simp) (not_not.mpr ?_)⟩
      · simp only [Objects.after, hp, Option.getD_some]
        rw [← hU'] at hl' hs
        refine h.of_same (by rw [hs.ready, hr]) hl' hs fun q bytes' hq => ?_
        rw [Function.update_apply, Function.update_apply] at hq
        split_ifs at hq with hqc hqb
        · obtain rfl := Option.some.inj hq
          rw [hqc, length_resize]
          refine .inr ⟨⟨c, rfl⟩, Nat.pos_of_ne_zero h0, hle, fun i v hv => ?_⟩
          obtain ⟨hi, hv⟩ := getElem?_resize hv
          have hlen := (List.getElem?_eq_some_iff.mp hv).1
          have h8 : UMM_DATA b = 8 * b + 4 := rfl
          rw [hdata i (by omega) (by omega)]
          exact h.kept _ bytes hp i v hv
        · exact .inl hq
      · rintro q hq
        obtain rfl := Option.some.inj hq
        rcases hfresh with rfl | hnone
        · exact .inr rfl
        · exact .inl (blocksOf_none hnone)
      · refine hl'.room_of_update ?_
        rw [Function.update_apply]
        split_ifs with hcb
        · rfl
        · exact hfresh.resolve_left hcb

theorem holds_write {i : ℕ} {v : UInt8} (h : Holds s O) (hp : O p = some bytes)
    (hi : i < bytes.length) :
    Ends (Call.run (.write p i v)) s fun r s' =>
      Holds s' (O.after (.write p i v) r) ∧ r = none := by
  obtain ⟨hr, K, F, b, hl, rfl, hb, hfits⟩ := h.chunk hp
  have hbounds := hl.bounds hb
  have h8 : UMM_DATA b = 8 * b + 4 := rfl
  have hheap : UMM_MALLOC_CFG_HEAP_SIZE = 0x10000 := rfl
  simp only [Call.run, ends_bind, Effect.ends_need, Effect.ends_change, Effect.ends_pure,
    Objects.after, hp, Option.map_some, and_true]
  refine ⟨by omega, ?_⟩
  have hout : ∀ a, a ≠ UMM_DATA b + i → (s.poke (UMM_DATA b + i) v).heap a = s.heap a := by
    intro a ha
    rw [State.poke]
    exact Function.update_of_ne ha ..
  have hU : blocksOf (Function.update O (UMM_DATA b) (some (bytes.set i (some v)))) =
      blocksOf O := by
    rw [blocksOf_update, Option.map_some, List.length_set, ← hb, Function.update_eq_self]
  refine ⟨.inl ⟨hr, K, F, ?_⟩, fun q bytes' hq => ?_, fun q bytes' hq j w hw => ?_⟩
  · rw [hU]
    exact (hl.write hb fun a ha => hout a (by omega)).1
  · rw [Function.update_apply] at hq
    split_ifs at hq with hqb
    · obtain rfl := Option.some.inj hq
      rw [hqb, List.length_set]
      exact h.shape _ bytes hp
    · exact h.shape q bytes' hq
  · rw [Function.update_apply] at hq
    split_ifs at hq with hqb
    · obtain rfl := Option.some.inj hq
      rw [List.getElem?_set] at hw
      rw [hqb]
      split_ifs at hw with hij
      · obtain rfl := Option.some.inj (Option.some.inj hw)
        rw [hij]
        exact Function.update_self ..
      · rw [hout _ (by omega)]
        exact h.kept _ bytes hp j w hw
    · have hj := (List.getElem?_eq_some_iff.mp hw).1
      have happart := h.stored.apart _ q bytes bytes' hp hq (Ne.symm hqb)
      rw [hout _ (by omega)]
      exact h.kept q bytes' hq j w hw

/-! ## Runs -/

/-- The bytes that a call asks for, and the objects that stay whatever it answers. -/
def Call.request (O : Objects) : Call → Option (ℕ × Objects)
  | .malloc size => some (size, O)
  | .calloc num item_size => some (item_size * num, O)
  | .realloc none size => some (size, O)
  | .realloc (some p) size => some (size, Function.update O p none)
  | _ => none

/-- The address that a call may return although an object has it. -/
def Call.own : Call → Option ℕ
  | .realloc ptr _ => ptr
  | _ => none

/-- **One call**: it does not fail, and the objects are held as they should be after it. What is
returned is new or its own, and memory is refused if and only if there is no room for it. -/
theorem Holds.call {k : Call} (h : Holds s O) (hk : Allowed O k) :
    Ends k.run s fun r s' => Holds s' (O.after k r) ∧
      (∀ p ∈ r, O p = none ∨ k.own = some p) ∧
      ∀ size O', k.request O = some (size, O') → size ≠ 0 →
        (r = none ↔ ¬ Room (blocksOf O') (umm_blocks size)) := by
  cases k with
  | malloc size =>
    refine (holds_malloc h hk).imp
      fun r s' hs' => ⟨hs'.1, fun p hp => .inl (hs'.2.1 p hp), ?_⟩
    rintro _ _ ⟨⟩
    exact hs'.2.2.1
  | calloc num item_size =>
    refine (holds_calloc h hk).imp
      fun r s' hs' => ⟨hs'.1, fun p hp => .inl (hs'.2.1 p hp), ?_⟩
    rintro _ _ ⟨⟩
    exact hs'.2.2
  | realloc ptr size =>
    cases ptr with
    | none =>
      have hnull : Ends (umm_realloc none size) s fun r s' => Holds s' (O.after (.malloc size) r) ∧
          (∀ p ∈ r, O p = none) ∧
          (size ≠ 0 → (r = none ↔ ¬ Room (blocksOf O) (umm_blocks size))) :=
        ends_begun h fun s₁ hr h₁ _ => by
          refine ends_bind.mpr ((ends_initOnce h₁).imp fun _ s₂ hstep => ?_)
          obtain ⟨_, h₂, _⟩ := hstep
          exact (holds_malloc h₂ hk).imp fun r s' hs' => ⟨hs'.1, hs'.2.1, hs'.2.2.1⟩
      refine hnull.imp fun r s' hs' => ⟨?_, fun p hp => .inl (hs'.2.1 p hp), ?_⟩
      · cases r with
        | none =>
          cases size with
          | zero => exact hs'.1
          | succ size => exact hs'.1
        | some p => exact hs'.1
      · rintro _ _ ⟨⟩
        exact hs'.2.2
    | some q =>
      obtain ⟨bytes, hq⟩ := Option.isSome_iff_exists.mp hk.1
      refine (holds_realloc h hq hk.2).imp fun r s' hs' => ⟨hs'.1, fun p hp => ?_, ?_⟩
      · exact (hs'.2.1 p hp).imp id fun heq => by rw [Call.own, heq]
      · rintro _ _ ⟨⟩
        exact hs'.2.2
  | free ptr =>
    cases ptr with
    | none =>
      simp only [Call.run, umm_free, ends_bind, Effect.ends_pure]
      exact ⟨h, fun p hp => absurd hp (by simp), fun _ _ hreq => absurd hreq (by simp [Call.request])⟩
    | some q =>
      obtain ⟨bytes, hq⟩ := Option.isSome_iff_exists.mp hk
      simp only [Call.run, ends_bind, Effect.ends_pure]
      refine (holds_free h hq).imp fun _ s' hs' => ⟨hs', fun p hp => absurd hp (by simp), ?_⟩
      exact fun _ _ hreq => absurd hreq (by simp [Call.request])
  | write q i v =>
    obtain ⟨bytes, hq, hi⟩ := hk
    refine (holds_write h hq hi).imp fun r s' hs' => ⟨hs'.1, fun p hp => ?_, ?_⟩
    · rw [hs'.2] at hp
      exact absurd hp (by simp)
    · exact fun _ _ hreq => absurd hreq (by simp [Call.request])

theorem Reached.holds (h : Reached s O) : Holds s O := by
  induction h with
  | start heap =>
    exact ⟨.inr ⟨rfl, rfl⟩, fun p bytes hp => absurd hp (by simp),
      fun p bytes hp => absurd hp (by simp)⟩
  | call _ hk hrun ih =>
    obtain ⟨r, hr, hs', -⟩ := ih.call hk
    rw [hrun] at hr
    cases hr
    exact hs'

end

/-! ## The store -/

/-- **The allocator is a store of objects**: whatever its client does, the objects are in the heap,
apart from each other, and have the bytes that were written to them. The next call does not fail, and
what it returns is the address of no object but the one that gets another size. -/
theorem umm_store {s : State} {O : Objects} (h : Reached s O) : Stored s O ∧
    ∀ k, Allowed O k → ∃ r s', k.run s = some (r, s') ∧ ∀ p ∈ r, O p = none ∨ k.own = some p := by
  refine ⟨h.holds.stored, fun k hk => ?_⟩
  obtain ⟨⟨r, s'⟩, hrun, -, hown, -⟩ := h.holds.call hk
  exact ⟨r, s', hrun, hown⟩

theorem umm_store_malloc : ∃ s, Stored s (Objects.after (fun _ => none) (.malloc 3) (some 12)) ∧
    ∀ k, Allowed (Objects.after (fun _ => none) (.malloc 3) (some 12)) k →
      ∃ r s', k.run s = some (r, s') ∧
        ∀ p ∈ r, Objects.after (fun _ => none) (.malloc 3) (some 12) p = none ∨ k.own = some p := by
  have hrun : ((Call.malloc 3).run {}).map Prod.fst = some (some 12) := by decide +kernel
  obtain ⟨⟨r, s⟩, hrun, hr⟩ := Option.map_eq_some_iff.mp hrun
  cases hr
  exact ⟨s, umm_store (.call (.start fun _ => 0) (show 3 ≤ maxSize by decide) hrun)⟩

/-- **Memory is refused if and only if there is no room for it**, next to the objects that stay. -/
theorem umm_null_iff {s s' : State} {O O' : Objects} {k : Call} {r : Option ℕ} {size : ℕ}
    (h : Reached s O) (hk : Allowed O k) (hreq : k.request O = some (size, O')) (h0 : size ≠ 0)
    (hrun : k.run s = some (r, s')) : r = none ↔ ¬ Room (blocksOf O') (umm_blocks size) := by
  obtain ⟨⟨r', s''⟩, hrun', -, -, hroom⟩ := h.holds.call hk
  rw [hrun] at hrun'
  cases hrun'
  exact hroom size O' hreq h0

theorem umm_null_iff_large : ¬ Room (blocksOf fun _ => none) (umm_blocks 70000) := by
  have hrun : ((Call.malloc 70000).run {}).map Prod.fst = some none := by decide +kernel
  obtain ⟨⟨r, s⟩, hrun, hr⟩ := Option.map_eq_some_iff.mp hrun
  cases hr
  have hk : Allowed (fun _ => none) (.malloc 70000) := show 70000 ≤ maxSize by decide
  exact (umm_null_iff (.start fun _ => 0) hk rfl (by decide) hrun).mp rfl

/-- **Memory comes from the smallest gap** that is large enough, and from its front. -/
theorem umm_best_fit {s s' : State} {O : Objects} {size p : ℕ} (h : Reached s O)
    (hle : size ≤ maxSize) (hrun : umm_malloc size s = some (some p, s')) :
    BestFit (blocksOf O) (umm_blocks size) (p / 8) := by
  obtain ⟨⟨r', s''⟩, hrun', -, -, -, hbest⟩ := holds_malloc h.holds hle
  rw [hrun] at hrun'
  cases hrun'
  exact hbest p rfl

theorem umm_best_fit_first : BestFit (blocksOf fun _ => none) 1 1 := by
  have hrun : (umm_malloc 3 {}).map Prod.fst = some (some 12) := by decide +kernel
  obtain ⟨⟨r, s⟩, hrun, hr⟩ := Option.map_eq_some_iff.mp hrun
  cases hr
  exact umm_best_fit (.start fun _ => 0) (by decide) hrun

end Lilu.Umm
