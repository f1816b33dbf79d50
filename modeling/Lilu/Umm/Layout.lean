import Lilu.Umm.Parts

/-!
# Which chunks are in use

Whoever calls the allocator knows only about the chunks in use: where each one begins and where it
ends. The free chunks are the gaps between them, and never two next to each other, so that they need
not be told.

## Main definitions

* `Layout s U K F`: the chunks in use are those of `U`
* `Same U U' s s'`: what is in a chunk that is in use before and after stays there
* `Room U k`: there are so many blocks next to each other that are in no chunk in use
* `Gap U b n`: what is between two chunks in use

## Main results

* `Layout.write`: writing into a chunk in use changes no other one
* `Layout.gap_iff`: the free chunks are the gaps
* `ends_free`, `ends_splitAndFree`: giving back a chunk, or the end of one
-/

namespace Lilu.Umm

open Effect (Ends ends_bind)

variable {s s' s'' : State} {U U' U'' : ℕ → Option ℕ} {K F K' F' : Set ℕ} {b c f k m n v : ℕ}

structure Layout (s : State) (U : ℕ → Option ℕ) (K F : Set ℕ) : Prop where
  chunks : Chunks s K F
  used : ∀ b n, U b = some n ↔ Extent s K F b n

/-- What is in a chunk in use stays there, as far as the chunk goes before and after. -/
structure Same (U U' : ℕ → Option ℕ) (s s' : State) : Prop where
  ready : s'.ready = s.ready
  heap : ∀ b n n', U b = some n → U' b = some n' →
    ∀ a, 8 * b + 4 ≤ a → a < 8 * n → a < 8 * n' → s'.heap a = s.heap a

theorem Same.refl : Same U U' s s :=
  ⟨rfl, fun _ _ _ _ _ _ _ _ _ => rfl⟩

theorem Same.trans (h : Same U U' s s') (h' : Same U' U'' s' s'')
    (hmid : ∀ b n n', U b = some n → U'' b = some n' →
      ∃ m, U' b = some m ∧ (n ≤ m ∨ n' ≤ m)) : Same U U'' s s'' := by
  refine ⟨h'.ready.trans h.ready, fun b n n' hn hn' a hle hlt hlt' => ?_⟩
  obtain ⟨m, hm, hnm⟩ := hmid b n n' hn hn'
  have ham : a < 8 * m := by omega
  rw [h'.heap b m n' hm hn' a hle ham hlt', h.heap b n m hn hm a hle hlt ham]

/-! ## Places -/

theorem Extent.bounds (h : Chunks s K F) (hc : Extent s K F c n) : 0 < c ∧ c < n ∧ n ≤ 8191 := by
  obtain ⟨hcK, hcF, hc0, hcl, rfl⟩ := hc
  exact ⟨by omega, (h.next c hcK hcl).2.1, h.next_le hcK hcl⟩

/-- No chunk begins inside of another one. -/
theorem Extent.outside (h : Chunks s K F) (hc : Extent s K F c n) (hb : b ∈ K) : b ≤ c ∨ n ≤ b := by
  obtain ⟨hcK, hcF, hc0, hcl, rfl⟩ := hc
  exact (h.next c hcK hcl).2.2.2 b hb

theorem Extent.data {a : ℕ} (h : Chunks s K F) (hc : Extent s K F c n) (hle : 8 * c + 4 ≤ a)
    (hlt : a < 8 * n) : Data K F a := by
  have hbounds := hc.bounds h
  constructor
  · intro hmem
    have := hc.outside h hmem
    omega
  · rintro (h0 | hmem)
    · omega
    · have hne : a / 8 ≠ c := fun heq => hc.used (heq ▸ hmem)
      have := hc.outside h (h.sub hmem)
      omega

namespace Layout

theorem bounds (h : Layout s U K F) (hc : U c = some n) : 0 < c ∧ c < n ∧ n ≤ 8191 :=
  ((h.used c n).mp hc).bounds h.chunks

/-- **Two chunks in use have no block in common.** -/
theorem disjoint (h : Layout s U K F) (hc : U c = some n) (hb : U b = some m) (hbc : b ≠ c) :
    n ≤ b ∨ m ≤ c := by
  have hb' := ((h.used b m).mp hb)
  have hc' := ((h.used c n).mp hc)
  have := hc'.outside h.chunks hb'.mem
  have := hb'.outside h.chunks hc'.mem
  omega

theorem used_none (h : Layout s U K F) (hc : c ∉ K ∨ c ∈ F) : U c = none := by
  cases hu : U c with
  | none => rfl
  | some n =>
    have hext := (h.used c n).mp hu
    exact absurd hext.used (by have := hext.mem; tauto)

theorem same (h : Layout s U K F) (h' : Layout s' U' K' F') (hf : Frame K F K' F' s s') :
    Same U U' s s' :=
  ⟨hf.ready, fun b n n' hn hn' a hle hlt hlt' =>
    hf.heap a (((h.used b n).mp hn).data h.chunks hle hlt)
      (((h'.used b n').mp hn').data h'.chunks hle hlt')⟩

/-- **Writing into a chunk in use.** -/
theorem write (h : Layout s U K F) (hc : U c = some n)
    (hout : ∀ a, a < 8 * c + 4 ∨ 8 * n ≤ a → s'.heap a = s.heap a) :
    Layout s' U K F ∧ ∀ b ∈ K, s'.next b = s.next b := by
  have hext := (h.used c n).mp hc
  have hheader : ∀ b ∈ K, s'.nblock b = s.nblock b ∧ s'.pblock b = s.pblock b := by
    intro b hb
    have := hext.outside h.chunks hb
    have := (hext.bounds h.chunks).2.1
    exact ⟨get16_congr (hout _ (by omega)) (hout _ (by omega)),
      get16_congr (hout _ (by omega)) (hout _ (by omega))⟩
  have hlink : ∀ b, b = 0 ∨ b ∈ F → s'.nfree b = s.nfree b ∧ s'.pfree b = s.pfree b := by
    intro b hb
    have hbK : b ∈ K := by
      rcases hb with rfl | hb
      · exact h.chunks.zero_mem
      · exact h.chunks.sub hb
    have hne : b ≠ c := by
      rintro rfl
      rcases hb with hb | hb
      · exact hext.ne_zero hb
      · exact hext.used hb
    have := hext.outside h.chunks hbK
    have := (hext.bounds h.chunks).2.1
    exact ⟨get16_congr (hout _ (by omega)) (hout _ (by omega)),
      get16_congr (hout _ (by omega)) (hout _ (by omega))⟩
  have hnext : ∀ b ∈ K, s'.next b = s.next b := fun b hb => by
    rw [State.next, (hheader b hb).1, State.next]
  obtain ⟨hfirst, hlast, hzero, hlastmem, hle, hchain, hfree, ⟨l, hring, hl⟩, hsub, hapart⟩ := h.chunks
  refine ⟨⟨⟨?_, ?_, hzero, hlastmem, hle, ?_, ?_, ⟨l, ?_, hl⟩, hsub, ?_⟩, ?_⟩, hnext⟩
  · rw [(hheader 0 hzero).1, hfirst]
  · rw [(hheader _ hlastmem).1, hlast]
  · intro b hb hbl
    rw [hnext b hb, (hheader _ (hchain b hb hbl).1).2]
    exact hchain b hb hbl
  · intro b hb
    rw [(hheader b hb).1]
    exact hfree b hb
  · refine hring.congr (fun x hx => (hlink x ?_).1) fun x hx => (hlink x ?_).2
    · rwa [← hl, ← List.mem_cons]
    · rwa [← hl, ← List.mem_cons]
  · intro b hb
    rw [hnext b (hsub hb)]
    exact hapart b hb
  · intro b m
    rw [h.used, extent_iff, extent_iff]
    exact and_congr_right fun hb => by rw [hnext b hb]

end Layout

/-- Writing into a new chunk leaves what is in the others. -/
theorem Same.write (hs : Same U U' s s') (hl : Layout s' U' K F) (hc : U' c = some n)
    (hnone : U c = none) (hr : s''.ready = s'.ready)
    (hout : ∀ a, a < 8 * c + 4 ∨ 8 * n ≤ a → s''.heap a = s'.heap a) : Same U U' s s'' := by
  refine ⟨hr.trans hs.ready, fun b m m' hm hm' a hle hlt hlt' => ?_⟩
  have hbc : b ≠ c := by
    rintro rfl
    rw [hnone] at hm
    exact absurd hm (by simp)
  have := hl.disjoint hc hm' hbc
  rw [hout a (by omega)]
  exact hs.heap b m m' hm hm' a hle hlt hlt'

/-! ## Room -/

def Occupied (U : ℕ → Option ℕ) (x : ℕ) : Prop :=
  ∃ c n, U c = some n ∧ c ≤ x ∧ x < n

/-- There are so many blocks next to each other that are in no chunk in use. -/
def Room (U : ℕ → Option ℕ) (k : ℕ) : Prop :=
  ∃ b, 0 < b ∧ b + k ≤ 8191 ∧ ∀ x, b ≤ x → x < b + k → ¬ Occupied U x

/-- What is between two chunks in use, or between one and an end of the heap. -/
structure Gap (U : ℕ → Option ℕ) (b n : ℕ) : Prop where
  pos : 0 < b
  lt : b < n
  le : n ≤ 8191
  free : ∀ x, b ≤ x → x < n → ¬ Occupied U x
  before : b = 1 ∨ Occupied U (b - 1)
  behind : n = 8191 ∨ Occupied U n

namespace Layout

/-- A block is in a chunk, which is free or in use. -/
theorem exists_chunk (h : Layout s U K F) {x : ℕ} (h0 : 0 < x) (hx : x < 8191) :
    ∃ d, d ≤ x ∧ x < s.next d ∧ d ≠ 8191 ∧ (d ∈ F ∨ d ∉ F ∧ U d = some (s.next d)) := by
  obtain ⟨d, hd, hdl, hle, hlt⟩ := h.chunks.exists_chunk x hx
  have hd0 : d ≠ 0 := by
    rintro rfl
    rw [State.next, h.chunks.first] at hlt
    omega
  refine ⟨d, hle, hlt, hdl, ?_⟩
  by_cases hdF : d ∈ F
  · exact .inl hdF
  · exact .inr ⟨hdF, (h.used d _).mpr ⟨hd, hdF, hd0, hdl, rfl⟩⟩

/-- A chunk that is not free is in use, but for the first and the last one. -/
theorem used_start (h : Layout s U K F) {x : ℕ} (hx : x ∈ K) (h0 : 0 < x) (hlt : x < 8191)
    (hxF : x ∉ F) : U x = some (s.next x) :=
  (h.used x _).mpr ⟨hx, hxF, by omega, by omega, rfl⟩

/-- A block of a free chunk is not in use. -/
theorem not_occupied (h : Layout s U K F) (hf : f ∈ F) {x : ℕ} (hle : f ≤ x) (hlt : x < s.next f) :
    ¬ Occupied U x := by
  rintro ⟨c, n, hc, hcx, hxn⟩
  have hext := (h.used c n).mp hc
  obtain ⟨hf0, hfl⟩ := h.chunks.ne_of_free hf
  have hne : c ≠ f := fun heq => hext.used (heq ▸ hf)
  have := (h.chunks.next f (h.chunks.sub hf) hfl).2.2.2 c hext.mem
  have := hext.outside h.chunks (h.chunks.sub hf)
  omega

/-- **The free chunks are the gaps.** -/
theorem gap_iff (h : Layout s U K F) : Gap U b n ↔ b ∈ F ∧ s.next b = n := by
  constructor
  · rintro ⟨hb, hbn, hn, hfree, hbefore, hbehind⟩
    obtain ⟨d, hdb, hlt, hdl, hdF | ⟨-, hdU⟩⟩ := h.exists_chunk hb (show b < 8191 by omega)
    · have hd := h.chunks.next d (h.chunks.sub hdF) hdl
      have hd0 := (h.chunks.ne_of_free hdF).1
      have hnle := h.chunks.next_le (h.chunks.sub hdF) hdl
      have heq : d = b := by
        by_contra hne
        rcases hbefore with h1 | hocc
        · omega
        · exact h.not_occupied hdF (by omega) (by omega) hocc
      subst heq
      refine ⟨hdF, Nat.le_antisymm ?_ ?_⟩
      · by_contra hlt'
        rcases hbehind with hl | hocc
        · omega
        · exact h.not_occupied hdF hbn.le (by omega) hocc
      · by_contra hlt'
        have hU := h.used_start hd.1 (by omega) (by omega) (h.chunks.apart d hdF)
        have hgt := (h.chunks.next _ hd.1 (by omega)).2.1
        exact hfree _ hd.2.1.le (by omega) ⟨_, _, hU, le_rfl, hgt⟩
    · exact absurd ⟨d, _, hdU, hdb, hlt⟩ (hfree b le_rfl hbn)
  · rintro ⟨hb, rfl⟩
    obtain ⟨hb0, hbl⟩ := h.chunks.ne_of_free hb
    have hbK := h.chunks.sub hb
    obtain ⟨hnK, hbn, hback, -⟩ := h.chunks.next b hbK hbl
    have hnle := h.chunks.next_le hbK hbl
    refine ⟨by omega, hbn, hnle, fun x hx hxn => h.not_occupied hb hx hxn, ?_, ?_⟩
    · obtain ⟨hpK, hpb, hpn⟩ := h.chunks.pblock_mem hbK hb0
      by_cases hp0 : s.pblock b = 0
      · rw [hp0, State.next, h.chunks.first] at hpn
        exact .inl hpn.symm
      · have hpF : s.pblock b ∉ F := by
          intro hpF
          have hapart := h.chunks.apart _ hpF
          rw [hpn] at hapart
          exact hapart hb
        have hble := h.chunks.le b hbK
        have hU := h.used_start hpK (by omega) (by omega) hpF
        rw [hpn] at hU
        exact .inr ⟨_, _, hU, by omega, by omega⟩
    · by_cases hnl : s.next b = 8191
      · exact .inl hnl
      · have hU := h.used_start hnK (by omega) (by omega) (h.chunks.apart b hb)
        exact .inr ⟨_, _, hU, le_rfl, (h.chunks.next _ hnK hnl).2.1⟩

/-- **There is room if and only if one of the free chunks is large enough.** -/
theorem room_iff (h : Layout s U K F) (hk : 0 < k) : Room U k ↔ ∃ f ∈ F, k ≤ s.next f - f := by
  constructor
  · rintro ⟨b, hb, hle, hfree⟩
    obtain ⟨d, hdb, hlt, hdl, hdF | ⟨-, hdU⟩⟩ := h.exists_chunk hb (show b < 8191 by omega)
    · refine ⟨d, hdF, ?_⟩
      by_contra hsmall
      have hnl := h.chunks.next_le (h.chunks.sub hdF) hdl
      obtain ⟨e, heb, helt, hel, heF | ⟨-, heU⟩⟩ :=
        h.exists_chunk (show 0 < s.next d by omega) (show s.next d < 8191 by omega)
      · have hmem := (h.chunks.next d (h.chunks.sub hdF) hdl).1
        have hout := (h.chunks.next e (h.chunks.sub heF) hel).2.2.2 _ hmem
        have heq : e = s.next d := by omega
        exact h.chunks.apart d hdF (heq ▸ heF)
      · exact hfree _ (by omega) (by omega) ⟨e, _, heU, heb, helt⟩
    · exact absurd ⟨d, _, hdU, hdb, hlt⟩ (hfree b le_rfl (by omega))
  · rintro ⟨f, hf, hle⟩
    obtain ⟨hf0, hfl⟩ := h.chunks.ne_of_free hf
    have := h.chunks.next_le (h.chunks.sub hf) hfl
    exact ⟨f, by omega, by omega, fun x hfx hx => h.not_occupied hf hfx (by omega)⟩

/-- **There is no room** without a chunk, if there is too little of it together with the free chunks
next to it, and no other free chunk is large enough. -/
theorem not_room_without {l r : ℕ} (h : Layout s U K F) (hk : 0 < k) (hc : U c = some n)
    (hsmall : ∀ f ∈ F, s.next f - f < k) (hl : s.pblock c ∈ F ∧ l = s.pblock c ∨ l = c)
    (hl' : s.pblock c ∈ F → l = s.pblock c) (hr : n ∈ F ∧ r = s.next n ∨ n ∉ F ∧ r = n)
    (hlr : r < l + k) : ¬ Room (Function.update U c none) k := by
  rintro ⟨b, hb, hle, hfree⟩
  have hext := (h.used c n).mp hc
  have hbounds := h.bounds hc
  obtain ⟨hpK, hpc, hpn⟩ := h.chunks.pblock_mem hext.mem hext.ne_zero
  have hnK : n ∈ K := hext.next ▸ (h.chunks.next c hext.mem hext.ne_last).1
  -- a start of a chunk that is in use, in the run, is the start of this one
  have honly : ∀ x m, U x = some m → ∀ y, x ≤ y → y < m → b ≤ y → y < b + k → x = c := by
    intro x m hx y hxy hym hby hyb
    by_contra hne
    exact hfree y hby hyb ⟨x, m, by rw [Function.update_of_ne hne, hx], hxy, hym⟩
  have hstart : ∀ x ∈ K, 0 < x → x < 8191 → x ∉ F → b ≤ x → x < b + k → x = c := by
    intro x hx h0 hlt hxF hbx hxb
    have hxl : x ≠ 8191 := by omega
    exact honly x _ (h.used_start hx h0 hlt hxF) x le_rfl (h.chunks.next x hx hxl).2.1 hbx hxb
  have hright : ∀ y, c ≤ y → y < n → b ≤ y → y < b + k → b + k ≤ r := by
    intro y hcy hyn hby hyb
    by_contra hlt
    rcases hr with ⟨hn, rfl⟩ | ⟨hn, rfl⟩
    · have hnl := (h.chunks.ne_of_free hn).2
      have hnn := (h.chunks.next n hnK hnl)
      have := hstart _ hnn.1 (by omega) (by omega) (h.chunks.apart n hn) (by omega) (by omega)
      omega
    · have := hstart r hnK (by omega) (by omega) hn (by omega) (by omega)
      omega
  obtain ⟨d, hdb, hlt, hdl, hdF | ⟨hdF, hdU⟩⟩ := h.exists_chunk hb (show b < 8191 by omega)
  · have hdsmall := hsmall d hdF
    have hd := h.chunks.next d (h.chunks.sub hdF) hdl
    have heq := hstart _ hd.1 (by omega) (by omega) (h.chunks.apart d hdF) (by omega) (by omega)
    have hpd : s.pblock c = d := by rw [← heq, hd.2.2.1]
    have hld := hl' (hpd ▸ hdF)
    have := hright c le_rfl hbounds.2.1 (by omega) (by omega)
    omega
  · have heq := honly d _ hdU b hdb hlt le_rfl (by omega)
    rw [heq] at hdb hlt
    rw [hext.next] at hlt
    have := hright b hdb hlt le_rfl (by omega)
    rcases hl with ⟨-, rfl⟩ | rfl
    · omega
    · omega

end Layout

/-! ## Giving back -/

/-- A chunk in use grows by the free one behind it. -/
theorem ends_grow (h : Layout s U K F) (hc : U c = some n) :
    Ends (umm_assimilate_up c) s fun _ s' => ∃ K' F' m,
      Layout s' (Function.update U c (some m)) K' F' ∧
      Same U (Function.update U c (some m)) s s' ∧ m ∉ F' ∧
      (n ∈ F ∧ m = s.next n ∨ n ∉ F ∧ m = n) ∧
      ∀ b ∈ F, b < c → b ∈ F' ∧ s'.next b = s.next b := by
  have hext := (h.used c n).mp hc
  have hbounds := hext.bounds h.chunks
  by_cases hn : n ∈ F
  · refine (h.chunks.ends_assimilate_up_free hext hn).imp fun _ s' hstep => ?_
    obtain ⟨hchunks, hframe, hnext⟩ := hstep
    have hlayout : Layout s' (Function.update U c (some (s.next n))) (K \ {n}) (F \ {n}) := by
      refine ⟨hchunks, fun b m => ?_⟩
      rw [Function.update_apply, extent_iff, hnext, Function.update_apply]
      split_ifs with hbc
      · have := hext.mem
        have := hext.used
        have := hext.ne_last
        simp only [hbc, Set.mem_sdiff, Set.mem_singleton_iff, Option.some.injEq]
        grind
      · rw [h.used, extent_iff, Set.mem_sdiff, Set.mem_sdiff, Set.mem_singleton_iff]
        grind
    refine ⟨_, _, s.next n, hlayout, h.same hlayout hframe, fun hmem => ?_, .inl ⟨hn, rfl⟩,
      fun b hb hbc => ⟨⟨hb, ?_⟩, ?_⟩⟩
    · exact h.chunks.apart n hn hmem.1
    · rw [Set.mem_singleton_iff]
      omega
    · rw [hnext, Function.update_of_ne hbc.ne]
  · refine (h.chunks.ends_assimilate_up_used hext hn).imp fun _ s' hs => ?_
    rw [hs]
    refine ⟨K, F, n, ?_, .refl, hn, .inr ⟨hn, rfl⟩, fun b hb _ => ⟨hb, rfl⟩⟩
    rwa [← hc, Function.update_eq_self]

theorem blockOf_data (hc : c < 8192) : blockOf (UMM_DATA c) = c := by
  rw [blockOf, UMM_DATA]
  omega

/-- A chunk in use becomes a part of the free one before it. -/
theorem ends_giveDown (h : Layout s U K F) (hc : U c = some n) (hp : s.pblock c ∈ F) (hn : n ∉ F) :
    Ends (umm_assimilate_down c UMM_FREELIST_MASK) s fun _ s' => ∃ K' F',
      Layout s' (Function.update U c none) K' F' ∧ Same U (Function.update U c none) s s' := by
  have hext := (h.used c n).mp hc
  have hp0 := (h.chunks.ne_of_free hp).1
  refine (h.chunks.ends_assimilate_down hext hp0 (.inl ⟨hp, rfl, hn⟩)).imp
    fun _ s' hstep => ?_
  obtain ⟨_, hchunks, hframe, hnext⟩ := hstep
  have hlayout : Layout s' (Function.update U c none) (K \ {c}) F := by
    refine ⟨hchunks, fun b m => ?_⟩
    rw [Function.update_apply, extent_iff, hnext, Function.update_apply]
    split_ifs with hbc hbp hbp
    · simp [hbc]
    · simp [hbc]
    · rw [h.used, extent_iff, hbp]
      tauto
    · rw [h.used, extent_iff, Set.mem_sdiff, Set.mem_singleton_iff]
      tauto
  exact ⟨_, _, hlayout, h.same hlayout hframe⟩

/-- A chunk in use that has no free neighbour becomes free. -/
theorem ends_give (h : Layout s U K F) (hc : U c = some n) (hp : s.pblock c ∉ F) (hn : n ∉ F) :
    Ends (addToFreeList c) s fun _ s' => ∃ K' F',
      Layout s' (Function.update U c none) K' F' ∧ Same U (Function.update U c none) s s' := by
  have hext := (h.used c n).mp hc
  refine (h.chunks.ends_addToFreeList hext hp hn).imp fun _ s' hstep => ?_
  obtain ⟨hchunks, hframe, hnext⟩ := hstep
  have hlayout : Layout s' (Function.update U c none) K (insert c F) := by
    refine ⟨hchunks, fun b m => ?_⟩
    rw [Function.update_apply, extent_iff, hnext]
    split_ifs with hbc
    · simp [hbc]
    · rw [h.used, extent_iff, Set.mem_insert_iff]
      tauto
  exact ⟨_, _, hlayout, h.same hlayout hframe⟩

/-- **Giving back a chunk.** -/
theorem ends_free (h : Layout s U K F) (hc : U c = some n) :
    Ends (umm_free (some (UMM_DATA c))) s fun _ s' => ∃ K' F',
      Layout s' (Function.update U c none) K' F' ∧ Same U (Function.update U c none) s s' := by
  have hbounds := h.bounds hc
  simp only [umm_free, blockOf_data (show c < 8192 by omega)]
  refine ends_bind.mpr ((ends_grow h hc).imp fun _ s₁ hstep => ?_)
  obtain ⟨K₁, F₁, m, h₁, hsame₁, hm, _, _⟩ := hstep
  have hc₁ : Function.update U c (some m) c = some m := Function.update_self ..
  have hext := (h₁.used c m).mp hc₁
  obtain ⟨hpK, hpc, hpn⟩ := h₁.chunks.pblock_mem hext.mem hext.ne_zero
  have hfree := h₁.chunks.free _ hpK
  have htrans {s' : State} (hs' : ∃ K' F', Layout s' (Function.update (Function.update U c (some m))
      c none) K' F' ∧ Same (Function.update U c (some m)) (Function.update (Function.update U c
      (some m)) c none) s₁ s') : ∃ K' F', Layout s' (Function.update U c none) K' F' ∧
      Same U (Function.update U c none) s s' := by
    rw [Function.update_idem] at hs'
    obtain ⟨K', F', h', hsame'⟩ := hs'
    refine ⟨K', F', h', hsame₁.trans hsame' fun b n n' hn hn' => ⟨n, ?_, .inl le_rfl⟩⟩
    have hbc : b ≠ c := by
      rintro rfl
      rw [Function.update_self] at hn'
      exact absurd hn' (by simp)
    rw [Function.update_of_ne hbc, hn]
  simp only [ends_bind, ends_PBLOCK, ends_NBLOCK, Effect.ends_ite, Effect.ends_pure]
  refine ⟨by omega, by omega, fun hand => ?_, fun hand => ?_⟩
  · have hp := hfree.mp ((and_freelist State.nblock_lt).mp hand)
    exact (ends_giveDown h₁ hc₁ hp hm).imp fun _ _ hs' => htrans hs'
  · have hp : s₁.pblock c ∉ F₁ := fun hp => hand ((and_freelist State.nblock_lt).mpr (hfree.mpr hp))
    exact (ends_give h₁ hc₁ hp hm).imp fun _ _ hs' => htrans hs'

/-- **Giving back the end of a chunk.** -/
theorem ends_splitAndFree (h : Layout s U K F) (hc : U c = some n) (hk : 0 < k) (hkn : c + k ≤ n) :
    Ends (splitAndFree c (n - c) k) s fun _ s' => ∃ K' F',
      Layout s' (Function.update U c (some (c + k))) K' F' ∧
      Same U (Function.update U c (some (c + k))) s s' := by
  have hext := (h.used c n).mp hc
  have hbounds := h.bounds hc
  rw [splitAndFree, Effect.ends_onlyIf]
  refine ⟨fun hlt => ?_, fun hle => ?_⟩
  · refine ends_bind.mpr ((h.chunks.ends_split_block hext hk (by omega)).imp
      fun _ s₁ hstep => ?_)
    obtain ⟨hchunks, hframe, hnext⟩ := hstep
    have hmK : c + k ∉ K := by
      intro hmem
      have := hext.outside h.chunks hmem
      omega
    have hlayout : Layout s₁ (Function.update (Function.update U c (some (c + k))) (c + k) (some n))
        (insert (c + k) K) F := by
      refine ⟨hchunks, fun b m => ?_⟩
      have hmF : c + k ∉ F := fun hmem => hmK (h.chunks.sub hmem)
      have hne : c + k ≠ c := by omega
      rw [Function.update_apply, Function.update_apply, extent_iff, hnext, Function.update_apply,
        Function.update_apply, Set.mem_insert_iff]
      split_ifs with hbm hbc hbc
      · omega
      · rw [Option.some.injEq, hbm]
        constructor
        · intro heq
          exact ⟨.inl rfl, hmF, by omega, by omega, heq⟩
        · exact fun hb => hb.2.2.2.2
      · rw [Option.some.injEq, hbc]
        constructor
        · intro heq
          exact ⟨.inr hext.mem, hext.used, hext.ne_zero, hext.ne_last, heq⟩
        · exact fun hb => hb.2.2.2.2
      · rw [h.used, extent_iff]
        tauto
    refine (ends_free hlayout (Function.update_self ..)).imp fun _ s' hstep => ?_
    obtain ⟨K', F', h', hsame'⟩ := hstep
    have hU : Function.update (Function.update (Function.update U c (some (c + k))) (c + k)
        (some n)) (c + k) none = Function.update U c (some (c + k)) := by
      rw [Function.update_idem]
      refine Function.update_eq_self_iff.mpr ?_
      rw [Function.update_of_ne (by omega), h.used_none (.inl hmK)]
    rw [hU] at h' hsame'
    refine ⟨K', F', h', (h.same hlayout hframe).trans hsame' fun b n n' hn hn' => ⟨n', ?_, .inr le_rfl⟩⟩
    have hb : b ≠ c + k := by
      rintro rfl
      exact absurd ((h.used _ _).mp hn).mem hmK
    rw [Function.update_of_ne hb, hn']
  · have heq : n = c + k := by omega
    rw [← heq, ← hc, Function.update_eq_self]
    exact ⟨K, F, h, .refl⟩

end Lilu.Umm
