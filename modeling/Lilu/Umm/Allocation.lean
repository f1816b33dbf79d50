import Lilu.Umm.Layout

/-!
# Getting a chunk

The search goes through the ring and keeps the smallest free chunk that is large enough. Whoever gets
a chunk gets its front. A chunk that has to grow takes what it needs of its neighbours, and its data
are moved when it takes what is before it; only if that is not enough, another chunk is looked for.

## Main results

* `ends_search`: the smallest free chunk that is large enough is found
* `ends_malloc`: a chunk is got if there is room
* `ends_realloc`: a chunk grows or shrinks, with its data, if there is room for it without the old one
-/

namespace Lilu.Umm

open Effect (Ends ends_bind)

variable {s s' s'' : State} {U U' U'' : ℕ → Option ℕ} {K F K' F' : Set ℕ} {b c f k m n v : ℕ}

/-! ## The search -/

theorem sub16_eq {a b : ℕ} (hab : b ≤ a) (ha : a < 0x10000) : sub16 a b = a - b := by
  rw [sub16]
  omega

/-- The smallest of the free chunks in the list that are large enough, if there is one. -/
def Smallest (s : State) (k : ℕ) (u : Set ℕ) (v : Search) : Prop :=
  v.bestSize = 0x7FFF ∧ v.blockSize < k ∧ (∀ f ∈ u, s.next f - f < k) ∨
    v.bestSize ≠ 0x7FFF ∧ v.bestBlock ∈ u ∧ v.bestSize = s.next v.bestBlock - v.bestBlock ∧
      k ≤ v.bestSize ∧ ∀ f ∈ u, k ≤ s.next f - f → v.bestSize ≤ s.next f - f

theorem idxOf_headD {l u w : List ℕ} (hl : (0 :: l).Nodup) (hsplit : l = u ++ w) :
    l.idxOf (w.headD 0) = u.length := by
  obtain ⟨h0, hnodup⟩ := List.nodup_cons.mp hl
  cases w with
  | nil =>
    rw [List.headD_nil, List.idxOf_of_notMem h0, hsplit, List.append_nil]
  | cons f w =>
    rw [hsplit, List.nodup_middle, List.nodup_cons] at hnodup
    have hf : f ∉ u := fun hmem => hnodup.1 (List.mem_append.mpr (.inl hmem))
    rw [hsplit, List.headD_cons, List.idxOf_append_of_notMem hf, List.idxOf_cons_self,
      Nat.add_zero]

/-- One more chunk is looked at. -/
theorem Smallest.look {u : Set ℕ} {v : Search} (h : Smallest s k u v) (hf : v.cf = f)
    (hlt : s.next f - f < 0x7FFF) : Smallest s k (insert f u) (v.look k (s.next f - f)) := by
  rw [Search.look]
  split_ifs with hfit
  · refine .inr ⟨hlt.ne, .inl hf, by rw [hf], hfit.1, ?_⟩
    rintro x (rfl | hx) hkx
    · exact le_rfl
    · rcases h with ⟨_, _, hsmall⟩ | ⟨_, _, _, _, hbest⟩
      · exact absurd (hsmall x hx) (by omega)
      · exact hfit.2.le.trans (hbest x hx hkx)
  · rcases h with ⟨hsize, hblock, hsmall⟩ | ⟨hsize, hmem, heq, hk, hbest⟩
    · have hkf : s.next f - f < k := by
        rw [hsize] at hfit
        omega
      refine .inl ⟨hsize, hkf, ?_⟩
      rintro x (rfl | hx)
      · exact hkf
      · exact hsmall x hx
    · refine .inr ⟨hsize, .inr hmem, heq, hk, ?_⟩
      rintro x (rfl | hx) hkx
      · exact not_lt.mp fun hxlt => hfit ⟨hkx, hxlt⟩
      · exact hbest x hx hkx

theorem ends_search (h : Chunks s K F) (hk : 0 < k) :
    Ends (search k) s fun v s' => s' = s ∧ v.cf = 0 ∧ Smallest s k F v := by
  obtain ⟨l, hring, hl⟩ := h.ring
  have hlF : {f | f ∈ l} = F := Set.ext hl
  have hlen : l.length ≤ 8192 := by
    have hsub : l ⊆ List.range 8192 := fun x hx => by
      have := h.le x (h.sub ((hl x).mp hx))
      exact List.mem_range.mpr (by omega)
    have hle := ((List.nodup_cons.mp hring.nodup).2.subperm hsub).length_le
    rwa [List.length_range] at hle
  simp only [search, ends_bind, ends_NFREE]
  refine ⟨by omega, by omega, ?_⟩
  -- `u` has been gone through, and `w` is to come; each turn moves one chunk
  refine Effect.ends_loop
    (fun v s' => s' = s ∧ ∃ u w, l = u ++ w ∧ v.cf = w.headD 0 ∧ Smallest s k {f | f ∈ u} v)
    (fun v _ => l.length - l.idxOf v.cf) ?_ ⟨rfl, [], l, rfl, hring.next_head, ?_⟩ ?_
  · rintro v s' ⟨rfl, u, w, hsplit, hcf, hsmallest⟩
    rw [searchTurn, Effect.ends_ite]
    refine ⟨fun hne => ?_, fun heq => ?_⟩
    · cases w with
      | nil => exact absurd hcf hne
      | cons f w =>
        rw [List.headD_cons] at hcf
        have hf : f ∈ F := by
          rw [← hl, hsplit]
          simp
        obtain ⟨hf0, hfl⟩ := h.ne_of_free hf
        have hfle := h.le f (h.sub hf)
        have hnle := h.next_le (h.sub hf) hfl
        have hlt := (h.next f (h.sub hf) hfl).2.1
        have hnext : s'.nfree f = w.headD 0 := by
          rw [hsplit] at hring
          exact hring.next_mid
        have hmod : s'.nblock f % 0x8000 = s'.next f := rfl
        simp only [ends_bind, ends_NBLOCK, ends_NFREE, Effect.ends_pure, and_blockno, hcf, hmod,
          sub16_eq hlt.le (show s'.next f < 0x10000 by omega)]
        have hsplit' : l = (u ++ [f]) ++ w := by rw [hsplit, List.append_cons]
        have hidx := idxOf_headD hring.nodup hsplit'
        have hidx' := idxOf_headD hring.nodup hsplit
        rw [List.headD_cons] at hidx'
        refine ⟨by omega, by omega, ⟨rfl, u ++ [f], w, hsplit', hnext, ?_⟩, ?_⟩
        · have hset : {x | x ∈ u ++ [f]} = insert f {x | x ∈ u} := by
            ext x
            simp [or_comm]
          rw [hset]
          exact hsmallest.look hcf (by omega)
        · have hlength := congrArg List.length hsplit
          rw [List.length_append, List.length_cons] at hlength
          rw [hnext, hidx, hidx', List.length_append, List.length_singleton]
          omega
    · -- only the end of the ring is block 0
      have hw : w = [] := by
        cases w with
        | nil => rfl
        | cons f w =>
          refine absurd ?_ heq
          rw [hcf, List.headD_cons]
          rintro rfl
          exact hring.head_notMem (hsplit ▸ by simp)
      rw [hw, List.append_nil] at hsplit
      exact Effect.ends_pure.mpr ⟨rfl, not_not.mp heq, by rwa [← hlF, hsplit]⟩
  · exact .inl ⟨rfl, hk, fun f hf => absurd hf (List.not_mem_nil)⟩
  · rw [umm_numblocks]
    omega

/-! ## Taking a chunk -/

/-- A free chunk, or its front, is taken. -/
theorem ends_takeBlocks (h : Layout s U K F) (hc : c ∈ F) (hk : 0 < k) (hkn : c + k ≤ s.next c) :
    Ends (takeBlocks c (s.next c - c) k) s fun _ s' => ∃ K' F',
      Layout s' (Function.update U c (some (c + k))) K' F' ∧
      Same U (Function.update U c (some (c + k))) s s' := by
  obtain ⟨hc0, hcl⟩ := h.chunks.ne_of_free hc
  have hcK := h.chunks.sub hc
  have hnle := h.chunks.next_le hcK hcl
  rw [takeBlocks, Effect.ends_ite]
  refine ⟨fun heq => ?_, fun hne => ?_⟩
  · refine (h.chunks.ends_disconnect hc).imp fun _ s' hstep => ?_
    obtain ⟨hchunks, hframe, hnext⟩ := hstep
    have hlayout : Layout s' (Function.update U c (some (c + k))) K (F \ {c}) := by
      refine ⟨hchunks, fun b m => ?_⟩
      rw [Function.update_apply, extent_iff, hnext, Set.mem_sdiff, Set.mem_singleton_iff]
      split_ifs with hbc
      · rw [Option.some.injEq, hbc]
        constructor
        · intro hm
          exact ⟨hcK, fun hmem => hmem.2 rfl, hc0, hcl, by omega⟩
        · intro hm
          have := hm.2.2.2.2
          omega
      · rw [h.used, extent_iff]
        tauto
    exact ⟨_, _, hlayout, h.same hlayout hframe⟩
  · refine (h.chunks.ends_takeFront hc hk (by omega)).imp fun _ s' hstep => ?_
    obtain ⟨hchunks, hframe, hnext⟩ := hstep
    have hmK : c + k ∉ K := by
      intro hmem
      have := (h.chunks.next c hcK hcl).2.2.2 _ hmem
      omega
    have hlayout : Layout s' (Function.update U c (some (c + k))) (insert (c + k) K)
        (insert (c + k) (F \ {c})) := by
      refine ⟨hchunks, fun b m => ?_⟩
      rw [Function.update_apply, extent_iff, hnext, Function.update_apply, Function.update_apply,
        Set.mem_insert_iff, Set.mem_insert_iff, Set.mem_sdiff, Set.mem_singleton_iff]
      split_ifs with hbc hbm
      · rw [Option.some.injEq, hbc]
        constructor
        · intro hm
          exact ⟨.inr hcK, by omega, hc0, hcl, hm⟩
        · exact fun hm => hm.2.2.2.2
      · rw [h.used_none (.inl (hbm ▸ hmK))]
        simp [hbm]
      · rw [h.used, extent_iff]
        tauto
    exact ⟨_, _, hlayout, h.same hlayout hframe⟩

/-- **A chunk is got** if one of the free ones is large enough, and from the smallest of these. -/
theorem ends_malloc {size : ℕ} (h : Layout s U K F) (hr : s.ready = true) (h0 : size ≠ 0)
    (hk : 0 < umm_blocks size) :
    Ends (umm_malloc size) s fun r s' =>
      r = none ∧ s' = s ∧ (∀ f ∈ F, s.next f - f < umm_blocks size) ∨
      ∃ c ∈ F, r = some (UMM_DATA c) ∧ umm_blocks size ≤ s.next c - c ∧
        (∀ f ∈ F, umm_blocks size ≤ s.next f - f → s.next c - c ≤ s.next f - f) ∧
        ∃ K' F', Layout s' (Function.update U c (some (c + umm_blocks size))) K' F' ∧
          Same U (Function.update U c (some (c + umm_blocks size))) s s' := by
  simp only [umm_malloc, initOnce, ends_bind, Effect.ends_ask, Effect.ends_onlyIf, hr, if_neg h0]
  refine ⟨fun hf => absurd hf (by simp), fun _ => ?_⟩
  refine (ends_search h.chunks hk).imp fun v s' hstep => ?_
  obtain ⟨hs', hcf, hsmallest⟩ := hstep
  subst hs'
  rcases hsmallest with ⟨hsize, hblock, hsmall⟩ | ⟨hsize, hmem, heq, hfits, hbest⟩
  · have hv : v.best = (0, v.blockSize) := by
      rw [Search.best, if_neg (not_not.mpr hsize.symm), hcf]
    rw [hv]
    simp only [ends_bind, ends_NBLOCK, Effect.ends_ite, Effect.ends_pure]
    refine ⟨by omega, fun hfit => absurd hfit.2 (by omega), fun _ => .inl ⟨trivial, trivial, hsmall⟩⟩
  · have hv : v.best = (v.bestBlock, v.bestSize) := by
      rw [Search.best, if_pos (Ne.symm hsize)]
    obtain ⟨hc0, hcl⟩ := h.chunks.ne_of_free hmem
    have hcle := h.chunks.le _ (h.chunks.sub hmem)
    have hlt := (h.chunks.next _ (h.chunks.sub hmem) hcl).2.1
    have hmod : s'.nblock v.bestBlock % 0x8000 = s'.next v.bestBlock := rfl
    rw [hv]
    simp only [ends_bind, ends_NBLOCK, Effect.ends_ite, Effect.ends_pure, and_blockno, hmod]
    refine ⟨by omega, fun _ => ?_, fun hnot => absurd ⟨by omega, hfits⟩ hnot⟩
    rw [heq]
    rw [heq] at hfits hbest
    exact (ends_takeBlocks h hmem hk (by omega)).imp fun _ s'' hs'' =>
      .inr ⟨v.bestBlock, hmem, rfl, hfits, hbest, hs''⟩

/-! ## Growing and shrinking -/

theorem ends_memmove {dst src size : ℕ} (hdst : dst + size ≤ 0x10000)
    (hsrc : src + size ≤ 0x10000) :
    Ends (memmove dst src size) s fun _ s' => s' = s.move dst src size := by
  simp only [memmove, inRange, ends_bind, Effect.ends_need, Effect.ends_change]
  exact ⟨hdst, hsrc, trivial⟩

/-- A chunk takes the free one before it, and its data are moved to the front. -/
theorem ends_moveDown {size : ℕ} (h : Layout s U K F) (hc : U c = some n) (hp : s.pblock c ∈ F)
    (hsize : UMM_DATA c + size ≤ 8 * n) :
    Ends (moveDown c (UMM_DATA c) size) s fun p s' => p = s.pblock c ∧ ∃ K' F',
      Layout s' (Function.update (Function.update U c none) (s.pblock c) (some n)) K' F' ∧
      Same U (Function.update (Function.update U c none) (s.pblock c) (some n)) s s' ∧
      ∀ i < size, s'.heap (UMM_DATA (s.pblock c) + i) = s.heap (UMM_DATA c + i) := by
  have hext := (h.used c n).mp hc
  have hbounds := h.bounds hc
  obtain ⟨hpK, hpc, hpn⟩ := h.chunks.pblock_mem hext.mem hext.ne_zero
  obtain ⟨hp0, hpl⟩ := h.chunks.ne_of_free hp
  rw [UMM_DATA] at hsize
  simp only [moveDown, ends_bind, ends_PBLOCK]
  refine ⟨by omega, (h.chunks.ends_disconnect hp).imp fun _ s₁ hstep => ?_⟩
  obtain ⟨h₁, hframe₁, hnext₁⟩ := hstep
  have hext₁ : Extent s₁ K (F \ {s.pblock c}) c n :=
    ⟨hext.mem, fun hmem => hext.used hmem.1, hext.ne_zero, hext.ne_last, by rw [hnext₁, hext.next]⟩
  have hpb : s₁.pblock c = s.pblock c := by
    have hback := (h₁.next _ hpK hpl).2.2.1
    rwa [hnext₁, hpn] at hback
  have hnot : s₁.pblock c ∉ F \ {s.pblock c} := by
    rw [hpb]
    exact fun hmem => hmem.2 rfl
  refine (h₁.ends_assimilate_down hext₁ (by rw [hpb]; exact hp0) (.inr ⟨hnot, rfl⟩)).imp
    fun p s₂ hstep => ?_
  obtain ⟨hp₂, h₂, hframe₂, hnext₂⟩ := hstep
  rw [hpb] at hp₂ hnext₂
  rw [hp₂]
  -- neither step has written to the data of a chunk in use, so that they are still to be moved
  have hframe := hframe₁.trans hframe₂ (Set.subset_union_left) (Set.subset_union_right)
  have hlayout : Layout s₂ (Function.update (Function.update U c none) (s.pblock c) (some n))
      (K \ {c}) (F \ {s.pblock c}) := by
    refine ⟨h₂, fun b m => ?_⟩
    rw [Function.update_apply, Function.update_apply, extent_iff, hnext₂, Function.update_apply,
      hnext₁, Set.mem_sdiff, Set.mem_sdiff, Set.mem_singleton_iff, Set.mem_singleton_iff]
    split_ifs with hbp hbc
    · rw [Option.some.injEq, hbp]
      constructor
      · intro hm
        exact ⟨⟨hpK, hpc.ne⟩, fun hmem => hmem.2 rfl, hp0, hpl, hm⟩
      · exact fun hm => hm.2.2.2.2
    · simp [hbc]
    · rw [h.used, extent_iff]
      tauto
  have hpu := Function.update_self (s.pblock c) (some n) (Function.update U c none)
  have hp₃ := (hlayout.used _ _).mp hpu
  refine (ends_memmove (by rw [UMM_DATA]; omega) (by rw [UMM_DATA]; omega)).imp fun _ s₃ hs₃ => ?_
  have hout : ∀ a, a < 8 * s.pblock c + 4 ∨ 8 * n ≤ a → s₃.heap a = s₂.heap a := by
    intro a ha
    rw [hs₃, State.move]
    refine if_neg fun hin => ?_
    rw [UMM_DATA] at hin
    omega
  obtain ⟨hlayout', -⟩ := hlayout.write hpu hout
  have hsame := (h.same hlayout hframe).write hlayout hpu (h.used_none (.inr hp))
    (by rw [hs₃]; rfl) hout
  refine Effect.ends_pure.mpr ⟨rfl, _, _, hlayout', hsame, fun i hi => ?_⟩
  have hsrc : UMM_DATA c + i < 8 * n := by
    rw [UMM_DATA]
    omega
  have hdst : UMM_DATA (s.pblock c) ≤ UMM_DATA (s.pblock c) + i ∧
      UMM_DATA (s.pblock c) + i < UMM_DATA (s.pblock c) + size := by omega
  rw [hs₃, State.move]
  simp only
  rw [if_pos hdst, Nat.add_sub_cancel_left]
  exact hframe.heap _ (hext.data h.chunks (by rw [UMM_DATA]; omega) hsrc)
    (hp₃.data h₂ (by rw [UMM_DATA]; omega) hsrc)

/-! ## Another size -/

theorem ends_nextBlockSize (h : Layout s U K F) (hc : U c = some n) :
    Ends (nextBlockSize c) s fun r s' => s' = s ∧
      (n ∈ F ∧ r = s.next n - n ∨ n ∉ F ∧ r = 0) := by
  have hext := (h.used c n).mp hc
  have hbounds := h.bounds hc
  have hnK : n ∈ K := hext.next ▸ (h.chunks.next c hext.mem hext.ne_last).1
  have hfree := h.chunks.free n hnK
  have hmod : s.nblock n % 0x8000 = s.next n := rfl
  simp only [nextBlockSize, ends_bind, ends_NBLOCK, Effect.ends_ite, Effect.ends_pure,
    h.chunks.nblock_used hext.mem hext.used, hext.next, and_blockno, hmod]
  refine ⟨by omega, by omega, fun hand => ?_, fun hand => ?_⟩
  · have hn := hfree.mp ((and_freelist State.nblock_lt).mp hand)
    obtain ⟨hn0, hnl⟩ := h.chunks.ne_of_free hn
    have hnn := (h.chunks.next n hnK hnl).2.1
    have hnle := h.chunks.next_le hnK hnl
    exact ⟨by omega, by omega, by omega, trivial, .inl ⟨hn, sub16_eq hnn.le (by omega)⟩⟩
  · exact ⟨trivial, .inr ⟨fun hn => hand ((and_freelist State.nblock_lt).mpr (hfree.mpr hn)),
      trivial⟩⟩

theorem ends_prevBlockSize (h : Layout s U K F) (hc : U c = some n) :
    Ends (prevBlockSize c) s fun r s' => s' = s ∧
      (s.pblock c ∈ F ∧ r = c - s.pblock c ∨ s.pblock c ∉ F ∧ r = 0) := by
  have hext := (h.used c n).mp hc
  have hbounds := h.bounds hc
  obtain ⟨hpK, hpc, hpn⟩ := h.chunks.pblock_mem hext.mem hext.ne_zero
  have hfree := h.chunks.free _ hpK
  simp only [prevBlockSize, ends_bind, ends_NBLOCK, ends_PBLOCK, Effect.ends_ite,
    Effect.ends_pure]
  refine ⟨by omega, by omega, fun hand => ?_, fun hand => ?_⟩
  · have hp := hfree.mp ((and_freelist State.nblock_lt).mp hand)
    exact ⟨by omega, trivial, .inl ⟨hp, sub16_eq hpc.le (by omega)⟩⟩
  · exact ⟨trivial, .inr ⟨fun hp => hand ((and_freelist State.nblock_lt).mpr (hfree.mpr hp)),
      trivial⟩⟩

/-- A chunk and its data are at another place, and have another size. -/
structure Resized (U : ℕ → Option ℕ) (c n c' k : ℕ) (s s' : State) : Prop where
  fresh : c' = c ∨ U c' = none
  layout : ∃ K F, Layout s' (Function.update (Function.update U c none) c' (some (c' + k))) K F
  same : Same U (Function.update (Function.update U c none) c' (some (c' + k))) s s'
  data : ∀ i, i < 8 * (n - c) - 4 → i < 8 * k - 4 →
    s'.heap (UMM_DATA c' + i) = s.heap (UMM_DATA c + i)

/-- The end of a chunk that has grown is given back. -/
theorem ends_settle {c' : ℕ} (hfresh : c' = c ∨ U c' = none)
    (h' : Layout s' (Function.update (Function.update U c none) c' (some m)) K' F')
    (hsame : Same U (Function.update (Function.update U c none) c' (some m)) s s')
    (hdata : ∀ i, i < 8 * (n - c) - 4 → i < 8 * k - 4 →
      s'.heap (UMM_DATA c' + i) = s.heap (UMM_DATA c + i))
    (hk : 0 < k) (hkm : c' + k ≤ m) :
    Ends (splitAndFree c' (m - c') k) s' fun _ s'' => Resized U c n c' k s s'' := by
  refine (ends_splitAndFree h' (Function.update_self ..) hk hkm).imp
    fun _ s'' hstep => ?_
  obtain ⟨K'', F'', hlayout, hsame'⟩ := hstep
  rw [Function.update_idem] at hlayout hsame'
  refine ⟨hfresh, ⟨_, _, hlayout⟩, hsame.trans hsame' fun b b' b'' hb hb'' => ?_,
    fun i hi hik => ?_⟩
  · by_cases hbc : b = c'
    · rw [hbc, Function.update_self] at hb''
      rw [hbc, Function.update_self]
      have := Option.some.inj hb''
      exact ⟨m, rfl, .inr (by omega)⟩
    · rw [Function.update_of_ne hbc] at hb'' ⊢
      exact ⟨b'', hb'', .inr le_rfl⟩
  · rw [← hdata i hi hik]
    refine hsame'.heap c' m (c' + k) (Function.update_self ..) (Function.update_self ..) _ ?_ ?_ ?_
    · rw [UMM_DATA]
      omega
    · rw [UMM_DATA]
      omega
    · rw [UMM_DATA]
      omega

/-- The data are moved to a new chunk, if there is one. -/
theorem ends_moveAway {size : ℕ} (h : Layout s U K F) (hr : s.ready = true) (hc : U c = some n)
    (h0 : size ≠ 0) (hk : n < c + umm_blocks size) :
    Ends (moveAway (UMM_DATA c) ((n - c) * 8 - 4) size) s fun r s' =>
      r = none ∧ s' = s ∧ (∀ f ∈ F, s.next f - f < umm_blocks size) ∨
      ∃ c', r = some (UMM_DATA c') ∧ Resized U c n c' (umm_blocks size) s s' := by
  have hbounds := h.bounds hc
  generalize hblocks : umm_blocks size = k at *
  refine ends_bind.mpr ((ends_malloc h hr h0 (by omega)).imp fun r s₁ hs₁ => ?_)
  rw [hblocks] at hs₁
  rcases hs₁ with ⟨rfl, rfl, hsmall⟩ | ⟨c', hc', rfl, hfits, -, K₁, F₁, h₁, hsame₁⟩
  · simp only [Effect.ends_pure]
    exact .inl ⟨trivial, trivial, hsmall⟩
  · have hnone := h.used_none (.inr hc')
    have hne : c ≠ c' := by
      rintro rfl
      rw [hc] at hnone
      exact absurd hnone (by simp)
    have hc₁ : Function.update U c' (some (c' + k)) c = some n := by
      rw [Function.update_of_ne hne, hc]
    have hc₁' := Function.update_self c' (some (c' + k)) U
    have hapart := h₁.disjoint hc₁' hc₁ hne
    have hbounds' := h₁.bounds hc₁'
    have hdst : UMM_DATA c' + ((n - c) * 8 - 4) ≤ 8 * (c' + k) := by
      rw [UMM_DATA]
      omega
    have hsrc : UMM_DATA c + ((n - c) * 8 - 4) = 8 * n := by
      rw [UMM_DATA]
      omega
    -- the new chunk is larger than the old one, and they share no block
    have hcopied : UMM_DATA c' + ((n - c) * 8 - 4) ≤ UMM_DATA c ∨
        UMM_DATA c + ((n - c) * 8 - 4) ≤ UMM_DATA c' := by
      have h8 : UMM_DATA c = 8 * c + 4 := rfl
      have h8' : UMM_DATA c' = 8 * c' + 4 := rfl
      omega
    simp only [ends_bind, memcpy, Effect.ends_need, Effect.ends_pure]
    refine ⟨hcopied, (ends_memmove (by omega) (by omega)).imp fun _ s₂ hs₂ => ?_⟩
    have hout : ∀ a, a < 8 * c' + 4 ∨ 8 * (c' + k) ≤ a → s₂.heap a = s₁.heap a := by
      intro a ha
      rw [hs₂, State.move]
      refine if_neg fun hin => ?_
      have h8 : UMM_DATA c' = 8 * c' + 4 := rfl
      omega
    obtain ⟨h₂, -⟩ := h₁.write hc₁' hout
    refine (ends_free h₂ hc₁).imp fun _ s₃ hstep => ?_
    obtain ⟨K₃, F₃, h₃, hsame₃⟩ := hstep
    rw [Function.update_comm hne.symm] at h₃ hsame₃
    have hc₃ := Function.update_self c' (some (c' + k)) (Function.update U c none)
    have hsame₂ := hsame₁.write h₁ hc₁' hnone (by rw [hs₂]; rfl) hout
    refine .inr ⟨c', rfl, .inr hnone, ⟨K₃, F₃, h₃⟩, hsame₂.trans hsame₃ fun b m m' hm hm' => ?_,
      fun i hi hik => ?_⟩
    · have hbc' : b ≠ c' := by
        rintro rfl
        rw [hnone] at hm
        exact absurd hm (by simp)
      exact ⟨m, by rw [Function.update_of_ne hbc', hm], .inl le_rfl⟩
    · have h8 : UMM_DATA c' = 8 * c' + 4 := rfl
      have h8' : UMM_DATA c = 8 * c + 4 := rfl
      rw [hsame₃.heap c' (c' + k) (c' + k) hc₁' hc₃ _ (by omega) (by omega) (by omega), hs₂,
        State.move]
      simp only
      rw [if_pos (by omega), Nat.add_sub_cancel_left]
      exact hsame₁.heap c n n hc hc₁ _ (by omega) (by omega) (by omega)

theorem sum16_eq {a b : ℕ} (h : a + b < 0x10000) : umm_realloc.sum16 a b = a + b := by
  rw [umm_realloc.sum16, Nat.mod_eq_of_lt h]

/-- A chunk takes the free one behind it. -/
theorem ends_reallocUp {next : ℕ} (h : Layout s U K F) (hc : U c = some n)
    (hgrown : ∀ m, n ∈ F ∧ m = s.next n ∨ n ∉ F ∧ m = n → m = n + next) (hk : 0 < k)
    (hle : k ≤ n - c + next) :
    Ends (do
      umm_assimilate_up c
      splitAndFree c (umm_realloc.sum16 (n - c) next) k
      pure (some (UMM_DATA c))) s fun r s' =>
      ∃ c', r = some (UMM_DATA c') ∧ Resized U c n c' k s s' := by
  have hbounds := h.bounds hc
  refine (ends_grow h hc).bind fun _ s₁ hstep => ?_
  obtain ⟨K₁, F₁, m, h₁, hsame₁, _, hm, _⟩ := hstep
  have hc₁ := Function.update_self c (some m) U
  have hbounds₁ := h₁.bounds hc₁
  have hmn := hgrown m hm
  have hsum : umm_realloc.sum16 (n - c) next = m - c := by
    rw [sum16_eq (by omega)]
    omega
  rw [hsum]
  refine (ends_settle (n := n) (.inl rfl) (by rw [Function.update_idem]; exact h₁)
    (by rw [Function.update_idem]; exact hsame₁) (fun i hi _ => ?_) hk (by omega)).bind
    fun _ s' hs' => Effect.ends_pure.mpr ⟨c, rfl, hs'⟩
  have h8 : UMM_DATA c = 8 * c + 4 := rfl
  exact hsame₁.heap c n m hc hc₁ _ (by omega) (by omega) (by omega)

/-- A chunk is put into the free one before it. -/
theorem ends_reallocDown (h : Layout s U K F) (hc : U c = some n) (hp : s.pblock c ∈ F)
    (hk : 0 < k) (hle : k ≤ c - s.pblock c + (n - c)) :
    Ends (do
      let c' ← moveDown c (UMM_DATA c) ((n - c) * 8 - 4)
      splitAndFree c' (umm_realloc.sum16 (n - c) (c - s.pblock c)) k
      pure (some (UMM_DATA c'))) s fun r s' =>
      ∃ c', r = some (UMM_DATA c') ∧ Resized U c n c' k s s' := by
  have hext := (h.used c n).mp hc
  have hbounds := h.bounds hc
  obtain ⟨-, hpc, -⟩ := h.chunks.pblock_mem hext.mem hext.ne_zero
  have hsum : umm_realloc.sum16 (n - c) (c - s.pblock c) = n - s.pblock c := by
    rw [sum16_eq (by omega)]
    omega
  refine (ends_moveDown h hc hp (by rw [UMM_DATA]; omega)).bind fun p s₁ hstep => ?_
  obtain ⟨hp₁, K₁, F₁, h₁, hsame₁, hdata⟩ := hstep
  rw [hp₁, hsum]
  exact (ends_settle (n := n) (.inr (h.used_none (.inr hp))) h₁ hsame₁
    (fun i hi _ => hdata i (by omega)) hk (by omega)).bind
    fun _ s' hs' => Effect.ends_pure.mpr ⟨_, rfl, hs'⟩

/-- A chunk takes the free one behind it, and then it is put into the free one before it. -/
theorem ends_reallocBoth {next : ℕ} (h : Layout s U K F) (hc : U c = some n)
    (hgrown : ∀ m, n ∈ F ∧ m = s.next n ∨ n ∉ F ∧ m = n → m = n + next)
    (hp : s.pblock c ∈ F) (hk : 0 < k) (hle : k ≤ c - s.pblock c + (n - c) + next) :
    Ends (do
      umm_assimilate_up c
      let c' ← moveDown c (UMM_DATA c) ((n - c) * 8 - 4)
      splitAndFree c' (umm_realloc.sum16 (n - c) (c - s.pblock c + next)) k
      pure (some (UMM_DATA c'))) s fun r s' =>
      ∃ c', r = some (UMM_DATA c') ∧ Resized U c n c' k s s' := by
  have hext := (h.used c n).mp hc
  have hbounds := h.bounds hc
  obtain ⟨-, hpc, hpn⟩ := h.chunks.pblock_mem hext.mem hext.ne_zero
  refine (ends_grow h hc).bind fun _ s₁ hstep => ?_
  obtain ⟨K₁, F₁, m, h₁, hsame₁, _, hm, hbefore⟩ := hstep
  have hc₁ := Function.update_self c (some m) U
  have hbounds₁ := h₁.bounds hc₁
  -- what is before the chunk is as it was
  obtain ⟨hp₁, hpn₁⟩ := hbefore _ hp hpc
  have hpb : s₁.pblock c = s.pblock c := by
    have hback := (h₁.chunks.next _ (h₁.chunks.sub hp₁) (h₁.chunks.ne_of_free hp₁).2).2.2.1
    rwa [hpn₁, hpn] at hback
  have hmn := hgrown m hm
  have hsum : umm_realloc.sum16 (n - c) (c - s.pblock c + next) = m - s.pblock c := by
    rw [sum16_eq (by omega)]
    omega
  have h8 : UMM_DATA c = 8 * c + 4 := rfl
  rw [← hpb] at hp₁
  refine (ends_moveDown h₁ hc₁ hp₁ (by omega)).bind fun p s₂ hstep => ?_
  obtain ⟨hp₂, K₂, F₂, h₂, hsame₂, hdata⟩ := hstep
  rw [hpb, Function.update_idem] at h₂ hsame₂
  rw [hpb] at hdata hp₂
  rw [hp₂, hsum]
  have hnone := h.used_none (.inr hp)
  refine (ends_settle (n := n) (.inr hnone) h₂ (hsame₁.trans hsame₂ ?_) (fun i hi _ => ?_) hk
    (by omega)).bind fun _ s' hs' => Effect.ends_pure.mpr ⟨_, rfl, hs'⟩
  · -- a chunk of both layouts is neither of the two, and was there in between
    intro b b' b'' hb hb''
    have hbp : b ≠ s.pblock c := by
      rintro rfl
      rw [hnone] at hb
      exact absurd hb (by simp)
    have hbc : b ≠ c := by
      rintro rfl
      rw [Function.update_of_ne hbp, Function.update_self] at hb''
      exact absurd hb'' (by simp)
    exact ⟨b', by rw [Function.update_of_ne hbc, hb], .inl le_rfl⟩
  · rw [hdata i (by omega)]
    exact hsame₁.heap c n m hc hc₁ _ (by omega) (by omega) (by omega)

/-- **Another size for a chunk**: it is got if there is room for it without the chunk as it is, and
whatever is in the chunk is kept. -/
theorem ends_realloc {size : ℕ} (h : Layout s U K F) (hr : s.ready = true) (hc : U c = some n)
    (h0 : size ≠ 0) (hk : 0 < umm_blocks size) :
    Ends (umm_realloc (some (UMM_DATA c)) size) s fun r s' =>
      r = none ∧ s' = s ∧ ¬ Room (Function.update U c none) (umm_blocks size) ∨
      ∃ c', r = some (UMM_DATA c') ∧ Resized U c n c' (umm_blocks size) s s' := by
  have hext := (h.used c n).mp hc
  have hbounds := h.bounds hc
  have hsize := sub16_eq hbounds.2.1.le (show n < 0x10000 by omega)
  generalize hblocks : umm_blocks size = k at *
  simp only [umm_realloc, initOnce, ends_bind, Effect.ends_ask, Effect.ends_onlyIf, hr, if_neg h0,
    blockOf_data (show c < 8192 by omega), ends_NBLOCK, h.chunks.nblock_used hext.mem hext.used,
    hext.next, hsize, hblocks]
  refine ⟨fun hf => absurd hf (by simp), fun _ => ⟨by omega, ?_⟩⟩
  refine (ends_nextBlockSize h hc).imp fun next s₁ hstep => ?_
  obtain ⟨hs₁, hnext⟩ := hstep
  rw [hs₁]
  refine (ends_prevBlockSize h hc).imp fun prev s₁ hstep => ?_
  obtain ⟨hs₁, hprev⟩ := hstep
  rw [hs₁]
  have hgrown : ∀ m, n ∈ F ∧ m = s.next n ∨ n ∉ F ∧ m = n → m = n + next := by
    rintro m (⟨hn, hm⟩ | ⟨hn, hm⟩)
    · have hnn := (h.chunks.next n (h.chunks.sub hn) (h.chunks.ne_of_free hn).2).2.1
      rcases hnext with ⟨_, hnext⟩ | ⟨hn', _⟩
      · omega
      · exact absurd hn hn'
    · rcases hnext with ⟨hn', _⟩ | ⟨_, hnext⟩
      · exact absurd hn' hn
      · omega
  simp only [Effect.ends_ite]
  refine ⟨fun h1 => ?_, fun h1 => ⟨fun h2 => ?_, fun h2 => ⟨fun h3 => ?_, fun h3 =>
    ⟨fun h4 => ?_, fun h4 => ?_⟩⟩⟩⟩
  · -- the chunk is large enough as it is
    have hU : Function.update (Function.update U c none) c (some n) = U := by
      rw [Function.update_idem, ← hc, Function.update_eq_self]
    exact (ends_settle (.inl rfl) (by rw [hU]; exact h) .refl (fun _ _ _ => rfl) hk
      (by omega)).bind fun _ s' hs' => Effect.ends_pure.mpr (.inr ⟨c, rfl, hs'⟩)
  · exact (ends_reallocUp h hc hgrown hk h2).imp fun _ _ hs' => .inr hs'
  · rcases hprev with ⟨hp, rfl⟩ | ⟨-, rfl⟩
    · exact (ends_reallocDown h hc hp hk h3).imp fun _ _ hs' => .inr hs'
    · -- nothing is before it: then the chunk would have been large enough
      omega
  · rcases hprev with ⟨hp, rfl⟩ | ⟨-, rfl⟩
    · exact (ends_reallocBoth h hc hgrown hp hk h4).imp fun _ _ hs' => .inr hs'
    · omega
  · refine (ends_moveAway h hr hc h0 (by omega)).imp fun r s' hs' => ?_
    rw [hblocks] at hs'
    rcases hs' with ⟨rfl, rfl, hsmall⟩ | hs'
    · -- nothing has been found, and the neighbours are not enough: there is no room
      refine .inl ⟨rfl, rfl, ?_⟩
      have hright : n ∈ F ∧ n + next = s'.next n ∨ n ∉ F ∧ n + next = n := by
        by_cases hn : n ∈ F
        · exact .inl ⟨hn, (hgrown _ (.inl ⟨hn, rfl⟩)).symm⟩
        · exact .inr ⟨hn, (hgrown _ (.inr ⟨hn, rfl⟩)).symm⟩
      rcases hprev with ⟨hp, rfl⟩ | ⟨hp, rfl⟩
      · exact h.not_room_without hk hc hsmall (.inl ⟨hp, rfl⟩) (fun _ => rfl) hright (by omega)
      · exact h.not_room_without hk hc hsmall (.inr rfl) (fun hp' => absurd hp' hp) hright
          (by omega)
    · exact .inr hs'

end Lilu.Umm
