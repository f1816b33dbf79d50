import Mathlib.Data.Nat.Bitwise
import Lilu.Umm.Chunks

/-!
# The parts of the allocator

Each part is run on a heap with its chunks. It stays inside of the array, and does what one of the
steps on chunks does; the masks that it computes with are a bit that tells that a chunk is free, and
the number below it.

## Main results

* `Chunks.ends_disconnect`, `Chunks.ends_addToFreeList`: taking a chunk off the ring, and putting one
  on it
* `Chunks.ends_assimilate_up_free`, `Chunks.ends_assimilate_down`: joining two chunks
* `Chunks.ends_split_block`, `Chunks.ends_takeFront`: cutting a chunk
-/

namespace Lilu.Umm

open Effect (Ends ends_bind)

variable {s s' : State} {K F K' F' : Set ℕ} {P : ℕ → State → Prop} {Q : Unit → State → Prop}
  {a b c m n v : ℕ}

/-! ## Masks -/

@[simp] theorem umm_numblocks : UMM_NUMBLOCKS = 8192 := rfl

@[simp] theorem and_blockno : v &&& UMM_BLOCKNO_MASK = v % 0x8000 :=
  Nat.and_two_pow_sub_one_eq_mod v 15

@[simp] theorem and_not_freelist : v &&& (0xFFFF ^^^ UMM_FREELIST_MASK) = v % 0x8000 :=
  Nat.and_two_pow_sub_one_eq_mod v 15

theorem and_freelist (hv : v < 0x10000) : v &&& UMM_FREELIST_MASK ≠ 0 ↔ 0x8000 ≤ v := by
  have hand : v &&& UMM_FREELIST_MASK = (v.testBit 15).toNat * 2 ^ 15 := Nat.and_two_pow v 15
  rw [hand, Nat.testBit_eq_decide_div_mod_eq]
  by_cases h : v / 2 ^ 15 % 2 = 1
  · simp only [h, decide_true, Bool.toNat_true]
    omega
  · simp only [h, decide_false, Bool.toNat_false]
    omega

theorem or_freelist (hv : v < 0x8000) : v ||| UMM_FREELIST_MASK = v + 0x8000 := by
  have hor := Nat.two_pow_add_eq_or_of_lt (i := 15) (b := v) hv 1
  rw [Nat.or_comm, Nat.add_comm]
  exact hor.symm

/-! ## Running the parts -/

theorem ends_inHeap : Ends (inHeap b) s Q ↔ b < 8192 ∧ Q () s := by
  rw [inHeap, Effect.ends_need, umm_numblocks]

@[simp] theorem ends_NBLOCK : Ends (UMM_NBLOCK b) s P ↔ b < 8192 ∧ P (s.nblock b) s := by
  rw [UMM_NBLOCK, ends_bind, ends_inHeap, Effect.ends_ask]

@[simp] theorem ends_PBLOCK : Ends (UMM_PBLOCK b) s P ↔ b < 8192 ∧ P (s.pblock b) s := by
  rw [UMM_PBLOCK, ends_bind, ends_inHeap, Effect.ends_ask]

@[simp] theorem ends_NFREE : Ends (UMM_NFREE b) s P ↔ b < 8192 ∧ P (s.nfree b) s := by
  rw [UMM_NFREE, ends_bind, ends_inHeap, Effect.ends_ask]

@[simp] theorem ends_PFREE : Ends (UMM_PFREE b) s P ↔ b < 8192 ∧ P (s.pfree b) s := by
  rw [UMM_PFREE, ends_bind, ends_inHeap, Effect.ends_ask]

@[simp] theorem ends_setNBLOCK :
    Ends (setNBLOCK b v) s Q ↔ b < 8192 ∧ Q () (s.setNblock b v) := by
  rw [setNBLOCK, ends_bind, ends_inHeap, Effect.ends_change]

@[simp] theorem ends_setPBLOCK :
    Ends (setPBLOCK b v) s Q ↔ b < 8192 ∧ Q () (s.setPblock b v) := by
  rw [setPBLOCK, ends_bind, ends_inHeap, Effect.ends_change]

@[simp] theorem ends_setNFREE : Ends (setNFREE b v) s Q ↔ b < 8192 ∧ Q () (s.setNfree b v) := by
  rw [setNFREE, ends_bind, ends_inHeap, Effect.ends_change]

@[simp] theorem ends_setPFREE : Ends (setPFREE b v) s Q ↔ b < 8192 ∧ Q () (s.setPfree b v) := by
  rw [setPFREE, ends_bind, ends_inHeap, Effect.ends_change]

namespace Chunks

theorem ends_disconnect (h : Chunks s K F) (hc : c ∈ F) :
    Ends (umm_disconnect_from_free_list c) s fun _ s' =>
      Chunks s' K (F \ {c}) ∧ Frame K F K (F \ {c}) s s' ∧ s'.next = s.next := by
  have hlt := h.le c (h.sub hc)
  have hn := h.nfree_lt hc
  have hp := h.pfree_lt hc
  obtain ⟨hnc, hpc⟩ := h.link_ne hc
  have hnmem : s.nfree c ∈ insert 0 F := h.nfree_mem hc
  have hpmem : s.pfree c ∈ insert 0 F := h.pfree_mem hc
  have hnext := next_lt s c
  simp only [umm_disconnect_from_free_list, ends_bind, ends_PFREE, ends_NFREE, ends_setNFREE,
    ends_setPFREE, ends_NBLOCK, ends_setNBLOCK, and_not_freelist, State.pfree_setNfree,
    State.nblock_setNfree, State.nblock_setPfree]
  rw [State.nfree_setNfree State.nfree_lt, Function.update_of_ne hpc.symm]
  have hframe : Frame K F K (F \ {c}) s (((s.setNfree (s.pfree c) (s.nfree c)).setPfree
      (s.nfree c) (s.pfree c)).setNblock c (s.next c)) :=
    frame_setNblock (.inl (h.sub hc)) (frame_setPfree (.inl hnmem)
      (frame_setNfree (.inl hpmem) .refl))
  obtain ⟨hchunks, hsame⟩ := h.disconnect (((s.setNfree (s.pfree c) (s.nfree c)).setPfree
    (s.nfree c) (s.pfree c)).setNblock c (s.next c)) hc
    (by rw [State.nblock_setNblock (by omega)]; simp) (by simp)
    (by simp [State.nfree_setNfree State.nfree_lt]) (by simp [State.pfree_setPfree State.pfree_lt])
  exact ⟨by omega, by omega, by omega, by omega, by omega, by omega, by omega, by omega,
    hchunks, hframe, hsame⟩

/-! ## Joining -/

theorem ends_assimilate_up_used (h : Chunks s K F) (hc : Extent s K F c n) (hn : n ∉ F) :
    Ends (umm_assimilate_up c) s fun _ s' => s' = s := by
  obtain ⟨hcK, hcF, hc0, hcl, rfl⟩ := hc
  have hlt := h.le c hcK
  have hnlt := h.next_le hcK hcl
  have hfree := (h.free _ (h.next c hcK hcl).1).not.mpr hn
  simp only [umm_assimilate_up, ends_bind, ends_NBLOCK, Effect.ends_onlyIf,
    h.nblock_used hcK hcF]
  exact ⟨by omega, by omega,
    fun hand => absurd ((and_freelist State.nblock_lt).mp hand) hfree, fun _ => trivial⟩

theorem ends_assimilate_up_free (h : Chunks s K F) (hc : Extent s K F c n) (hn : n ∈ F) :
    Ends (umm_assimilate_up c) s fun _ s' => Chunks s' (K \ {n}) (F \ {n}) ∧
      Frame K F (K \ {n}) (F \ {n}) s s' ∧ s'.next = Function.update s.next c (s.next n) := by
  obtain ⟨hcK, hcF, hc0, hcl, rfl⟩ := hc
  have hlt := h.le c hcK
  have hnlt := h.next_le hcK hcl
  have hnl := (h.ne_of_free hn).2
  have hmlt := h.next_le (h.sub hn) hnl
  have hm := (h.next _ (h.sub hn) hnl).1
  have hfree := (h.free _ (h.sub hn)).mpr hn
  simp only [umm_assimilate_up, ends_bind, ends_NBLOCK, Effect.ends_onlyIf,
    h.nblock_used hcK hcF]
  refine ⟨by omega, by omega, fun _ => ?_,
    fun hand => absurd ((and_freelist State.nblock_lt).mpr hfree) hand⟩
  refine ⟨by omega, (h.ends_disconnect hn).imp fun _ s₁ hstep => ?_⟩
  obtain ⟨h₁, hframe, hsame⟩ := hstep
  have hc₁ : c ∉ F \ {s.next c} := fun hmem => hcF hmem.1
  have hn₁ : s.next c ∉ F \ {s.next c} := fun hmem => hmem.2 rfl
  have hcb := h₁.nblock_used hcK hc₁
  have hnb := h₁.nblock_used (h.sub hn) hn₁
  rw [hsame] at hcb hnb
  simp only [ends_setPBLOCK, ends_setNBLOCK, State.nblock_setPblock, hcb, hnb, and_blockno]
  rw [Nat.mod_eq_of_lt (by omega)]
  obtain ⟨hchunks, hnext⟩ := h₁.merge (v := 0) ((s₁.setPblock (s.next (s.next c)) c).setNblock c
    (s.next (s.next c))) hcK hc0 hcl (by rw [hsame]) hnl hn₁
    (by rw [State.nblock_setNblock (by omega), State.nblock_setPblock, hsame, Nat.add_zero])
    (.inr ⟨hc₁, rfl⟩)
    (by rw [State.pblock_setNblock, State.pblock_setPblock (by omega), hsame])
    (by rw [State.nfree_setNblock, State.nfree_setPblock])
    (by rw [State.pfree_setNblock, State.pfree_setPblock])
  rw [hsame] at hnext
  refine ⟨by omega, by omega, by omega, by omega, by omega, by omega, hchunks, ?_, hnext⟩
  refine hframe.trans ?_ Set.subset_union_left Set.subset_union_right
  exact frame_setNblock (.inl hcK) (frame_setPblock (.inl hm) .refl)

/-- A chunk in use becomes a part of the one before it, which is free if the mask says so. -/
theorem ends_assimilate_down (h : Chunks s K F) (hc : Extent s K F c n) (hp : s.pblock c ≠ 0)
    (hv : s.pblock c ∈ F ∧ v = UMM_FREELIST_MASK ∧ n ∉ F ∨ s.pblock c ∉ F ∧ v = 0) :
    Ends (umm_assimilate_down c v) s fun p s' => p = s.pblock c ∧ Chunks s' (K \ {c}) F ∧
      Frame K F (K \ {c}) F s s' ∧ s'.next = Function.update s.next (s.pblock c) n := by
  obtain ⟨hcK, hcF, hc0, hcl, rfl⟩ := hc
  have hlt := h.le c hcK
  have hnlt := h.next_le hcK hcl
  obtain ⟨hpK, hpc, hpn⟩ := h.pblock_mem hcK hc0
  obtain ⟨hnK, hcn, -, -⟩ := h.next c hcK hcl
  have hor : s.next c ||| v = s.next c + v := by
    rcases hv with ⟨-, rfl, -⟩ | ⟨-, rfl⟩
    · exact or_freelist (by omega)
    · exact Nat.or_zero _
  have hvlt : s.next c + v < 0x10000 := by
    rcases hv with ⟨-, rfl, -⟩ | ⟨-, rfl⟩
    · rw [UMM_FREELIST_MASK]
      omega
    · omega
  simp only [umm_assimilate_down, ends_bind, ends_PBLOCK, ends_NBLOCK, ends_setNBLOCK,
    ends_setPBLOCK, State.pblock_setNblock, h.nblock_used hcK hcF, hor,
    State.nblock_setNblock hvlt, Function.update_of_ne hpc.ne', State.pblock_setPblock
      (State.pblock_lt (s := s) (b := c)), Function.update_of_ne hcn.ne]
  obtain ⟨hchunks, hnext⟩ := h.merge ((s.setNblock (s.pblock c) (s.next c + v)).setPblock
    (s.next c) (s.pblock c)) hpK hp (by omega) hpn.symm hcl hcF
    (by rw [State.nblock_setPblock, State.nblock_setNblock hvlt]) hv
    (by rw [State.pblock_setPblock State.pblock_lt, State.pblock_setNblock])
    (by rw [State.nfree_setPblock, State.nfree_setNblock])
    (by rw [State.pfree_setPblock, State.pfree_setNblock])
  exact ⟨by omega, by omega, by omega, by omega, by omega, by omega, by omega, trivial, hchunks,
    frame_setPblock (.inl hnK) (frame_setNblock (.inl hpK) .refl), hnext⟩

/-! ## Putting on the ring, and cutting -/

theorem ends_addToFreeList (h : Chunks s K F) (hc : Extent s K F c n) (hp : s.pblock c ∉ F)
    (hn : n ∉ F) : Ends (addToFreeList c) s fun _ s' => Chunks s' K (insert c F) ∧
      Frame K F K (insert c F) s s' ∧ s'.next = s.next := by
  have hextent := hc
  obtain ⟨hcK, hcF, hc0, hcl, rfl⟩ := hc
  have hlt := h.le c hcK
  have hnlt := h.next_le hcK hcl
  have hhead : s.nfree 0 ∈ insert 0 F := h.head_mem
  have hheadlt : s.nfree 0 < 8192 := by
    rcases h.head_mem with h0 | hmem
    · omega
    · have := h.le _ (h.sub hmem)
      omega
  simp only [addToFreeList, ends_bind, ends_NFREE, ends_NBLOCK, ends_setNFREE, ends_setPFREE,
    ends_setNBLOCK, State.nfree_setPfree, State.nblock_setNfree, State.nblock_setPfree,
    h.nblock_used hcK hcF, or_freelist (next_lt s c)]
  obtain ⟨hchunks, hnext⟩ := h.push ((((((s.setPfree (s.nfree 0) c).setNfree c
    (s.nfree 0)).setPfree c 0).setNfree 0 c).setNblock c (s.next c + 0x8000))) hextent hp hn
    (by rw [State.nblock_setNblock (by omega), State.nblock_setNfree, State.nblock_setPfree,
      State.nblock_setNfree, State.nblock_setPfree])
    (by rw [State.pblock_setNblock, State.pblock_setNfree, State.pblock_setPfree,
      State.pblock_setNfree, State.pblock_setPfree])
    (by rw [State.nfree_setNblock, State.nfree_setNfree (by omega), State.nfree_setPfree,
      State.nfree_setNfree State.nfree_lt, State.nfree_setPfree])
    (by rw [State.pfree_setNblock, State.pfree_setNfree, State.pfree_setPfree (by omega),
      State.pfree_setNfree, State.pfree_setPfree (by omega)])
  refine ⟨by omega, by omega, by omega, by omega, by omega, by omega, by omega, by omega, hchunks,
    ?_, hnext⟩
  exact frame_setNblock (.inl hcK) (frame_setNfree (.inl (.inl rfl))
    (frame_setPfree (.inr (.inr (.inl rfl))) (frame_setNfree (.inr (.inr (.inl rfl)))
      (frame_setPfree (.inl hhead) .refl))))

theorem ends_split_block (h : Chunks s K F) (hc : Extent s K F c n) (hv : 0 < v) (hm : c + v < n) :
    Ends (umm_split_block c v 0) s fun _ s' => Chunks s' (insert (c + v) K) F ∧
      Frame K F (insert (c + v) K) F s s' ∧
      s'.next = Function.update (Function.update s.next (c + v) n) c (c + v) := by
  have hextent := hc
  obtain ⟨hcK, hcF, hc0, hcl, rfl⟩ := hc
  have hlt := h.le c hcK
  have hnlt := h.next_le hcK hcl
  have hmod : s.nblock c % 0x8000 = s.next c := rfl
  have hread : (s.setNblock (c + v) (s.next c)).nblock c % 0x8000 = s.next c := by
    rw [State.nblock_setNblock (by omega), Function.update_of_ne (by omega), hmod]
  simp only [umm_split_block, ends_bind, ends_NBLOCK, ends_setNBLOCK, ends_setPBLOCK,
    State.nblock_setPblock, and_blockno, Nat.or_zero, hmod, hread]
  obtain ⟨hchunks, hnext⟩ := h.split (m := c + v) ((((s.setNblock (c + v) (s.next c)).setPblock
    (c + v) c).setPblock (s.next c) (c + v)).setNblock c (c + v)) hextent (by omega) hm
    (by rw [State.nblock_setNblock (by omega), State.nblock_setPblock, State.nblock_setPblock,
      State.nblock_setNblock (by omega)])
    (by rw [State.pblock_setNblock, State.pblock_setPblock (by omega),
      State.pblock_setPblock (by omega), State.pblock_setNblock])
    (by rw [State.nfree_setNblock, State.nfree_setPblock, State.nfree_setPblock,
      State.nfree_setNblock])
    (by rw [State.pfree_setNblock, State.pfree_setPblock, State.pfree_setPblock,
      State.pfree_setNblock])
  refine ⟨by omega, by omega, by omega, by omega, by omega, by omega, hchunks, ?_, hnext⟩
  exact frame_setNblock (.inl hcK) (frame_setPblock (.inl (h.next c hcK hcl).1)
    (frame_setPblock (.inr (.inl rfl)) (frame_setNblock (.inr (.inl rfl)) .refl)))

theorem ends_takeFront (h : Chunks s K F) (hc : c ∈ F) (hv : 0 < v) (hm : c + v < s.next c) :
    Ends (takeFront c v) s fun _ s' => Chunks s' (insert (c + v) K) (insert (c + v) (F \ {c})) ∧
      Frame K F (insert (c + v) K) (insert (c + v) (F \ {c})) s s' ∧
      s'.next = Function.update (Function.update s.next (c + v) (s.next c)) c (c + v) := by
  obtain ⟨hc0, hcl⟩ := h.ne_of_free hc
  have hcK := h.sub hc
  have hlt := h.le c hcK
  have hnlt := h.next_le hcK hcl
  have hn := h.nfree_lt hc
  have hp := h.pfree_lt hc
  obtain ⟨hnc, hpc⟩ := h.link_ne hc
  have hnmem : s.nfree c ∈ insert 0 F := h.nfree_mem hc
  have hpmem : s.pfree c ∈ insert 0 F := h.pfree_mem hc
  have hmod : s.nblock c % 0x8000 = s.next c := rfl
  have hread : (s.setNblock (c + v) (s.next c + 0x8000)).nblock c % 0x8000 = s.next c := by
    rw [State.nblock_setNblock (by omega), Function.update_of_ne (by omega), hmod]
  have hlink (t : State) : (t.setNfree (s.pfree c) (c + v)).nfree c = t.nfree c := by
    rw [State.nfree_setNfree (by omega), Function.update_of_ne hpc.symm]
  simp only [takeFront, umm_split_block, ends_bind, ends_NBLOCK, ends_NFREE, ends_PFREE,
    ends_setNBLOCK, ends_setPBLOCK, ends_setNFREE, ends_setPFREE, State.nblock_setPblock,
    and_blockno, State.pfree_setNblock, State.pfree_setPblock, State.pfree_setNfree,
    State.nfree_setNblock, State.nfree_setPblock, State.nfree_setPfree, hmod, hread, hlink,
    or_freelist (next_lt s c)]
  obtain ⟨hchunks, hnext⟩ := h.shorten (m := c + v) ((((((((s.setNblock (c + v)
    (s.next c + 0x8000)).setPblock (c + v) c).setPblock (s.next c) (c + v)).setNblock c
    (c + v)).setNfree (s.pfree c) (c + v)).setPfree (c + v) (s.pfree c)).setPfree (s.nfree c)
    (c + v)).setNfree (c + v) (s.nfree c)) hc (by omega) hm
    (by rw [State.nblock_setNfree, State.nblock_setPfree, State.nblock_setPfree,
      State.nblock_setNfree, State.nblock_setNblock (by omega), State.nblock_setPblock,
      State.nblock_setPblock, State.nblock_setNblock (by omega)])
    (by rw [State.pblock_setNfree, State.pblock_setPfree, State.pblock_setPfree,
      State.pblock_setNfree, State.pblock_setNblock, State.pblock_setPblock (by omega),
      State.pblock_setPblock (by omega), State.pblock_setNblock])
    (by rw [State.nfree_setNfree State.nfree_lt, State.nfree_setPfree, State.nfree_setPfree,
      State.nfree_setNfree (by omega), State.nfree_setNblock, State.nfree_setPblock,
      State.nfree_setPblock, State.nfree_setNblock])
    (by rw [State.pfree_setNfree, State.pfree_setPfree (by omega),
      State.pfree_setPfree State.pfree_lt, State.pfree_setNfree, State.pfree_setNblock,
      State.pfree_setPblock, State.pfree_setPblock, State.pfree_setNblock])
  refine ⟨by omega, by omega, by omega, by omega, by omega, by omega, by omega, by omega, by omega,
    by omega, by omega, by omega, by omega, by omega, hchunks, ?_, hnext⟩
  exact frame_setNfree (.inr (.inr (.inl rfl))) (frame_setPfree (.inl hnmem)
    (frame_setPfree (.inr (.inr (.inl rfl))) (frame_setNfree (.inl hpmem)
      (frame_setNblock (.inl hcK) (frame_setPblock (.inl (h.next c hcK hcl).1)
        (frame_setPblock (.inr (.inl rfl)) (frame_setNblock (.inr (.inl rfl)) .refl)))))))

end Chunks

end Lilu.Umm
