import Lilu.Prelude.Threaded
import Lilu.Umm.Heap

/-!
# The chunks of the heap

The heap is cut into chunks of blocks, of which some are free. Every chunk knows the one behind it and
the one before it, the free ones make a ring with the first block, and behind a free chunk is none
that is free too. Each part of the allocator does one of five things: it takes a free chunk off the
ring, puts a chunk on it, joins a chunk with the one behind it, or cuts one that is in use or one that
is free.

## Main definitions

* `Chunks s K F`: the chunks begin at `K`, and those at `F` are free
* `Data K F a`: a place that belongs to whoever has the chunk
* `Frame K F K' F' s s'`: what is data before and after a step stays as it is

## Main results

* `Chunks.disconnect`, `Chunks.merge`, `Chunks.push`, `Chunks.split`, `Chunks.shorten`: what the five
  parts leave
-/

namespace Lilu.Umm

variable {s s' : State} {K F K' F' : Set ℕ} {a b c m n v : ℕ}

/-! ## Chunks -/

/-- Where the next chunk begins. -/
def State.next (s : State) (b : ℕ) : ℕ :=
  s.nblock b % 0x8000

structure Chunks (s : State) (K F : Set ℕ) : Prop where
  first : s.nblock 0 = 1
  last : s.nblock 8191 = 0
  zero_mem : 0 ∈ K
  last_mem : 8191 ∈ K
  le : ∀ b ∈ K, b ≤ 8191
  next : ∀ b ∈ K, b ≠ 8191 → s.next b ∈ K ∧ b < s.next b ∧ s.pblock (s.next b) = b ∧
    ∀ x ∈ K, x ≤ b ∨ s.next b ≤ x
  free : ∀ b ∈ K, 0x8000 ≤ s.nblock b ↔ b ∈ F
  ring : ∃ l, Ring s.nfree s.pfree 0 l ∧ ∀ b, b ∈ l ↔ b ∈ F
  sub : F ⊆ K
  apart : ∀ b ∈ F, s.next b ∉ F

/-- A place that is neither in the header of a chunk nor in a link of the ring. -/
def Data (K F : Set ℕ) (a : ℕ) : Prop :=
  (a / 8 ∈ K → 4 ≤ a % 8) ∧ (a / 8 ∈ insert 0 F → a % 8 < 4)

structure Frame (K F K' F' : Set ℕ) (s s' : State) : Prop where
  ready : s'.ready = s.ready
  heap : ∀ a, Data K F a → Data K' F' a → s'.heap a = s.heap a

/-- A chunk in use, from its first block to the one behind it. -/
@[mk_iff]
structure Extent (s : State) (K F : Set ℕ) (b n : ℕ) : Prop where
  mem : b ∈ K
  used : b ∉ F
  ne_zero : b ≠ 0
  ne_last : b ≠ 8191
  next : s.next b = n

theorem Frame.refl : Frame K F K' F' s s :=
  ⟨rfl, fun _ _ _ => rfl⟩

theorem Frame.trans {s'' : State} {K'' F'' : Set ℕ} (h : Frame K F K' F' s s')
    (h' : Frame K' F' K'' F'' s' s'') (hK : K' ⊆ K ∪ K'') (hF : F' ⊆ F ∪ F'') :
    Frame K F K'' F'' s s'' := by
  refine ⟨h'.ready.trans h.ready, fun a ha ha'' => ?_⟩
  have ha' : Data K' F' a := by
    constructor
    · intro hmem
      rcases hK hmem with hmem | hmem
      · exact ha.1 hmem
      · exact ha''.1 hmem
    · rintro (hmem | hmem)
      · exact ha.2 (.inl hmem)
      · rcases hF hmem with hmem | hmem
        · exact ha.2 (.inr hmem)
        · exact ha''.2 (.inr hmem)
  rw [h'.heap a ha' ha'', h.heap a ha ha']

namespace Chunks

theorem next_lt (s : State) (b : ℕ) : s.next b < 0x8000 :=
  Nat.mod_lt _ (by omega)

theorem zero_notMem (h : Chunks s K F) : 0 ∉ F := by
  obtain ⟨l, hring, hl⟩ := h.ring
  rw [← hl]
  exact hring.head_notMem

theorem last_notMem (h : Chunks s K F) : 8191 ∉ F := by
  rw [← h.free 8191 h.last_mem, h.last]
  omega

theorem ne_of_free (h : Chunks s K F) (hc : c ∈ F) : c ≠ 0 ∧ c ≠ 8191 := by
  constructor
  · rintro rfl
    exact h.zero_notMem hc
  · rintro rfl
    exact h.last_notMem hc

theorem nblock_used (h : Chunks s K F) (hc : c ∈ K) (hu : c ∉ F) : s.nblock c = s.next c := by
  have := mt (h.free c hc).mp hu
  rw [State.next, Nat.mod_eq_of_lt (by omega)]

theorem next_le (h : Chunks s K F) (hc : c ∈ K) (hl : c ≠ 8191) : s.next c ≤ 8191 :=
  h.le _ (h.next c hc hl).1

theorem nfree_mem (h : Chunks s K F) (hc : c ∈ F) : s.nfree c = 0 ∨ s.nfree c ∈ F := by
  obtain ⟨l, hring, hl⟩ := h.ring
  simpa only [hl] using hring.mem_next ((hl c).mpr hc)

theorem pfree_mem (h : Chunks s K F) (hc : c ∈ F) : s.pfree c = 0 ∨ s.pfree c ∈ F := by
  obtain ⟨l, hring, hl⟩ := h.ring
  simpa only [hl] using hring.mem_prev ((hl c).mpr hc)

theorem link_ne (h : Chunks s K F) (hc : c ∈ F) : s.nfree c ≠ c ∧ s.pfree c ≠ c := by
  obtain ⟨l, hring, hl⟩ := h.ring
  exact hring.ne_next ((hl c).mpr hc)

theorem nfree_lt (h : Chunks s K F) (hc : c ∈ F) : s.nfree c < 8192 := by
  rcases h.nfree_mem hc with h0 | hmem
  · omega
  · have := h.le _ (h.sub hmem)
    omega

theorem pfree_lt (h : Chunks s K F) (hc : c ∈ F) : s.pfree c < 8192 := by
  rcases h.pfree_mem hc with h0 | hmem
  · omega
  · have := h.le _ (h.sub hmem)
    omega

theorem head_mem (h : Chunks s K F) : s.nfree 0 = 0 ∨ s.nfree 0 ∈ F := by
  obtain ⟨l, hring, hl⟩ := h.ring
  rw [hring.next_head, ← hl]
  cases l with
  | nil => exact .inl rfl
  | cons a l => exact .inr List.mem_cons_self

/-- The chunks cover the blocks. -/
theorem exists_chunk (h : Chunks s K F) (n : ℕ) (hn : n < 8191) :
    ∃ c ∈ K, c ≠ 8191 ∧ c ≤ n ∧ n < s.next c := by
  induction n with
  | zero =>
    exact ⟨0, h.zero_mem, by omega, le_rfl, (h.next 0 h.zero_mem (by omega)).2.1⟩
  | succ n ih =>
    obtain ⟨c, hc, hcl, hle, hlt⟩ := ih (by omega)
    by_cases hnext : n + 1 < s.next c
    · exact ⟨c, hc, hcl, by omega, hnext⟩
    · have heq : s.next c = n + 1 := by omega
      have hmem := (h.next c hc hcl).1
      rw [heq] at hmem
      exact ⟨n + 1, hmem, by omega, le_rfl, (h.next _ hmem (by omega)).2.1⟩

/-- Every chunk but the first one has one before it. -/
theorem pblock_mem (h : Chunks s K F) (hc : c ∈ K) (h0 : c ≠ 0) :
    s.pblock c ∈ K ∧ s.pblock c < c ∧ s.next (s.pblock c) = c := by
  have hle := h.le c hc
  obtain ⟨p, hp, hpl, hpc, hcp⟩ := h.exists_chunk (c - 1) (by omega)
  obtain ⟨-, -, hpb, hbetween⟩ := h.next p hp hpl
  have heq : s.next p = c := by
    rcases hbetween c hc with hle' | hle'
    · omega
    · omega
  rw [heq] at hpb
  rw [hpb]
  exact ⟨hp, by omega, heq⟩

/-! ## Writing -/

theorem frame_heap {set : ℕ → ℕ → State → State} {i : ℕ}
    (hset : ∀ b v s, (set b v s).heap = put16 s.heap (8 * b + i) v)
    (hready : ∀ b v s, (set b v s).ready = s.ready)
    (hout : ∀ a, Data K F a → Data K' F' a → a ≠ 8 * b + i ∧ a ≠ 8 * b + i + 1)
    (h : Frame K F K' F' s s') : Frame K F K' F' s (set b v s') := by
  refine ⟨(hready b v s').trans h.ready, fun a ha ha' => ?_⟩
  obtain ⟨h0, h1⟩ := hout a ha ha'
  rw [hset, put16_of_ne h0 h1, h.heap a ha ha']

theorem not_header (hb : b ∈ K ∪ K') (hd : Data K F a) (hd' : Data K' F' a) :
    a / 8 = b → 4 ≤ a % 8 := by
  rintro rfl
  exact hb.elim hd.1 hd'.1

theorem not_link (hb : b ∈ insert 0 F ∪ insert 0 F') (hd : Data K F a) (hd' : Data K' F' a) :
    a / 8 = b → a % 8 < 4 := by
  rintro rfl
  exact hb.elim hd.2 hd'.2

theorem frame_setNblock (hb : b ∈ K ∪ K') (h : Frame K F K' F' s s') :
    Frame K F K' F' s (s'.setNblock b v) :=
  frame_heap (i := 0) (fun _ _ _ => rfl) (fun _ _ _ => rfl)
    (fun a hd hd' => by have := not_header hb hd hd'; omega) h

theorem frame_setPblock (hb : b ∈ K ∪ K') (h : Frame K F K' F' s s') :
    Frame K F K' F' s (s'.setPblock b v) :=
  frame_heap (fun _ _ _ => rfl) (fun _ _ _ => rfl)
    (fun a hd hd' => by have := not_header hb hd hd'; omega) h

theorem frame_setNfree (hb : b ∈ insert 0 F ∪ insert 0 F') (h : Frame K F K' F' s s') :
    Frame K F K' F' s (s'.setNfree b v) :=
  frame_heap (fun _ _ _ => rfl) (fun _ _ _ => rfl)
    (fun a hd hd' => by have := not_link hb hd hd'; omega) h

theorem frame_setPfree (hb : b ∈ insert 0 F ∪ insert 0 F') (h : Frame K F K' F' s s') :
    Frame K F K' F' s (s'.setPfree b v) :=
  frame_heap (fun _ _ _ => rfl) (fun _ _ _ => rfl)
    (fun a hd hd' => by have := not_link hb hd hd'; omega) h

/-! ## Taking a chunk off the ring -/

theorem disconnect (h : Chunks s K F) (s' : State) (hc : c ∈ F)
    (hnb : s'.nblock = Function.update s.nblock c (s.next c)) (hpb : s'.pblock = s.pblock)
    (hnf : s'.nfree = Function.update s.nfree (s.pfree c) (s.nfree c))
    (hpf : s'.pfree = Function.update s.pfree (s.nfree c) (s.pfree c)) :
    Chunks s' K (F \ {c}) ∧ s'.next = s.next := by
  obtain ⟨hc0, hcl⟩ := h.ne_of_free hc
  have hnext : s'.next = s.next := by
    ext b
    rw [State.next, hnb, Function.update_apply]
    split_ifs with hb
    · rw [hb, State.next, Nat.mod_mod]
    · rfl
  refine ⟨⟨?_, ?_, h.zero_mem, h.last_mem, h.le, ?_, ?_, ?_, ?_, ?_⟩, hnext⟩
  · rw [hnb, Function.update_of_ne hc0.symm, h.first]
  · rw [hnb, Function.update_of_ne hcl.symm, h.last]
  · rw [hnext, hpb]
    exact h.next
  · intro b hb
    rw [hnb, Function.update_apply, Set.mem_sdiff, Set.mem_singleton_iff, ← h.free b hb]
    have := next_lt s c
    split_ifs with hbc
    · omega
    · tauto
  · -- the two neighbours on the ring may be one, or the head
    obtain ⟨l, hring, hl⟩ := h.ring
    have hne := h.link_ne hc
    have hunlink : ∃ l', Ring s'.nfree s'.pfree 0 l' ∧ ∀ x, x ∈ l' ↔ x ∈ l ∧ x ≠ c := hring.unlink
      ((hl c).mpr hc) (by rw [hnf, Function.update_self]) (by rw [hpf, Function.update_self])
      (fun x hx _ => by rw [hnf, Function.update_of_ne hx])
      (fun x hx _ => by rw [hpf, Function.update_of_ne hx])
    obtain ⟨l', hring', hl'⟩ := hunlink
    exact ⟨l', hring', fun b => by rw [hl', hl, Set.mem_sdiff, Set.mem_singleton_iff]⟩
  · exact Set.sdiff_subset.trans h.sub
  · intro b hb
    rw [hnext]
    exact fun hmem => h.apart b hb.1 hmem.1

/-! ## Joining -/

/-- A chunk that is joined with the one behind it is free if it was. -/
theorem merge (h : Chunks s K F) (s' : State) (hc : c ∈ K) (hc0 : c ≠ 0) (hcl : c ≠ 8191)
    (hn : n = s.next c) (hnl : n ≠ 8191) (hnu : n ∉ F)
    (hnb : s'.nblock = Function.update s.nblock c (s.next n + v))
    (hv : c ∈ F ∧ v = 0x8000 ∧ s.next n ∉ F ∨ c ∉ F ∧ v = 0)
    (hpb : s'.pblock = Function.update s.pblock (s.next n) c)
    (hnf : s'.nfree = s.nfree) (hpf : s'.pfree = s.pfree) :
    Chunks s' (K \ {n}) F ∧ s'.next = Function.update s.next c (s.next n) := by
  obtain ⟨hnK, hcn, hpn, hbetween⟩ := h.next c hc hcl
  rw [← hn] at hnK hcn hpn hbetween
  obtain ⟨hmK, hnm, hpm, hbetween'⟩ := h.next n hnK hnl
  have hlt := next_lt s n
  have hnext : s'.next = Function.update s.next c (s.next n) := by
    ext b
    rw [State.next, hnb, Function.update_apply, Function.update_apply]
    split_ifs with hb
    · omega
    · rfl
  refine ⟨⟨?_, ?_, ⟨h.zero_mem, ?_⟩, ⟨h.last_mem, ?_⟩, fun b hb => h.le b hb.1, ?_, ?_, ?_, ?_, ?_⟩,
    hnext⟩
  · rw [hnb, Function.update_of_ne hc0.symm, h.first]
  · rw [hnb, Function.update_of_ne hcl.symm, h.last]
  · rw [Set.mem_singleton_iff]
    omega
  · rw [Set.mem_singleton_iff]
    exact fun heq => hnl heq.symm
  · rintro b ⟨hb, hbn⟩ hbl
    rw [Set.mem_singleton_iff] at hbn
    rw [hnext, hpb, Function.update_apply]
    split_ifs with hbc
    · -- no chunk begins between the two that are joined, nor behind them before the next
      rw [hbc, Function.update_self]
      refine ⟨⟨hmK, by rw [Set.mem_singleton_iff]; omega⟩, by omega, rfl, fun x hx => ?_⟩
      have hxn := hx.2
      rw [Set.mem_singleton_iff] at hxn
      rcases hbetween x hx.1 with hle | hle
      · exact .inl hle
      · rcases hbetween' x hx.1 with hle' | hle'
        · exact absurd (Nat.le_antisymm hle' hle) hxn
        · exact .inr hle'
    · obtain ⟨hbK, hlt', hpb', hbet⟩ := h.next b hb hbl
      have hne : s.next b ≠ n := by
        intro heq
        rw [heq] at hpb'
        omega
      have hnem : s.next b ≠ s.next n := by
        intro heq
        rw [heq, hpm] at hpb'
        exact hbn hpb'.symm
      rw [Function.update_of_ne hnem]
      exact ⟨⟨hbK, hne⟩, hlt', hpb', fun x hx => hbet x hx.1⟩
  · rintro b ⟨hb, -⟩
    rw [hnb, Function.update_apply]
    split_ifs with hbc
    · rw [hbc]
      rcases hv with ⟨hcF, rfl, -⟩ | ⟨hcF, rfl⟩
      · exact iff_of_true (by omega) hcF
      · exact iff_of_false (by omega) hcF
    · exact h.free b hb
  · rw [hnf, hpf]
    exact h.ring
  · intro b hb
    refine ⟨h.sub hb, ?_⟩
    rintro rfl
    exact hnu hb
  · intro b hb
    rw [hnext, Function.update_apply]
    split_ifs with hbc
    · rw [hbc] at hb
      rcases hv with ⟨-, -, hmF⟩ | ⟨hcF, -⟩
      · exact hmF
      · exact absurd hb hcF
    · exact h.apart b hb

/-! ## Putting a chunk on the ring -/

theorem push (h : Chunks s K F) (s' : State) (hc : Extent s K F c n) (hpu : s.pblock c ∉ F)
    (hnu : n ∉ F)
    (hnb : s'.nblock = Function.update s.nblock c (n + 0x8000)) (hpb : s'.pblock = s.pblock)
    (hnf : s'.nfree = Function.update (Function.update s.nfree c (s.nfree 0)) 0 c)
    (hpf : s'.pfree = Function.update (Function.update s.pfree (s.nfree 0) c) c 0) :
    Chunks s' K (insert c F) ∧ s'.next = s.next := by
  obtain ⟨hcK, hcF, hc0, hcl, rfl⟩ := hc
  have hlt := next_lt s c
  have hnext : s'.next = s.next := by
    ext b
    rw [State.next, hnb, Function.update_apply]
    split_ifs with hb
    · rw [hb, Nat.add_mod_right, Nat.mod_eq_of_lt hlt]
    · rfl
  refine ⟨⟨?_, ?_, h.zero_mem, h.last_mem, h.le, ?_, ?_, ?_, ?_, ?_⟩, hnext⟩
  · rw [hnb, Function.update_of_ne hc0.symm, h.first]
  · rw [hnb, Function.update_of_ne hcl.symm, h.last]
  · rw [hnext, hpb]
    exact h.next
  · intro b hb
    rw [hnb, Function.update_apply, Set.mem_insert_iff, ← h.free b hb]
    split_ifs with hbc
    · exact iff_of_true (by omega) (.inl hbc)
    · tauto
  · obtain ⟨l, hring, hl⟩ := h.ring
    have hhead : s.nfree 0 ≠ c := by
      rcases h.head_mem with h0 | hmem
      · rw [h0]
        exact hc0.symm
      · rintro rfl
        exact hcF hmem
    refine ⟨c :: l, hring.push ?_ ?_ ?_ ?_ ?_ (fun x hx hxc => ?_) (fun x hx hxc => ?_),
      fun b => by rw [List.mem_cons, hl, Set.mem_insert_iff]⟩
    · rw [List.mem_cons, hl]
      tauto
    · rw [hnf, Function.update_self]
    · rw [hnf, Function.update_of_ne hc0, Function.update_self]
    · rw [hpf, Function.update_of_ne hhead, Function.update_self]
    · rw [hpf, Function.update_self]
    · rw [hnf, Function.update_of_ne hx, Function.update_of_ne hxc]
    · rw [hpf, Function.update_of_ne hxc, Function.update_of_ne hx]
  · exact Set.insert_subset hcK h.sub
  · -- no two free chunks are neighbours: those of the new one are in use
    rintro b (rfl | hb)
    · rw [hnext]
      rintro (heq | hmem)
      · have := (h.next b hcK hcl).2.1
        omega
      · exact hnu hmem
    · rw [hnext]
      rintro (heq | hmem)
      · have hpb' := (h.next b (h.sub hb) (h.ne_of_free hb).2).2.2.1
        rw [heq] at hpb'
        exact hpu (hpb' ▸ hb)
      · exact h.apart b hb hmem

/-! ## Cutting a chunk -/

/-- The chunks when one is cut, but for the ring. -/
theorem cut (h : Chunks s K F) (hc : c ∈ K) (hcl : c ≠ 8191) (hcm : c < m) (hmn : m < s.next c)
    (hnext : s'.next = Function.update (Function.update s.next m (s.next c)) c m)
    (hpb : s'.pblock = Function.update (Function.update s.pblock m c) (s.next c) m) :
    m ∉ K ∧ ∀ b ∈ insert m K, b ≠ 8191 → s'.next b ∈ insert m K ∧ b < s'.next b ∧
      s'.pblock (s'.next b) = b ∧ ∀ x ∈ insert m K, x ≤ b ∨ s'.next b ≤ x := by
  obtain ⟨hnK, hcn, hpn, hbetween⟩ := h.next c hc hcl
  have hmK : m ∉ K := by
    intro hmem
    rcases hbetween m hmem with hle | hle
    · omega
    · omega
  refine ⟨hmK, ?_⟩
  rintro b (rfl | hb) hbl
  · rw [hnext, hpb, Function.update_of_ne (by omega), Function.update_self, Function.update_self]
    refine ⟨.inr hnK, hmn, rfl, ?_⟩
    rintro x (rfl | hx)
    · exact .inl le_rfl
    · rcases hbetween x hx with hle | hle
      · exact .inl (by omega)
      · exact .inr hle
  · have hbm : b ≠ m := fun heq => hmK (heq ▸ hb)
    by_cases hbc : b = c
    · rw [hbc, hnext, hpb, Function.update_self, Function.update_of_ne (by omega),
        Function.update_self]
      refine ⟨.inl rfl, hcm, rfl, ?_⟩
      rintro x (rfl | hx)
      · exact .inr le_rfl
      · rcases hbetween x hx with hle | hle
        · exact .inl hle
        · exact .inr (by omega)
    · obtain ⟨hbK, hlt, hpb', hbet⟩ := h.next b hb hbl
      have hne : s.next b ≠ s.next c := by
        intro heq
        rw [heq, hpn] at hpb'
        exact hbc hpb'.symm
      have hnm : s.next b ≠ m := fun heq => hmK (heq ▸ hbK)
      rw [hnext, hpb, Function.update_of_ne hbc, Function.update_of_ne hbm,
        Function.update_of_ne hne, Function.update_of_ne hnm]
      refine ⟨.inr hbK, hlt, hpb', ?_⟩
      -- the cut lies inside of `c`, so that it is not in another chunk
      rintro x (rfl | hx)
      · rcases hbet c hc with hle | hle
        · rcases hbetween b hb with hle' | hle'
          · exact absurd (Nat.le_antisymm hle' hle) hbc
          · exact .inl (by omega)
        · exact .inr (by omega)
      · exact hbet x hx

/-- A chunk in use. -/
theorem split (h : Chunks s K F) (s' : State) (hc : Extent s K F c n) (hcm : c < m) (hmn : m < n)
    (hnb : s'.nblock = Function.update (Function.update s.nblock m n) c m)
    (hpb : s'.pblock = Function.update (Function.update s.pblock m c) n m)
    (hnf : s'.nfree = s.nfree) (hpf : s'.pfree = s.pfree) :
    Chunks s' (insert m K) F ∧
      s'.next = Function.update (Function.update s.next m n) c m := by
  obtain ⟨hcK, hcF, hc0, hcl, rfl⟩ := hc
  have hle := h.next_le hcK hcl
  have hnext : s'.next = Function.update (Function.update s.next m (s.next c)) c m := by
    ext b
    rw [State.next, hnb, Function.update_apply, Function.update_apply, Function.update_apply,
      Function.update_apply]
    split_ifs with hb hb'
    · omega
    · omega
    · rfl
  obtain ⟨hmK, hcut⟩ := h.cut hcK hcl hcm hmn hnext hpb
  refine ⟨⟨?_, ?_, .inr h.zero_mem, .inr h.last_mem, ?_, hcut, ?_, ?_, ?_, ?_⟩, hnext⟩
  · rw [hnb, Function.update_of_ne hc0.symm, Function.update_of_ne (by omega), h.first]
  · rw [hnb, Function.update_of_ne hcl.symm, Function.update_of_ne (by omega), h.last]
  · rintro b (rfl | hb)
    · omega
    · exact h.le b hb
  · intro b hb
    rw [hnb, Function.update_apply, Function.update_apply]
    split_ifs with hbc hbm
    · rw [hbc]
      exact iff_of_false (by omega) hcF
    · rw [hbm]
      exact iff_of_false (by omega) fun hmem => hmK (h.sub hmem)
    · exact h.free b (hb.resolve_left hbm)
  · rw [hnf, hpf]
    exact h.ring
  · exact h.sub.trans (Set.subset_insert m K)
  · intro b hb
    have hbc : b ≠ c := fun heq => hcF (heq ▸ hb)
    have hbm : b ≠ m := fun heq => hmK (heq ▸ h.sub hb)
    rw [hnext, Function.update_of_ne hbc, Function.update_of_ne hbm]
    exact h.apart b hb

/-- A free chunk, whose rest takes its place on the ring. -/
theorem shorten (h : Chunks s K F) (s' : State) (hc : c ∈ F) (hcm : c < m) (hmn : m < s.next c)
    (hnb : s'.nblock = Function.update (Function.update s.nblock m (s.next c + 0x8000)) c m)
    (hpb : s'.pblock = Function.update (Function.update s.pblock m c) (s.next c) m)
    (hnf : s'.nfree = Function.update (Function.update s.nfree (s.pfree c) m) m (s.nfree c))
    (hpf : s'.pfree = Function.update (Function.update s.pfree m (s.pfree c)) (s.nfree c) m) :
    Chunks s' (insert m K) (insert m (F \ {c})) ∧
      s'.next = Function.update (Function.update s.next m (s.next c)) c m := by
  obtain ⟨hc0, hcl⟩ := h.ne_of_free hc
  have hle := h.next_le (h.sub hc) hcl
  have hlt := next_lt s c
  have hnext : s'.next = Function.update (Function.update s.next m (s.next c)) c m := by
    ext b
    rw [State.next, hnb, Function.update_apply, Function.update_apply, Function.update_apply,
      Function.update_apply]
    split_ifs with hb hb'
    · omega
    · omega
    · rfl
  obtain ⟨hmK, hcut⟩ := h.cut (h.sub hc) hcl hcm hmn hnext hpb
  have hmF : m ∉ F := fun hmem => hmK (h.sub hmem)
  refine ⟨⟨?_, ?_, .inr h.zero_mem, .inr h.last_mem, ?_, hcut, ?_, ?_, ?_, ?_⟩, hnext⟩
  · rw [hnb, Function.update_of_ne hc0.symm, Function.update_of_ne (by omega), h.first]
  · rw [hnb, Function.update_of_ne hcl.symm, Function.update_of_ne (by omega), h.last]
  · rintro b (rfl | hb)
    · omega
    · exact h.le b hb
  · intro b hb
    rw [hnb, Function.update_apply, Function.update_apply, Set.mem_insert_iff, Set.mem_sdiff,
      Set.mem_singleton_iff]
    split_ifs with hbc hbm
    · exact iff_of_false (by omega) (by omega)
    · exact iff_of_true (by omega) (.inl hbm)
    · rw [h.free b (hb.resolve_left hbm)]
      tauto
  · -- the rest has the links that the chunk had
    obtain ⟨l, hring, hl⟩ := h.ring
    have hne := h.link_ne hc
    have hmem : ∀ x, x = 0 ∨ x ∈ F → x ≠ m := by
      rintro x (rfl | hx) rfl
      · omega
      · exact hmF hx
    have hp := hmem _ (h.pfree_mem hc)
    have hn := hmem _ (h.nfree_mem hc)
    have hreplace : ∃ l', Ring s'.nfree s'.pfree 0 l' ∧ ∀ x, x ∈ l' ↔ x = m ∨ x ∈ l ∧ x ≠ c :=
      hring.replace ((hl c).mpr hc) (by rw [List.mem_cons, hl]; exact fun hx => hmem m hx rfl)
      (by rw [hnf, Function.update_of_ne hp, Function.update_self])
      (by rw [hpf, Function.update_of_ne hn.symm, Function.update_self])
      (by rw [hpf, Function.update_self]) (by rw [hnf, Function.update_self])
      (fun x hx _ hxm => by rw [hnf, Function.update_of_ne hxm, Function.update_of_ne hx])
      (fun x hx _ hxm => by rw [hpf, Function.update_of_ne hx, Function.update_of_ne hxm])
    obtain ⟨l', hring', hl'⟩ := hreplace
    exact ⟨l', hring', fun b => by
      rw [hl', hl, Set.mem_insert_iff, Set.mem_sdiff, Set.mem_singleton_iff]⟩
  · exact Set.insert_subset_insert (Set.sdiff_subset.trans h.sub)
  · rintro b (rfl | ⟨hb, hbc⟩)
    · rw [hnext, Function.update_of_ne (by omega), Function.update_self]
      rintro (heq | ⟨hmem, -⟩)
      · omega
      · exact h.apart c hc hmem
    · have hbm : b ≠ m := fun heq => hmF (heq ▸ hb)
      rw [hnext, Function.update_of_ne hbc, Function.update_of_ne hbm]
      rintro (heq | ⟨hmem, -⟩)
      · exact hmK (heq ▸ (h.next b (h.sub hb) (h.ne_of_free hb).2).1)
      · exact h.apart b hb hmem

end Chunks

end Lilu.Umm
