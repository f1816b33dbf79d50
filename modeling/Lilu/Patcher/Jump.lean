import Mathlib.Tactic
import Lilu.Patcher.Route

/-!
# Jumps in memory

Whatever way a jump is written, the memory afterwards is the one before with the bytes of the jump
at the entry, and the target in the address slot if there is one. From these bytes the jump is read
back.

## Main definitions

* `Jump.write`: the memory with a jump in it
* `Jump.Stands`: a jump is in memory
* `Jump.Reaches`: what the displacement needs in order to be read back
* `Jump.wide`, `Jump.pieces`: the memory after the wide store, and after the patches

## Main results

* `Jump.Stands.reads`: a jump that stands in memory is read back
* `Jump.wide_eq_write`, `Jump.pieces_eq_write`: both ways to write leave the same memory
-/

namespace Lilu.Patcher

variable {m m' : Mem} {entry dest : Addr} {j : Jump}

/-! ## Prefixes -/

theorem read_eight (m : Mem) (a : Addr) : (read 8 m a).toNat = (m a).toNat := by
  have hload : load m a 1 = [m a] := by simp [load]
  have := (m a).toNat_lt
  rw [read, hload, BitVec.toNat_ofNat]
  simp [leNat]

theorem read_sixteen (m : Mem) (a : Addr) :
    (read 16 m a).toNat = (m a).toNat + 256 * (m (a + 1)).toNat := by
  have hload : load m a 2 = [m a, m (a + 1)] := by simp [load, List.range_succ]
  have := (m a).toNat_lt
  have := (m (a + 1)).toNat_lt
  rw [read, hload, BitVec.toNat_ofNat]
  simp only [leNat]
  omega

theorem read_smallJumpPrefix_iff : read 8 m entry = smallJumpPrefix ↔ m entry = 0xE9 := by
  rw [← BitVec.toNat_inj, read_eight, ← UInt8.toNat_inj]
  rfl

theorem read_longJumpPrefix_iff :
    read 16 m entry = longJumpPrefix ↔ m entry = 0xFF ∧ m (entry + 1) = 0x25 := by
  have hsum : longJumpPrefix.toNat = 0xFF + 256 * 0x25 := rfl
  have h₀ := (m entry).toNat_lt
  have h₁ := (m (entry + 1)).toNat_lt
  have hff : (0xFF : UInt8).toNat = 0xFF := rfl
  have h25 : (0x25 : UInt8).toNat = 0x25 := rfl
  rw [← BitVec.toNat_inj, read_sixteen, ← UInt8.toNat_inj, ← UInt8.toNat_inj, hsum, hff, h25]
  omega

/-- Code that does not start with a jump. -/
theorem readChain_snd_eq_none_iff : (readChain m entry).2 = none ↔
    ¬ (m entry = 0xFF ∧ m (entry + 1) = 0x25) ∧ m entry ≠ 0xE9 := by
  rw [← read_longJumpPrefix_iff, Ne, ← read_smallJumpPrefix_iff, readChain]
  split_ifs with hlong hshort
  · exact iff_of_false (by simp) fun hno => hno.1 hlong
  · exact iff_of_false (by simp) fun hno => hno.2 hshort
  · exact iff_of_true rfl ⟨hlong, hshort⟩

theorem bytes_smallJumpPrefix : bytes smallJumpPrefix = [0xE9] := rfl

theorem bytes_longJumpPrefix : bytes longJumpPrefix = [0xFF, 0x25] := rfl

/-! ## The memory with a jump -/

namespace Jump

@[simp] theorem length_code (j : Jump) : (j.code entry dest).length = j.size := by
  cases j <;> simp [code, opcode, size, smallJump, mediumJump, longJump]

theorem size_le_width (j : Jump) : j.size ≤ j.width := by
  cases j <;> simp [size, width, smallJump, mediumJump, longJump]

theorem size_le (j : Jump) : j.size ≤ 14 := by
  cases j <;> simp [size, smallJump, mediumJump, longJump]

/-- The memory before the bytes at the entry are written: a slot has got the target. -/
def fill (dest : Addr) (m : Mem) : Jump → Mem
  | medium addressSlot => store m addressSlot (bytes dest)
  | _ => m

/-- The memory with the jump in it. -/
def write (entry dest : Addr) (m : Mem) (j : Jump) : Mem :=
  store (j.fill dest m) entry (j.code entry dest)

/-- The jump's displacement is not cut off, and its slot is not in the function. -/
def Reaches (entry dest : Addr) : Jump → Prop
  | short => Near (dest - (entry + 5))
  | medium addressSlot =>
    Near (addressSlot - (entry + 6)) ∧ Disjoint (block addressSlot 8) (block entry 8)
  | long => True

/-- The addresses that a jump occupies. -/
def cells (entry : Addr) (j : Jump) : Set Addr :=
  match j with
  | medium addressSlot => block entry mediumJump ∪ block addressSlot 8
  | j => block entry j.size

/-- Nothing but the jump and its slot changes. -/
theorem write_eqOn (j : Jump) : Set.EqOn (j.write entry dest m) m (j.cells entry)ᶜ := by
  intro x hx
  cases j with
  | medium addressSlot =>
    rw [cells, Set.mem_compl_iff, Set.mem_union, not_or] at hx
    rw [write, store_of_notMem (by rw [length_code]; exact hx.1), fill]
    exact store_of_notMem (by rw [length_bytes]; exact hx.2)
  | short => exact store_of_notMem (by rw [length_code]; exact hx)
  | long => exact store_of_notMem (by rw [length_code]; exact hx)

/-- The jump stands in memory. -/
def Stands (entry dest : Addr) (m : Mem) (j : Jump) : Prop :=
  load m entry j.size = j.code entry dest ∧
    ∀ addressSlot, j = medium addressSlot → load m addressSlot 8 = bytes dest

theorem Stands.congr (h : Set.EqOn m' m (j.cells entry)) (hj : j.Stands entry dest m) :
    j.Stands entry dest m' := by
  constructor
  · refine (load_congr ?_).trans hj.1
    cases j with
    | medium addressSlot => exact h.mono Set.subset_union_left
    | short => exact h
    | long => exact h
  · rintro addressSlot rfl
    exact (load_congr (h.mono Set.subset_union_right)).trans (hj.2 addressSlot rfl)

theorem stands_write (hj : j.Reaches entry dest) : j.Stands entry dest (j.write entry dest m) := by
  have hcode : j.size ≤ 2 ^ 64 := j.size_le.trans (by decide)
  constructor
  · have h := @load_store 64 UInt8 (j.fill dest m) entry (j.code entry dest)
      (by rwa [length_code])
    rwa [length_code] at h
  · rintro addressSlot rfl
    have hcells : Disjoint (block entry mediumJump) (block addressSlot 8) :=
      hj.2.symm.mono_left (block_mono (by decide))
    rw [write, load_store_disjoint (by rwa [length_code])]
    exact load_store (by rw [length_bytes]; decide)

/-- The two parts of a relative jump. -/
theorem Stands.relative (hj : short.Stands entry dest m) :
    m entry = 0xE9 ∧ read 32 m (entry + 1) = argument entry dest .short := by
  have hload : load m entry (1 + 4) = bytes smallJumpPrefix ++ bytes (argument entry dest .short) :=
    hj.1
  rw [load_add] at hload
  obtain ⟨hop, harg⟩ := List.append_inj hload (by rw [length_load, length_bytes])
  constructor
  · rw [bytes_smallJumpPrefix] at hop
    simpa [load] using hop
  · exact read_of_load (by decide) harg

theorem load_two (m : Mem) (a : Addr) : load m a 2 = [m a, m (a + 1)] := by
  simp [load, List.range_succ]

/-- The two parts of a long jump: the instruction, and the target behind it. -/
theorem long_stands_iff : long.Stands entry dest m ↔
    load m entry 6 = bytes longJumpPrefix ++ bytes (0 : BitVec 32) ∧
      load m (entry + 6) 8 = bytes dest := by
  have hcode : long.code entry dest =
      bytes longJumpPrefix ++ bytes (0 : BitVec 32) ++ bytes dest := (List.append_assoc _ _ _).symm
  have hload : load m entry long.size = load m entry 6 ++ load m (entry + 6) 8 :=
    @load_add 64 UInt8 m entry 6 8
  rw [Stands, hcode, hload]
  constructor
  · rintro ⟨h, -⟩
    exact List.append_inj h (by simp)
  · rintro ⟨h₁, h₂⟩
    exact ⟨by rw [h₁, h₂], by simp⟩

/-- The first two parts of an indirect jump. -/
theorem Stands.indirect (hj : j.Stands entry dest m) (hshort : j ≠ short) :
    m entry = 0xFF ∧ m (entry + 1) = 0x25 ∧
      read 32 m (entry + 2) = argument entry dest j := by
  have hload : load m entry (2 + 4) = bytes longJumpPrefix ++ bytes (argument entry dest j) := by
    cases j with
    | short => exact absurd rfl hshort
    | medium addressSlot => exact hj.1
    | long => exact (long_stands_iff.mp hj).1
  rw [load_add, load_two, bytes_longJumpPrefix] at hload
  obtain ⟨hop, harg⟩ := List.append_inj hload rfl
  obtain ⟨h₀, h₁⟩ := List.cons.inj hop
  exact ⟨h₀, (List.cons.inj h₁).1, read_of_load (by decide) harg⟩

/-- The target of a long jump is behind it. -/
theorem Stands.target (hj : long.Stands entry dest m) : read 64 m (entry + 6) = dest :=
  read_of_load (by decide) (long_stands_iff.mp hj).2

/-- The first bytes of an indirect jump without displacement. -/
theorem readChain_of_long (h₀ : m entry = 0xFF) (h₁ : m (entry + 1) = 0x25)
    (hdisp : read 32 m (entry + 2) = 0) :
    readChain m entry = (read 64 m (entry + 6), some .Long) := by
  have hsign : (0 : BitVec 32).signExtend 64 = 0 := rfl
  have hnext : entry + 6 + 0 = entry + 6 := BitVec.add_zero _
  rw [Patcher.readChain, if_pos (read_longJumpPrefix_iff.mpr ⟨h₀, h₁⟩)]
  dsimp only
  rw [hdisp, hsign, hnext]
  rfl

/-- **Decoding**: a jump that stands in memory is read back, with its kind. -/
theorem Stands.reads (hj : j.Stands entry dest m) (hr : j.Reaches entry dest) :
    readChain m entry = (dest, some j.type) := by
  cases j with
  | short =>
    obtain ⟨hop, harg⟩ := hj.relative
    have hnear : (argument entry dest short).signExtend 64 = dest - (entry + 5) := hr
    have hlong : ¬ read 16 m entry = longJumpPrefix := by
      rw [read_longJumpPrefix_iff, hop]
      exact fun h => absurd h.1 (by decide)
    rw [Patcher.readChain, if_neg hlong, if_pos (read_smallJumpPrefix_iff.mpr hop), harg, hnear,
      BitVec.add_comm, BitVec.sub_add_cancel]
    rfl
  | medium addressSlot =>
    obtain ⟨h₀, h₁, harg⟩ := hj.indirect (by simp)
    have hnear : (argument entry dest (medium addressSlot)).signExtend 64 =
        addressSlot - (entry + 6) := hr.1
    have hdisp : argument entry dest (medium addressSlot) ≠ 0 := by
      intro hzero
      rw [hzero] at hnear
      -- a displacement of zero would put the slot right behind the jump
      have hslot : addressSlot = entry + 6 := by
        rw [← BitVec.sub_add_cancel addressSlot (entry + 6), ← hnear]
        simp
      have hmem : entry + 6 ∈ block entry 8 := @add_mem_block 64 entry 6 8 (by decide)
      rw [← hslot] at hmem
      exact Set.disjoint_right.mp hr.2 hmem (self_mem_block (by decide))
    rw [Patcher.readChain, if_pos (read_longJumpPrefix_iff.mpr ⟨h₀, h₁⟩)]
    dsimp only
    rw [harg, hnear, if_pos hdisp, BitVec.add_comm, BitVec.sub_add_cancel,
      read_of_load (by decide) (hj.2 addressSlot rfl)]
    rfl
  | long =>
    obtain ⟨h₀, h₁, harg⟩ := hj.indirect (by simp)
    rw [readChain_of_long h₀ h₁ harg, hj.target]
    rfl

/-! ## Two ways to write -/

/-- The memory after one wide store of the union, whose bytes behind the jump were read from `m`. -/
def wide (entry dest : Addr) (m : Mem) (patch : List UInt8) (j : Jump) : Mem :=
  store (j.fill dest m) entry ((j.union entry dest m patch).take j.width)

/-- The memory after one patch after the other. -/
def pieces (entry dest : Addr) (m : Mem) : Jump → Mem
  | long => store (store (store m (entry + 6) (bytes dest)) entry (bytes longJumpPrefix))
      (entry + 2) (bytes (0 : BitVec 32))
  | j => store (store (j.fill dest m) entry j.opcode) (entry + BitVec.ofNat 64 j.opcode.length)
      (bytes (j.argument entry dest))

theorem take_union (patch : List UInt8) (j : Jump) :
    (j.union entry dest m patch).take j.width =
      j.code entry dest ++ load m (entry + BitVec.ofNat 64 j.size) (j.width - j.size) := by
  rw [union, List.take_left']
  rw [List.length_append, length_code, length_load, Nat.add_sub_cancel' j.size_le_width]

/-- The wide store writes the jump, as long as its slot is not in the bytes that it covers. -/
theorem wide_eq_write (patch : List UInt8) (hj : j.Reaches entry dest) :
    j.wide entry dest m patch = j.write entry dest m := by
  have hload : load m (entry + BitVec.ofNat 64 j.size) (j.width - j.size) =
      load (j.fill dest m) (entry + BitVec.ofNat 64 j.size) (j.width - j.size) := by
    cases j with
    | medium addressSlot =>
      refine (load_store_disjoint ?_).symm
      rw [length_bytes]
      exact hj.2.mono_right (block_add_subset (le_refl 8))
    | short => rfl
    | long => rfl
  rw [wide, take_union, store_append, length_code, hload, store_load, write]

/-- Two neighbouring stores in the order of the code are one store. -/
theorem store_next {bs cs : List UInt8} {a b : Addr} (hb : b = a + BitVec.ofNat 64 bs.length)
    (hlen : bs.length + cs.length ≤ 2 ^ 64) :
    store (store m a bs) b cs = store m a (bs ++ cs) := by
  rw [hb, store_comm (disjoint_block_add le_rfl hlen), store_append]

theorem pieces_eq_write (j : Jump) : j.pieces entry dest m = j.write entry dest m := by
  cases j with
  | long =>
    have hdisp : entry + 6 = entry + BitVec.ofNat 64
        (bytes longJumpPrefix ++ bytes (0 : BitVec 32)).length := rfl
    have hhead : long.pieces entry dest m = store (store m (entry + 6) (bytes dest)) entry
        (bytes longJumpPrefix ++ bytes (0 : BitVec 32)) := store_next rfl (by simp)
    rw [hhead, hdisp, ← store_append, List.append_assoc]
    rfl
  | short => exact store_next rfl (by simp [opcode])
  | medium addressSlot => exact store_next rfl (by simp [opcode])

end Jump

end Lilu.Patcher
