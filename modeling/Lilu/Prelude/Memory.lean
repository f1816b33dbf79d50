import Mathlib
import Lilu.Prelude.Bytes

/-!
# Memory at machine addresses

A memory gives every address of `w` bits the cell there, and addresses wrap around. What a program
reads and writes are blocks of cells; all that is needed about two accesses is whether their blocks
meet.

## Main definitions

* `block a n`: the `n` addresses from `a` on
* `load m a n`, `store m a bs`: the cells of a block, and the memory with new ones
* `read v m a`, `bytes`: little endian words in a memory of bytes

## Main results

* `load_store`, `store_load`: what was stored is loaded, and storing what is there changes nothing
* `load_store_disjoint`, `store_comm`: stores do not matter elsewhere, and commute
* `store_append`, `load_add`: a long access is two short ones
* `and_not_mask`: addresses are aligned by clearing bits
* `read_of_load`: a word whose bytes are in memory is read
-/

namespace Lilu

variable {w : ℕ} {β : Type*}

/-- The `n` addresses from `a` on, around the end of the address space if need be. -/
def block (a : BitVec w) (n : ℕ) : Set (BitVec w) :=
  {x | (x - a).toNat < n}

/-- The `n` cells from `a` on. -/
def load (m : BitVec w → β) (a : BitVec w) (n : ℕ) : List β :=
  (List.range n).map fun k => m (a + BitVec.ofNat w k)

/-- The memory with the cells `bs` from `a` on. -/
def store (m : BitVec w → β) (a : BitVec w) (bs : List β) : BitVec w → β :=
  fun x => (bs[(x - a).toNat]?).getD (m x)

/-! ## Blocks -/

section Blocks

variable {a b x : BitVec w} {i k n n' : ℕ}

theorem mem_block : x ∈ block a n ↔ (x - a).toNat < n :=
  Iff.rfl

theorem self_mem_block (h : 0 < n) : a ∈ block a n := by
  rw [mem_block, BitVec.sub_self]
  exact h

theorem add_mem_block (h : k < n) : a + BitVec.ofNat w k ∈ block a n := by
  have hsub : a + BitVec.ofNat w k - a = BitVec.ofNat w k := by
    rw [BitVec.add_comm, BitVec.add_sub_cancel]
  rw [mem_block, hsub, BitVec.toNat_ofNat]
  exact (Nat.mod_le k _).trans_lt h

theorem block_mono (h : n ≤ n') : block a n ⊆ block a n' :=
  fun _ hx => lt_of_lt_of_le hx h

/-- Part of a block is a block inside of it. -/
theorem block_add_subset (h : k + n ≤ n') : block (a + BitVec.ofNat w k) n ⊆ block a n' := by
  intro x hx
  have hsplit : x - a = (x - (a + BitVec.ofNat w k)) + BitVec.ofNat w k := by
    rw [← BitVec.sub_sub, BitVec.sub_add_cancel]
  have hle : (x - a).toNat ≤ (x - (a + BitVec.ofNat w k)).toNat + k := by
    rw [hsplit, BitVec.toNat_add, BitVec.toNat_ofNat]
    refine (Nat.mod_le _ _).trans ?_
    exact Nat.add_le_add_left (Nat.mod_le _ _) _
  rw [mem_block] at hx ⊢
  omega

/-- In a block that does not wrap, addresses are compared as numbers. -/
theorem mem_block_iff (h : a.toNat + n ≤ 2 ^ w) :
    x ∈ block a n ↔ a.toNat ≤ x.toNat ∧ x.toNat < a.toNat + n := by
  have ha := a.isLt
  have hx := x.isLt
  rw [mem_block, BitVec.toNat_sub]
  rcases Nat.lt_or_ge x.toNat a.toNat with hlt | hge
  · rw [Nat.mod_eq_of_lt (by omega)]
    omega
  · have hsplit : 2 ^ w - a.toNat + x.toNat = x.toNat - a.toNat + 2 ^ w := by omega
    rw [hsplit, Nat.add_mod_right, Nat.mod_eq_of_lt (by omega)]
    omega

/-- **A block in one that does not wrap** begins and ends there. -/
theorem block_subset_block_iff {b : BitVec w} (hfits : a.toNat + n ≤ 2 ^ w) (hlt : n < 2 ^ w)
    (hpos : 0 < n') :
    block b n' ⊆ block a n ↔ a.toNat ≤ b.toNat ∧ b.toNat + n' ≤ a.toNat + n := by
  constructor
  · intro h
    obtain ⟨hle, hb⟩ := (mem_block_iff hfits).mp (h (self_mem_block hpos))
    refine ⟨hle, ?_⟩
    by_contra hgt
    -- the first address behind the block would be in it
    have hbehind : a.toNat + n - b.toNat < n' := by omega
    have hend := (mem_block_iff hfits).mp (h (add_mem_block hbehind))
    have hsum : b.toNat + (a.toNat + n - b.toNat) = a.toNat + n := by omega
    rw [BitVec.toNat_add, BitVec.toNat_ofNat, Nat.add_mod_mod, hsum] at hend
    rcases hfits.lt_or_eq with hlt' | heq
    · rw [Nat.mod_eq_of_lt hlt'] at hend
      omega
    · rw [heq, Nat.mod_self] at hend
      omega
  · rintro ⟨hle, hend⟩ x hx
    rw [mem_block_iff (by omega)] at hx
    rw [mem_block_iff hfits]
    omega

/-- The distance from the base tells two parts of a block apart. -/
theorem toNat_sub_add (h : k ≤ (x - a).toNat) :
    (x - (a + BitVec.ofNat w k)).toNat = (x - a).toNat - k := by
  have hk : (BitVec.ofNat w k).toNat = k := by
    rw [BitVec.toNat_ofNat]
    exact Nat.mod_eq_of_lt (h.trans_lt (x - a).isLt)
  have hle : BitVec.ofNat w k ≤ x - a := by
    rw [BitVec.le_def, hk]
    exact h
  rw [← BitVec.sub_sub, BitVec.toNat_sub_of_le hle, hk]

theorem disjoint_block_add (h : n ≤ k) (hw : k + n' ≤ 2 ^ w) :
    Disjoint (block a n) (block (a + BitVec.ofNat w k) n') := by
  rw [Set.disjoint_left]
  intro x hx hx'
  rw [mem_block] at hx hx'
  -- an address before the second part is a whole address space away from its start
  have hsplit : x - (a + BitVec.ofNat w k) + BitVec.ofNat w k = x - a := by
    rw [← BitVec.sub_sub, BitVec.sub_add_cancel]
  have hnat := congrArg BitVec.toNat hsplit
  have hk : (BitVec.ofNat w k).toNat = k := by
    rw [BitVec.toNat_ofNat]
    exact Nat.mod_eq_of_lt (by omega)
  rw [BitVec.toNat_add, hk, Nat.mod_eq_of_lt (by omega)] at hnat
  omega

/-- Parts of a block that follow one another are apart. -/
theorem disjoint_block_parts {o o' : ℕ} (h : o + n ≤ o') (hw : o' + n' ≤ 2 ^ w) :
    Disjoint (block (a + BitVec.ofNat w o) n) (block (a + BitVec.ofNat w o') n') :=
  (disjoint_block_add h hw).mono_left (block_add_subset le_rfl)

end Blocks

/-! ## Alignment -/

section Alignment

variable {k : ℕ}

theorem and_not_eq_sub (x y : BitVec w) : x &&& ~~~y = x - (x &&& y) := by
  have hapart : (x &&& ~~~y) &&& (x &&& y) = 0 := by
    ext i hi
    cases hx : x[i] <;> cases hy : y[i] <;> simp [hx, hy]
  have hor : (x &&& ~~~y) ||| (x &&& y) = x := by
    ext i hi
    cases hx : x[i] <;> cases hy : y[i] <;> simp [hx, hy]
  rw [BitVec.eq_sub_iff_add_eq, BitVec.add_eq_or_of_and_eq_zero _ _ hapart, hor]

/-- Clearing the low bits of an address is taking away its remainder. -/
theorem and_not_mask (hk : k ≤ w) (x : BitVec w) :
    x &&& ~~~BitVec.ofNat w (2 ^ k - 1) = x - BitVec.ofNat w (x.toNat % 2 ^ k) := by
  have hmask : 2 ^ k - 1 < 2 ^ w := (Nat.sub_lt (Nat.two_pow_pos k) one_pos).trans_le
    (Nat.pow_le_pow_right two_pos hk)
  have hlow : x &&& BitVec.ofNat w (2 ^ k - 1) = BitVec.ofNat w (x.toNat % 2 ^ k) := by
    apply BitVec.eq_of_toNat_eq
    rw [BitVec.toNat_and, BitVec.toNat_ofNat, Nat.mod_eq_of_lt hmask,
      Nat.and_two_pow_sub_one_eq_mod, BitVec.toNat_ofNat,
      Nat.mod_eq_of_lt ((Nat.mod_le _ _).trans_lt x.isLt)]
  rw [and_not_eq_sub, hlow]

end Alignment

/-! ## Loads and stores -/

section Access

variable {m m' : BitVec w → β} {a b : BitVec w} {bs cs : List β} {s : Set (BitVec w)} {n k : ℕ}

@[simp] theorem length_load : (load m a n).length = n := by
  simp [load]

theorem getElem?_load (h : k < n) : (load m a n)[k]? = some (m (a + BitVec.ofNat w k)) := by
  simp [load, h]

/-- A load depends on the cells of its block only. -/
theorem load_congr (h : Set.EqOn m m' (block a n)) : load m a n = load m' a n :=
  List.map_congr_left fun _ hk => h (add_mem_block (List.mem_range.mp hk))

theorem take_load : (load m a n).take k = load m a (min k n) := by
  rw [load, load, ← List.map_take, List.take_range]

theorem load_add : load m a (n + k) = load m a n ++ load m (a + BitVec.ofNat w n) k := by
  rw [load, List.range_add, List.map_append, List.map_map]
  refine congrArg (load m a n ++ ·) (List.map_congr_left fun i _ => ?_)
  rw [Function.comp_apply, BitVec.ofNat_add, BitVec.add_assoc]

theorem store_of_notMem {x : BitVec w} (h : x ∉ block a bs.length) : store m a bs x = m x := by
  rw [store, List.getElem?_eq_none (not_lt.mp h)]
  rfl

theorem store_of_mem {x : BitVec w} (h : (x - a).toNat < bs.length) :
    store m a bs x = bs[(x - a).toNat] := by
  rw [store, List.getElem?_eq_getElem h, Option.getD_some]

theorem store_eqOn (h : Disjoint (block a bs.length) s) : Set.EqOn (store m a bs) m s :=
  fun _ hx => store_of_notMem (Set.disjoint_right.mp h hx)

@[simp] theorem store_nil : store m a [] = m := by
  ext x
  rfl

theorem load_store (h : bs.length ≤ 2 ^ w) : load (store m a bs) a bs.length = bs := by
  apply List.ext_getElem?
  intro k
  by_cases hk : k < bs.length
  · have hsub : (a + BitVec.ofNat w k - a).toNat = k := by
      rw [BitVec.add_comm, BitVec.add_sub_cancel, BitVec.toNat_ofNat]
      exact Nat.mod_eq_of_lt (hk.trans_le h)
    rw [getElem?_load hk, store, hsub, List.getElem?_eq_getElem hk, Option.getD_some]
  · rw [List.getElem?_eq_none (by simpa using hk), List.getElem?_eq_none (not_lt.mp hk)]

theorem load_store_disjoint (h : Disjoint (block a bs.length) (block b n)) :
    load (store m a bs) b n = load m b n :=
  load_congr (store_eqOn h)

/-- Storing what is there changes nothing. -/
theorem store_load : store m a (load m a n) = m := by
  ext x
  by_cases hx : x ∈ block a n
  · rw [store, getElem?_load hx, Option.getD_some, BitVec.ofNat_toNat, BitVec.setWidth_eq,
      BitVec.add_comm, BitVec.sub_add_cancel]
  · exact store_of_notMem (by rwa [length_load])

theorem store_comm (h : Disjoint (block a bs.length) (block b cs.length)) :
    store (store m a bs) b cs = store (store m b cs) a bs := by
  ext x
  by_cases hx : x ∈ block b cs.length
  · rw [store_of_notMem (Set.disjoint_right.mp h hx), store_of_mem hx, store_of_mem hx]
  · rw [store_of_notMem hx]
    by_cases hxa : x ∈ block a bs.length
    · rw [store_of_mem hxa, store_of_mem hxa]
    · rw [store_of_notMem hxa, store_of_notMem hxa, store_of_notMem hx]

/-- A long store is two short ones. -/
theorem store_append :
    store m a (bs ++ cs) = store (store m (a + BitVec.ofNat w bs.length) cs) a bs := by
  ext x
  by_cases hx : x ∈ block a bs.length
  · rw [store_of_mem hx, store, List.getElem?_append_left hx, List.getElem?_eq_getElem hx]
    rfl
  · have hle : bs.length ≤ (x - a).toNat := not_lt.mp hx
    rw [store_of_notMem hx, store, store, List.getElem?_append_right hle, toNat_sub_add hle]

end Access

/-! ## Words in a memory of bytes -/

section Words

variable {m : BitVec w → UInt8} {a : BitVec w} {v : ℕ}

/-- The bytes of a word, the lowest first. -/
def bytes (x : BitVec v) : List UInt8 :=
  leBytes (v / 8) x.toNat

/-- The word of `v` bits at an address. -/
def read (v : ℕ) (m : BitVec w → UInt8) (a : BitVec w) : BitVec v :=
  BitVec.ofNat v (leNat (load m a (v / 8)))

@[simp] theorem length_bytes (x : BitVec v) : (bytes x).length = v / 8 :=
  length_leBytes _ _

theorem read_congr {m' : BitVec w → UInt8} (h : Set.EqOn m m' (block a (v / 8))) :
    read v m a = read v m' a :=
  congrArg (fun bs => BitVec.ofNat v (leNat bs)) (load_congr h)

theorem pow_div_eight (hv : 8 ∣ v) : 256 ^ (v / 8) = 2 ^ v := by
  rw [show (256 : ℕ) = 2 ^ 8 from rfl, ← pow_mul, Nat.mul_div_cancel' hv]

/-- A word whose bytes are in memory is read. -/
theorem read_of_load {x : BitVec v} (hv : 8 ∣ v) (h : load m a (v / 8) = bytes x) :
    read v m a = x := by
  have hpow := pow_div_eight hv
  rw [read, h, bytes, leNat_leBytes, hpow, Nat.mod_eq_of_lt x.isLt, BitVec.ofNat_toNat,
    BitVec.setWidth_eq]

/-- A word that is read has the bytes that are in memory. -/
theorem bytes_read (hv : 8 ∣ v) : bytes (read v m a) = load m a (v / 8) := by
  have hlt : leNat (load m a (v / 8)) < 2 ^ v := by
    rw [← pow_div_eight hv]
    simpa using leNat_lt (load m a (v / 8))
  rw [bytes, read, BitVec.toNat_ofNat, Nat.mod_eq_of_lt hlt, leBytes_leNat length_load]

/-- Words that are read alike have the same bytes. -/
theorem load_of_read {m' : BitVec w → UInt8} {b : BitVec w} (hv : 8 ∣ v)
    (h : read v m a = read v m' b) : load m a (v / 8) = load m' b (v / 8) := by
  rw [← bytes_read hv, h, bytes_read hv]

end Words

end Lilu
