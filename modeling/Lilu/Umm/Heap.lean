import Lilu.Prelude.Effect

/-!
# A heap of its own

The disassembling library allocates memory while interrupts are disabled, so that it gets a heap of
its own: an array of blocks of eight bytes. Each block begins with the numbers of the block behind it
and of the one before it, and a free block has the numbers of its neighbours on the list of free
blocks where the data would be. A program fails here when it leaves the array.

## Main definitions

* `State`: the bytes of the array
* `umm_malloc`, `umm_calloc`, `umm_realloc`, `umm_free`: the functions, and their parts
-/

namespace Lilu.Umm

open Effect (ask change need onlyIf)

def UMM_MALLOC_CFG_HEAP_SIZE : ℕ := 0x10000
def UMM_FREELIST_MASK : ℕ := 0x8000
def UMM_BLOCKNO_MASK : ℕ := 0x7FFF

/-- The number of blocks, which have eight bytes each, four of them for data. -/
def UMM_NUMBLOCKS : ℕ := UMM_MALLOC_CFG_HEAP_SIZE / 8

/-- The bytes of `default_umm_heap`, and whether `umm_heap` points to them. -/
structure State where
  heap : ℕ → UInt8 := fun _ => 0
  ready : Bool := false

/-! ## Fields -/

/-- The two bytes at a place. -/
def get16 (heap : ℕ → UInt8) (a : ℕ) : ℕ :=
  (heap a).toNat + 256 * (heap (a + 1)).toNat

def put16 (heap : ℕ → UInt8) (a v : ℕ) (x : ℕ) : UInt8 :=
  if x = a then UInt8.ofNat v else if x = a + 1 then UInt8.ofNat (v / 256) else heap x

namespace State

def nblock (s : State) (b : ℕ) : ℕ := get16 s.heap (8 * b)
def pblock (s : State) (b : ℕ) : ℕ := get16 s.heap (8 * b + 2)
def nfree (s : State) (b : ℕ) : ℕ := get16 s.heap (8 * b + 4)
def pfree (s : State) (b : ℕ) : ℕ := get16 s.heap (8 * b + 6)

def setNblock (b v : ℕ) (s : State) : State := { s with heap := put16 s.heap (8 * b) v }
def setPblock (b v : ℕ) (s : State) : State := { s with heap := put16 s.heap (8 * b + 2) v }
def setNfree (b v : ℕ) (s : State) : State := { s with heap := put16 s.heap (8 * b + 4) v }
def setPfree (b v : ℕ) (s : State) : State := { s with heap := put16 s.heap (8 * b + 6) v }

end State

theorem get16_lt (heap : ℕ → UInt8) (a : ℕ) : get16 heap a < 0x10000 := by
  have h0 := (heap a).toNat_lt
  have h1 := (heap (a + 1)).toNat_lt
  rw [get16]
  omega

theorem get16_congr {heap heap' : ℕ → UInt8} {a : ℕ} (h0 : heap' a = heap a)
    (h1 : heap' (a + 1) = heap (a + 1)) : get16 heap' a = get16 heap a := by
  rw [get16, get16, h0, h1]

theorem get16_put16 {v : ℕ} (heap : ℕ → UInt8) (a : ℕ) (hv : v < 0x10000) :
    get16 (put16 heap a v) a = v := by
  rw [get16, put16, if_pos rfl, put16, if_neg (Nat.succ_ne_self a), if_pos rfl,
    UInt8.toNat_ofNat', UInt8.toNat_ofNat']
  omega

theorem put16_of_ne {heap : ℕ → UInt8} {a v x : ℕ} (h : x ≠ a) (h1 : x ≠ a + 1) :
    put16 heap a v x = heap x := by
  rw [put16, if_neg h, if_neg h1]

theorem get16_put16_of_ne {heap : ℕ → UInt8} {a a' v : ℕ} (h : a + 2 ≤ a' ∨ a' + 2 ≤ a) :
    get16 (put16 heap a v) a' = get16 heap a' :=
  get16_congr (put16_of_ne (by omega) (by omega)) (put16_of_ne (by omega) (by omega))

namespace State

variable {s : State} {b v : ℕ}

theorem nblock_lt : s.nblock b < 0x10000 :=
  get16_lt s.heap (8 * b)

theorem nfree_lt : s.nfree b < 0x10000 :=
  get16_lt s.heap (8 * b + 4)

theorem pfree_lt : s.pfree b < 0x10000 :=
  get16_lt s.heap (8 * b + 6)

theorem pblock_lt : s.pblock b < 0x10000 :=
  get16_lt s.heap (8 * b + 2)

/-- A field that is written is changed at its block, and the other fields are not. -/
theorem update_field {g : State → ℕ → ℕ} {set : ℕ → ℕ → State → State} {i : ℕ}
    (hg : ∀ s b, g s b = get16 s.heap (8 * b + i))
    (hset : ∀ b v s, (set b v s).heap = put16 s.heap (8 * b + i) v)
    (hv : v < 0x10000) : g (set b v s) = Function.update (g s) b v := by
  ext x
  rw [hg, hset, Function.update_apply]
  split_ifs with hx
  · rw [hx, get16_put16 _ _ hv]
  · rw [get16_put16_of_ne (by omega), hg]

theorem other_field {g : State → ℕ → ℕ} {set : ℕ → ℕ → State → State} {i j : ℕ}
    (hg : ∀ s b, g s b = get16 s.heap (8 * b + j))
    (hset : ∀ b v s, (set b v s).heap = put16 s.heap (8 * b + i) v)
    (hij : i + 2 ≤ j ∧ j + 2 ≤ 8 ∨ j + 2 ≤ i ∧ i + 2 ≤ 8) : g (set b v s) = g s := by
  ext x
  rw [hg, hset, get16_put16_of_ne (by omega), hg]

theorem nblock_setNblock (hv : v < 0x10000) :
    (setNblock b v s).nblock = Function.update s.nblock b v :=
  update_field (i := 0) (fun _ _ => rfl) (fun _ _ _ => rfl) hv

theorem pblock_setPblock (hv : v < 0x10000) :
    (setPblock b v s).pblock = Function.update s.pblock b v :=
  update_field (fun _ _ => rfl) (fun _ _ _ => rfl) hv

theorem nfree_setNfree (hv : v < 0x10000) :
    (setNfree b v s).nfree = Function.update s.nfree b v :=
  update_field (fun _ _ => rfl) (fun _ _ _ => rfl) hv

theorem pfree_setPfree (hv : v < 0x10000) :
    (setPfree b v s).pfree = Function.update s.pfree b v :=
  update_field (fun _ _ => rfl) (fun _ _ _ => rfl) hv

@[simp] theorem pblock_setNblock : (setNblock b v s).pblock = s.pblock :=
  other_field (i := 0) (fun _ _ => rfl) (fun _ _ _ => rfl) (by omega)

@[simp] theorem nfree_setNblock : (setNblock b v s).nfree = s.nfree :=
  other_field (i := 0) (fun _ _ => rfl) (fun _ _ _ => rfl) (by omega)

@[simp] theorem pfree_setNblock : (setNblock b v s).pfree = s.pfree :=
  other_field (i := 0) (fun _ _ => rfl) (fun _ _ _ => rfl) (by omega)

@[simp] theorem nblock_setPblock : (setPblock b v s).nblock = s.nblock :=
  other_field (j := 0) (fun _ _ => rfl) (fun _ _ _ => rfl) (by omega)

@[simp] theorem nfree_setPblock : (setPblock b v s).nfree = s.nfree :=
  other_field (fun _ _ => rfl) (fun _ _ _ => rfl) (by omega)

@[simp] theorem pfree_setPblock : (setPblock b v s).pfree = s.pfree :=
  other_field (fun _ _ => rfl) (fun _ _ _ => rfl) (by omega)

@[simp] theorem nblock_setNfree : (setNfree b v s).nblock = s.nblock :=
  other_field (j := 0) (fun _ _ => rfl) (fun _ _ _ => rfl) (by omega)

@[simp] theorem pblock_setNfree : (setNfree b v s).pblock = s.pblock :=
  other_field (fun _ _ => rfl) (fun _ _ _ => rfl) (by omega)

@[simp] theorem pfree_setNfree : (setNfree b v s).pfree = s.pfree :=
  other_field (fun _ _ => rfl) (fun _ _ _ => rfl) (by omega)

@[simp] theorem nblock_setPfree : (setPfree b v s).nblock = s.nblock :=
  other_field (j := 0) (fun _ _ => rfl) (fun _ _ _ => rfl) (by omega)

@[simp] theorem pblock_setPfree : (setPfree b v s).pblock = s.pblock :=
  other_field (fun _ _ => rfl) (fun _ _ _ => rfl) (by omega)

@[simp] theorem nfree_setPfree : (setPfree b v s).nfree = s.nfree :=
  other_field (fun _ _ => rfl) (fun _ _ _ => rfl) (by omega)

end State

/-- Programs on the heap. -/
abbrev UmmM := Effect State

/-- A block of the array. -/
def inHeap (b : ℕ) : UmmM Unit :=
  need (b < UMM_NUMBLOCKS)

def UMM_NBLOCK (b : ℕ) : UmmM ℕ := do inHeap b; ask (·.nblock b)
def UMM_PBLOCK (b : ℕ) : UmmM ℕ := do inHeap b; ask (·.pblock b)
def UMM_NFREE (b : ℕ) : UmmM ℕ := do inHeap b; ask (·.nfree b)
def UMM_PFREE (b : ℕ) : UmmM ℕ := do inHeap b; ask (·.pfree b)

def setNBLOCK (b v : ℕ) : UmmM Unit := do inHeap b; change (.setNblock b v)
def setPBLOCK (b v : ℕ) : UmmM Unit := do inHeap b; change (.setPblock b v)
def setNFREE (b v : ℕ) : UmmM Unit := do inHeap b; change (.setNfree b v)
def setPFREE (b v : ℕ) : UmmM Unit := do inHeap b; change (.setPfree b v)

/-- `&UMM_DATA(c)`, counted from the start of the heap. -/
def UMM_DATA (c : ℕ) : ℕ := 8 * c + 4

/-- The block of a pointer. -/
def blockOf (ptr : ℕ) : ℕ := ptr / 8 % 0x10000

/-- A difference of two `unsigned short`. -/
def sub16 (a b : ℕ) : ℕ := (a + 0x10000 - b) % 0x10000

/-! ## Parts -/

/-- The number of blocks for so many bytes, an `unsigned short`. -/
def umm_blocks (size : ℕ) : ℕ :=
  if size ≤ 4 then 1 else (2 + (size - 5) / 8) % 0x10000

def umm_split_block (c blocks new_freemask : ℕ) : UmmM Unit := do
  setNBLOCK (c + blocks) (((← UMM_NBLOCK c) &&& UMM_BLOCKNO_MASK) ||| new_freemask)
  setPBLOCK (c + blocks) c
  setPBLOCK ((← UMM_NBLOCK c) &&& UMM_BLOCKNO_MASK) (c + blocks)
  setNBLOCK c (c + blocks)

def umm_disconnect_from_free_list (c : ℕ) : UmmM Unit := do
  setNFREE (← UMM_PFREE c) (← UMM_NFREE c)
  setPFREE (← UMM_NFREE c) (← UMM_PFREE c)
  setNBLOCK c ((← UMM_NBLOCK c) &&& (0xFFFF ^^^ UMM_FREELIST_MASK))

def umm_assimilate_up (c : ℕ) : UmmM Unit := do
  -- what is behind is looked up anew each time, as in the source
  onlyIf ((← UMM_NBLOCK (← UMM_NBLOCK c)) &&& UMM_FREELIST_MASK ≠ 0) do
    umm_disconnect_from_free_list (← UMM_NBLOCK c)
    setPBLOCK ((← UMM_NBLOCK (← UMM_NBLOCK c)) &&& UMM_BLOCKNO_MASK) c
    setNBLOCK c ((← UMM_NBLOCK (← UMM_NBLOCK c)) &&& UMM_BLOCKNO_MASK)

def umm_assimilate_down (c freemask : ℕ) : UmmM ℕ := do
  setNBLOCK (← UMM_PBLOCK c) ((← UMM_NBLOCK c) ||| freemask)
  setPBLOCK (← UMM_NBLOCK c) (← UMM_PBLOCK c)
  UMM_PBLOCK c

def umm_init : UmmM Unit := do
  change fun _ => { heap := fun _ => 0, ready := true }
  setNBLOCK 0 1
  setNFREE 0 1
  setPFREE 0 1
  setNBLOCK 1 ((UMM_NUMBLOCKS - 1) ||| UMM_FREELIST_MASK)
  setNFREE 1 0
  setPBLOCK 1 0
  setPFREE 1 0
  setNBLOCK (UMM_NUMBLOCKS - 1) 0
  setPBLOCK (UMM_NUMBLOCKS - 1) 1

/-! ## Bytes -/

/-- A range inside of the array. -/
def inRange (a n : ℕ) : UmmM Unit :=
  need (a + n ≤ UMM_MALLOC_CFG_HEAP_SIZE)

def State.move (dst src n : ℕ) (s : State) : State :=
  { s with heap := fun a => if dst ≤ a ∧ a < dst + n then s.heap (src + (a - dst)) else s.heap a }

def memmove (dst src n : ℕ) : UmmM Unit := do
  inRange dst n
  inRange src n
  change (.move dst src n)

/-- The ranges must not overlap. -/
def memcpy (dst src n : ℕ) : UmmM Unit := do
  need (dst + n ≤ src ∨ src + n ≤ dst)
  memmove dst src n

def State.clear (dst n : ℕ) (s : State) : State :=
  { s with heap := fun a => if dst ≤ a ∧ a < dst + n then 0 else s.heap a }

/-- `memset` with zeros. -/
def memset (dst n : ℕ) : UmmM Unit := do
  inRange dst n
  change (.clear dst n)

/-! ## The functions -/

/-- A chunk becomes the first of the free ones. -/
def addToFreeList (c : ℕ) : UmmM Unit := do
  setPFREE (← UMM_NFREE 0) c
  setNFREE c (← UMM_NFREE 0)
  setPFREE c 0
  setNFREE 0 c
  setNBLOCK c ((← UMM_NBLOCK c) ||| UMM_FREELIST_MASK)

/-- Pointers are counted from the start of the heap. -/
def umm_free (ptr : Option ℕ) : UmmM Unit :=
  match ptr with
  | none => pure ()
  | some ptr => do
    let c := blockOf ptr
    umm_assimilate_up c
    if (← UMM_NBLOCK (← UMM_PBLOCK c)) &&& UMM_FREELIST_MASK ≠ 0 then
      let _ ← umm_assimilate_down c UMM_FREELIST_MASK
    else addToFreeList c

/-- The variables of the search for a free block. -/
structure Search where
  cf : ℕ
  bestBlock : ℕ
  bestSize : ℕ := 0x7FFF
  blockSize : ℕ := 0
  deriving DecidableEq, Repr

/-- A chunk is looked at: `UMM_BEST_FIT`. -/
def Search.look (blocks blockSize : ℕ) (v : Search) : Search :=
  if blocks ≤ blockSize ∧ blockSize < v.bestSize then
    { v with blockSize, bestBlock := v.cf, bestSize := blockSize }
  else { v with blockSize }

def searchTurn (blocks : ℕ) (v : Search) : UmmM (Turn Search Search) :=
  if v.cf ≠ 0 then do
    let blockSize := sub16 ((← UMM_NBLOCK v.cf) &&& UMM_BLOCKNO_MASK) v.cf
    pure (.again { v.look blocks blockSize with cf := ← UMM_NFREE v.cf })
  else pure (.leave v)

/-- No block is on the list of free blocks twice. -/
def search (blocks : ℕ) : UmmM Search := do
  let cf ← UMM_NFREE 0
  let bestBlock ← UMM_NFREE 0
  Effect.loop (searchTurn blocks) (UMM_NUMBLOCKS + 1) { cf, bestBlock }

/-- The block that is taken, and its size. -/
def Search.best (v : Search) : ℕ × ℕ :=
  if 0x7FFF ≠ v.bestSize then (v.bestBlock, v.bestSize) else (v.cf, v.blockSize)

/-- The rest of a free chunk takes its place. -/
def takeFront (cf blocks : ℕ) : UmmM Unit := do
  umm_split_block cf blocks UMM_FREELIST_MASK
  setNFREE (← UMM_PFREE cf) (cf + blocks)
  setPFREE (cf + blocks) (← UMM_PFREE cf)
  setPFREE (← UMM_NFREE cf) (cf + blocks)
  setNFREE (cf + blocks) (← UMM_NFREE cf)

/-- Taking a free chunk, or its front. -/
def takeBlocks (cf blockSize blocks : ℕ) : UmmM Unit :=
  if blockSize = blocks then umm_disconnect_from_free_list cf else takeFront cf blocks

/-- `umm_heap == NULL` -/
def initOnce : UmmM Unit := do
  onlyIf ((← ask (·.ready)) = false) umm_init

def umm_malloc (size : ℕ) : UmmM (Option ℕ) := do
  initOnce
  if size = 0 then pure none
  else
    let blocks := umm_blocks size
    let (cf, blockSize) := (← search blocks).best
    -- the last block is the only one with nothing behind it
    if (← UMM_NBLOCK cf) &&& UMM_BLOCKNO_MASK ≠ 0 ∧ blocks ≤ blockSize then
      takeBlocks cf blockSize blocks
      pure (some (UMM_DATA cf))
    else pure none

/-- `size_t` -/
def sizeMod : ℕ := 2 ^ 64

def umm_calloc (num item_size : ℕ) : UmmM (Option ℕ) := do
  let ret ← umm_malloc (item_size * num % sizeMod)
  match ret with
  | some p => memset p (item_size * num % sizeMod)
  | none => pure ()
  pure ret

/-! ## Growing and shrinking -/

/-- The size of the block behind, if it is free. -/
def nextBlockSize (c : ℕ) : UmmM ℕ := do
  if (← UMM_NBLOCK (← UMM_NBLOCK c)) &&& UMM_FREELIST_MASK ≠ 0 then
    pure (sub16 ((← UMM_NBLOCK (← UMM_NBLOCK c)) &&& UMM_BLOCKNO_MASK) (← UMM_NBLOCK c))
  else pure 0

/-- The size of the block before, if it is free. -/
def prevBlockSize (c : ℕ) : UmmM ℕ := do
  if (← UMM_NBLOCK (← UMM_PBLOCK c)) &&& UMM_FREELIST_MASK ≠ 0 then
    pure (sub16 c (← UMM_PBLOCK c))
  else pure 0

/-- Into the block before: where the data are then. -/
def moveDown (c ptr curSize : ℕ) : UmmM ℕ := do
  umm_disconnect_from_free_list (← UMM_PBLOCK c)
  let c ← umm_assimilate_down c 0
  memmove (UMM_DATA c) ptr curSize
  pure c

/-- A new block for the data of an old one. -/
def moveAway (ptr curSize size : ℕ) : UmmM (Option ℕ) := do
  let new ← umm_malloc size
  match new with
  | some p => do
    memcpy p ptr curSize
    umm_free (some ptr)
  | none => pure ()
  pure new

/-- What is behind the first blocks is free again. -/
def splitAndFree (c blockSize blocks : ℕ) : UmmM Unit :=
  onlyIf (blocks < blockSize) do
    umm_split_block c blocks 0
    umm_free (some (UMM_DATA (c + blocks)))

def umm_realloc (ptr : Option ℕ) (size : ℕ) : UmmM (Option ℕ) := do
  initOnce
  match ptr with
  | none => umm_malloc size
  | some ptr =>
    if size = 0 then do
      umm_free (some ptr)
      pure none
    else do
      let blocks := umm_blocks size
      let c := blockOf ptr
      let blockSize := sub16 (← UMM_NBLOCK c) c
      let curSize := blockSize * 8 - 4
      let next ← nextBlockSize c
      let prev ← prevBlockSize c
      -- each branch ends with its own copy of the common tail
      if blocks ≤ blockSize then do
        splitAndFree c blockSize blocks
        pure (some ptr)
      else if blocks ≤ blockSize + next then do
        umm_assimilate_up c
        splitAndFree c (sum16 blockSize next) blocks
        pure (some ptr)
      else if blocks ≤ prev + blockSize then do
        let c ← moveDown c ptr curSize
        splitAndFree c (sum16 blockSize prev) blocks
        pure (some (UMM_DATA c))
      else if blocks ≤ prev + blockSize + next then do
        umm_assimilate_up c
        let c ← moveDown c ptr curSize
        splitAndFree c (sum16 blockSize (prev + next)) blocks
        pure (some (UMM_DATA c))
      else moveAway ptr curSize size
where
  sum16 (a b : ℕ) : ℕ := (a + b) % 0x10000

end Lilu.Umm
