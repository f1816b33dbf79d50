import Lilu.Prelude.Bytes
import Lilu.Compression.Buffer

/-!
# Encrypted containers

The source is put behind its length, padded with zeros to whole blocks, encrypted with AES-CBC
under a fresh initialisation vector, and sent behind that vector. All sizes are 32 bit numbers that
wrap around.

## Main definitions

* `Aes`: the block cipher
* `encrypt`, `decrypt`: the two directions
* `openEncrypted`: what a container holds

## Main results

* `ensures_encrypt`: a container holds the source, unless a size wraps
* `undefined_encrypt`: a size that wraps overruns a buffer
* `agree_decrypt`: decrypting gives what the container holds
-/

namespace Lilu

/-- The number of 32 bit values: sizes are kept modulo it. -/
def uint32 : ℕ := 2 ^ 32

namespace Crypto

/-- Size of a block, and of a key and an initialisation vector. -/
def BlockSize : ℕ := 16

/-- AES-CBC over whole blocks; `none` is an error of the cipher. -/
structure Aes where
  encryptCbc : (key iv data : List UInt8) → Option (List UInt8)
  decryptCbc : (key iv data : List UInt8) → Option (List UInt8)
  length_encrypt : ∀ {key iv data enc}, encryptCbc key iv data = some enc →
    enc.length = data.length
  length_decrypt : ∀ {key iv enc data}, decryptCbc key iv enc = some data →
    data.length = enc.length

/-- Decryption inverts encryption under the same key and vector. -/
def Aes.Inverts (aes : Aes) : Prop :=
  ∀ {key iv data enc}, aes.encryptCbc key iv data = some enc → aes.decryptCbc key iv enc = some data

/-- A source of random vectors. -/
structure Random where
  next : ℕ → List UInt8
  length_next : ∀ i, (next i).length = BlockSize

/-- `zeroMemory` on the first bytes of a buffer. -/
def zeroMemory (len : ℕ) (buf : List UInt8) : BlockM (List UInt8) :=
  storeAt buf 0 (List.replicate len 0)

/-- Erase a buffer and release it. -/
def wipe (len : ℕ) (buf : List UInt8) : BlockM Unit := do
  let buf ← zeroMemory len buf
  Buffer.deleter (.bytes buf)

variable (A : Allocator) (aes : Aes) (random : Random)

/-- `read_random` for a vector: another one for each state of the heap. -/
def readRandom : BlockM (List UInt8) := do
  let h ← get
  return random.next h.requests

/-- The bytes that are missing from the last block. -/
def padding (realSize : ℕ) : ℕ :=
  let padSize := realSize % BlockSize
  if padSize > 0 then BlockSize - padSize else padSize

/-- The part of `Crypto::encrypt` behind the data buffer: the container with the vector and the
encrypted blocks. -/
def encryptBlocks (key dataBuf : List UInt8) (encSize fullSize : ℕ) :
    BlockM (Option (List UInt8 × ℕ)) := do
  match ← Buffer.create A fullSize with
  | none => pure none
  | some encBuf =>
    let iv ← readRandom random
    let encBuf ← storeAt encBuf 0 iv
    let blocks ← loadAt dataBuf 0 (encSize / BlockSize * BlockSize)
    match aes.encryptCbc key iv blocks with
    | some enc =>
      let encBuf ← storeAt encBuf BlockSize enc
      pure (some (encBuf, fullSize))
    | none =>
      wipe fullSize encBuf
      pure none

/-- `Crypto::encrypt`: the container and its size. -/
def encrypt (key : Option (List UInt8)) (src : List UInt8) (size : ℕ) :
    BlockM (Option (List UInt8 × ℕ)) :=
  if size = 0 then pure none
  else match key with
  | none => pure none
  | some key =>
    let realSize := (4 + size) % uint32
    let padSize := padding realSize
    let encSize := (realSize + padSize) % uint32
    let fullSize := (encSize + BlockSize) % uint32
    do
      match ← Buffer.create A encSize with
      | none => pure none
      | some dataBuf =>
        let dataBuf ← storeAt dataBuf 0 (leBytes 4 size)
        let bytes ← loadAt src 0 size
        let dataBuf ← storeAt dataBuf 4 bytes
        let dataBuf ← storeAt dataBuf (4 + size) (List.replicate padSize 0)
        let encBuf ← encryptBlocks A aes random key dataBuf encSize fullSize
        wipe encSize dataBuf
        pure encBuf

/-- The part of `Crypto::decrypt` behind the check of the size: the data moves to the front of the
buffer, and what it leaves is erased. -/
def moveToFront (decBuf : List UInt8) (dataSize : ℕ) : BlockM (Option (List UInt8 × ℕ)) := do
  let bytes ← loadAt decBuf 4 dataSize
  let decBuf ← storeAt decBuf 0 bytes
  let decBuf ← storeAt decBuf dataSize (List.replicate 4 0)
  let decBuf ← Buffer.resize A decBuf dataSize
  pure (some (decBuf, dataSize))

/-- `Crypto::decrypt`: the data and its size. -/
def decrypt (key : Option (List UInt8)) (src : List UInt8) (size : ℕ) :
    BlockM (Option (List UInt8 × ℕ)) :=
  if size < 2 * BlockSize ∨ size % BlockSize ≠ 0 then pure none
  else match key with
  | none => pure none
  | some key =>
    let size := size - BlockSize
    do
      match ← Buffer.create A size with
      | none => pure none
      | some decBuf =>
        let iv ← loadAt src 0 BlockSize
        let enc ← loadAt src BlockSize (size / BlockSize * BlockSize)
        match aes.decryptCbc key iv enc with
        | some data =>
          let decBuf ← storeAt decBuf 0 data
          let dataSize ← loadAt decBuf 0 4
          let dataSize := leNat dataSize
          if size - 4 ≥ dataSize then
            moveToFront A decBuf dataSize
          else
            wipe size decBuf
            pure none
        | none =>
          wipe size decBuf
          pure none

/-! ## What a container holds -/

/-- The source in the decrypted blocks: behind its length. -/
def openData (data : List UInt8) : Option (List UInt8) :=
  let size := leNat (slice data 0 4)
  if size ≤ data.length - 4 then some (slice data 4 size) else none

/-- The source in an encrypted container that fits a buffer. -/
def openEncrypted (key : Option (List UInt8)) (enc : List UInt8) : Option (List UInt8) :=
  if enc.length < 2 * BlockSize ∨ enc.length % BlockSize ≠ 0 ∨
      enc.length - BlockSize > Buffer.BufferMax then none
  else do
    let key ← key
    let data ← aes.decryptCbc key (slice enc 0 BlockSize)
      (slice enc BlockSize (enc.length - BlockSize))
    openData data

end Crypto

/-- A function's result, a buffer with a size or `nullptr`, is the data. -/
def Holds (r : Option (List UInt8 × ℕ)) : Option (List UInt8) → Prop
  | none => r = none
  | some data => ∃ buf, r = some (buf, data.length) ∧ buf.take data.length = data ∧
      data.length ≤ buf.length ∧ data.length ≤ Buffer.BufferMax

/-- A function's result is the data, unless memory was refused. -/
def Gives (A : Allocator) (found : Option (List UInt8)) (r : Option (List UInt8 × ℕ)) : Prop :=
  Holds r found ∨ r = none ∧ ¬ A.Generous

namespace Crypto

variable {A aes random} {h : Heap Block}

theorem ensures_wipe {len : ℕ} {buf : List UInt8} {Q : Unit → Heap Block → Prop}
    (hlen : len ≤ buf.length) (hQ : ∀ h', Q () h') : Ensures (wipe len buf) h Q := by
  unfold wipe zeroMemory
  rw [ensures_bind]
  refine ensures_storeAt (by simpa using hlen) ?_
  exact ensures_release.mpr (hQ _)

theorem agree_wipe {len : ℕ} {buf : List UInt8} (hlen : len ≤ buf.length) :
    Agree (wipe len buf) (wipe len buf) fun _ => True := by
  unfold wipe zeroMemory
  exact agree_bind (agree_storeAt (by simpa using hlen)) fun _ _ => agree_release _ _

theorem agree_moveToFront {data : List UInt8} {n : ℕ} (hdata : 4 ≤ data.length)
    (hn : n ≤ data.length - 4) (hmax : n ≤ Buffer.BufferMax) :
    Agree (moveToFront A data n) (moveToFront A data n) fun r => Holds r (some (slice data 4 n)) := by
  unfold moveToFront
  have hbytes : (slice data 4 n).length = n := length_slice (by omega)
  have hlen₁ : (patch data 0 (slice data 4 n)).length = data.length := length_patch (by omega)
  have hlen₂ : (patch (patch data 0 (slice data 4 n)) n (List.replicate 4 0)).length =
      data.length := by
    rw [length_patch (by rw [List.length_replicate]; omega), hlen₁]
  refine agree_bind (agree_loadAt (by omega)) ?_
  rintro _ rfl
  refine agree_bind (agree_storeAt (by omega)) ?_
  rintro _ rfl
  refine agree_bind (agree_storeAt (by rw [List.length_replicate]; omega)) ?_
  rintro _ rfl
  refine agree_bind (Buffer.agree_resize (by omega)) fun buf hbuf => agree_pure ?_
  obtain ⟨hkeep, hlen⟩ := hbuf
  have hstored : slice (patch data 0 (slice data 4 n)) 0 (slice data 4 n).length =
      slice data 4 n := slice_patch (by omega)
  rw [hbytes] at hstored
  have hkept : buf.take n = slice data 4 n := by
    rw [hkeep, ← slice_zero, slice_patch_of_le (by omega) (by omega), hstored]
  exact ⟨buf, by rw [hbytes], by rw [hbytes, hkept], by omega, by omega⟩

/-- **Decrypting** gives what the container holds, or nothing when memory is refused. -/
theorem agree_decrypt {key : Option (List UInt8)} {src : List UInt8} {size : ℕ}
    (hsize : size ≤ src.length) :
    Agree (decrypt A aes key src size) (decrypt A aes key src size)
      (Gives A (openEncrypted aes key (src.take size))) := by
  have hlen : (src.take size).length = size := List.length_take_of_le hsize
  unfold decrypt openEncrypted
  rw [hlen]
  by_cases hbad : size < 2 * BlockSize ∨ size % BlockSize ≠ 0
  · rw [if_pos hbad, if_pos (by omega)]
    exact agree_pure (Or.inl rfl)
  rw [if_neg hbad]
  cases key with
  | none =>
    refine agree_pure (Or.inl ?_)
    split_ifs <;> rfl
  | some key =>
    have hB : BlockSize = 16 := rfl
    have hblocks : (size - BlockSize) / BlockSize * BlockSize = size - BlockSize := by
      simp only [hB] at hbad ⊢
      omega
    have hmin : 2 * BlockSize ≤ size := by omega
    simp only [hblocks]
    refine Buffer.agree_create (fun hno => agree_pure ?_) fun fresh hfresh hmax => ?_
    · rcases hno with hlt | hA
      · rw [if_pos (Or.inr (Or.inr hlt))]
        exact Or.inl rfl
      · exact Or.inr ⟨rfl, hA⟩
    rw [if_neg (by omega), slice_take _ (by omega), slice_take _ (by omega)]
    refine agree_bind (agree_loadAt (by omega)) ?_
    rintro _ rfl
    refine agree_bind (agree_loadAt (by omega)) ?_
    rintro _ rfl
    simp only [Option.bind_eq_bind, Option.bind_some]
    cases hdec : aes.decryptCbc key (slice src 0 BlockSize)
        (slice src BlockSize (size - BlockSize)) with
    | none => exact agree_bind (agree_wipe hfresh.ge) fun _ _ => agree_pure (Or.inl rfl)
    | some data =>
      have hdata : data.length = size - BlockSize := by
        rw [aes.length_decrypt hdec, length_slice (by omega)]
      have hbuf : patch fresh 0 data = data := by
        simp [patch, List.drop_of_length_le (show fresh.length ≤ data.length by omega)]
      refine agree_bind (agree_storeAt (by omega)) ?_
      rintro _ rfl
      rw [hbuf]
      refine agree_bind (agree_loadAt (by omega)) ?_
      rintro _ rfl
      simp only [Option.bind_some, openData, hdata]
      by_cases hin : leNat (slice data 0 4) ≤ size - BlockSize - 4
      · simp only [ge_iff_le, if_pos hin]
        exact (agree_moveToFront (by omega) (by omega) (by omega)).mono fun _ => Or.inl
      · simp only [ge_iff_le, if_neg hin]
        exact agree_bind (agree_wipe hdata.ge) fun _ _ => agree_pure (Or.inl rfl)

theorem padding_lt (n : ℕ) : padding n < BlockSize ∧ (n + padding n) % BlockSize = 0 := by
  have hB : BlockSize = 16 := rfl
  unfold padding
  simp only [hB]
  split_ifs <;> omega

/-- The data buffer of an encryption: the source behind its length, and the padding. -/
structure Padded (data src : List UInt8) : Prop where
  size : slice data 0 4 = leBytes 4 src.length
  bytes : slice data 4 src.length = src
  short : src.length < uint32
  le_length : 4 + src.length ≤ data.length

theorem Padded.openData {data src : List UInt8} (h : Padded data src) : openData data = some src := by
  have hsize : leNat (slice data 0 4) = src.length := by
    rw [h.size, leNat_leBytes]
    exact Nat.mod_eq_of_lt h.short
  have := h.le_length
  rw [Crypto.openData, hsize, if_pos (by omega), h.bytes]

/-- Filling the data buffer. -/
theorem padded_patch (fresh src : List UInt8) (pad : ℕ) (hlen : fresh.length = 4 + src.length + pad)
    (hshort : src.length < uint32) :
    Padded (patch (patch (patch fresh 0 (leBytes 4 src.length)) 4 src) (4 + src.length)
      (List.replicate pad 0)) src := by
  have h₁ : (patch fresh 0 (leBytes 4 src.length)).length = fresh.length :=
    length_patch (by rw [length_leBytes]; omega)
  have h₂ : (patch (patch fresh 0 (leBytes 4 src.length)) 4 src).length = fresh.length := by
    rw [length_patch (by omega), h₁]
  refine ⟨?_, ?_, hshort, ?_⟩
  · have hstored : slice (patch fresh 0 (leBytes 4 src.length)) 0 (leBytes 4 src.length).length =
        leBytes 4 src.length := slice_patch (by rw [length_leBytes]; omega)
    rw [length_leBytes] at hstored
    rw [slice_patch_of_le (by omega) (by omega), slice_patch_of_le (by omega) (by omega), hstored]
  · rw [slice_patch_of_le (by omega) (by omega), slice_patch (by omega)]
  · rw [length_patch (by rw [List.length_replicate]; omega), h₂]
    omega

/-- The vector and the blocks behind it fill the output buffer. -/
theorem patch_patch_blocks {fresh iv enc : List UInt8} (hlen : fresh.length = iv.length + enc.length) :
    patch (patch fresh 0 iv) iv.length enc = iv ++ enc := by
  have hroom : iv.length + enc.length ≤ fresh.length := hlen.ge
  have hfull : (patch (patch fresh 0 iv) iv.length enc).length = fresh.length := by
    rw [length_patch (by rw [length_patch (by omega)]; omega), length_patch (by omega)]
  have htake := take_patch_patch hroom
  rwa [List.take_of_length_le (by rw [hfull, hlen])] at htake

/-- **What an encryption returns**: a container of the source, unless memory is refused, the sizes
are too large, or the cipher fails. -/
inductive Encrypts (A : Allocator) (aes : Aes) (key src : List UInt8) :
    Option (List UInt8 × ℕ) → Prop
  | container {iv data enc : List UInt8} (hiv : iv.length = BlockSize) (hdata : Padded data src)
      (hblocks : data.length % BlockSize = 0) (hcbc : aes.encryptCbc key iv data = some enc)
      (hmax : data.length + BlockSize ≤ Buffer.BufferMax) :
      Encrypts A aes key src (some (iv ++ enc, data.length + BlockSize))
  | failed {iv data : List UInt8} (hiv : iv.length = BlockSize)
      (hblocks : data.length % BlockSize = 0) (hcbc : aes.encryptCbc key iv data = none) :
      Encrypts A aes key src none
  | large (hlt : Buffer.BufferMax < 4 + src.length + 31) : Encrypts A aes key src none
  | refused (hA : ¬ A.Generous) : Encrypts A aes key src none

/-- The container of a data buffer of whole blocks. -/
theorem ensures_encryptBlocks {key data src : List UInt8} (hdata : Padded data src)
    (hblocks : data.length % BlockSize = 0) (hshort : data.length ≤ 4 + src.length + 15) :
    Ensures (encryptBlocks A aes random key data data.length (data.length + BlockSize)) h
      fun r _ => Encrypts A aes key src r := by
  have hB : BlockSize = 16 := rfl
  have hwhole : data.length / BlockSize * BlockSize = data.length :=
    Nat.div_mul_cancel (Nat.dvd_of_mod_eq_zero hblocks)
  unfold encryptBlocks
  rw [ensures_bind]
  refine Buffer.ensures_create (fun h' hno => ensures_pure.mpr ?_) fun fresh h' hfresh hmax => ?_
  · by_cases hlt : Buffer.BufferMax < 4 + src.length + 31
    · exact .large hlt
    · exact .refused fun hA => hno (hA h _ (by omega))
  simp only [readRandom, ensures_bind, hwhole]
  refine ⟨h', h', rfl, ensures_pure.mpr ?_⟩
  have hiv : (random.next h'.requests).length = BlockSize := random.length_next _
  set iv := random.next h'.requests
  have hload : slice data 0 data.length = data := by rw [slice_zero, List.take_length]
  refine ensures_storeAt (by omega) (ensures_loadAt (by omega) ?_)
  rw [hload]
  have hlen₁ : (patch fresh 0 iv).length = fresh.length := length_patch (by omega)
  cases hcbc : aes.encryptCbc key iv data with
  | none =>
    simp only [ensures_bind]
    exact ensures_wipe (by omega) fun _ => ensures_pure.mpr (.failed hiv hblocks hcbc)
  | some enc =>
    have hlen₂ : enc.length = data.length := aes.length_encrypt hcbc
    simp only [ensures_bind]
    refine ensures_storeAt (by omega) (ensures_pure.mpr ?_)
    rw [← hiv, patch_patch_blocks (by omega), hiv]
    exact .container hiv hdata hblocks hcbc hmax

/-- The sizes of the two buffers of an encryption. -/
def encSize (size : ℕ) : ℕ :=
  ((4 + size) % uint32 + padding ((4 + size) % uint32)) % uint32

def fullSize (size : ℕ) : ℕ :=
  (encSize size + BlockSize) % uint32

/-- A size that is not among the last ones does not wrap. -/
theorem encSize_eq {size : ℕ} (hfits : 4 + size ≤ uint32 - BlockSize) :
    encSize size = 4 + size + padding (4 + size) := by
  have hB : BlockSize = 16 := rfl
  have hU : uint32 = 4294967296 := rfl
  obtain ⟨hpad, hblocks⟩ := padding_lt (4 + size)
  rw [encSize, Nat.mod_eq_of_lt (show 4 + size < uint32 by omega)]
  refine Nat.mod_eq_of_lt ?_
  rw [hB] at hblocks
  omega

theorem fullSize_eq {size : ℕ} (hmax : encSize size ≤ Buffer.BufferMax) :
    fullSize size = encSize size + BlockSize := by
  have hB : BlockSize = 16 := rfl
  have hU : uint32 = 4294967296 := rfl
  have hM : Buffer.BufferMax = 1073741824 := rfl
  exact Nat.mod_eq_of_lt (by omega)

/-- The last sizes wrap to nothing, or to a single block. -/
theorem encSize_of_wrap {size : ℕ} (hlt : size < uint32) (hwrap : uint32 - BlockSize < 4 + size) :
    encSize size = if size ≤ uint32 - 4 then 0 else BlockSize := by
  have hB : BlockSize = 16 := rfl
  have hU : uint32 = 4294967296 := rfl
  obtain ⟨hpad, hblocks⟩ := padding_lt ((4 + size) % uint32)
  unfold encSize
  simp only [hB, hU] at hwrap hlt hpad hblocks ⊢
  split_ifs <;> omega

/-- **An encryption**, with whatever memory, if a size does not wrap. -/
theorem ensures_encrypt_cases {key src : List UInt8} {size : ℕ} (hzero : size ≠ 0)
    (hsize : size ≤ src.length) (hfits : 4 + size ≤ uint32 - BlockSize) :
    Ensures (encrypt A aes random (some key) src size) h fun r _ =>
      Encrypts A aes key (src.take size) r := by
  have hB : BlockSize = 16 := rfl
  have hU : uint32 = 4294967296 := rfl
  obtain ⟨hpad, hblocks⟩ := padding_lt (4 + size)
  have hreal : (4 + size) % uint32 = 4 + size := Nat.mod_eq_of_lt (by omega)
  have htake : (src.take size).length = size := List.length_take_of_le hsize
  have henc := encSize_eq hfits
  have hfull : encSize size ≤ Buffer.BufferMax → fullSize size = encSize size + BlockSize :=
    fullSize_eq
  rw [fullSize, encSize, hreal] at hfull
  rw [encSize, hreal] at henc
  unfold encrypt
  rw [if_neg hzero]
  simp only [hreal]
  set pad := padding (4 + size)
  rw [henc] at hfull
  simp only [henc, ensures_bind]
  refine Buffer.ensures_create (fun h' hno => ensures_pure.mpr ?_) fun fresh h' hfresh hmax => ?_
  · by_cases hlt : Buffer.BufferMax < 4 + (src.take size).length + 31
    · exact .large hlt
    · exact .refused fun hA => hno (hA h _ (by omega))
  simp only [hfull hmax, ensures_bind]
  have hbytes : slice src 0 size = src.take size := slice_zero _ _
  have hpadded := padded_patch fresh (src.take size) pad (by omega) (by omega)
  rw [htake] at hpadded
  refine ensures_storeAt (by rw [length_leBytes]; omega) ?_
  have hlen₁ : (patch fresh 0 (leBytes 4 size)).length = fresh.length :=
    length_patch (by rw [length_leBytes]; omega)
  rw [← hbytes] at htake hpadded ⊢
  refine ensures_loadAt (by omega) (ensures_storeAt (by omega) ?_)
  have hlen₂ : (patch (patch fresh 0 (leBytes 4 size)) 4 (slice src 0 size)).length =
      fresh.length := by rw [length_patch (by omega), hlen₁]
  refine ensures_storeAt (by rw [List.length_replicate]; omega) ?_
  set data := patch (patch (patch fresh 0 (leBytes 4 size)) 4 (slice src 0 size)) (4 + size)
    (List.replicate pad 0) with hdata
  have hlen : data.length = 4 + size + pad := by
    rw [hdata, length_patch (by rw [List.length_replicate]; omega), hlen₂, hfresh]
  rw [← hlen] at hblocks ⊢
  -- the data buffer is erased, whether there is a container or not
  exact (ensures_encryptBlocks hpadded hblocks (by omega)).mono fun r h'' hr =>
    ensures_wipe le_rfl fun _ => ensures_pure.mpr hr

/-- A container is opened again by the key. -/
theorem openEncrypted_container (haes : aes.Inverts) {key iv data enc src : List UInt8}
    (hiv : iv.length = BlockSize) (hdata : Padded data src) (hblocks : data.length % BlockSize = 0)
    (hcbc : aes.encryptCbc key iv data = some enc)
    (hmax : data.length + BlockSize ≤ Buffer.BufferMax) :
    openEncrypted aes (some key) (iv ++ enc) = some src := by
  have hB : BlockSize = 16 := rfl
  have henc : enc.length = data.length := aes.length_encrypt hcbc
  have hle := hdata.le_length
  have hlen : (iv ++ enc).length = BlockSize + data.length := by
    rw [List.length_append, hiv, henc]
  have hfront : slice (iv ++ enc) 0 BlockSize = iv := by
    rw [slice_zero, ← hiv, List.take_left]
  have hback : slice (iv ++ enc) BlockSize data.length = enc := by
    rw [slice, ← hiv, List.drop_left, ← henc, List.take_length]
  have hbad : ¬ (BlockSize + data.length < 2 * BlockSize ∨
      (BlockSize + data.length) % BlockSize ≠ 0 ∨ data.length > Buffer.BufferMax) := by
    rw [Nat.add_mod_left, hblocks]
    rw [hB] at hblocks ⊢
    omega
  rw [openEncrypted, hlen, Nat.add_sub_cancel_left, if_neg hbad, hfront, hback]
  simp only [Option.bind_eq_bind, Option.bind_some, haes hcbc]
  exact hdata.openData

/-- **Encrypting** gives a container that holds the source, if a size does not wrap. -/
theorem ensures_encrypt (haes : aes.Inverts) {key : Option (List UInt8)}
    {src : List UInt8} {size : ℕ} (hsize : size ≤ src.length)
    (hfits : key = none ∨ 4 + size ≤ uint32 - BlockSize) :
    Ensures (encrypt A aes random key src size) h fun r _ => ∀ buf n, r = some (buf, n) →
      n ≤ buf.length ∧ n ≤ Buffer.BufferMax ∧ n ≠ 0 ∧
        openEncrypted aes key (buf.take n) = some (src.take size) := by
  by_cases hzero : size = 0
  · unfold encrypt
    rw [if_pos hzero]
    exact ensures_pure.mpr (by simp)
  cases key with
  | none =>
    unfold encrypt
    rw [if_neg hzero]
    exact ensures_pure.mpr (by simp)
  | some key =>
    refine (ensures_encrypt_cases hzero hsize (hfits.resolve_left (by simp))).mono ?_
    rintro r h' hr buf n rfl
    cases hr with
    | @container iv data enc hiv hdata hblocks hcbc hmax =>
      have hlen : (iv ++ enc).length = data.length + BlockSize := by
        rw [List.length_append, hiv, aes.length_encrypt hcbc, Nat.add_comm]
      refine ⟨hlen.ge, hmax, Nat.succ_ne_zero _, ?_⟩
      rw [← hlen, List.take_length]
      exact openEncrypted_container haes hiv hdata hblocks hcbc hmax

/-- **A size that wraps** makes the data buffer too small. -/
theorem undefined_encrypt_of_available {key src : List UInt8} {size : ℕ} (hlt : size < uint32)
    (hwrap : uint32 - BlockSize < 4 + size) (hav : Buffer.Available A h (encSize size)) :
    Undefined (encrypt A aes random (some key) src size) h := by
  have hB : BlockSize = 16 := rfl
  have hU : uint32 = 4294967296 := rfl
  -- the wrapped size of the data buffer is zero or one block
  have hsmall : encSize size ≤ BlockSize := by
    rw [encSize_of_wrap hlt hwrap]
    split_ifs <;> omega
  unfold encrypt
  rw [if_neg (by omega)]
  simp only
  refine Ensures.undefined_bind ?_
  refine Buffer.ensures_create_available hav fun fresh hlen => ?_
  have hfresh : fresh.length = encSize size := hlen
  by_cases hroom : 4 ≤ fresh.length
  · refine Ensures.undefined_bind (ensures_storeAt (by rw [length_leBytes]; omega) ?_)
    by_cases hsrc : size ≤ src.length
    · refine Ensures.undefined_bind (ensures_loadAt (by omega) ?_)
      refine (undefined_storeAt ?_).bind _
      rw [length_patch (by rw [length_leBytes]; omega), length_slice (by omega)]
      omega
    · refine Undefined.bind ?_ _
      rw [loadAt, if_neg (by omega)]
      rfl
  · exact (undefined_storeAt (by rw [length_leBytes]; omega)).bind _

theorem undefined_encrypt (hA : A.Generous) {key src : List UInt8} {size : ℕ}
    (hlt : size < uint32) (hwrap : uint32 - BlockSize < 4 + size) :
    Undefined (encrypt A aes random (some key) src size) h := by
  refine undefined_encrypt_of_available hlt hwrap (hA h _ ?_)
  rw [encSize_of_wrap hlt hwrap]
  split_ifs <;> decide

end Crypto

end Lilu
