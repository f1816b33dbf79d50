import Lilu.Prelude.Chaining
import Lilu.Prelude.Bytes
import Lilu.Compression.RoundTrip

/-!
# Hashes

A hash is computed in a context: a block that is being filled, and eight words that each full block
changes. At the end the message is padded to whole blocks, with its length in bits at the end of the
last one.

## Main definitions

* `sha256Transform`, `sha256Update`, `sha256Final`: the three steps
* `hash`: what the kernel extensions call
* `padded`, `sha256`: the padded message and its digest

## Main results

* `takenIn_sha256Update`: the context has taken in the message so far
* `ensures_hash`: a hash is the digest of the padded message, whatever the context held before
* `eq_or_collide_of_hash`: equal hashes come from equal messages, or the transform collides
-/

namespace Lilu

namespace Crypto

/-! ## The transform -/

/-- The eight words `a` to `h`. -/
structure Words where
  a : UInt32
  b : UInt32
  c : UInt32
  d : UInt32
  e : UInt32
  f : UInt32
  g : UInt32
  h : UInt32

def rotRight (a b : UInt32) : UInt32 :=
  a >>> b ||| a <<< (32 - b)

def ch (x y z : UInt32) : UInt32 :=
  (x &&& y) ^^^ (~~~x &&& z)

def maj (x y z : UInt32) : UInt32 :=
  (x &&& y) ^^^ (x &&& z) ^^^ (y &&& z)

def ep0 (x : UInt32) : UInt32 :=
  rotRight x 2 ^^^ rotRight x 13 ^^^ rotRight x 22

def ep1 (x : UInt32) : UInt32 :=
  rotRight x 6 ^^^ rotRight x 11 ^^^ rotRight x 25

def sig0 (x : UInt32) : UInt32 :=
  rotRight x 7 ^^^ rotRight x 18 ^^^ x >>> 3

def sig1 (x : UInt32) : UInt32 :=
  rotRight x 17 ^^^ rotRight x 19 ^^^ x >>> 10

def k : List UInt32 := [
  0x428a2f98, 0x71374491, 0xb5c0fbcf, 0xe9b5dba5, 0x3956c25b, 0x59f111f1, 0x923f82a4, 0xab1c5ed5,
  0xd807aa98, 0x12835b01, 0x243185be, 0x550c7dc3, 0x72be5d74, 0x80deb1fe, 0x9bdc06a7, 0xc19bf174,
  0xe49b69c1, 0xefbe4786, 0x0fc19dc6, 0x240ca1cc, 0x2de92c6f, 0x4a7484aa, 0x5cb0a9dc, 0x76f988da,
  0x983e5152, 0xa831c66d, 0xb00327c8, 0xbf597fc7, 0xc6e00bf3, 0xd5a79147, 0x06ca6351, 0x14292967,
  0x27b70a85, 0x2e1b2138, 0x4d2c6dfc, 0x53380d13, 0x650a7354, 0x766a0abb, 0x81c2c92e, 0x92722c85,
  0xa2bfe8a1, 0xa81a664b, 0xc24b8b70, 0xc76c51a3, 0xd192e819, 0xd6990624, 0xf40e3585, 0x106aa070,
  0x19a4c116, 0x1e376c08, 0x2748774c, 0x34b0bcb5, 0x391c0cb3, 0x4ed8aa4a, 0x5b9cca4f, 0x682e6ff3,
  0x748f82ee, 0x78a5636f, 0x84c87814, 0x8cc70208, 0x90befffa, 0xa4506ceb, 0xbef9a3f7, 0xc67178f2]

/-- The words of a block, the highest byte of each first. -/
def loadWords (data : List UInt8) : List UInt32 :=
  (List.range 16).map fun i =>
    (data.getD (4 * i) 0).toUInt32 <<< 24 ||| (data.getD (4 * i + 1) 0).toUInt32 <<< 16 |||
      (data.getD (4 * i + 2) 0).toUInt32 <<< 8 ||| (data.getD (4 * i + 3) 0).toUInt32

/-- The next word of the schedule, from those before it. -/
def nextWord (m : List UInt32) (i : ℕ) : UInt32 :=
  sig1 (m.getD (i - 2) 0) + m.getD (i - 7) 0 + sig0 (m.getD (i - 15) 0) + m.getD (i - 16) 0

/-- The words of a block, and 48 more. -/
def schedule (data : List UInt8) : List UInt32 :=
  (List.range' 16 48).foldl (fun m i => m ++ [nextWord m i]) (loadWords data)

def round (s : Words) (ki mi : UInt32) : Words :=
  let t1 := s.h + ep1 s.e + ch s.e s.f s.g + ki + mi
  let t2 := ep0 s.a + maj s.a s.b s.c
  ⟨t1 + t2, s.a, s.b, s.c, s.d + t1, s.e, s.f, s.g⟩

/-- `sha256_transform`: the words after a block of 64 bytes. -/
def sha256Transform (state : Words) (data : List UInt8) : Words :=
  let s := (k.zip (schedule data)).foldl (fun s km => round s km.1 km.2) state
  ⟨state.a + s.a, state.b + s.b, state.c + s.c, state.d + s.d, state.e + s.e, state.f + s.f,
    state.g + s.g, state.h + s.h⟩

/-! ## The context -/

/-- `SHA256_CTX`. -/
structure Context where
  data : List UInt8
  datalen : ℕ
  bitlen : UInt64
  state : Words

/-- The first words. -/
def start : Words :=
  ⟨0x6a09e667, 0xbb67ae85, 0x3c6ef372, 0xa54ff53a, 0x510e527f, 0x9b05688c, 0x1f83d9ab, 0x5be0cd19⟩

/-- `sha256_init`: the block is left as it was. -/
def sha256Init (data : List UInt8) : Context :=
  ⟨data, 0, 0, start⟩

/-- One turn of the loop of `sha256_update`. -/
def updateByte (ctx : Context) (b : UInt8) : BlockM Context := do
  let data ← storeAt ctx.data ctx.datalen [b]
  if ctx.datalen + 1 = 64 then
    pure ⟨data, 0, ctx.bitlen + 512, sha256Transform ctx.state data⟩
  else pure ⟨data, ctx.datalen + 1, ctx.bitlen, ctx.state⟩

/-- `sha256_update`: its counter has 32 bits, so that the data must be shorter than that. -/
def sha256Update (ctx : Context) : List UInt8 → BlockM Context
  | [] => pure ctx
  | b :: data => do
    let ctx ← updateByte ctx b
    sha256Update ctx data

/-- Zeros at `n` places, from `i` on. -/
def fillZero (data : List UInt8) (i : ℕ) : ℕ → BlockM (List UInt8)
  | 0 => pure data
  | n + 1 => do
    let data ← storeAt data i [0]
    fillZero data (i + 1) n

/-- The bits of the message at the end of a block, the highest byte first. -/
def lengthBytes (bitlen : UInt64) : List UInt8 :=
  [(bitlen >>> 56).toUInt8, (bitlen >>> 48).toUInt8, (bitlen >>> 40).toUInt8,
    (bitlen >>> 32).toUInt8, (bitlen >>> 24).toUInt8, (bitlen >>> 16).toUInt8,
    (bitlen >>> 8).toUInt8, bitlen.toUInt8]

def wordBytes (w : UInt32) : List UInt8 :=
  [(w >>> 24).toUInt8, (w >>> 16).toUInt8, (w >>> 8).toUInt8, w.toUInt8]

/-- The eight words as they are copied to the output. -/
def digest (s : Words) : List UInt8 :=
  wordBytes s.a ++ wordBytes s.b ++ wordBytes s.c ++ wordBytes s.d ++ wordBytes s.e ++
    wordBytes s.f ++ wordBytes s.g ++ wordBytes s.h

/-- The padding of `sha256_final` before the length; a block that has no room for it is transformed,
and the next one begins with zeros. -/
def padBlock (ctx : Context) : BlockM (List UInt8 × Words) := do
  let data ← storeAt ctx.data ctx.datalen [0x80]
  if ctx.datalen < 56 then do
    let data ← fillZero data (ctx.datalen + 1) (56 - (ctx.datalen + 1))
    pure (data, ctx.state)
  else do
    let data ← fillZero data (ctx.datalen + 1) (64 - (ctx.datalen + 1))
    let state := sha256Transform ctx.state data
    let data ← storeAt data 0 (List.replicate 56 0)
    pure (data, state)

/-- `sha256_final`. -/
def sha256Final (ctx : Context) (hash : List UInt8) : BlockM (List UInt8) := do
  let (data, state) ← padBlock ctx
  let bitlen := ctx.bitlen + UInt64.ofNat (ctx.datalen * 8)
  let data ← storeAt data 56 (lengthBytes bitlen)
  storeAt hash 0 (digest (sha256Transform state data))

/-- The size of a digest, under the name the source has for it. -/
def SHA256_BLOCK_SIZE : ℕ := 32

variable (A : Allocator)

/-- `Crypto::hash`; the context lies on the stack and holds `junk` at first. -/
def hash (junk : List UInt8) (src : Option (List UInt8)) (size : UInt32) :
    BlockM (Option (List UInt8)) :=
  match src with
  | none => pure none
  | some src =>
    if size = 0 then pure none
    else do
      match ← Buffer.create A SHA256_BLOCK_SIZE with
      | none => pure none
      | some buf =>
        let data ← loadAt src 0 size.toNat
        let ctx ← sha256Update (sha256Init junk) data
        some <$> sha256Final ctx buf

/-! ## The padded message -/

/-- What follows a message of `n` bytes: a one, zeros, and the number of its bits. -/
def hashPadding (n : ℕ) : List UInt8 :=
  0x80 :: List.replicate ((119 - n % 64) % 64) 0 ++ (leBytes 8 (8 * n)).reverse

/-- The message in whole blocks. -/
def padded (m : List UInt8) : List UInt8 :=
  m ++ hashPadding m.length

/-- The number of blocks, less one, of a message of `n` bytes. -/
def lastBlock (n : ℕ) : ℕ :=
  (n + 8) / 64

/-- The digest of the padded message. -/
def sha256 (m : List UInt8) : List UInt8 :=
  digest (chained sha256Transform 64 start (padded m) (lastBlock m.length + 1))

example : sha256 [0x61, 0x62, 0x63] = [
    0xba, 0x78, 0x16, 0xbf, 0x8f, 0x01, 0xcf, 0xea, 0x41, 0x41, 0x40, 0xde, 0x5d, 0xae, 0x22, 0x23,
    0xb0, 0x03, 0x61, 0xa3, 0x96, 0x17, 0x7a, 0x9c, 0xb4, 0x10, 0xff, 0x61, 0xf2, 0x00, 0x15,
    0xad] := by
  decide +kernel

theorem length_padded (m : List UInt8) : (padded m).length = 64 * (lastBlock m.length + 1) := by
  simp only [padded, hashPadding, List.length_append, List.length_cons, List.length_replicate,
    List.length_reverse, length_leBytes, lastBlock]
  omega

theorem lengthBytes_eq (v : ℕ) : lengthBytes (UInt64.ofNat v) = (leBytes 8 v).reverse := by
  have hbyte : ∀ {x : UInt8} {n : ℕ}, x.toNat = n % 256 → x = UInt8.ofNat n := by
    intro x n h
    rw [← UInt8.ofNat_toNat (x := x), h, UInt8.ofNat_mod_size']
  simp only [lengthBytes, leBytes, Nat.div_div_eq_div_mul, List.reverse_cons, List.reverse_nil,
    List.nil_append, List.cons_append, List.cons.injEq, and_true]
  refine ⟨?_, ?_, ?_, ?_, ?_, ?_, ?_, hbyte (by simp)⟩
  all_goals
    apply hbyte
    simp [Nat.shiftRight_eq_div_pow]
    omega

/-! ## Taking a message in -/

variable {old rest whole : List UInt8} {j : ℕ}

/-- A byte is stored behind those a block has. -/
theorem storeAt_next (b o : UInt8) :
    (storeAt (rest ++ o :: old) rest.length [b] : BlockM _) = pure (rest ++ b :: old) := by
  have hroom : rest.length + [b].length ≤ (rest ++ o :: old).length := by simp
  rw [storeAt, if_pos hroom, patch, List.take_left, List.append_assoc]
  simp

theorem fillZero_eq (n : ℕ) (hn : n ≤ old.length) :
    fillZero (rest ++ old) rest.length n = pure (rest ++ (List.replicate n 0 ++ old.drop n)) := by
  induction n generalizing rest old with
  | zero => rfl
  | succ n ih =>
    obtain _ | ⟨o, old⟩ := old
    · exact absurd hn (by simp)
    · have hle : n ≤ old.length := Nat.le_of_succ_le_succ hn
      have hrest : rest.length + 1 = (rest ++ [(0 : UInt8)]).length := by simp
      have hrun : fillZero (rest ++ [0] ++ old) (rest ++ [(0 : UInt8)]).length n =
          pure (rest ++ [0] ++ (List.replicate n 0 ++ old.drop n)) := ih hle
      rw [fillZero, storeAt_next, pure_bind, hrest, List.append_cons, hrun]
      simp [List.replicate_succ]

/-- The context has taken in the message: its whole blocks are in the words, and the rest of it is
in the block. -/
def TakenIn (ctx : Context) (m : List UInt8) : Prop :=
  ∃ (j : ℕ) (whole rest : List UInt8) (o : UInt8) (old : List UInt8), m = whole ++ rest ∧
    whole.length = 64 * j ∧ (rest ++ o :: old).length = 64 ∧
    ctx = ⟨rest ++ o :: old, rest.length, UInt64.ofNat (512 * j),
      chained sha256Transform 64 start whole j⟩

theorem takenIn_sha256Init {data : List UInt8} (hdata : data.length = 64) :
    TakenIn (sha256Init data) [] := by
  obtain _ | ⟨o, old⟩ := data
  · exact absurd hdata (by simp)
  · exact ⟨0, [], [], o, old, rfl, rfl, hdata, rfl⟩

/-- One more byte is taken in. -/
theorem takenIn_updateByte {ctx : Context} {m : List UInt8} (hctx : TakenIn ctx m) (b : UInt8) :
    ∃ ctx', updateByte ctx b = pure ctx' ∧ TakenIn ctx' (m ++ [b]) := by
  obtain ⟨j, whole, rest, o, old, rfl, hwhole, hlen, rfl⟩ := hctx
  rw [updateByte, storeAt_next, pure_bind]
  simp only [List.length_append, List.length_cons] at hlen
  by_cases hfull : rest.length + 1 = 64
  · -- the block is full: it becomes a whole one, and its bytes are left to be overwritten
    obtain rfl : old = [] := List.eq_nil_of_length_eq_zero (by omega)
    have hblock : (rest ++ [b]).length = 64 := by simp [hfull]
    have hstate := chained_snoc (f := sha256Transform) (s := start) hwhole hblock []
    rw [List.append_nil] at hstate
    obtain ⟨o, old, hcons⟩ : ∃ o old, rest ++ [b] = o :: old :=
      List.exists_cons_of_ne_nil (by simp)
    refine ⟨_, if_pos hfull, j + 1, whole ++ (rest ++ [b]), [], o, old, by simp, ?_, ?_, ?_⟩
    · rw [List.length_append, hwhole, hblock, Nat.mul_succ]
    · rw [List.nil_append, ← hcons, hblock]
    · rw [List.nil_append, ← hcons, hstate]
      have hbits : UInt64.ofNat (512 * j) + 512 = UInt64.ofNat (512 * (j + 1)) := by
        rw [Nat.mul_succ, UInt64.ofNat_add]
        rfl
      rw [hbits]
      rfl
  · obtain _ | ⟨o', old⟩ := old
    · exact absurd hlen (by simp; omega)
    · rw [if_neg hfull]
      rw [List.length_cons] at hlen
      refine ⟨_, rfl, j, whole, rest ++ [b], o', old, List.append_assoc _ _ _, hwhole, ?_, ?_⟩
      · simp only [List.length_append, List.length_cons, List.length_nil]
        omega
      · simp

/-- **A message is taken in** byte by byte. -/
theorem takenIn_sha256Update {ctx : Context} {m : List UInt8} (hctx : TakenIn ctx m)
    (data : List UInt8) : ∃ ctx', sha256Update ctx data = pure ctx' ∧ TakenIn ctx' (m ++ data) := by
  induction data generalizing ctx m with
  | nil => exact ⟨ctx, rfl, by rwa [List.append_nil]⟩
  | cons b data ih =>
    obtain ⟨ctx₁, hstep, hctx₁⟩ := takenIn_updateByte hctx b
    obtain ⟨ctx₂, hrun, hctx₂⟩ := ih hctx₁
    refine ⟨ctx₂, ?_, by rwa [List.append_assoc] at hctx₂⟩
    rw [sha256Update, hstep, pure_bind, hrun]

/-! ## The last blocks -/

/-- The room for the length, at the end of a block. -/
theorem storeAt_last {front tail last : List UInt8} (hfront : front.length = 56)
    (htail : tail.length = 8) (hlast : last.length = 8) :
    (storeAt (front ++ tail) 56 last : BlockM _) = pure (front ++ last) := by
  have hroom : 56 + last.length ≤ (front ++ tail).length := by simp [hfront, htail, hlast]
  have hdrop : (front ++ tail).drop (56 + last.length) = [] :=
    List.drop_eq_nil_of_le (by simp [hfront, htail, hlast])
  rw [storeAt, if_pos hroom, patch, hdrop, List.append_nil, List.take_left' hfront]

/-- The rest of a message with the one behind it, and zeros up to `n` bytes. -/
def ended (rest : List UInt8) (n : ℕ) : List UInt8 :=
  rest ++ 0x80 :: List.replicate (n - (rest.length + 1)) 0

theorem length_ended {n : ℕ} (hrest : rest.length < n) : (ended rest n).length = n := by
  simp only [ended, List.length_append, List.length_cons, List.length_replicate]
  omega

theorem fillZero_ended (rest old : List UInt8) {n : ℕ} (hn : n - (rest.length + 1) ≤ old.length) :
    fillZero (rest ++ 0x80 :: old) (rest.length + 1) (n - (rest.length + 1)) =
      pure (ended rest n ++ old.drop (n - (rest.length + 1))) := by
  have hrest : rest.length + 1 = (rest ++ [(0x80 : UInt8)]).length := by simp
  have hfill : fillZero (rest ++ [0x80] ++ old) (rest ++ [(0x80 : UInt8)]).length
      (n - (rest.length + 1)) = pure (rest ++ [0x80] ++ (List.replicate (n - (rest.length + 1)) 0 ++
        old.drop (n - (rest.length + 1)))) := fillZero_eq _ hn
  rw [← hrest, ← List.append_cons] at hfill
  rw [hfill, ended, List.append_assoc, List.append_assoc]
  rfl

/-- What is left of the message is padded in one block, or in two. -/
theorem padBlock_eq {ctx : Context} {m : List UInt8} (hctx : TakenIn ctx m) :
    ∃ front tail state, padBlock ctx = pure (front ++ tail, state) ∧ front.length = 56 ∧
      tail.length = 8 ∧ ∀ last : List UInt8, last.length = 8 →
        sha256Transform state (front ++ last) = chained sha256Transform 64 start
          (m ++ (0x80 :: List.replicate ((119 - m.length % 64) % 64) 0 ++ last))
          (lastBlock m.length + 1) := by
  obtain ⟨j, whole, rest, o, old, rfl, hwhole, hlen, rfl⟩ := hctx
  simp only [List.length_append, List.length_cons] at hlen
  have hmod : (whole ++ rest).length % 64 = rest.length := by
    rw [List.length_append, hwhole]
    omega
  rw [hmod]
  by_cases hshort : rest.length < 56
  · have hblocks : lastBlock (whole ++ rest).length = j := by
      rw [lastBlock, List.length_append, hwhole]
      omega
    have hzeros : (119 - rest.length) % 64 = 56 - (rest.length + 1) := by omega
    refine ⟨ended rest 56, old.drop (56 - (rest.length + 1)),
      chained sha256Transform 64 start whole j, ?_, length_ended hshort, ?_, fun last hlast => ?_⟩
    · simp only [padBlock, storeAt_next, pure_bind, if_pos hshort]
      rw [fillZero_ended rest old (by omega), pure_bind]
    · rw [List.length_drop]
      omega
    · have hblock : (ended rest 56 ++ last).length = 64 := by
        rw [List.length_append, length_ended hshort, hlast]
      have hsnoc := chained_snoc (f := sha256Transform) (s := start) hwhole hblock []
      rw [← hsnoc, hblocks, hzeros, ended]
      simp only [List.append_nil, List.append_assoc, List.cons_append]
  · -- the length has no room behind the message: it is in a block of its own
    have hblocks : lastBlock (whole ++ rest).length = j + 1 := by
      rw [lastBlock, List.length_append, hwhole]
      omega
    have hzeros : (119 - rest.length) % 64 = (64 - (rest.length + 1)) + 56 := by omega
    have hnone : old.drop (64 - (rest.length + 1)) = [] := List.drop_eq_nil_of_le (by omega)
    have hblock : (ended rest 64).length = 64 := length_ended (by omega)
    refine ⟨List.replicate 56 0, (ended rest 64).drop 56,
      sha256Transform (chained sha256Transform 64 start whole j) (ended rest 64), ?_,
      List.length_replicate, ?_, fun last hlast => ?_⟩
    · have hroom : 0 + (List.replicate 56 (0 : UInt8)).length ≤ (ended rest 64).length := by
        rw [hblock]
        decide
      simp only [padBlock, storeAt_next, pure_bind, if_neg hshort]
      rw [fillZero_ended rest old (by omega), hnone, List.append_nil, pure_bind, storeAt,
        if_pos hroom, pure_bind, patch, List.length_replicate]
      rfl
    · rw [List.length_drop, hblock]
    · have hwhole' : (whole ++ ended rest 64).length = 64 * (j + 1) := by
        rw [List.length_append, hwhole, hblock, Nat.mul_succ]
      have hzeroed : (List.replicate 56 0 ++ last).length = 64 := by
        rw [List.length_append, List.length_replicate, hlast]
      have hfirst := chained_snoc (f := sha256Transform) (s := start) hwhole hblock []
      have hsecond := chained_snoc (f := sha256Transform) (s := start) hwhole' hzeroed []
      rw [List.append_nil] at hfirst hsecond
      rw [← hfirst, ← hsecond, hblocks, hzeros, List.replicate_add, ended]
      simp only [List.append_assoc, List.cons_append]

/-- **The digest of the message taken in.** -/
theorem sha256Final_eq {ctx : Context} {m buf : List UInt8} (hctx : TakenIn ctx m)
    (hbuf : buf.length = SHA256_BLOCK_SIZE) : sha256Final ctx buf = pure (sha256 m) := by
  obtain ⟨front, tail, state, hpad, hfront, htail, hlast⟩ := padBlock_eq hctx
  have hbits : ctx.bitlen + UInt64.ofNat (ctx.datalen * 8) = UInt64.ofNat (8 * m.length) := by
    obtain ⟨j, whole, rest, o, old, rfl, hwhole, -, rfl⟩ := hctx
    rw [← UInt64.ofNat_add, List.length_append, hwhole]
    congr 1
    dsimp only
    omega
  have hlen : (leBytes 8 (8 * m.length)).reverse.length = 8 := by simp
  have hdigest : ∀ s : Words, storeAt buf 0 (digest s) = (pure (digest s) : BlockM _) := by
    intro s
    have hsize : 0 + (digest s).length ≤ buf.length := by
      rw [hbuf]
      rfl
    have hdrop : buf.drop (0 + (digest s).length) = [] := List.drop_eq_nil_of_le (by rw [hbuf]; rfl)
    rw [storeAt, if_pos hsize, patch, hdrop, List.append_nil]
    rfl
  rw [sha256Final, hpad, pure_bind]
  simp only [hbits, lengthBytes_eq, storeAt_last hfront htail hlen, pure_bind, hdigest,
    hlast _ hlen]
  rfl

/-! ## Telling digests apart -/

theorem wordBytes_inj {v w : UInt32} (heq : wordBytes v = wordBytes w) : v = w := by
  simp only [wordBytes, List.cons.injEq, and_true] at heq
  obtain ⟨h₃, h₂, h₁, h₀⟩ := heq
  have hbyte : ∀ n : UInt32, n < 32 → (v >>> n).toUInt8 = (w >>> n).toUInt8 →
      v.toNat / 2 ^ n.toNat % 256 = w.toNat / 2 ^ n.toNat % 256 := by
    intro n hn h
    have hnat := congrArg UInt8.toNat h
    have hmod : n.toNat % 32 = n.toNat := Nat.mod_eq_of_lt hn
    simpa [hmod, Nat.shiftRight_eq_div_pow] using hnat
  have hv := v.toNat_lt
  have hw := w.toNat_lt
  have h24 := hbyte 24 (by decide) h₃
  have h16 := hbyte 16 (by decide) h₂
  have h8 := hbyte 8 (by decide) h₁
  have h0 := congrArg UInt8.toNat h₀
  simp at h24 h16 h8 h0
  apply UInt32.toNat_inj.mp
  omega

theorem digest_inj {s t : Words} (heq : digest s = digest t) : s = t := by
  obtain ⟨heq, hh⟩ := List.append_inj' heq rfl
  obtain ⟨heq, hg⟩ := List.append_inj' heq rfl
  obtain ⟨heq, hf⟩ := List.append_inj' heq rfl
  obtain ⟨heq, he⟩ := List.append_inj' heq rfl
  obtain ⟨heq, hd⟩ := List.append_inj' heq rfl
  obtain ⟨heq, hc⟩ := List.append_inj' heq rfl
  obtain ⟨ha, hb⟩ := List.append_inj' heq rfl
  cases s
  cases t
  congr
  exacts [wordBytes_inj ha, wordBytes_inj hb, wordBytes_inj hc, wordBytes_inj hd, wordBytes_inj he,
    wordBytes_inj hf, wordBytes_inj hg, wordBytes_inj hh]

variable {m m' : List UInt8}

/-- The last block ends with the number of bits. -/
theorem drop_padded (m : List UInt8) :
    (padded m).drop (64 * lastBlock m.length + 56) = (leBytes 8 (8 * m.length)).reverse := by
  rw [padded, hashPadding, ← List.append_assoc]
  refine List.drop_left' ?_
  simp [lastBlock]
  omega

theorem length_eq_of_lastBlock (hm : m.length < 2 ^ 61) (hm' : m'.length < 2 ^ 61)
    (heq : ((padded m).drop (64 * lastBlock m.length)).take 64 =
      ((padded m').drop (64 * lastBlock m'.length)).take 64) : m.length = m'.length := by
  have hend : ∀ l : List UInt8, (((padded l).drop (64 * lastBlock l.length)).take 64).drop 56 =
      (leBytes 8 (8 * l.length)).reverse := by
    intro l
    rw [List.take_of_length_le (by rw [List.length_drop, length_padded]; omega), List.drop_drop,
      drop_padded]
  have hbytes := congrArg (List.drop 56) heq
  rw [hend, hend, List.reverse_inj] at hbytes
  have hnat := congrArg leNat hbytes
  rw [leNat_leBytes, leNat_leBytes, Nat.mod_eq_of_lt (by omega),
    Nat.mod_eq_of_lt (by omega)] at hnat
  omega

/-- Equal digests come from equal messages, or the transform collides. -/
theorem eq_or_collide_of_sha256 (hm : m.length < 2 ^ 61) (hm' : m'.length < 2 ^ 61)
    (heq : sha256 m = sha256 m') :
    m = m' ∨ Collide sha256Transform 64 start (padded m) (padded m') := by
  have hstate := digest_inj heq
  by_cases hlen : m.length = m'.length
  · rw [← hlen] at hstate
    have hpadded : (padded m').length = 64 * (lastBlock m.length + 1) := by
      rw [hlen, length_padded]
    rcases chained_eq_cases (length_padded m).ge hpadded.ge hstate with htake | hcollide
    · rw [List.take_of_length_le (length_padded m).le, List.take_of_length_le hpadded.le] at htake
      exact .inl (List.append_inj_left htake hlen)
    · exact .inr hcollide
  · -- the lengths are in the last blocks, so that these are not the same
    right
    refine collide_of_last (length_padded m).ge (length_padded m').ge (fun hlast => ?_) hstate
    exact hlen (length_eq_of_lastBlock hm hm' hlast)

/-! ## The hash -/

variable {A : Allocator} {h : Heap Block} {junk src : List UInt8} {size : UInt32}

/-- With memory for a digest, the message is digested. -/
theorem ensures_hash_available (hjunk : junk.length = 64) (hsize : size.toNat ≤ src.length)
    (hpos : size ≠ 0) (hav : Buffer.Available A h SHA256_BLOCK_SIZE) :
    Ensures (hash A junk (some src) size) h fun out h' =>
      out = some (sha256 (src.take size.toNat)) ∧ h' = ⟨h.requests + 1, h.released⟩ := by
  simp only [hash, if_neg hpos]
  rw [ensures_bind]
  refine Buffer.ensures_create_available hav fun buf hbuf => ?_
  obtain ⟨ctx, hupdate, hctx⟩ :=
    takenIn_sha256Update (takenIn_sha256Init hjunk) (src.take size.toNat)
  rw [List.nil_append] at hctx
  have hload : (loadAt src 0 size.toNat : BlockM _) = pure (src.take size.toNat) := by
    rw [loadAt, if_pos (by omega), slice_zero]
  simp only [hload, pure_bind, hupdate, sha256Final_eq hctx hbuf, map_pure]
  exact ensures_pure.mpr ⟨rfl, rfl⟩

theorem ensures_hash_refused (hpos : size ≠ 0)
    (hno : ¬ Buffer.Available A h SHA256_BLOCK_SIZE) :
    Ensures (hash A junk (some src) size) h fun out h' =>
      out = none ∧ h'.released = h.released := by
  simp only [hash, if_neg hpos]
  rw [ensures_bind]
  exact Buffer.ensures_create_refused hno fun n => ensures_pure.mpr ⟨rfl, rfl⟩

/-- **A hash is the digest of the padded message**, whatever the context held before; there is none
if memory is refused. -/
theorem ensures_hash (hjunk : junk.length = 64) (hsize : size.toNat ≤ src.length)
    (hpos : size ≠ 0) :
    Ensures (hash A junk (some src) size) h fun out h' => h'.released = h.released ∧
      (Buffer.Available A h SHA256_BLOCK_SIZE → out = some (sha256 (src.take size.toNat))) ∧
      (¬ Buffer.Available A h SHA256_BLOCK_SIZE → out = none) := by
  by_cases hav : Buffer.Available A h SHA256_BLOCK_SIZE
  · refine (ensures_hash_available hjunk hsize hpos hav).mono ?_
    rintro _ _ ⟨rfl, rfl⟩
    exact ⟨rfl, fun _ => rfl, fun hno => absurd hav hno⟩
  · refine (ensures_hash_refused hpos hav).mono ?_
    rintro _ h' ⟨rfl, hreleased⟩
    exact ⟨hreleased, fun hyes => absurd hyes hav, fun _ => rfl⟩

theorem ensures_hash_abc :
    Ensures (hash Compression.generous (List.replicate 64 0) (some [0x61, 0x62, 0x63]) 3) ⟨0, []⟩
      fun out h' => h'.released = [] ∧ out = some (sha256 [0x61, 0x62, 0x63]) := by
  refine (ensures_hash (by decide) (by decide) (by decide)).mono ?_
  rintro out h' ⟨hreleased, hyes, -⟩
  exact ⟨hreleased, hyes (Compression.available_generous (by decide) _)⟩

/-- A hash that is returned is the digest of the padded message. -/
theorem eq_sha256_of_runs {d : List UInt8} {h' : Heap Block} (hjunk : junk.length = 64)
    (hsize : size.toNat ≤ src.length) (hrun : Runs (hash A junk (some src) size) h (some d) h') :
    d = sha256 (src.take size.toNat) := by
  by_cases hpos : size = 0
  · rw [hash, if_pos hpos, runs_pure] at hrun
    simp at hrun
  · by_cases hav : Buffer.Available A h SHA256_BLOCK_SIZE
    · obtain ⟨hout, -⟩ := (ensures_hash_available hjunk hsize hpos hav).of_runs hrun
      exact Option.some.inj hout
    · have hrefused : Ensures (hash A junk (some src) size) h fun out h' =>
          out = none ∧ h'.released = h.released := ensures_hash_refused hpos hav
      cases (hrefused.of_runs hrun).1

/-- **Equal hashes come from equal messages**, or the transform was given two different arguments
with one value on the way. -/
theorem eq_or_collide_of_hash {A' : Allocator} {junk' src' d : List UInt8} {size' : UInt32}
    {h₁ h₂ h₁' h₂' : Heap Block} (hjunk : junk.length = 64) (hjunk' : junk'.length = 64)
    (hsize : size.toNat ≤ src.length) (hsize' : size'.toNat ≤ src'.length)
    (hrun : Runs (hash A junk (some src) size) h₁ (some d) h₁')
    (hrun' : Runs (hash A' junk' (some src') size') h₂ (some d) h₂') :
    src.take size.toNat = src'.take size'.toNat ∨
      Collide sha256Transform 64 start (padded (src.take size.toNat))
        (padded (src'.take size'.toNat)) := by
  have hshort : ∀ (l : List UInt8) (n : UInt32), (l.take n.toNat).length < 2 ^ 61 := by
    intro l n
    have hn := n.toNat_lt
    rw [List.length_take]
    omega
  refine eq_or_collide_of_sha256 (hshort _ _) (hshort _ _) ?_
  rw [← eq_sha256_of_runs hjunk hsize hrun, ← eq_sha256_of_runs hjunk' hsize' hrun']

theorem eq_or_collide_of_hash_abc :
    [(0x61 : UInt8), 0x62, 0x63] = [0x61, 0x62, 0x63] ∨
      Collide sha256Transform 64 start (padded [0x61, 0x62, 0x63]) (padded [0x61, 0x62, 0x63]) := by
  have hruns : ∀ {junk : List UInt8}, junk.length = 64 →
      Runs (hash Compression.generous junk (some [0x61, 0x62, 0x63]) 3) ⟨0, []⟩
        (some (sha256 [0x61, 0x62, 0x63])) ⟨1, []⟩ := by
    intro junk hjunk
    have hrun : Ensures (hash Compression.generous junk (some [0x61, 0x62, 0x63]) 3) ⟨0, []⟩
        fun out h' => out = some (sha256 [0x61, 0x62, 0x63]) ∧ h' = ⟨1, []⟩ :=
      ensures_hash_available hjunk (by decide) (by decide)
        (Compression.available_generous (by decide) _)
    obtain ⟨_, _, hrun, rfl, rfl⟩ := hrun
    exact hrun
  have hzeros : (List.replicate 64 (0 : UInt8)).length = 64 := List.length_replicate
  have hones : (List.replicate 64 (1 : UInt8)).length = 64 := List.length_replicate
  exact eq_or_collide_of_hash hzeros hones (by decide) (by decide) (hruns hzeros) (hruns hones)

end Crypto

end Lilu
