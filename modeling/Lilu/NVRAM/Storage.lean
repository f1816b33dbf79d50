import Lilu.NVRAM.Crypto
import Lilu.Compression.RoundTrip

/-!
# NVRAM storage

A value is stored raw, or behind a header of four bytes whose options say which layers were put
around it: compression behind the size of the source, an encrypted container, and a checksum at
the end. Writing applies the layers in this order, reading takes them off as the header says.

## Main definitions

* `Platform`: the services of the kernel and of its libraries
* `NVStorage.write`, `NVStorage.read`: the two directions

## Main results

* `agree_unwrap`, `agree_read`: what taking the layers off gives
-/

namespace Lilu

open Compression

/-- The services that the storage rests on, apart from the allocator: the cipher, random numbers,
the checksum, the codecs, and whether a data object can be made and a property be set. -/
structure Platform where
  aes : Crypto.Aes
  random : Crypto.Random
  crc32 : List UInt8 → UInt32
  decoders : Decoders
  withBytes : List UInt8 → Bool
  setProperty : String → List UInt8 → Bool

/-- The data objects of a registry entry. -/
abbrev Registry := String → Option (List UInt8)

namespace NVStorage

/-- Storage options. -/
def OptAuto : UInt8 := 0
def OptRaw : UInt8 := 1
def OptCompressed : UInt8 := 2
def OptEncrypted : UInt8 := 4
def OptChecksum : UInt8 := 8
def OptSensitive : UInt8 := 16

/-- The value of an option mask at an option. -/
def has (opts opt : UInt8) : Bool :=
  opts &&& opt != 0

/-- The first and the last known version, the magic number and the size of the header. -/
def Magic : ℕ := 0xC717
def MaxVer : UInt8 := 1
def sizeofHeader : ℕ := 4
def sizeofChecksum : ℕ := 4

variable (A : Allocator) (P : Platform)

/-- Release a buffer, erased before if its contents are sensitive. -/
def dispose (sensitive : Bool) (len : ℕ) (buf : List UInt8) : BlockM Unit := do
  let buf ← (if sensitive then Crypto.zeroMemory len buf else pure buf)
  Buffer.deleter (.bytes buf)

/-- `NVStorage::compress`: the compressed data behind the size of the source. -/
def compress (src : List UInt8) (size : ℕ) (sensitive : Bool) :
    BlockM (Option (List UInt8 × ℕ)) := do
  let dstSize := (size + 1024) % uint32
  match ← Buffer.create A dstSize with
  | none => pure none
  | some buf =>
    let buf ← storeAt buf 0 (leBytes 4 size)
    let bytes ← loadAt src 0 size
    match ← Compression.compress A ModeLZSS dstSize bytes (some (buf, 4)) with
    | (some dstSize, buf) =>
      let size := (dstSize + 4) % uint32
      let buf ← Buffer.resize A buf size
      pure (some (buf, size))
    | (none, buf) =>
      dispose sensitive dstSize buf
      pure none

/-- `NVStorage::decompress`. -/
def decompress (src : List UInt8) (size : ℕ) (sensitive : Bool) :
    BlockM (Option (List UInt8 × ℕ)) :=
  if size ≤ 4 then pure none
  else do
    let dstSize ← loadAt src 0 4
    let dstSize := leNat dstSize
    match ← Buffer.create A dstSize with
    | none => pure none
    | some buf =>
      let bytes ← loadAt src 4 (size - 4)
      match ← Compression.decompress A P.decoders ModeLZSS dstSize bytes (some (buf, 0)) with
      | (some _, buf) => pure (some (buf, dstSize))
      | (none, buf) =>
        dispose sensitive dstSize buf
        pure none

/-- The payload: a buffer, the size of what it holds, and whether it was allocated here. -/
structure Payload where
  buf : List UInt8
  size : ℕ
  payloadAlloc : Bool

/-- `replacePayload`: what happens to the old payload. -/
def replacePayload (sensitive : Bool) (p : Payload) (orgSize : ℕ) : BlockM Unit :=
  if p.payloadAlloc then dispose sensitive orgSize p.buf else pure ()

/-- Put a layer around the payload, or take one off, if the options ask for it. -/
def layer (sensitive : Bool) (on : Bool)
    (f : List UInt8 → ℕ → BlockM (Option (List UInt8 × ℕ))) (p : Payload) :
    BlockM (Option Payload) :=
  if on then do
    let new ← f p.buf p.size
    replacePayload sensitive p p.size
    pure (new.map fun (buf, size) => ⟨buf, size, true⟩)
  else pure (some p)

/-- The header of a value that is written. -/
def header (opts : UInt8) : List UInt8 :=
  leBytes 2 Magic ++ [MaxVer, opts &&& ~~~OptSensitive]

/-- Put the header before the payload, and the checksum behind it. -/
def addHeader (opts : UInt8) (p : Payload) : BlockM (Option Payload) := do
  let size := (sizeofHeader + p.size + if has opts OptChecksum then sizeofChecksum else 0) % uint32
  match ← Buffer.create A size with
  | none =>
    replacePayload (has opts OptSensitive) p p.size
    pure none
  | some buf =>
    let buf ← storeAt buf 0 (header opts)
    let bytes ← loadAt p.buf 0 p.size
    let buf ← storeAt buf sizeofHeader bytes
    replacePayload (has opts OptSensitive) p p.size
    let payloadSize := (p.size + sizeofHeader) % uint32
    if has opts OptChecksum then
      let bytes ← loadAt buf 0 payloadSize
      let buf ← storeAt buf payloadSize (leBytes 4 (P.crc32 bytes).toNat)
      pure (some ⟨buf, (payloadSize + sizeofChecksum) % uint32, true⟩)
    else pure (some ⟨buf, payloadSize, true⟩)

/-- The layers of a value that is written, unless it is raw. -/
def wrap (opts : UInt8) (enckey : Option (List UInt8)) (p : Payload) : BlockM (Option Payload) :=
  if has opts OptRaw then pure (some p)
  else do
    match ← layer (has opts OptSensitive) (has opts OptCompressed)
      (fun buf size => compress A buf size (has opts OptSensitive)) p with
    | none => pure none
    | some p =>
      match ← layer (has opts OptSensitive) (has opts OptEncrypted)
        (Crypto.encrypt A P.aes P.random enckey) p with
      | none => pure none
      | some p => addHeader A P opts p

/-- The data object that `write` makes of the payload: the registry keeps it, or it is released. -/
def setData (key : String) (bytes : List UInt8) (opts : UInt8) (reg : Registry) :
    BlockM (Bool × Registry) :=
  if P.withBytes bytes then
    if P.setProperty key bytes then pure (true, Function.update reg key (some bytes))
    else do
      dispose (has opts OptSensitive) bytes.length bytes
      pure (false, reg)
  else pure (false, reg)

/-- `NVStorage::write`: whether it succeeds, and the registry afterwards. No source is an empty one,
which is refused. -/
def write (key : String) (src : List UInt8) (opts : UInt8) (enckey : Option (List UInt8))
    (reg : Registry) : BlockM (Bool × Registry) :=
  if src.length = 0 then pure (false, reg)
  else do
    match ← wrap A P opts enckey ⟨src, src.length, false⟩ with
    | none => pure (false, reg)
    | some p =>
      let bytes ← loadAt p.buf 0 p.size
      replacePayload (has opts OptSensitive) p p.size
      setData P key bytes opts reg

/-- The options in the header of a stored value. -/
def headerOpts (data : List UInt8) : UInt8 :=
  data.getD 3 0

/-- The checksum of a stored value, if it has one: the payload without it. -/
def verify (data : List UInt8) (p : Payload) : Option Payload :=
  if has (headerOpts data) OptChecksum then
    if p.size < sizeofChecksum then none
    else
      let payloadSize := p.size - sizeofChecksum
      let ncrc := P.crc32 (data.take (data.length - sizeofChecksum))
      let ocrc := leNat (slice p.buf payloadSize sizeofChecksum)
      if ocrc ≠ ncrc.toNat then none else some { p with size := payloadSize }
  else some p

/-- Take the layers off a stored value, unless it is raw. -/
def unwrap (opts : UInt8) (enckey : Option (List UInt8)) (data : List UInt8) :
    BlockM (Option Payload) :=
  if has opts OptRaw then pure (some ⟨data, data.length, false⟩)
  else if data.length < sizeofHeader then pure none
  else
    let hdrOpts := headerOpts data
    if leNat (data.take 2) ≠ Magic ∨ data.getD 2 0 > MaxVer ∨ hdrOpts &&& opts ≠ opts then pure none
    else match verify P data ⟨data.drop sizeofHeader, data.length - sizeofHeader, false⟩ with
    | none => pure none
    | some p => do
      match ← layer (has opts OptSensitive) (has hdrOpts OptEncrypted)
        (Crypto.decrypt A P.aes enckey) p with
      | none => pure none
      | some p =>
        layer (has opts OptSensitive) (has hdrOpts OptCompressed)
          (fun buf size => decompress A P buf size (has opts OptSensitive)) p

/-- `NVStorage::read`: the data and its size. -/
def read (key : String) (opts : UInt8) (enckey : Option (List UInt8)) (reg : Registry) :
    BlockM (Option (List UInt8 × ℕ)) :=
  match reg key with
  | none => pure none
  | some data =>
    if data.length = 0 then pure none
    else do
      match ← unwrap A P opts enckey data with
      | none => pure none
      | some p =>
        if p.payloadAlloc then pure (some (p.buf, p.size))
        else do
          match ← Buffer.create A p.size with
          | none => pure none
          | some buf =>
            let bytes ← loadAt p.buf 0 p.size
            let buf ← storeAt buf 0 bytes
            pure (some (buf, p.size))

/-! ## What a stored value holds -/

/-- The source of compressed data, if it fits a buffer. -/
def openCompressed (data : List UInt8) : Option (List UInt8) :=
  let size := leNat (slice data 0 4)
  if data.length ≤ 4 ∨ size > Buffer.BufferMax then none
  else match decompressLzss P.decoders.stack size (data.drop 4) with
  | some out => if out.length = size then some out else none
  | none => none

/-- The payload of a stored value behind its header, before the checksum; the checksum is right. -/
def payloadOf (data : List UInt8) : Option (List UInt8) :=
  let payload := data.drop sizeofHeader
  if has (headerOpts data) OptChecksum then
    if payload.length < sizeofChecksum then none
    else
      let n := payload.length - sizeofChecksum
      if leNat (slice payload n sizeofChecksum) =
          (P.crc32 (data.take (data.length - sizeofChecksum))).toNat then some (payload.take n)
      else none
  else some payload

/-- Take a layer off, if it is there. -/
def unlayer (on : Bool) (f : List UInt8 → Option (List UInt8)) (data : List UInt8) :
    Option (List UInt8) :=
  if on then f data else some data

/-- What a stored value with a header holds for a reader with the key. -/
def openSealed (enckey : Option (List UInt8)) (data : List UInt8) : Option (List UInt8) := do
  let payload ← payloadOf P data
  let payload ← unlayer (has (headerOpts data) OptEncrypted)
    (Crypto.openEncrypted P.aes enckey) payload
  unlayer (has (headerOpts data) OptCompressed) (openCompressed P) payload

/-- The header of a stored value is one that a reader with these options accepts. -/
def Accepts (opts : UInt8) (data : List UInt8) : Prop :=
  sizeofHeader ≤ data.length ∧ leNat (data.take 2) = Magic ∧ data.getD 2 0 ≤ MaxVer ∧
    headerOpts data &&& opts = opts

instance (opts : UInt8) (data : List UInt8) : Decidable (Accepts opts data) := by
  unfold Accepts
  infer_instance

/-- What a reader gets from a stored value. -/
def openStored (opts : UInt8) (enckey : Option (List UInt8)) (data : List UInt8) :
    Option (List UInt8) :=
  let found := if has opts OptRaw then some data
    else if Accepts opts data then openSealed P enckey data else none
  found.filter fun bytes => bytes.length ≤ Buffer.BufferMax

/-! ## Reading -/

variable {A P} {h : Heap Block}

/-- Erased or not, a buffer is released. -/
theorem runs_dispose (sensitive : Bool) {len : ℕ} {buf : List UInt8} (hlen : len ≤ buf.length)
    (h : Heap Block) : ∃ b, Runs (dispose sensitive len buf) h () ⟨h.requests, h.released ++ [b]⟩ := by
  obtain ⟨u, h', hrun, b, rfl⟩ : Ensures (dispose sensitive len buf) h fun _ h' =>
      ∃ b, h' = ⟨h.requests, h.released ++ [b]⟩ := by
    unfold dispose
    rw [ensures_bind]
    cases sensitive with
    | false => exact ensures_pure.mpr (ensures_release.mpr ⟨_, rfl⟩)
    | true => exact ensures_storeAt (by simpa using hlen) (ensures_release.mpr ⟨_, rfl⟩)
  exact ⟨b, hrun⟩

theorem ensures_dispose {sensitive : Bool} {len : ℕ} {buf : List UInt8}
    {Q : Unit → Heap Block → Prop} (hlen : len ≤ buf.length) (hQ : ∀ h', Q () h') :
    Ensures (dispose sensitive len buf) h Q := by
  obtain ⟨b, hrun⟩ := runs_dispose sensitive hlen h
  exact hrun.ensures (hQ _)

/-- A data object that the registry keeps is a success. -/
theorem ensures_setData {key : String} {bytes : List UInt8} {opts : UInt8} {reg : Registry}
    {Q : Bool × Registry → Heap Block → Prop}
    (hkept : ∀ h', P.withBytes bytes = true ∧ P.setProperty key bytes = true →
      Q (true, Function.update reg key (some bytes)) h')
    (hno : ∀ h', Q (false, reg) h') : Ensures (setData P key bytes opts reg) h Q := by
  unfold setData
  split_ifs with hwith hset
  · exact ensures_pure.mpr (hkept h ⟨hwith, hset⟩)
  · rw [ensures_bind]
    exact ensures_dispose le_rfl fun h' => ensures_pure.mpr (hno h')
  · exact ensures_pure.mpr (hno h)

theorem agree_dispose (sensitive₁ sensitive₂ : Bool) {len : ℕ} {buf : List UInt8}
    (hlen : len ≤ buf.length) :
    Agree (dispose sensitive₁ len buf) (dispose sensitive₂ len buf) fun _ => True := by
  intro h₁ h₂ heq
  obtain ⟨b₁, hrun₁⟩ := runs_dispose sensitive₁ hlen h₁
  obtain ⟨b₂, hrun₂⟩ := runs_dispose sensitive₂ hlen h₂
  exact ⟨(), _, _, hrun₁, hrun₂, heq, trivial⟩

/-- **Decompressing** gives what compressed data holds, whether or not it erases its buffer. -/
theorem agree_decompress (sensitive₁ sensitive₂ : Bool) {src : List UInt8} {size : ℕ}
    (hsize : size ≤ src.length) :
    Agree (decompress A P src size sensitive₁) (decompress A P src size sensitive₂)
      (Gives A (openCompressed P (src.take size))) := by
  have hlen : (src.take size).length = size := List.length_take_of_le hsize
  unfold decompress openCompressed
  rw [hlen]
  by_cases hfew : size ≤ 4
  · rw [if_pos hfew, if_pos hfew, if_pos (Or.inl hfew)]
    exact agree_pure (Or.inl rfl)
  rw [if_neg hfew, if_neg hfew, slice_take _ (by omega)]
  refine agree_bind (agree_loadAt (by omega)) ?_
  rintro _ rfl
  set dstSize := leNat (slice src 0 4)
  refine Buffer.agree_create (fun hno => agree_pure ?_) fun fresh hfresh hmax => ?_
  · rcases hno with hlt | hA
    · rw [if_pos (Or.inr hlt)]
      exact Or.inl rfl
    · exact Or.inr ⟨rfl, hA⟩
  rw [if_neg (by omega)]
  have hload : slice src 4 (size - 4) = (src.take size).drop 4 := by
    rw [slice, List.drop_take]
  obtain ⟨out, hout, hfit⟩ :=
    decompressLzss_total P.decoders.stack dstSize ((src.take size).drop 4)
  rw [hout]
  refine agree_bind (agree_loadAt (by omega)) ?_
  rintro _ rfl
  rw [hload]
  have hroom : 0 + out.length ≤ fresh.length := by omega
  have hpatch : (patch fresh 0 out).length = fresh.length := length_patch hroom
  refine agree_bind (agree_decompress_of_decode P.decoders hout hroom) ?_
  rintro _ rfl
  by_cases hfull : out.length = dstSize
  · simp only [if_pos hfull]
    refine agree_pure (Or.inl ⟨_, by rw [hfull], ?_, by omega, by omega⟩)
    rw [← slice_zero, slice_patch hroom]
  · simp only [if_neg hfull]
    exact agree_bind (agree_dispose _ _ (by omega)) fun _ _ => agree_pure (Or.inl rfl)

/-- The payload is inside its buffer, and not larger than what can be allocated if it was. -/
structure Payload.Valid (p : Payload) : Prop where
  le_length : p.size ≤ p.buf.length
  le_max : p.payloadAlloc → p.size ≤ Buffer.BufferMax

/-- What the payload holds. -/
def Payload.data (p : Payload) : List UInt8 :=
  p.buf.take p.size

theorem Payload.Valid.length_data {p : Payload} (hp : p.Valid) : p.data.length = p.size :=
  List.length_take_of_le hp.le_length

theorem ensures_replacePayload {sensitive : Bool} {p : Payload} {Q : Unit → Heap Block → Prop}
    (hp : p.Valid) (hQ : ∀ h', Q () h') : Ensures (replacePayload sensitive p p.size) h Q := by
  unfold replacePayload
  split_ifs
  · exact ensures_dispose hp.le_length hQ
  · exact ensures_pure.mpr (hQ h)

theorem agree_replacePayload (sensitive₁ sensitive₂ : Bool) {p : Payload} (hp : p.Valid) :
    Agree (replacePayload sensitive₁ p p.size) (replacePayload sensitive₂ p p.size)
      fun _ => True := by
  unfold replacePayload
  split_ifs
  · exact agree_dispose _ _ hp.le_length
  · exact agree_pure trivial

/-- A result is a payload with the data, unless memory was refused. -/
inductive Carries (A : Allocator) : Option (List UInt8) → Option Payload → Prop
  | some {p : Payload} (hp : p.Valid) : Carries A (some p.data) (some p)
  | none : Carries A none none
  | refused {found : Option (List UInt8)} (hA : ¬ A.Generous) : Carries A found none

/-- **Taking a layer off**: when the layer's function gives what the data holds, so does the layer,
whether or not it erases what it replaces. -/
theorem agree_layer (sensitive₁ sensitive₂ : Bool) {on : Bool}
    {f₁ f₂ : List UInt8 → ℕ → BlockM (Option (List UInt8 × ℕ))}
    {g : List UInt8 → Option (List UInt8)} {p : Payload} (hp : p.Valid)
    (hf : Agree (f₁ p.buf p.size) (f₂ p.buf p.size) (Gives A (g p.data))) :
    Agree (layer sensitive₁ on f₁ p) (layer sensitive₂ on f₂ p)
      (Carries A (unlayer on g p.data)) := by
  unfold layer unlayer
  cases on with
  | false => exact agree_pure (.some hp)
  | true =>
    simp only [if_true]
    refine agree_bind hf fun r hr =>
      agree_bind (agree_replacePayload _ _ hp) fun _ _ => agree_pure ?_
    rcases hr with hr | ⟨rfl, hA⟩
    · generalize g p.data = found at hr
      cases found with
      | none =>
        obtain rfl : r = none := hr
        exact .none
      | some data =>
        obtain ⟨buf, rfl, htake, hlen, hmax⟩ := hr
        have hvalid : (Payload.mk buf data.length true).Valid := ⟨hlen, fun _ => hmax⟩
        have hcarries : Carries A _ _ := .some hvalid
        rwa [Payload.data, htake] at hcarries
    · exact .refused hA

/-- The payload of a stored value, as `read` finds it. -/
theorem carries_verify (A : Allocator) {data : List UInt8} :
    Carries A (payloadOf P data)
      (verify P data ⟨data.drop sizeofHeader, data.length - sizeofHeader, false⟩) := by
  have hlen : data.length - sizeofHeader = (data.drop sizeofHeader).length := List.length_drop.symm
  rw [hlen]
  simp only [verify, payloadOf]
  set payload := data.drop sizeofHeader
  have hvalid : ∀ n ≤ payload.length, (Payload.mk payload n false).Valid :=
    fun n hn => ⟨hn, fun h => absurd h Bool.false_ne_true⟩
  by_cases hsum : has (headerOpts data) OptChecksum
  · simp only [if_pos hsum]
    by_cases hfew : payload.length < sizeofChecksum
    · simp only [if_pos hfew]
      exact .none
    · simp only [if_neg hfew]
      by_cases hcrc : leNat (slice payload (payload.length - sizeofChecksum) sizeofChecksum) =
          (P.crc32 (data.take (data.length - sizeofChecksum))).toNat
      · simp only [ne_eq, not_true_eq_false, if_false, hcrc, if_true]
        exact .some (hvalid _ (Nat.sub_le _ _))
      · simp only [ne_eq, hcrc, not_false_eq_true, if_true, if_false]
        exact .none
  · simp only [if_neg hsum]
    have hcarries : Carries A _ _ := .some (hvalid _ le_rfl)
    rwa [Payload.data, List.take_length] at hcarries

/-- **Taking the layers off** gives what the stored value holds, with every mask that agrees on
whether the value is raw and on whether its header is accepted. -/
theorem agree_unwrap {opts₁ opts₂ : UInt8} {enckey : Option (List UInt8)} {data : List UInt8}
    (hraw : has opts₁ OptRaw = has opts₂ OptRaw)
    (hacc : ¬ has opts₁ OptRaw → (Accepts opts₁ data ↔ Accepts opts₂ data)) :
    Agree (unwrap A P opts₁ enckey data) (unwrap A P opts₂ enckey data)
      (Carries A (if has opts₁ OptRaw then some data
        else if Accepts opts₁ data then openSealed P enckey data else none)) := by
  unfold unwrap
  rw [← hraw]
  by_cases hisraw : has opts₁ OptRaw
  · rw [if_pos hisraw, if_pos hisraw, if_pos hisraw]
    have hvalid : (Payload.mk data data.length false).Valid := ⟨le_rfl, by simp⟩
    have hcarries : Carries A _ _ := .some hvalid
    rw [Payload.data, List.take_length] at hcarries
    exact agree_pure hcarries
  rw [if_neg hisraw, if_neg hisraw, if_neg hisraw]
  have hacc := hacc hisraw
  by_cases hshort : data.length < sizeofHeader
  · rw [if_pos hshort, if_pos hshort, if_neg fun hacc => absurd hacc.1 (Nat.not_le.mpr hshort)]
    exact agree_pure .none
  rw [if_neg hshort, if_neg hshort]
  have hhdr : ∀ opts, (leNat (data.take 2) ≠ Magic ∨ data.getD 2 0 > MaxVer ∨
      headerOpts data &&& opts ≠ opts) ↔ ¬ Accepts opts data := by
    intro opts
    simp only [Accepts, Nat.not_lt.mp hshort, true_and, not_and_or, UInt8.not_le, ne_eq,
      gt_iff_lt]
  by_cases hacc₁ : Accepts opts₁ data
  · have hacc₂ := hacc.mp hacc₁
    rw [if_pos hacc₁]
    simp only [if_neg (mt (hhdr opts₁).mp (not_not.mpr hacc₁)),
      if_neg (mt (hhdr opts₂).mp (not_not.mpr hacc₂)), openSealed]
    have hverify := (carries_verify A : Carries A (payloadOf P data) _)
    generalize payloadOf P data = payload at hverify ⊢
    generalize verify P data _ = o at hverify ⊢
    cases hverify with
    | none => exact agree_pure .none
    | refused hA => exact agree_pure (.refused hA)
    | @some p hvalid =>
      simp only [Option.bind_eq_bind, Option.bind_some]
      refine agree_bind (agree_layer _ _ hvalid (Crypto.agree_decrypt hvalid.le_length))
        fun o ho => ?_
      generalize unlayer (has (headerOpts data) OptEncrypted)
        (Crypto.openEncrypted P.aes enckey) p.data = found at ho
      cases ho with
      | none => exact agree_pure .none
      | refused hA => exact agree_pure (.refused hA)
      | some hvalid' => exact agree_layer _ _ hvalid' (agree_decompress _ _ hvalid'.le_length)
  · rw [if_neg hacc₁]
    simp only [if_pos ((hhdr opts₁).mpr hacc₁), if_pos ((hhdr opts₂).mpr (mt hacc.mpr hacc₁))]
    exact agree_pure .none

/-- **Reading** gives what the stored value holds, unless memory is refused, with every mask that
agrees on whether the value is raw and on whether its header is accepted. -/
theorem agree_read {key : String} {opts₁ opts₂ : UInt8} {enckey : Option (List UInt8)}
    {reg : Registry} {data : List UInt8} (hkey : reg key = some data) (hdata : data ≠ [])
    (hraw : has opts₁ OptRaw = has opts₂ OptRaw)
    (hacc : ¬ has opts₁ OptRaw → (Accepts opts₁ data ↔ Accepts opts₂ data)) :
    Agree (read A P key opts₁ enckey reg) (read A P key opts₂ enckey reg)
      (Gives A (openStored P opts₁ enckey data)) := by
  unfold read openStored
  simp only [hkey, if_neg (mt List.length_eq_zero_iff.mp hdata)]
  refine agree_bind (agree_unwrap hraw hacc) fun o ho => ?_
  generalize (if has opts₁ OptRaw then some data
    else if Accepts opts₁ data then openSealed P enckey data else none) = found at ho
  cases ho with
  | none => exact agree_pure (Or.inl rfl)
  | refused hA => exact agree_pure (Or.inr ⟨rfl, hA⟩)
  | @some p hvalid =>
    have hlen := hvalid.length_data
    have hle := hvalid.le_length
    rw [Option.filter_some, hlen]
    by_cases hown : p.payloadAlloc
    · have hmax := hvalid.le_max hown
      simp only [if_pos hown, decide_eq_true hmax, if_true]
      exact agree_pure (Or.inl ⟨p.buf, by rw [hlen], by rw [hlen]; rfl, by omega, by omega⟩)
    · -- a payload of the registry is copied
      simp only [if_neg hown]
      refine Buffer.agree_create (fun hno => agree_pure ?_) fun fresh hfresh hmax => ?_
      · rcases hno with hlt | hA
        · rw [if_neg (by simpa using hlt)]
          exact Or.inl rfl
        · exact Or.inr ⟨rfl, hA⟩
      · have hslice : slice p.buf 0 p.size = p.data := slice_zero _ _
        rw [if_pos (by simpa using hmax)]
        refine agree_bind (agree_loadAt (by omega)) ?_
        rintro _ rfl
        rw [hslice]
        have hroom : 0 + p.data.length ≤ fresh.length := by omega
        have hpatch := length_patch hroom
        refine agree_bind (agree_storeAt hroom) ?_
        rintro _ rfl
        refine agree_pure (Or.inl ⟨_, by rw [hlen], ?_, by omega, by omega⟩)
        rw [← slice_zero, slice_patch hroom]

/-- Where memory is never refused, reading gives what the stored value holds. -/
theorem ensures_read (hA : A.Generous) {key : String} {opts : UInt8}
    {enckey : Option (List UInt8)} {reg : Registry} {data : List UInt8} (hkey : reg key = some data)
    (hdata : data ≠ []) : Ensures (read A P key opts enckey reg) h fun r _ =>
      Holds r (openStored P opts enckey data) :=
  ((agree_read hkey hdata rfl fun _ => Iff.rfl).ensures h).mono fun _ _ hr =>
    hr.resolve_right fun hno => hno.2 hA

end NVStorage

end Lilu
