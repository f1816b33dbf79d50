import Lilu.NVRAM.Storage

/-!
# Reading back what was written

Each layer that writing puts around a value is one that reading takes off, as long as the size of
the value and of its layers stay within 32 bits and the compressed data stays inside its buffer.

## Main definitions

* `Wraps`: a layer's function puts a layer around the data
* `Fits`: no size wraps and no buffer is overrun

## Main results

* `ensures_wrap`, `undefined_wrap`: writing is well defined exactly when the value fits
* `readsBack_iff`: when a value that was written is read back
* `compress_inside_iff`: when compressing stays inside its buffer
-/

namespace Lilu

open Compression

namespace NVStorage

variable {A : Allocator} {P : Platform} {h : Heap Block}

/-- A result, if there is one, from which `g` gets the data back. -/
def Wraps (g : List UInt8 → Option (List UInt8)) (data : List UInt8)
    (r : Option (List UInt8 × ℕ)) : Prop :=
  ∀ buf n, r = some (buf, n) → n ≤ buf.length ∧ n ≤ Buffer.BufferMax ∧ n ≠ 0 ∧
    g (buf.take n) = some data

/-! ## Compression -/

/-- The compressed data fits the buffer that is created for it, if there is such a buffer. -/
def FitsCompressed (src : List UInt8) : Prop :=
  Buffer.BufferMax < (src.length + 1024) % uint32 ∨
    (lzssCode src).length + 4 ≤ (src.length + 1024) % uint32

/-- **Compressing** gives data that holds the source, if it fits. -/
theorem ensures_compress {src : List UInt8} {size : ℕ} {sensitive : Bool}
    (hsize : size ≤ src.length) (hlt : size < uint32) (hne : src.take size ≠ [])
    (hfits : FitsCompressed (src.take size)) :
    Ensures (compress A src size sensitive) h fun r _ =>
      Wraps (openCompressed P) (src.take size) r := by
  have hcode := codeOf_lzssCode hne
  have hU : uint32 = 4294967296 := rfl
  have hM : Buffer.BufferMax = 1073741824 := rfl
  have hlen : (src.take size).length = size := List.length_take_of_le hsize
  have hslice : slice src 0 size = src.take size := slice_zero _ _
  have hbound := hcode.le_length
  rw [FitsCompressed, hlen] at hfits
  rw [hlen] at hbound
  set code := lzssCode (src.take size)
  unfold compress
  rw [ensures_bind]
  refine Buffer.ensures_create (fun h' _ => ensures_pure.mpr (by simp [Wraps]))
    fun fresh h' hfresh hmax => ?_
  have hroom := hfits.resolve_left (by omega)
  -- the size did not wrap: a stream is no shorter than an eighteenth of the source
  have hdst : (size + 1024) % uint32 = size + 1024 := by
    rw [hU] at hroom hmax hlt ⊢
    omega
  have hdst' : (code.length + 4) % uint32 = code.length + 4 := Nat.mod_eq_of_lt (by omega)
  rw [hdst] at hroom hmax hfresh
  simp only [hdst, ensures_bind]
  refine ensures_storeAt (by rw [length_leBytes]; omega) (ensures_loadAt (by omega) ?_)
  rw [hslice]
  have hlen₁ : (patch fresh 0 (leBytes 4 size)).length = fresh.length :=
    length_patch (by rw [length_leBytes]; omega)
  have hroom₁ : 4 + code.length ≤ (patch fresh 0 (leBytes 4 size)).length := by omega
  refine ensures_compress_of_code hcode (by omega) (fun buf' h'' hbuf' => ?_) fun h'' hle => ?_
  · simp only [ensures_bind]
    exact ensures_dispose (by omega) fun _ => ensures_pure.mpr (by simp [Wraps])
  · have hpatch := length_patch hroom₁
    simp only [ensures_bind, hdst']
    refine Buffer.ensures_resize (by omega) fun buf' h₃ hkeep => ensures_pure.mpr ?_
    rintro buf n hr
    obtain ⟨rfl, rfl⟩ := Prod.mk.inj (Option.some.inj hr)
    have hstored : buf'.take (code.length + 4) = leBytes 4 size ++ code := by
      have hboth : (patch (patch fresh 0 (leBytes 4 size)) (leBytes 4 size).length code).take
          ((leBytes 4 size).length + code.length) = leBytes 4 size ++ code :=
        take_patch_patch (by rw [length_leBytes]; omega)
      rw [length_leBytes, Nat.add_comm 4] at hboth
      rw [hkeep, hboth]
    have hn := congrArg List.length hstored
    rw [List.length_take, List.length_append, length_leBytes] at hn
    refine ⟨by omega, by omega, by omega, ?_⟩
    have hhead : slice (leBytes 4 size ++ code) 0 4 = leBytes 4 size := by
      rw [slice_zero, List.take_left' (length_leBytes 4 size)]
    have hvalue : leNat (leBytes 4 size) = size := by
      rw [leNat_leBytes]
      exact Nat.mod_eq_of_lt hlt
    have hpos : 0 < (src.take size).length := List.length_pos_of_ne_nil hne
    have hdec := hcode.decode P.decoders.stack
    rw [hlen] at hdec
    rw [hstored, openCompressed, hhead, hvalue, List.drop_left' (length_leBytes 4 size), hdec,
      if_neg (by rw [List.length_append, length_leBytes]; omega)]
    exact if_pos hlen

/-- **Compressed data that does not fit** overruns its buffer. -/
theorem undefined_compress (hA : A.Generous) {src : List UInt8} {size : ℕ} {sensitive : Bool}
    (hsize : size ≤ src.length) (hne : src.take size ≠ [])
    (hfits : ¬ FitsCompressed (src.take size)) : Undefined (compress A src size sensitive) h := by
  have hcode := codeOf_lzssCode hne
  have hlen : (src.take size).length = size := List.length_take_of_le hsize
  have hslice : slice src 0 size = src.take size := slice_zero _ _
  rw [FitsCompressed, hlen, not_or, Nat.not_lt] at hfits
  unfold compress
  refine Ensures.undefined_bind ?_
  refine Buffer.ensures_create_generous hA (fun h' hlt => by omega) fun fresh h' hfresh _ => ?_
  by_cases hhead : 0 + (leBytes 4 size).length ≤ fresh.length
  · refine Ensures.undefined_bind (ensures_storeAt hhead ?_)
    refine Ensures.undefined_bind (ensures_loadAt (by omega) ?_)
    rw [hslice]
    -- the compressor is told that it has the whole buffer, but it works behind the length
    refine (undefined_compress_of_code hcode (hA _ _ (by decide)) ?_).bind _
    rw [length_patch hhead]
    omega
  · exact (undefined_storeAt (Nat.not_le.mp hhead)).bind _

/-! ## Header and checksum -/

/-- The header and the payload fit a buffer of a size that does not wrap. -/
def FitsHeader (opts : UInt8) (size : ℕ) : Prop :=
  sizeofHeader + size + (if has opts OptChecksum then sizeofChecksum else 0) < uint32

/-- What was allocated leaves room for the header. -/
theorem fitsHeader_of_le (opts : UInt8) {size : ℕ} (h : size ≤ Buffer.BufferMax) :
    FitsHeader opts size := by
  have hM : Buffer.BufferMax = 1073741824 := rfl
  have hU : uint32 = 4294967296 := rfl
  have hH : sizeofHeader = 4 := rfl
  have hC : (if has opts OptChecksum then sizeofChecksum else 0) ≤ 4 := by
    split_ifs <;> simp [sizeofChecksum]
  rw [FitsHeader]
  omega

/-- A stored value of the given options that holds the payload. -/
structure Headed (P : Platform) (opts : UInt8) (payload data : List UInt8) : Prop where
  accepts : ∀ ropts, headerOpts data &&& ropts = ropts → Accepts ropts data
  opts : headerOpts data = opts &&& ~~~OptSensitive
  payload : payloadOf P data = some payload

@[simp] theorem length_header (opts : UInt8) : (header opts).length = sizeofHeader := by
  simp [header, sizeofHeader]

/-- The header keeps every option but the one for sensitive data. -/
theorem has_header (opts : UInt8) {opt : UInt8} (hopt : ~~~OptSensitive &&& opt = opt) :
    has (opts &&& ~~~OptSensitive) opt = has opts opt := by
  rw [has, has, UInt8.and_assoc, hopt]

/-- Behind a header the options say which layers there are. -/
theorem headed_of_payloadOf {opts : UInt8} {payload rest : List UInt8}
    (hpayload : payloadOf P (header opts ++ rest) = some payload) :
    Headed P opts payload (header opts ++ rest) := by
  have hmagic : leNat ((header opts ++ rest).take 2) = Magic := by
    show leNat [0x17, 0xC7] = Magic
    decide
  refine ⟨fun ropts hropts => ⟨?_, hmagic, UInt8.le_refl _, hropts⟩, rfl, hpayload⟩
  rw [List.length_append, length_header]
  exact Nat.le_add_right ..

theorem payloadOf_header (opts : UInt8) (rest : List UInt8) :
    payloadOf P (header opts ++ rest) =
      if has opts OptChecksum then
        if rest.length < sizeofChecksum then none
        else if leNat (slice rest (rest.length - sizeofChecksum) sizeofChecksum) =
            (P.crc32 (header opts ++ rest.take (rest.length - sizeofChecksum))).toNat
          then some (rest.take (rest.length - sizeofChecksum)) else none
      else some rest := by
  have hopts : headerOpts (header opts ++ rest) = opts &&& ~~~OptSensitive := rfl
  have hdrop : (header opts ++ rest).drop sizeofHeader = rest := rfl
  rw [payloadOf, hopts, has_header opts (by decide), hdrop]
  by_cases hsum : has opts OptChecksum
  · simp only [if_pos hsum]
    by_cases hfew : rest.length < sizeofChecksum
    · simp only [if_pos hfew]
    · have htake : (header opts ++ rest).take ((header opts ++ rest).length - sizeofChecksum) =
          header opts ++ rest.take (rest.length - sizeofChecksum) := by
        have hlen : (header opts ++ rest).length - sizeofChecksum =
            (header opts).length + (rest.length - sizeofChecksum) := by
          rw [List.length_append]
          omega
        rw [hlen, List.take_length_add_append]
      simp only [if_neg hfew, htake]
  · simp only [if_neg hsum]

theorem headed (opts : UInt8) (payload : List UInt8) (hsum : ¬ has opts OptChecksum) :
    Headed P opts payload (header opts ++ payload) :=
  headed_of_payloadOf (by rw [payloadOf_header, if_neg hsum])

theorem headed_checksum (opts : UInt8) (payload : List UInt8) (hsum : has opts OptChecksum) :
    Headed P opts payload (header opts ++ (payload ++
      leBytes 4 (P.crc32 (header opts ++ payload)).toNat)) := by
  refine headed_of_payloadOf ?_
  set crc := P.crc32 (header opts ++ payload)
  have hlen : (payload ++ leBytes 4 crc.toNat).length - sizeofChecksum = payload.length := by
    simp [sizeofChecksum]
  have hslice : slice (payload ++ leBytes 4 crc.toNat) payload.length sizeofChecksum =
      leBytes 4 crc.toNat := by
    rw [slice, List.drop_left]
    exact List.take_of_length_le (by simp [sizeofChecksum])
  have hvalue : leNat (leBytes 4 crc.toNat) = crc.toNat := by
    rw [leNat_leBytes]
    exact Nat.mod_eq_of_lt crc.toNat_lt
  rw [payloadOf_header, if_pos hsum, if_neg (by simp [sizeofChecksum]), hlen, List.take_left,
    hslice, hvalue, if_pos rfl]

/-- **The header and the checksum** are put around the payload, if the sizes fit. -/
theorem ensures_addHeader (hA : A.Generous) {opts : UInt8} {p : Payload} (hp : p.Valid)
    (hfits : FitsHeader opts p.size) : Ensures (addHeader A P opts p) h fun o _ =>
      ∀ p', o = some p' → p'.Valid ∧ p'.size ≤ Buffer.BufferMax ∧
        Headed P opts p.data p'.data := by
  have hle := hp.le_length
  have hdata := hp.length_data
  have hslice : slice p.buf 0 p.size = p.data := slice_zero _ _
  have hH : sizeofHeader = 4 := rfl
  have hC : sizeofChecksum = 4 := rfl
  have hhdr := length_header opts
  unfold addHeader
  rw [FitsHeader] at hfits
  simp only [Nat.mod_eq_of_lt hfits, ensures_bind]
  refine Buffer.ensures_create_generous hA (fun h' _ => ?_) fun fresh h' hfresh hmax => ?_
  · rw [ensures_bind]
    exact ensures_replacePayload hp fun _ => ensures_pure.mpr (by simp)
  have hroom : sizeofHeader + p.size ≤ fresh.length := by omega
  have hsize : (p.size + sizeofHeader) % uint32 = sizeofHeader + p.size := by
    rw [Nat.add_comm]
    exact Nat.mod_eq_of_lt (by omega)
  simp only [ensures_bind, hsize]
  refine ensures_storeAt (by omega) (ensures_loadAt (by omega) ?_)
  rw [hslice]
  have hlen₁ : (patch fresh 0 (header opts)).length = fresh.length := length_patch (by omega)
  refine ensures_storeAt (by omega) (ensures_replacePayload hp fun h'' => ?_)
  have hboth : (patch (patch fresh 0 (header opts)) sizeofHeader p.data).take
      (sizeofHeader + p.size) = header opts ++ p.data := by
    rw [← hhdr, ← hdata]
    exact take_patch_patch (by omega)
  have hlen₂ : (patch (patch fresh 0 (header opts)) sizeofHeader p.data).length =
      fresh.length := by rw [length_patch (by omega), hlen₁]
  set buf := patch (patch fresh 0 (header opts)) sizeofHeader p.data
  by_cases hsum : has opts OptChecksum
  · rw [if_pos hsum] at hfits hfresh hmax
    have hend : (sizeofHeader + p.size + sizeofChecksum) % uint32 =
        sizeofHeader + p.size + sizeofChecksum := Nat.mod_eq_of_lt hfits
    simp only [if_pos hsum, hend, ensures_bind]
    refine ensures_loadAt (by omega) ?_
    rw [slice_zero, hboth]
    set crc := leBytes 4 (P.crc32 (header opts ++ p.data)).toNat
    have hcrc : crc.length = sizeofChecksum := length_leBytes 4 _
    refine ensures_storeAt (by omega) (ensures_pure.mpr ?_)
    rintro _ ⟨rfl⟩
    refine ⟨⟨?_, fun _ => hmax⟩, hmax, ?_⟩
    · show sizeofHeader + p.size + sizeofChecksum ≤ (patch buf (sizeofHeader + p.size) crc).length
      rw [length_patch (by omega)]
      omega
    · have htake : (patch buf (sizeofHeader + p.size) crc).take
          (sizeofHeader + p.size + crc.length) = buf.take (sizeofHeader + p.size) ++ crc :=
        take_patch (by omega)
      rw [hcrc, hboth, List.append_assoc] at htake
      show Headed P opts p.data ((patch buf (sizeofHeader + p.size) crc).take
        (sizeofHeader + p.size + sizeofChecksum))
      rw [htake]
      exact headed_checksum opts p.data hsum
  · rw [if_neg hsum, Nat.add_zero] at hfits hfresh hmax
    simp only [if_neg hsum]
    refine ensures_pure.mpr ?_
    rintro _ ⟨rfl⟩
    refine ⟨⟨hroom.trans hlen₂.ge, fun _ => hmax⟩, hmax, ?_⟩
    show Headed P opts p.data (buf.take (sizeofHeader + p.size))
    rw [hboth]
    exact headed opts p.data hsum

/-- A size that wraps makes the buffer too small for the payload. -/
theorem undefined_addHeader (hA : A.Generous) {opts : UInt8} {p : Payload} (hp : p.Valid)
    (hlt : p.size < uint32) (hfits : ¬ FitsHeader opts p.size) :
    Undefined (addHeader A P opts p) h := by
  have hle := hp.le_length
  have hH : sizeofHeader = 4 := rfl
  have hU : uint32 = 4294967296 := rfl
  have hC : (if has opts OptChecksum then sizeofChecksum else 0) ≤ 4 := by
    split_ifs <;> simp [sizeofChecksum]
  rw [FitsHeader, Nat.not_lt] at hfits
  have hwrap : (sizeofHeader + p.size + if has opts OptChecksum then sizeofChecksum else 0) %
      uint32 < sizeofHeader + 4 := by
    rw [hU] at hlt hfits ⊢
    omega
  unfold addHeader
  refine Ensures.undefined_bind ?_
  refine Buffer.ensures_create_generous hA (fun h' hmax => ?_) fun fresh h' hfresh _ => ?_
  · have hM : Buffer.BufferMax = 1073741824 := rfl
    omega
  by_cases hhead : 0 + (header opts).length ≤ fresh.length
  · refine Ensures.undefined_bind (ensures_storeAt hhead ?_)
    refine Ensures.undefined_bind (ensures_loadAt (by omega) ?_)
    refine (undefined_storeAt ?_).bind _
    rw [length_patch hhead, length_slice (by omega)]
    omega
  · exact (undefined_storeAt (Nat.not_le.mp hhead)).bind _

/-! ## All layers -/

/-- **Putting a layer on**: the result, if there is one, gives the payload back. -/
theorem ensures_layer_on {sensitive on : Bool}
    {f : List UInt8 → ℕ → BlockM (Option (List UInt8 × ℕ))} {g : List UInt8 → Option (List UInt8)}
    {p : Payload} (hp : p.Valid)
    (hf : on → Ensures (f p.buf p.size) h fun r _ => Wraps g p.data r) :
    Ensures (layer sensitive on f p) h fun o _ => ∀ p', o = some p' → p'.Valid ∧
      unlayer on g p'.data = some p.data ∧ if on then p'.size ≤ Buffer.BufferMax else p' = p := by
  unfold layer unlayer
  cases on with
  | false =>
    refine ensures_pure.mpr ?_
    rintro _ ⟨rfl⟩
    exact ⟨hp, rfl, rfl⟩
  | true =>
    simp only [if_true, ensures_bind]
    refine (hf rfl).mono fun r h' hr => ensures_replacePayload hp fun h'' => ensures_pure.mpr ?_
    intro p' hp'
    obtain ⟨⟨buf, n⟩, rfl, rfl⟩ := Option.map_eq_some_iff.mp hp'
    obtain ⟨hlen, hmax, -, hg⟩ := hr buf n rfl
    exact ⟨⟨hlen, fun _ => hmax⟩, hg, hmax⟩

/-- No size wraps and no buffer is overrun when the source is written with the options. -/
def Fits (opts : UInt8) (enckey : Option (List UInt8)) (src : List UInt8) : Prop :=
  if has opts OptCompressed then FitsCompressed src
  else if has opts OptEncrypted then enckey = none ∨ 4 + src.length ≤ uint32 - Crypto.BlockSize
  else FitsHeader opts src.length

/-- A stored value that holds the source, for every reader whose options its header has. -/
structure Stores (P : Platform) (opts : UInt8) (enckey : Option (List UInt8))
    (src data : List UInt8) : Prop where
  accepts : ∀ ropts, headerOpts data &&& ropts = ropts → Accepts ropts data
  opts : headerOpts data = opts &&& ~~~OptSensitive
  holds : openSealed P enckey data = some src

/-- **Writing with a header**: what is stored holds the source. -/
theorem ensures_wrap (hA : A.Generous) (haes : P.aes.Inverts) {opts : UInt8}
    {enckey : Option (List UInt8)} {src : List UInt8} (hsrc : src ≠ []) (hlt : src.length < uint32)
    (hraw : ¬ has opts OptRaw) (hfits : Fits opts enckey src) :
    Ensures (wrap A P opts enckey ⟨src, src.length, false⟩) h fun o _ =>
      ∀ p, o = some p → p.Valid ∧ p.size ≤ Buffer.BufferMax ∧
        Stores P opts enckey src p.data := by
  have hM : Buffer.BufferMax = 1073741824 := rfl
  have hU : uint32 = 4294967296 := rfl
  have hB : Crypto.BlockSize = 16 := rfl
  set p : Payload := ⟨src, src.length, false⟩ with hpdef
  have hp : p.Valid := ⟨le_rfl, by simp [hpdef]⟩
  have hdata : p.data = src := List.take_length
  unfold wrap
  rw [if_neg hraw, ensures_bind]
  have hcomp : has opts OptCompressed → Ensures (compress A p.buf p.size (has opts OptSensitive)) h
      fun r _ => Wraps (openCompressed P) p.data r := by
    intro hon
    rw [Fits, if_pos hon, ← hdata] at hfits
    exact ensures_compress le_rfl hlt (fun hnil => hsrc (hdata.symm.trans hnil)) hfits
  refine (ensures_layer_on (f := fun buf size => compress A buf size (has opts OptSensitive)) hp
    hcomp).mono fun o h' ho => ?_
  cases o with
  | none => exact ensures_pure.mpr (by simp)
  | some p₁ =>
    obtain ⟨hp₁, hopen₁, hsize₁⟩ := ho p₁ rfl
    simp only [ensures_bind]
    have henc : has opts OptEncrypted → Ensures (Crypto.encrypt A P.aes P.random enckey p₁.buf
        p₁.size) h' fun r _ => Wraps (Crypto.openEncrypted P.aes enckey) p₁.data r := by
      intro hon
      refine Crypto.ensures_encrypt haes hp₁.le_length ?_
      by_cases hcomp : has opts OptCompressed
      · rw [if_pos hcomp] at hsize₁
        exact Or.inr (by omega)
      · rw [if_neg hcomp] at hsize₁
        rw [Fits, if_neg hcomp, if_pos hon] at hfits
        rwa [hsize₁]
    refine (ensures_layer_on hp₁ henc).mono fun o h'' ho => ?_
    cases o with
    | none => exact ensures_pure.mpr (by simp)
    | some p₂ =>
      obtain ⟨hp₂, hopen₂, hsize₂⟩ := ho p₂ rfl
      have hhdr : FitsHeader opts p₂.size := by
        by_cases henc : has opts OptEncrypted
        · rw [if_pos henc] at hsize₂
          exact fitsHeader_of_le opts hsize₂
        · rw [if_neg henc] at hsize₂
          by_cases hcomp : has opts OptCompressed
          · rw [if_pos hcomp] at hsize₁
            exact fitsHeader_of_le opts (hsize₂ ▸ hsize₁)
          · rw [if_neg hcomp] at hsize₁
            rw [Fits, if_neg hcomp, if_neg henc] at hfits
            rwa [hsize₂, hsize₁]
      refine (ensures_addHeader hA hp₂ hhdr).mono fun o h₃ ho p₃ hp₃ => ?_
      obtain ⟨hvalid, hmax, hheaded⟩ := ho p₃ hp₃
      refine ⟨hvalid, hmax, hheaded.accepts, hheaded.opts, ?_⟩
      rw [openSealed, hheaded.payload, hheaded.opts, has_header opts (by decide),
        has_header opts (by decide)]
      simp only [Option.bind_eq_bind, Option.bind_some, hopen₂, hopen₁, hdata]

theorem undefined_layer {sensitive : Bool}
    {f : List UInt8 → ℕ → BlockM (Option (List UInt8 × ℕ))} {p : Payload}
    (hf : Undefined (f p.buf p.size) h) : Undefined (layer sensitive true f p) h := by
  unfold layer
  exact hf.bind _

theorem ensures_layer_off {sensitive : Bool}
    {f : List UInt8 → ℕ → BlockM (Option (List UInt8 × ℕ))} {p : Payload}
    {Q : Option Payload → Heap Block → Prop} (hQ : Q (some p) h) :
    Ensures (layer sensitive false f p) h Q :=
  ensures_pure.mpr hQ

/-- **Writing what does not fit** is undefined. -/
theorem undefined_wrap (hA : A.Generous) {opts : UInt8} {enckey : Option (List UInt8)}
    {src : List UInt8} (hsrc : src ≠ []) (hlt : src.length < uint32) (hraw : ¬ has opts OptRaw)
    (hfits : ¬ Fits opts enckey src) :
    Undefined (wrap A P opts enckey ⟨src, src.length, false⟩) h := by
  have htake : src.take src.length = src := List.take_length
  unfold wrap
  rw [if_neg hraw]
  rw [Fits] at hfits
  cases hcomp : has opts OptCompressed with
  | true =>
    rw [if_pos hcomp] at hfits
    have hundef : Undefined (compress A src src.length (has opts OptSensitive)) h :=
      undefined_compress hA le_rfl (by rwa [htake]) (by rwa [htake])
    exact (undefined_layer (f := fun buf size => compress A buf size (has opts OptSensitive))
      (p := ⟨src, src.length, false⟩) hundef).bind _
  | false =>
    rw [if_neg (by simp [hcomp])] at hfits
    refine Ensures.undefined_bind (ensures_layer_off ?_)
    cases henc : has opts OptEncrypted with
    | true =>
      rw [if_pos henc, not_or, Nat.not_le] at hfits
      obtain ⟨key, rfl⟩ := Option.ne_none_iff_exists'.mp hfits.1
      have hundef : Undefined (Crypto.encrypt A P.aes P.random (some key) src src.length) h :=
        Crypto.undefined_encrypt hA hlt hfits.2
      exact (undefined_layer (p := ⟨src, src.length, false⟩) hundef).bind _
    | false =>
      rw [if_neg (by simp [henc])] at hfits
      refine Ensures.undefined_bind (ensures_layer_off ?_)
      exact undefined_addHeader hA ⟨le_rfl, by simp⟩ hlt hfits

/-! ## Reading back -/

/-- Whatever a successful write may have done, every read whose options are among those of the
write, and as raw, gets the source back. -/
def ReadsBack (A : Allocator) (P : Platform) (key : String) (src : List UInt8) (opts : UInt8)
    (enckey : Option (List UInt8)) : Prop :=
  ∀ h reg reg', MayReturn (write A P key src opts enckey reg) h (true, reg') →
    ∀ ropts, ropts &&& opts = ropts → has ropts OptRaw = has opts OptRaw →
      ∀ h', Ensures (read A P key ropts enckey reg') h' fun r _ =>
        ∃ buf, r = some (buf, src.length) ∧ buf.take src.length = src

/-- The registry takes the source as it is. -/
def TakesRaw (P : Platform) (key : String) (src : List UInt8) : Prop :=
  P.withBytes src = true ∧ P.setProperty key src = true

/-- When a written value is read back. A raw value must fit the buffer that reading makes of it, if
the registry takes it at all; other values must fit the buffers that writing makes. -/
def KeepsWithin (P : Platform) (key : String) (src : List UInt8) (opts : UInt8)
    (enckey : Option (List UInt8)) : Prop :=
  if has opts OptRaw then TakesRaw P key src → src.length ≤ Buffer.BufferMax
  else Fits opts enckey src

theorem land_not_sensitive {opts : UInt8} (h : has opts OptSensitive = false) :
    opts &&& ~~~OptSensitive = opts := by
  have hall : ∀ b : BitVec 8, has ⟨b⟩ OptSensitive = false → (⟨b⟩ : UInt8) &&& ~~~OptSensitive = ⟨b⟩ := by
    decide +kernel
  exact hall opts.toBitVec h

theorem openEncrypted_le {aes : Crypto.Aes} {key : Option (List UInt8)} {enc data : List UInt8}
    (hopen : Crypto.openEncrypted aes key enc = some data) : data.length ≤ Buffer.BufferMax := by
  unfold Crypto.openEncrypted at hopen
  split_ifs at hopen with hbad
  obtain ⟨key, -, hopen⟩ := Option.bind_eq_some_iff.mp hopen
  obtain ⟨blocks, hdec, hopen⟩ := Option.bind_eq_some_iff.mp hopen
  unfold Crypto.openData at hopen
  have hlen := aes.length_decrypt hdec
  rw [length_slice (by omega)] at hlen
  simp only at hopen
  split_ifs at hopen with hin
  obtain rfl := Option.some.inj hopen
  rw [slice, List.length_take]
  omega

theorem openCompressed_le {data src : List UInt8} (hopen : openCompressed P data = some src) :
    src.length ≤ Buffer.BufferMax := by
  unfold openCompressed at hopen
  simp only at hopen
  split_ifs at hopen with hbad
  split at hopen
  · split_ifs at hopen with hlen
    obtain rfl := Option.some.inj hopen
    omega
  · cases hopen

theorem payloadOf_le {data payload : List UInt8} (hpayload : payloadOf P data = some payload) :
    payload.length ≤ data.length := by
  unfold payloadOf at hpayload
  simp only at hpayload
  split_ifs at hpayload
  all_goals
    obtain rfl := Option.some.inj hpayload
    simp only [List.length_take, List.length_drop]
    omega

/-- The layers are inside what can be allocated, so the source is. -/
theorem openSealed_le {enckey : Option (List UInt8)} {data src : List UInt8}
    (hdata : data.length ≤ Buffer.BufferMax) (hopen : openSealed P enckey data = some src) :
    src.length ≤ Buffer.BufferMax := by
  obtain ⟨payload, hpayload, hopen⟩ := Option.bind_eq_some_iff.mp hopen
  obtain ⟨inner, hinner, hopen⟩ := Option.bind_eq_some_iff.mp hopen
  have hle : inner.length ≤ Buffer.BufferMax := by
    unfold unlayer at hinner
    split_ifs at hinner
    · exact openEncrypted_le hinner
    · obtain rfl := Option.some.inj hinner
      exact (payloadOf_le hpayload).trans hdata
  unfold unlayer at hopen
  split_ifs at hopen
  · exact openCompressed_le hopen
  · obtain rfl := Option.some.inj hopen
    exact hle

/-- A written value is not raw: it holds the source for every reader with fewer options. -/
theorem Stores.openStored {opts ropts : UInt8} {enckey : Option (List UInt8)}
    {src data : List UInt8} (h : Stores P opts enckey src data) (hsens : has opts OptSensitive = false)
    (hdata : data.length ≤ Buffer.BufferMax) (hsub : ropts &&& opts = ropts)
    (hraw : ¬ has ropts OptRaw) : openStored P ropts enckey data = some src := by
  have hacc : Accepts ropts data := h.accepts ropts (by
    rw [h.opts, land_not_sensitive hsens, UInt8.and_comm, hsub])
  rw [NVStorage.openStored, if_neg hraw, if_pos hacc, h.holds, Option.filter_some,
    if_pos (by simpa using openSealed_le hdata h.holds)]

/-- **Writing** what is kept within the limits stores a value that every such reader opens. -/
theorem ensures_write (hA : A.Generous) (haes : P.aes.Inverts) (key : String) {src : List UInt8}
    (hsrc : src ≠ []) (hlt : src.length < uint32) {opts : UInt8}
    (hsens : has opts OptSensitive = false) (enckey : Option (List UInt8)) (reg : Registry)
    (hkeep : KeepsWithin P key src opts enckey) :
    Ensures (write A P key src opts enckey reg) h fun r _ => r.1 = true → ∃ data, data ≠ [] ∧
      r.2 key = some data ∧ ∀ ropts, ropts &&& opts = ropts →
        has ropts OptRaw = has opts OptRaw → openStored P ropts enckey data = some src := by
  unfold write
  rw [if_neg (mt List.length_eq_zero_iff.mp hsrc), ensures_bind]
  by_cases hraw : has opts OptRaw
  · rw [KeepsWithin, if_pos hraw] at hkeep
    have hload : slice src 0 src.length = src := by rw [slice_zero, List.take_length]
    rw [wrap, if_pos hraw]
    refine ensures_pure.mpr ?_
    simp only [ensures_bind]
    refine ensures_loadAt (by simp) ?_
    rw [hload]
    refine ensures_pure.mpr ?_
    refine ensures_setData (fun h' htakes _ => ?_) fun h' hfalse => absurd hfalse Bool.false_ne_true
    refine ⟨src, hsrc, Function.update_self .., fun ropts _ hropts => ?_⟩
    rw [openStored, if_pos (hropts.trans hraw), Option.filter_some,
      if_pos (by simpa using hkeep htakes)]
  · rw [KeepsWithin, if_neg hraw] at hkeep
    refine (ensures_wrap hA haes hsrc hlt hraw hkeep).mono fun o h' ho => ?_
    cases o with
    | none => exact ensures_pure.mpr (by simp)
    | some p =>
      obtain ⟨hp, hmax, hstores⟩ := ho p rfl
      rw [← hp.length_data] at hmax
      simp only [ensures_bind]
      refine ensures_loadAt (by have := hp.le_length; omega) (ensures_replacePayload hp fun h'' => ?_)
      have hload : slice p.buf 0 p.size = p.data := slice_zero _ _
      rw [hload]
      refine ensures_setData (fun h' htakes _ => ?_)
        fun h' hfalse => absurd hfalse Bool.false_ne_true
      refine ⟨p.data, ?_, Function.update_self .., ?_⟩
      · intro hnil
        have := (hstores.accepts 0 (by simp)).1
        simp [hnil, sizeofHeader] at this
      · exact fun ropts hsub hropts => hstores.openStored hsens hmax hsub (hropts ▸ hraw)

/-- A raw value that the registry takes is stored as it is. -/
theorem runs_write_raw (key : String) {src : List UInt8} (hsrc : src ≠ []) {opts : UInt8}
    (hraw : has opts OptRaw) (enckey : Option (List UInt8)) (reg : Registry)
    (htakes : TakesRaw P key src) (h : Heap Block) :
    Runs (write A P key src opts enckey reg) h (true, Function.update reg key (some src)) h := by
  have hload : Runs (loadAt src 0 src.length) h src h := by
    rw [loadAt, if_pos (Nat.zero_add _).le, slice_zero, List.take_length]
    exact runs_pure.mpr ⟨rfl, rfl⟩
  unfold write
  rw [if_neg (mt List.length_eq_zero_iff.mp hsrc), wrap, if_pos hraw]
  refine runs_bind.mpr ⟨_, h, runs_pure.mpr ⟨rfl, rfl⟩, runs_bind.mpr ⟨_, h, hload, ?_⟩⟩
  refine runs_bind.mpr ⟨(), h, runs_pure.mpr ⟨rfl, rfl⟩, ?_⟩
  rw [setData, if_pos htakes.1, if_pos htakes.2]
  exact runs_pure.mpr ⟨rfl, rfl⟩

theorem undefined_write (hA : A.Generous) (key : String) {src : List UInt8} (hsrc : src ≠ [])
    (hlt : src.length < uint32) {opts : UInt8} (hraw : ¬ has opts OptRaw)
    {enckey : Option (List UInt8)} (hfits : ¬ Fits opts enckey src) (reg : Registry) :
    Undefined (write A P key src opts enckey reg) h := by
  unfold write
  rw [if_neg (mt List.length_eq_zero_iff.mp hsrc)]
  exact (undefined_wrap hA hsrc hlt hraw hfits).bind _

/-- Undefined behaviour may look like a success that stores nothing. -/
theorem not_readsBack_of_not_fits (hA : A.Generous) (key : String) {src : List UInt8}
    (hsrc : src ≠ []) (hlt : src.length < uint32) {opts : UInt8} (hraw : ¬ has opts OptRaw)
    {enckey : Option (List UInt8)} (hfits : ¬ Fits opts enckey src) :
    ¬ ReadsBack A P key src opts enckey := by
  intro hback
  have hundef := undefined_write (P := P) (h := ⟨0, []⟩) hA key hsrc hlt hraw hfits fun _ => none
  obtain ⟨r, h', hrun, buf, rfl, -⟩ :=
    hback _ _ (fun _ => none) (Or.inl hundef) opts (UInt8.and_self ..) rfl ⟨0, []⟩
  obtain ⟨hnone, -⟩ := runs_pure.mp hrun
  cases hnone

/-- **Reading back**: a successful write is read back exactly when the value fits the buffers on
the way. -/
theorem readsBack_iff (hA : A.Generous) (haes : P.aes.Inverts) (key : String) {src : List UInt8}
    (hsrc : src ≠ []) (hlt : src.length < uint32) {opts : UInt8}
    (hsens : has opts OptSensitive = false) (enckey : Option (List UInt8)) :
    ReadsBack A P key src opts enckey ↔ KeepsWithin P key src opts enckey := by
  constructor
  · intro hback
    by_contra hkeep
    by_cases hraw : has opts OptRaw
    · -- the registry takes the source, but reading cannot make a buffer of it
      rw [KeepsWithin, if_pos hraw, Classical.not_imp] at hkeep
      obtain ⟨htakes, hlarge⟩ := hkeep
      have hwrite := runs_write_raw (A := A) key hsrc hraw enckey (fun _ => none) htakes ⟨0, []⟩
      obtain ⟨r, h', hrun, buf, rfl, -⟩ :=
        hback _ _ _ (Or.inr ⟨_, hwrite⟩) opts (UInt8.and_self ..) rfl ⟨0, []⟩
      have hread : Holds (some (buf, src.length)) (openStored P opts enckey src) :=
        (ensures_read hA (Function.update_self ..) hsrc).of_runs hrun
      rw [openStored, if_pos hraw, Option.filter_some, if_neg (by simpa using hlarge)] at hread
      cases hread
    · rw [KeepsWithin, if_neg hraw] at hkeep
      exact not_readsBack_of_not_fits hA key hsrc hlt hraw hkeep hback
  · intro hkeep h reg reg' hret ropts hsub hraw h'
    have hwrite := ensures_write (h := h) hA haes key hsrc hlt hsens enckey reg hkeep
    rcases hret with hundef | ⟨h₁, hrun⟩
    · exact absurd hundef hwrite.not_undefined
    · obtain ⟨data, hdata, hkey, hopen⟩ := hwrite.of_runs hrun rfl
      refine (ensures_read hA hkey hdata).mono fun r _ hr => ?_
      rw [hopen ropts hsub hraw] at hr
      obtain ⟨buf, hbuf, htake, -⟩ := hr
      exact ⟨buf, hbuf, htake⟩

/-! ## A source that does not fit -/

/-- A platform that takes every value, with a cipher that is no use. -/
def plain : Platform where
  aes := ⟨fun _ _ data => some data, fun _ _ data => some data,
    fun h => by rw [Option.some.inj h], fun h => by rw [Option.some.inj h]⟩
  random := ⟨fun _ => List.replicate Crypto.BlockSize 0, fun _ => List.length_replicate⟩
  crc32 _ := 0
  decoders := ⟨fun _ _ => [], fun _ _ => [], fun _ => 0⟩
  withBytes _ := true
  setProperty _ _ := true

theorem plain_inverts : plain.aes.Inverts :=
  fun h => by rw [← Option.some.inj h]; rfl

theorem generous_generous : generous.Generous :=
  fun h _ hsize => available_generous hsize h

theorem readsBack_plain : ReadsBack generous plain "key" [7] OptAuto none :=
  (readsBack_iff generous_generous plain_inverts "key" (List.cons_ne_nil 7 []) (by decide) (by decide)
    none).mpr (by
      rw [KeepsWithin, if_neg (by decide), Fits, if_neg (by decide), if_neg (by decide),
        FitsHeader]
      decide)

/-- The byte at `i` of a source of 8192 bytes in which no three bytes occur twice. -/
def incompressibleAt (i : ℕ) : UInt8 :=
  if i % 2 = 0 then UInt8.ofNat (128 + i / 64) else UInt8.ofNat (i / 2 % 32)

def incompressible : List UInt8 :=
  (List.range 8192).map incompressibleAt

theorem toNat_incompressibleAt {i : ℕ} (hi : i < 8192) :
    (incompressibleAt i).toNat = if i % 2 = 0 then 128 + i / 64 else i / 2 % 32 := by
  unfold incompressibleAt
  split_ifs
  · rw [UInt8.toNat_ofNat']
    exact Nat.mod_eq_of_lt (by omega)
  · rw [UInt8.toNat_ofNat']
    exact Nat.mod_eq_of_lt (by omega)

theorem inputText_incompressible {i : ℕ} (hi : i < 8192) :
    inputText incompressible (RBSIZE - UPLIM + i) = incompressibleAt i := by
  have hpos : ¬ RBSIZE - UPLIM + i < RBSIZE - UPLIM := by omega
  rw [inputText, if_neg hpos, Nat.add_sub_cancel_left, incompressible, List.getD_eq_getElem?_getD,
    List.getElem?_map, List.getElem?_range hi]
  rfl

/-- No three bytes of the source, nor of the spaces before it, occur again. -/
theorem no_match_incompressible {a b : ℕ} (hab : a < b) (hb : RBSIZE - UPLIM ≤ b)
    (hend : b + 3 ≤ RBSIZE - UPLIM + 8192)
    (hmatch : ∀ k < 3, inputText incompressible (a + k) = inputText incompressible (b + k)) :
    False := by
  obtain ⟨j, rfl⟩ := Nat.exists_eq_add_of_le hb
  have hj : j + 3 ≤ 8192 := by omega
  by_cases ha : a < RBSIZE - UPLIM
  · -- the source has no spaces
    have h₀ := congrArg UInt8.toNat (hmatch 0 (by decide))
    rw [Nat.add_zero, Nat.add_zero, inputText_incompressible (by omega), inputText, if_pos ha,
      toNat_incompressibleAt (by omega)] at h₀
    simp only [UInt8.reduceToNat] at h₀
    split_ifs at h₀ <;> omega
  · obtain ⟨i, rfl⟩ := Nat.exists_eq_add_of_le (Nat.not_lt.mp ha)
    have heq : ∀ k < 3, (if (i + k) % 2 = 0 then 128 + (i + k) / 64 else (i + k) / 2 % 32) =
        if (j + k) % 2 = 0 then 128 + (j + k) / 64 else (j + k) / 2 % 32 := by
      intro k hk
      have h := congrArg UInt8.toNat (hmatch k hk)
      rwa [Nat.add_assoc, Nat.add_assoc, inputText_incompressible (by omega),
        inputText_incompressible (by omega), toNat_incompressibleAt (by omega),
        toNat_incompressibleAt (by omega)] at h
    have h₀ := heq 0 (by decide)
    have h₁ := heq 1 (by decide)
    have h₂ := heq 2 (by decide)
    split_ifs at h₀ h₁ h₂ <;> omega

theorem length_incompressible : incompressible.length = 8192 := by
  simp [incompressible]

theorem incompressible_ne_nil : incompressible ≠ [] := by
  intro hnil
  have := length_incompressible
  simp [hnil] at this

theorem not_fits_incompressible : ¬ Fits OptCompressed none incompressible := by
  have hcode := length_lzssCode_of_no_match incompressible_ne_nil fun a b hab hb hend hmatch =>
    no_match_incompressible hab hb (by rwa [length_incompressible] at hend) hmatch
  rw [length_incompressible] at hcode
  rw [Fits, if_pos (by decide), FitsCompressed, length_incompressible, hcode]
  decide

/-- **A write that loses its source**: 8192 incompressible bytes overrun their buffer by four. -/
theorem not_readsBack_incompressible : generous.Generous ∧ plain.aes.Inverts ∧
    incompressible ≠ [] ∧ incompressible.length = 8192 ∧ has OptCompressed OptSensitive = false ∧
    Undefined (write generous plain "key" incompressible OptCompressed none fun _ => none) ⟨0, []⟩ ∧
    ¬ ReadsBack generous plain "key" incompressible OptCompressed none := by
  have hlt : incompressible.length < uint32 := by
    rw [length_incompressible]
    decide
  refine ⟨generous_generous, plain_inverts, incompressible_ne_nil, length_incompressible,
    by decide, ?_, ?_⟩
  · exact undefined_write generous_generous "key" incompressible_ne_nil hlt (by decide)
      not_fits_incompressible _
  · exact not_readsBack_of_not_fits generous_generous "key" incompressible_ne_nil hlt (by decide)
      not_fits_incompressible

/-! ## The buffer of the compressed data -/

/-- A source of up to 8160 bytes leaves room for the worst case. -/
theorem fitsCompressed_of_le {src : List UInt8} (hsrc : src ≠ []) (hle : src.length ≤ 8160) :
    FitsCompressed src := by
  have hbound := (codeOf_lzssCode hsrc).length_le
  have hmod : (src.length + 1024) % uint32 = src.length + 1024 :=
    Nat.mod_eq_of_lt (by rw [uint32]; omega)
  rw [FitsCompressed, hmod]
  omega

/-- **No overrun**: whatever memory is granted, compressing stays inside its buffer if and only if
the code of the source leaves room for the size before it. -/
theorem compress_inside_iff {src : List UInt8} (hsrc : src ≠ []) (hlt : src.length < uint32) :
    (∀ A h sensitive, ¬ Undefined (compress A src src.length sensitive) h) ↔
      FitsCompressed src := by
  have hall : src.take src.length = src := List.take_length
  constructor
  · intro h
    by_contra hfits
    exact h generous ⟨0, []⟩ false (undefined_compress generous_generous le_rfl (by rwa [hall])
      (by rwa [hall]))
  · intro hfits A h sensitive
    exact (ensures_compress (P := plain) le_rfl hlt (by rwa [hall]) (by rwa [hall])).not_undefined

theorem compress_inside_seven :
    (∀ A h sensitive, ¬ Undefined (compress A [7] 1 sensitive) h) ↔ FitsCompressed [7] :=
  compress_inside_iff (List.cons_ne_nil 7 []) (by decide)

/-- **The defect**: 8192 incompressible bytes become 9216, which is all of the buffer, and are
written behind the four bytes of the size. -/
theorem undefined_compress_incompressible : incompressible ≠ [] ∧ incompressible.length = 8192 ∧
    Undefined (compress generous incompressible incompressible.length false) ⟨0, []⟩ := by
  have hall : incompressible.take incompressible.length = incompressible := List.take_length
  refine ⟨incompressible_ne_nil, length_incompressible, ?_⟩
  refine undefined_compress generous_generous le_rfl ?_ ?_
  · rw [hall]
    exact incompressible_ne_nil
  · rw [hall]
    exact not_fits_incompressible

end NVStorage

end Lilu
