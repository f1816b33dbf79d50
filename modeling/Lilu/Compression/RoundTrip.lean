import Lilu.Compression.Buffer
import Lilu.Compression.Encoder
import Lilu.Compression.Decoder

/-!
# Compression and decompression

The typed interface to the codecs. The caller may bring a buffer; otherwise one is created, and
released again when the codec fails. Compressed data is a prefix of the buffer, whose length is
returned. Of the formats only LZSS has a compressor.

## Main definitions

* `Decoders`: the decoders of the other formats
* `compress`, `decompress`: the two directions

## Main results

* `exists_codeOf`: every source has one code, which decodes to it
* `ensures_compress`, `ensures_decompress`: the two directions succeed when there is room
* `decompress_compress`: what was compressed decompresses to the source
-/

namespace Lilu.Compression

/-- The formats. -/
def ModeLZVN : UInt32 := 0x6E767A6C
def ModeLZSS : UInt32 := 0x73737A6C
def ModeZLIB : UInt32 := 0x9C787A6C

/-- The size of the encoder's state in memory: its three arrays and two lengths are of four byte
integers, its ring buffer is padded to such. -/
def sizeofEncodeState : ℕ :=
  4 * ((RBSIZE + 1) + (RBSIZE + 257) + (RBSIZE + 1)) + (RBSIZE + UPLIM + 2) + 2 * 4

/-- What the decoders of the other formats store to a destination of a given size, and what the
stack holds when the LZSS decoder is entered. -/
structure Decoders where
  lzvn : ℕ → List UInt8 → List UInt8
  zlib : ℕ → List UInt8 → List UInt8
  stack : ℕ → UInt8

variable (A : Allocator)

/-- `compress_lzss` to the buffer `buf` from `off` on: the buffer afterwards, and the length of the
code unless the result is `nullptr`. -/
def compressLzss (buf : List UInt8) (off dstlen : ℕ) (src : List UInt8) :
    BlockM (List UInt8 × Option ℕ) := do
  match ← Buffer.create A sizeofEncodeState with
  | none => pure (buf, none)
  | some _ =>
    match encodeLzss dstlen src with
    | none => undefined
    | some (sp, out, fits) =>
      let buf ← storeAt buf off out
      Buffer.deleter (.encoder sp)
      pure (buf, if fits then some out.length else none)

/-- The buffer to work in, with the offset of the pointer to it: the caller's, or a new one. -/
def target (size : ℕ) (buffer : Option (List UInt8 × ℕ)) : BlockM (Option (List UInt8 × ℕ)) :=
  match buffer with
  | some (buf, off) => pure (some (buf, off))
  | none => do
    let buf ← Buffer.create A size
    pure (buf.map fun buf => (buf, 0))

/-- The place of the data in the buffer that a codec returns. -/
def offset : Option (List UInt8 × ℕ) → ℕ
  | some (_, off) => off
  | none => 0

/-- There is a destination of `size` bytes: the caller's, or one that can be created. -/
def Destination (A : Allocator) (h : Heap Block) (size : ℕ) : Option (List UInt8 × ℕ) → Prop
  | some (buf, off) => off + size ≤ buf.length
  | none => Buffer.Available A h size

/-- The number of buffers that are created for the data. -/
def created : Option (List UInt8 × ℕ) → ℕ
  | some _ => 0
  | none => 1

/-- A buffer that is not the caller's is released on failure. -/
def discard (buffer : Option (List UInt8 × ℕ)) (buf : List UInt8) : BlockM Unit :=
  if buffer.isNone then Buffer.deleter (.bytes buf) else pure ()

/-- `Compression::compress`: the length of the code unless it fails, and the buffer
afterwards. -/
def compress (compression : UInt32) (dstlen : ℕ) (src : List UInt8)
    (buffer : Option (List UInt8 × ℕ)) : BlockM (Option ℕ × List UInt8) := do
  match ← target A dstlen buffer with
  | none => pure (none, [])
  | some (buf, off) =>
    let (buf, endptr) ← (if compression = ModeLZSS then compressLzss A buf off dstlen src
      else pure (buf, none))
    match endptr with
    | some dstlen =>
      let buf ← (if buffer.isNone then Buffer.resize A buf dstlen else pure buf)
      pure (some dstlen, buf)
    | none =>
      discard buffer buf
      pure (none, buf)

/-- The decoder of a format: what it stores to a destination of `dstlen` bytes. -/
def decode (D : Decoders) (compression : UInt32) (dstlen : ℕ) (src : List UInt8) :
    Option (List UInt8) :=
  if compression = ModeLZSS then decompressLzss D.stack dstlen src
  else if compression = ModeLZVN then some (D.lzvn dstlen src)
  else if compression = ModeZLIB then some (D.zlib dstlen src)
  else some []

/-- `decompressInternal`: the decompressed size unless it fails, and the buffer afterwards. -/
def decompressInternal (D : Decoders) (compression : UInt32) (dstlen : ℕ) (src : List UInt8)
    (buffer : Option (List UInt8 × ℕ)) (checkResult : Bool) :
    BlockM (Option ℕ × List UInt8) := do
  match ← target A dstlen buffer with
  | none => pure (none, [])
  | some (buf, off) =>
    match decode D compression dstlen src with
    | none => undefined
    | some out =>
      let buf ← storeAt buf off out
      if !checkResult || out.length = dstlen then pure (some out.length, buf)
      else do
        discard buffer buf
        pure (none, buf)

/-- `Compression::decompress` to a known size. -/
def decompress (D : Decoders) (compression : UInt32) (dstlen : ℕ) (src : List UInt8)
    (buffer : Option (List UInt8 × ℕ)) : BlockM (Option ℕ × List UInt8) :=
  decompressInternal A D compression dstlen src buffer true

/-! ## The stream of a source -/

/-- A stream that stands for the source: what its LZSS code is. -/
structure CodeOf (src code : List UInt8) : Prop where
  encode : ∀ dstlen, ∃ sp, encodeLzss dstlen src = some (sp, fitted dstlen code)
  decode : ∀ stack, decompressLzss stack src.length code = some src
  length_le : code.length ≤ src.length + (src.length + 7) / 8
  le_length : src.length ≤ 18 * code.length

/-- The stream of the encoder's parse is the code. -/
theorem exists_codeOf_stream {src : List UInt8} (hsrc : src ≠ []) :
    ∃ ts, Parses (inputText src) RBSIZE (RBSIZE - UPLIM) (RBSIZE - UPLIM) ts
        (RBSIZE - UPLIM + src.length) ∧ (∀ t ∈ ts, Sendable t) ∧ CodeOf src (stream ts) := by
  obtain ⟨ts, hparse, hsend, hencode⟩ := encodeLzss_spec hsrc
  refine ⟨ts, hparse, hsend, fun dstlen => ?_, fun stack => ?_, ?_, ?_⟩
  · obtain ⟨sp, -, hrun⟩ := hencode dstlen
    exact ⟨sp, hrun⟩
  · have hspaces : ∀ a < RBSIZE - UPLIM, inputText src a = 32 := fun a ha => if_pos ha
    rw [decompressLzss_stream hspaces hparse hsend]
    exact congrArg some (segment_inputText src 0)
  · have := length_stream_le hparse hsend
    rwa [Nat.add_sub_cancel_left] at this
  · have := le_length_stream hparse hsend
    rwa [Nat.add_sub_cancel_left] at this

/-- **The LZSS code** of a source does not depend on the destination, and decodes to the source. -/
theorem exists_codeOf {src : List UInt8} (hsrc : src ≠ []) : ∃ code, CodeOf src code := by
  obtain ⟨ts, -, -, hcode⟩ := exists_codeOf_stream hsrc
  exact ⟨stream ts, hcode⟩

theorem CodeOf.unique {src code code' : List UInt8} (h : CodeOf src code) (h' : CodeOf src code') :
    code = code' := by
  -- a destination with room for both gets both
  obtain ⟨sp, hrun⟩ := h.encode (code.length + code'.length)
  obtain ⟨sp', hrun'⟩ := h'.encode (code.length + code'.length)
  rw [hrun] at hrun'
  have hfit := congrArg Prod.fst (Prod.mk.inj (Option.some.inj hrun')).2
  simp only [fitted] at hfit
  rwa [List.take_of_length_le (by omega), List.take_of_length_le (by omega)] at hfit

/-- The LZSS code of a source: what a destination gets that has room for an eighth more. -/
def lzssCode (src : List UInt8) : List UInt8 :=
  match encodeLzss (src.length + (src.length + 7) / 8) src with
  | some (_, out, _) => out
  | none => []

theorem codeOf_lzssCode {src : List UInt8} (hsrc : src ≠ []) : CodeOf src (lzssCode src) := by
  obtain ⟨code, hcode⟩ := exists_codeOf hsrc
  obtain ⟨sp, hrun⟩ := hcode.encode (src.length + (src.length + 7) / 8)
  have heq : lzssCode src = code := by
    rw [lzssCode, hrun]
    exact List.take_of_length_le hcode.length_le
  rwa [heq]

/-- **The worst case**: a source without a match becomes an eighth longer. -/
theorem length_lzssCode_of_no_match {src : List UInt8} (hsrc : src ≠ [])
    (hno : ∀ a b, a < b → RBSIZE - UPLIM ≤ b → b + 3 ≤ RBSIZE - UPLIM + src.length →
      ¬ ∀ k < 3, inputText src (a + k) = inputText src (b + k)) :
    (lzssCode src).length = src.length + (src.length + 7) / 8 := by
  obtain ⟨ts, hparse, hsend, hcode⟩ := exists_codeOf_stream hsrc
  have hlit := Parses.length_of_no_match hparse hsend hno
  rw [(codeOf_lzssCode hsrc).unique hcode, length_stream, hlit.1, hlit.2, Nat.add_sub_cancel_left]

/-! ## The codec inside a buffer -/

variable {A} {src code buf : List UInt8} {off dstlen : ℕ} {h h' : Heap Block}

/-- **`compress_lzss` stays inside** a destination that holds what fits of the code. -/
theorem ensures_compressLzss (hcode : CodeOf src code)
    (hroom : off + min dstlen code.length ≤ buf.length)
    {Q : List UInt8 × Option ℕ → Heap Block → Prop}
    (hnone : ∀ h', ¬ Buffer.Available A h sizeofEncodeState → Q (buf, none) h')
    (hfail : ∀ h', dstlen < code.length → Q (patch buf off (code.take dstlen), none) h')
    (hfits : ∀ h', code.length ≤ dstlen → Q (patch buf off code, some code.length) h') :
    Ensures (compressLzss A buf off dstlen src) h Q := by
  unfold compressLzss
  rw [ensures_bind]
  refine Buffer.ensures_create (fun h' hav => ensures_pure.mpr (hnone h' hav))
    fun fresh h' _ _ => ?_
  obtain ⟨sp, hrun⟩ := hcode.encode dstlen
  simp only [hrun, fitted, ensures_bind]
  refine ensures_storeAt (by rwa [List.length_take]) ?_
  simp only [Buffer.deleter, ensures_release, ensures_pure]
  by_cases hle : code.length ≤ dstlen
  · simpa [hle, List.take_of_length_le hle] using hfits _ hle
  · simpa [hle] using hfail _ (Nat.not_le.mp hle)

/-- A destination without room for what fits of the code is overrun. -/
theorem undefined_compressLzss (hcode : CodeOf src code)
    (hav : Buffer.Available A h sizeofEncodeState)
    (hroom : buf.length < off + min dstlen code.length) :
    Undefined (compressLzss A buf off dstlen src) h := by
  obtain ⟨sp, hrun⟩ := hcode.encode dstlen
  refine Ensures.undefined_bind ?_
  refine Buffer.ensures_create (fun h' hno => absurd hav hno) fun fresh h' _ _ => ?_
  simp only [hrun, fitted]
  exact (undefined_storeAt (by rwa [List.length_take])).bind _

theorem runs_compressLzss {buf' : List UInt8} {n : ℕ} (hcode : CodeOf src code)
    (hrun : Runs (compressLzss A buf off dstlen src) h (buf', some n) h') :
    slice buf' off n = code ∧ off + n ≤ buf'.length := by
  obtain ⟨sp, hencode⟩ := hcode.encode dstlen
  obtain ⟨o, h₁, hcreate, hrest⟩ := runs_bind.mp hrun
  cases o with
  | none => simp at hrest
  | some fresh =>
    simp only [hencode, fitted] at hrest
    obtain ⟨buf₁, h₂, hstore, hrest⟩ := runs_bind.mp hrest
    obtain ⟨u, h₃, hfree, hrest⟩ := runs_bind.mp hrest
    obtain ⟨hroom, rfl⟩ := runs_storeAt hstore
    by_cases hle : code.length ≤ dstlen
    · simp only [hle, List.take_of_length_le hle, decide_true, if_true, runs_pure, Prod.mk.injEq,
        Option.some.injEq] at hrest hroom
      obtain ⟨⟨rfl, rfl⟩, -⟩ := hrest
      exact ⟨slice_patch hroom, by rwa [length_patch hroom]⟩
    · simp [hle] at hrest

theorem ensures_target {size : ℕ} {buffer : Option (List UInt8 × ℕ)}
    {Q : Option (List UInt8 × ℕ) → Heap Block → Prop} (hdst : Destination A h size buffer)
    (hQ : ∀ buf, offset buffer + size ≤ buf.length →
      Q (some (buf, offset buffer)) ⟨h.requests + created buffer, h.released⟩) :
    Ensures (target A size buffer) h Q := by
  cases buffer with
  | some b => exact ensures_pure.mpr (hQ b.1 hdst)
  | none =>
    unfold target
    rw [ensures_bind]
    refine Buffer.ensures_create_available hdst fun fresh hlen => ?_
    exact ensures_pure.mpr (hQ fresh (by rw [offset]; omega))

theorem runs_target {size : ℕ} {buffer : Option (List UInt8 × ℕ)}
    (hrun : Runs (target A size buffer) h (some (buf, off)) h') : off = offset buffer := by
  cases buffer with
  | some b =>
    obtain ⟨hb, -⟩ := runs_pure.mp hrun
    exact (congrArg Prod.snd (Option.some.inj hb)).symm
  | none =>
    obtain ⟨o, h₁, -, hmap⟩ := runs_bind.mp hrun
    obtain ⟨hb, -⟩ := runs_pure.mp hmap
    obtain ⟨fresh, -, hfresh⟩ := Option.map_eq_some_iff.mp hb
    exact (congrArg Prod.snd hfresh).symm

/-- The compressor's result, when there is one, is the source's code. -/
theorem runs_compress {n : ℕ} {buffer : Option (List UInt8 × ℕ)} (hcode : CodeOf src code)
    (hrun : Runs (compress A ModeLZSS dstlen src buffer) h (some n, buf) h') :
    slice buf (offset buffer) n = code := by
  obtain ⟨o, h₁, htarget, hrest⟩ := runs_bind.mp hrun
  cases o with
  | none => simp at hrest
  | some target =>
    obtain ⟨buf₀, off⟩ := target
    have hoff := runs_target htarget
    simp only [if_true] at hrest
    obtain ⟨⟨buf₁, endptr⟩, h₂, hcomp, hrest⟩ := runs_bind.mp hrest
    cases endptr with
    | none =>
      obtain ⟨u, h₃, -, hrest⟩ := runs_bind.mp hrest
      simp at hrest
    | some n' =>
      obtain ⟨hslice, hlen⟩ := runs_compressLzss hcode hcomp
      obtain ⟨buf₂, h₃, hresize, hrest⟩ := runs_bind.mp hrest
      simp only [runs_pure, Prod.mk.injEq, Option.some.injEq] at hrest
      obtain ⟨⟨rfl, rfl⟩, -⟩ := hrest
      rw [← hoff, ← hslice]
      cases buffer with
      | some b =>
        simp only [Option.isNone_some, Bool.false_eq_true, if_false, runs_pure] at hresize
        rw [hresize.1]
      | none =>
        -- a buffer of its own is cut to the code's size
        obtain rfl : off = 0 := hoff
        have hkeep : buf₂.take n' = buf₁.take n' :=
          (Buffer.ensures_resize (Q := fun b _ => b.take n' = buf₁.take n') (by omega)
            fun _ _ => id).of_runs hresize
        simpa [slice] using hkeep

/-- The compressor in the caller's buffer, which has room for what fits of the code. -/
theorem ensures_compress_of_code (hcode : CodeOf src code)
    (hroom : off + min dstlen code.length ≤ buf.length)
    {Q : Option ℕ × List UInt8 → Heap Block → Prop}
    (hfail : ∀ buf' h', buf'.length = buf.length → Q (none, buf') h')
    (hfits : ∀ h', code.length ≤ dstlen → Q (some code.length, patch buf off code) h') :
    Ensures (compress A ModeLZSS dstlen src (some (buf, off))) h Q := by
  unfold compress target
  simp only [ensures_bind, ensures_pure, if_true]
  refine ensures_compressLzss hcode hroom (fun h' _ => ?_) (fun h' _ => ?_) fun h' hle => ?_
  · simpa [discard, ensures_bind] using hfail buf h' rfl
  · have hlen : (patch buf off (code.take dstlen)).length = buf.length :=
      length_patch (by rwa [List.length_take])
    simpa [discard, ensures_bind] using hfail _ h' hlen
  · simpa [ensures_bind] using hfits h' hle

/-- Without that room the caller's buffer is overrun. -/
theorem undefined_compress_of_code (hcode : CodeOf src code)
    (hav : Buffer.Available A h sizeofEncodeState)
    (hroom : buf.length < off + min dstlen code.length) :
    Undefined (compress A ModeLZSS dstlen src (some (buf, off))) h := by
  unfold compress target
  refine Ensures.undefined_bind (ensures_pure.mpr ?_)
  exact (undefined_compressLzss hcode hav hroom).bind _

/-- The decompressor in the caller's buffer, for any input. -/
theorem agree_decompress_of_decode (D : Decoders) {out : List UInt8}
    (hout : decompressLzss D.stack dstlen src = some out) (hroom : off + out.length ≤ buf.length) :
    Agree (decompress A D ModeLZSS dstlen src (some (buf, off)))
      (decompress A D ModeLZSS dstlen src (some (buf, off)))
      (· = (if out.length = dstlen then some out.length else none, patch buf off out)) := by
  have hdecode : decode D ModeLZSS dstlen src = some out := by rw [decode, if_pos rfl, hout]
  unfold decompress decompressInternal target
  simp only [pure_bind, hdecode]
  refine agree_bind (agree_storeAt hroom) ?_
  rintro _ rfl
  by_cases hlen : out.length = dstlen
  · simp only [hlen, decide_true, Bool.or_true, if_true]
    exact agree_pure rfl
  · simp only [hlen, decide_false, Bool.not_true, Bool.or_false, Bool.false_eq_true, if_false,
      discard, Option.isNone_some, pure_bind]
    exact agree_pure rfl

/-- The decompressor gets the source back from its code. -/
theorem ensures_decompress (D : Decoders) (hcode : CodeOf src code)
    {buffer : Option (List UInt8 × ℕ)} (hdst : Destination A h src.length buffer)
    {Q : Option ℕ × List UInt8 → Heap Block → Prop}
    (hQ : ∀ buf h', slice buf (offset buffer) src.length = src → Q (some src.length, buf) h') :
    Ensures (decompress A D ModeLZSS src.length code buffer) h Q := by
  have hdecode : decode D ModeLZSS src.length code = some src := by
    rw [decode, if_pos rfl]
    exact hcode.decode D.stack
  unfold decompress decompressInternal
  rw [ensures_bind]
  refine ensures_target hdst fun buf' hroom => ?_
  simp only [hdecode, ensures_bind, decide_true, Bool.or_true, if_true, ensures_pure]
  exact ensures_storeAt hroom (hQ _ _ (slice_patch hroom))

/-- An allocator that grants every request. -/
def generous : Allocator where
  answer _ n := some (List.replicate n 0)
  length_answer h := by simp [← Option.some.inj h]

theorem available_generous {size : ℕ} (hsize : size ≤ Buffer.BufferMax) (h : Heap Block) :
    Buffer.Available generous h size :=
  ⟨hsize, _, rfl⟩

/-- **Room for an eighth more** than the source is enough for the compressor. -/
theorem ensures_compress (hsrc : src ≠ []) (hroom : src.length + (src.length + 7) / 8 ≤ dstlen)
    {buffer : Option (List UInt8 × ℕ)} (hdst : Destination A h dstlen buffer)
    (hav : Buffer.Available A ⟨h.requests + created buffer, h.released⟩ sizeofEncodeState) :
    Ensures (compress A ModeLZSS dstlen src buffer) h fun r _ =>
      ∃ n, r.1 = some n ∧ n ≤ src.length + (src.length + 7) / 8 := by
  obtain ⟨code, hcode⟩ := exists_codeOf hsrc
  have hle : code.length ≤ dstlen := hcode.length_le.trans hroom
  unfold compress
  rw [ensures_bind]
  refine ensures_target hdst fun buf hbuf => ?_
  simp only [if_true, ensures_bind]
  refine ensures_compressLzss hcode (by omega) (fun _ hno => absurd hav hno)
    (fun _ hlt => absurd hle (Nat.not_le.mpr hlt)) fun h₂ _ => ?_
  have hin : offset buffer + code.length ≤ buf.length := by omega
  cases buffer with
  | some b => simpa using hcode.length_le
  | none =>
    simp only [Option.isNone_none, if_true, ensures_bind]
    refine Buffer.ensures_resize (by rw [length_patch hin]; omega) fun _ _ _ => ?_
    exact ensures_pure.mpr ⟨_, rfl, hcode.length_le⟩

/-- **The output is an eighth longer** than the source at most, whatever the destination; one with
that much room is enough. -/
theorem compress_of_room (hsrc : src ≠ []) :
    (∀ dstlen, ∃ sp out fits, encodeLzss dstlen src = some (sp, out, fits) ∧
      out.length ≤ src.length + (src.length + 7) / 8) ∧
    ∀ (A : Allocator) (dstlen : ℕ) (buffer : Option (List UInt8 × ℕ)) (h : Heap Block),
      src.length + (src.length + 7) / 8 ≤ dstlen → Destination A h dstlen buffer →
      Buffer.Available A ⟨h.requests + created buffer, h.released⟩ sizeofEncodeState →
      Ensures (compress A ModeLZSS dstlen src buffer) h fun r _ =>
        ∃ n, r.1 = some n ∧ n ≤ src.length + (src.length + 7) / 8 := by
  constructor
  · intro dstlen
    obtain ⟨code, hcode⟩ := exists_codeOf hsrc
    obtain ⟨sp, hrun⟩ := hcode.encode dstlen
    refine ⟨sp, _, _, hrun, ?_⟩
    exact (List.length_take_le' _ _).trans hcode.length_le
  · intro A dstlen buffer h hroom hdst hav
    exact ensures_compress hsrc hroom hdst hav

/-- One byte becomes two at most. -/
theorem compress_of_room_singleton :
    (∀ dstlen, ∃ sp out fits, encodeLzss dstlen [7] = some (sp, out, fits) ∧ out.length ≤ 2) ∧
    Ensures (compress generous ModeLZSS 2 [7] none) ⟨0, []⟩ fun r _ =>
      ∃ n, r.1 = some n ∧ n ≤ 2 := by
  obtain ⟨hlength, hroom⟩ := compress_of_room (List.cons_ne_nil 7 [])
  exact ⟨hlength, hroom generous 2 none ⟨0, []⟩ le_rfl (available_generous (by decide) _)
    (available_generous (by decide) _)⟩

/-- **The round trip**: code that the compressor produced, with whatever destination, decompresses
to the source with every destination of the source's size. -/
theorem decompress_compress (hsrc : src ≠ []) {buffer : Option (List UInt8 × ℕ)} {n : ℕ}
    (hrun : Runs (compress A ModeLZSS dstlen src buffer) h (some n, buf) h') (A' : Allocator)
    (D : Decoders) {h₁ : Heap Block} {buffer' : Option (List UInt8 × ℕ)}
    (hdst : Destination A' h₁ src.length buffer') :
    Ensures (decompress A' D ModeLZSS src.length (slice buf (offset buffer) n) buffer') h₁
      fun r _ => r.1 = some src.length ∧ slice r.2 (offset buffer') src.length = src := by
  obtain ⟨code, hcode⟩ := exists_codeOf hsrc
  rw [runs_compress hcode hrun]
  exact ensures_decompress D hcode hdst fun _ _ hslice => ⟨rfl, hslice⟩

theorem decompress_compress_singleton : ∃ n buf h',
    Runs (compress generous ModeLZSS 2 [7] none) ⟨0, []⟩ (some n, buf) h' ∧
      Ensures (decompress generous ⟨fun _ _ => [], fun _ _ => [], fun _ => 0⟩ ModeLZSS 1
        (slice buf 0 n) none) ⟨0, []⟩ fun r _ => r.1 = some 1 ∧ slice r.2 0 1 = [7] := by
  have hroom : Destination generous ⟨0, []⟩ 2 none := available_generous (by decide) _
  have hcomp : Ensures (compress generous ModeLZSS 2 [7] none) ⟨0, []⟩
      fun r _ => ∃ n, r.1 = some n ∧ n ≤ 2 :=
    ensures_compress (List.cons_ne_nil 7 []) (by decide) hroom (available_generous (by decide) _)
  obtain ⟨⟨o, buf⟩, h', hrun, n, rfl, -⟩ := hcomp
  have hdst : Destination generous ⟨0, []⟩ [7].length none := available_generous (by decide) _
  exact ⟨n, buf, h', hrun, decompress_compress (List.cons_ne_nil 7 []) hrun generous _ hdst⟩

end Lilu.Compression
