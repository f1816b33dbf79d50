import Lilu.Prelude.Released
import Lilu.NVRAM.ReadBack

/-!
# Erasing sensitive values

With `OptSensitive` each buffer of a write is erased before it is released. How much of it is erased
is said by a size that is tracked beside the buffer, and which the next layer replaces. The encoder
of the compression knows nothing of the option: it releases its state as it is, with a window of
the source in it.

## Main definitions

* `Block.Erased`: a block that holds nothing but zeros
* `Compresses`: a write that compresses its source

## Main results

* `releases_write`: a write that does not compress releases erased blocks only
* `erased_iff`: when a write releases erased blocks only
-/

namespace Lilu

open Compression

/-- Nothing but zeros. -/
def Block.Erased : Block → Prop
  | .bytes contents => ∀ c ∈ contents, c = 0
  | .encoder sp => (∀ i ≤ RBSIZE, sp.lchild i = 0 ∧ sp.parent i = 0) ∧
      (∀ i ≤ RBSIZE + 256, sp.rchild i = 0) ∧ (∀ i < RBSIZE + UPLIM - 1, sp.textBuf i = 0) ∧
      sp.matchPosition = 0 ∧ sp.matchLength = 0

/-- Erased, where the sizes that are tracked are those of the buffers. -/
def Block.ErasedIf (exact : Prop) (b : Block) : Prop :=
  exact → b.Erased

/-- The state of the encoder is not erased when it is left: a node that is not in a tree has `NIL`
for its parent. -/
theorem Compression.EncodeState.HasGap.not_erased {sp : EncodeState} (h : sp.HasGap) :
    ¬ Block.Erased (.encoder sp) := by
  rintro ⟨hlinks, -⟩
  obtain ⟨x, hx, hgap⟩ := h
  apply hgap
  refine ⟨hx, ?_⟩
  rw [(hlinks x hx.le).2]
  exact ne_of_lt (by decide)

variable {A : Allocator} {exact : Prop}

theorem Buffer.releases_create {P : Block → Prop} (size : ℕ) :
    Releases P (Buffer.create A size) fun r => ∀ fresh, r = some fresh → fresh.length = size := by
  unfold Buffer.create
  refine releases_ite (fun _ => releases_pure ?_) fun _ => releases_request A size
  rintro fresh ⟨⟩

namespace Crypto

variable {aes : Aes} {random : Random}

/-- A buffer that is erased up to its size. -/
theorem erased_patch {len : ℕ} {buf : List UInt8} (hlen : buf.length = len) :
    Block.Erased (.bytes (patch buf 0 (List.replicate len 0))) := by
  intro c hc
  rw [patch, List.take_zero, List.nil_append, List.length_replicate, Nat.zero_add, ← hlen,
    List.drop_length, List.append_nil] at hc
  exact List.eq_of_mem_replicate hc

theorem releases_wipe {len : ℕ} {buf : List UInt8} (hlen : exact → buf.length = len) :
    Releases (Block.ErasedIf exact) (wipe len buf) fun _ => True := by
  unfold wipe zeroMemory
  refine releases_bind (releases_storeAt ..) ?_
  rintro _ ⟨-, rfl⟩
  exact releases_release fun hexact => erased_patch (hlen hexact)

/-- A result has the size that is returned with it. -/
def Exact (exact : Prop) (r : Option (List UInt8 × ℕ)) : Prop :=
  exact → ∀ buf n, r = some (buf, n) → buf.length = n

theorem exact_none : Exact exact none := by
  rintro - buf n ⟨⟩

theorem releases_encryptBlocks (key data : List UInt8) (encSize fullSize : ℕ) :
    Releases (Block.ErasedIf exact) (encryptBlocks A aes random key data encSize fullSize)
      (Exact exact) := by
  unfold encryptBlocks
  refine releases_bind (Buffer.releases_create fullSize) fun r hfresh => ?_
  cases r with
  | none => exact releases_pure exact_none
  | some fresh =>
    have hlen := hfresh fresh rfl
    have hrandom : Releases (Block.ErasedIf exact) (readRandom random) fun _ => True := by
      intro h iv h' hrun
      have hsame : Ensures (readRandom random) h fun _ h' => h' = h :=
        ⟨random.next h.requests, h, rfl, rfl⟩
      rw [hsame.of_runs hrun]
      exact ⟨.refl h, trivial⟩
    refine releases_bind hrandom fun iv _ => releases_bind (releases_storeAt ..) ?_
    rintro _ ⟨hroom, rfl⟩
    have hlen₁ := length_patch hroom
    refine releases_bind (releases_loadAt ..) fun blocks _ => ?_
    cases aes.encryptCbc key iv blocks with
    | none =>
      refine releases_bind (releases_wipe fun _ => by omega) fun _ _ => ?_
      exact releases_pure exact_none
    | some enc =>
      refine releases_bind (releases_storeAt ..) ?_
      rintro _ ⟨hroom', rfl⟩
      apply releases_pure
      rintro - buf n ⟨⟩
      rw [length_patch hroom', hlen₁, hlen]

/-- **An encryption** erases the padded source, and a container that it does not return. -/
theorem releases_encrypt (key : Option (List UInt8)) (src : List UInt8) (size : ℕ) :
    Releases (Block.ErasedIf exact) (encrypt A aes random key src size) (Exact exact) := by
  unfold encrypt
  refine releases_ite (fun _ => releases_pure exact_none) fun _ => ?_
  cases key with
  | none => exact releases_pure exact_none
  | some key =>
    refine releases_bind (Buffer.releases_create _) fun r hfresh => ?_
    cases r with
    | none => exact releases_pure exact_none
    | some fresh =>
      have hlen := hfresh fresh rfl
      refine releases_bind (releases_storeAt ..) ?_
      rintro _ ⟨hroom₁, rfl⟩
      refine releases_bind (releases_loadAt ..) fun bytes _ => ?_
      refine releases_bind (releases_storeAt ..) ?_
      rintro _ ⟨hroom₂, rfl⟩
      refine releases_bind (releases_storeAt ..) ?_
      rintro _ ⟨hroom₃, rfl⟩
      refine releases_bind (releases_encryptBlocks ..) fun r hr => ?_
      refine releases_bind (releases_wipe fun _ => ?_) fun _ _ => releases_pure hr
      rw [length_patch hroom₃, length_patch hroom₂, length_patch hroom₁, hlen]

end Crypto

/-! ## Compression -/

namespace Compression

/-- A codec adds to the log. -/
theorem releases_compressLzss (buf : List UInt8) (off dstlen : ℕ) (src : List UInt8) :
    Releases (fun _ => True) (compressLzss A buf off dstlen src) fun _ => True := by
  unfold compressLzss
  refine releases_bind (Buffer.releases_create _) fun r _ => ?_
  cases r with
  | none => exact releases_pure trivial
  | some fresh =>
    cases encodeLzss dstlen src with
    | none => exact releases_undefined
    | some result =>
      refine releases_bind (releases_storeAt ..) fun buf' _ => ?_
      exact releases_bind (releases_release trivial) fun _ _ => releases_pure trivial

theorem releases_resize (buf : List UInt8) (size : ℕ) :
    Releases (fun _ => True) (Buffer.resize A buf size) fun _ => True := by
  unfold Buffer.resize
  refine releases_ite (fun _ => releases_pure trivial) fun _ => ?_
  refine releases_bind (releases_request A size) fun r _ => ?_
  cases r with
  | none => exact releases_pure trivial
  | some fresh =>
    exact releases_bind (releases_release trivial) fun _ _ => releases_pure trivial

/-- The codec in a buffer of the caller. -/
theorem releases_codec (buf : List UInt8) (off dstlen : ℕ) (src : List UInt8) :
    Releases (fun _ => True) (compress A ModeLZSS dstlen src (some (buf, off))) fun _ => True := by
  unfold compress target
  simp only [pure_bind, if_true]
  refine releases_bind (releases_compressLzss ..) fun r _ => ?_
  cases r.2 with
  | none => exact releases_pure trivial
  | some n => exact releases_pure trivial

/-- **The state of the encoder** is released as it is, where there is one. -/
theorem violates_compressLzss {buf src : List UInt8} {off dstlen : ℕ} {h : Heap Block}
    (hsrc : src ≠ []) (hav : Buffer.Available A h sizeofEncodeState) :
    Violates Block.Erased (compressLzss A buf off dstlen src) h := by
  obtain ⟨ts, -, -, hencode⟩ := encodeLzss_spec hsrc
  obtain ⟨sp, hgap, hcode⟩ := hencode dstlen
  refine violates_bind fun o h₁ hcreate => ?_
  have hmade : Ensures (Buffer.create A sizeofEncodeState) h fun o h₁ =>
      (∃ fresh, o = some fresh) ∧ h₁.released = h.released :=
    Buffer.ensures_create_available hav fun fresh _ => ⟨⟨fresh, rfl⟩, rfl⟩
  obtain ⟨⟨fresh, rfl⟩, hsame⟩ := hmade.of_runs hcreate
  refine ⟨hsame, ?_⟩
  simp only [hcode]
  refine violates_bind fun buf₁ h₂ hstore => ⟨by rw [eq_of_runs_storeAt hstore], ?_⟩
  exact (violates_release hgap.not_erased).bind (releases_release trivial)
    fun _ => releases_pure trivial

/-- Without memory for the state nothing is compressed. -/
theorem ensures_codec_refused {buf src : List UInt8} {off dstlen : ℕ} {h : Heap Block}
    {Q : Option ℕ × List UInt8 → Heap Block → Prop}
    (hno : ¬ Buffer.Available A h sizeofEncodeState) (hQ : ∀ n, Q (none, buf) ⟨n, h.released⟩) :
    Ensures (compress A ModeLZSS dstlen src (some (buf, off))) h Q := by
  unfold compress target compressLzss
  simp only [pure_bind, if_true, ensures_bind]
  refine Buffer.ensures_create_refused hno fun n => ?_
  simpa [discard, ensures_bind] using hQ n

end Compression

namespace NVStorage

variable {P : Platform} {opts : UInt8} {enckey : Option (List UInt8)}

theorem releases_dispose {len : ℕ} {buf : List UInt8} (hlen : exact → buf.length = len) :
    Releases (Block.ErasedIf exact) (dispose true len buf) fun _ => True := by
  unfold dispose Crypto.zeroMemory
  refine releases_bind (releases_storeAt ..) ?_
  rintro _ ⟨-, rfl⟩
  exact releases_release fun hexact => Crypto.erased_patch (hlen hexact)

/-- The payload fills its buffer. -/
def Payload.Exact (exact : Prop) (p : Payload) : Prop :=
  exact → p.buf.length = p.size

theorem releases_replacePayload {p : Payload} (hp : p.Exact exact) :
    Releases (Block.ErasedIf exact) (replacePayload true p p.size) fun _ => True := by
  unfold replacePayload
  exact releases_ite (fun _ => releases_dispose hp) fun _ => releases_pure trivial

/-- A result that is a payload is an exact one. -/
def ExactPayload (exact : Prop) (r : Option Payload) : Prop :=
  ∀ p, r = some p → p.Exact exact

theorem exactPayload_none : ExactPayload exact none := by
  rintro p ⟨⟩

theorem exactPayload_some {p : Payload} (hp : p.Exact exact) : ExactPayload exact (some p) := by
  rintro _ ⟨⟩
  exact hp

theorem releases_layer {on : Bool} {f : List UInt8 → ℕ → BlockM (Option (List UInt8 × ℕ))}
    {p : Payload} (hp : p.Exact exact)
    (hf : on = true → Releases (Block.ErasedIf exact) (f p.buf p.size) (Crypto.Exact exact)) :
    Releases (Block.ErasedIf exact) (layer true on f p) (ExactPayload exact) := by
  unfold layer
  refine releases_ite (fun hon => ?_) fun _ => releases_pure (exactPayload_some hp)
  refine releases_bind (hf hon) fun r hr => ?_
  refine releases_bind (releases_replacePayload hp) fun _ _ => releases_pure ?_
  rintro p' hp' hexact
  obtain ⟨⟨buf, n⟩, rfl, rfl⟩ := Option.map_eq_some_iff.mp hp'
  exact hr hexact buf n rfl

/-- What a compression does with the result of the codec. -/
theorem releases_compressed (dstSize : ℕ) (sensitive : Bool) (r : Option ℕ × List UInt8) :
    Releases (fun _ => True) (match r with
      | (some dstSize, buf) => do
        let size := (dstSize + 4) % uint32
        let buf ← Buffer.resize A buf size
        pure (some (buf, size))
      | (none, buf) => do
        dispose sensitive dstSize buf
        pure none) fun _ => True := by
  obtain ⟨n, buf⟩ := r
  cases n with
  | some n => exact releases_bind (releases_resize ..) fun _ _ => releases_pure trivial
  | none =>
    unfold dispose Crypto.zeroMemory
    refine releases_bind (Q := fun _ => True) ?_ fun _ _ => releases_pure trivial
    refine releases_bind (Q := fun _ => True) ?_ fun _ _ => releases_release trivial
    refine releases_ite (fun _ => ?_) fun _ => releases_pure trivial
    exact (releases_storeAt ..).mono fun _ _ => trivial

/-- A compression adds to the log. -/
theorem releases_compress (hno : ¬ exact) (src : List UInt8) (size : ℕ) (sensitive : Bool) :
    Releases (Block.ErasedIf exact) (compress A src size sensitive) (Crypto.Exact exact) := by
  have hall : Releases (fun _ => True) (compress A src size sensitive) fun _ => True := by
    unfold compress
    refine releases_bind (Buffer.releases_create _) fun r _ => ?_
    cases r with
    | none => exact releases_pure trivial
    | some fresh =>
      refine releases_bind (releases_storeAt ..) fun buf _ => ?_
      refine releases_bind (releases_loadAt ..) fun bytes _ => ?_
      exact releases_bind (releases_codec ..) fun r _ => releases_compressed _ sensitive r
  intro h r h' hrun
  exact ⟨(hall hrun).1.mono fun b _ hexact => absurd hexact hno, fun hexact => absurd hexact hno⟩

/-- **The header**: the new payload fills its buffer, and the old one is erased. -/
theorem releases_addHeader (hsens : has opts OptSensitive = true) {p : Payload}
    (hp : p.Exact exact) :
    Releases (Block.ErasedIf exact) (addHeader A P opts p) (ExactPayload exact) := by
  have hH : sizeofHeader = 4 := rfl
  have hS : sizeofChecksum = 4 := rfl
  unfold addHeader
  rw [hsens]
  refine releases_bind (Buffer.releases_create _) fun r hfresh => ?_
  cases r with
  | none =>
    refine releases_bind (releases_replacePayload hp) fun _ _ => ?_
    exact releases_pure exactPayload_none
  | some fresh =>
    have hlen := hfresh fresh rfl
    refine releases_bind (releases_storeAt ..) ?_
    rintro _ ⟨hroom₁, rfl⟩
    have hlen₁ := length_patch hroom₁
    refine releases_bind (releases_loadAt ..) ?_
    rintro _ ⟨hload, rfl⟩
    have hbytes : (slice p.buf 0 p.size).length = p.size := length_slice hload
    refine releases_bind (releases_storeAt ..) ?_
    rintro _ ⟨hroom₂, rfl⟩
    have hlen₂ := length_patch hroom₂
    rw [hbytes, hlen₁, hlen, hH] at hroom₂
    have hpayload : (p.size + sizeofHeader) % uint32 = p.size + 4 := by
      rw [hH]
      refine Nat.mod_eq_of_lt ((Nat.add_comm _ _).trans_lt (hroom₂.trans_lt ?_))
      exact Nat.mod_lt _ (by decide)
    refine releases_bind (releases_replacePayload hp) fun _ _ => ?_
    simp only [hpayload]
    -- the stores show that the size of the buffer did not wrap
    refine releases_ite (fun hsum => ?_) fun hsum => releases_pure (exactPayload_some fun _ => ?_)
    · refine releases_bind (releases_loadAt ..) fun bytes _ => ?_
      refine releases_bind (releases_storeAt ..) ?_
      rintro _ ⟨hroom₃, rfl⟩
      refine releases_pure (exactPayload_some fun _ => ?_)
      have hlen₃ := length_patch hroom₃
      rw [length_leBytes, hlen₂, hlen₁, hlen, if_pos hsum, hH, hS] at hroom₃
      rw [hlen₃, hlen₂, hlen₁, hlen, if_pos hsum, hH, hS]
      exact congrArg (· % uint32) (by omega)
    · rw [if_neg hsum] at hroom₂ hlen
      have hle := Nat.mod_le (4 + p.size + 0) uint32
      show (patch (patch fresh 0 (header opts)) sizeofHeader (slice p.buf 0 p.size)).length =
        p.size + 4
      rw [hlen₂, hlen₁, hlen, hH]
      omega

/-- The source is compressed. -/
def Compresses (opts : UInt8) : Prop :=
  ¬ has opts OptRaw ∧ has opts OptCompressed

/-- The layers around the compressed data. -/
theorem releases_wrap_some (hsens : has opts OptSensitive = true) {o : Option Payload}
    (ho : ExactPayload exact o) :
    Releases (Block.ErasedIf exact) (match o with
      | none => pure none
      | some p => do
        match ← layer true (has opts OptEncrypted) (Crypto.encrypt A P.aes P.random enckey) p with
        | none => pure none
        | some p => addHeader A P opts p) (ExactPayload exact) := by
  cases o with
  | none => exact releases_pure exactPayload_none
  | some p =>
    have hp := ho p rfl
    refine releases_bind (releases_layer hp fun _ => Crypto.releases_encrypt ..) fun r hr => ?_
    cases r with
    | none => exact releases_pure exactPayload_none
    | some p' => exact releases_addHeader hsens (hr p' rfl)

theorem releases_wrap (hsens : has opts OptSensitive = true) {p : Payload}
    (hp : p.Exact (¬ Compresses opts)) :
    Releases (Block.ErasedIf (¬ Compresses opts)) (wrap A P opts enckey p)
      (ExactPayload (¬ Compresses opts)) := by
  unfold wrap
  refine releases_ite (fun _ => releases_pure (exactPayload_some hp)) fun hraw => ?_
  rw [hsens]
  refine releases_bind (releases_layer hp fun hon => ?_) fun r hr => releases_wrap_some hsens hr
  exact releases_compress (not_not.mpr ⟨hraw, hon⟩) p.buf p.size true

theorem releases_setData (hsens : has opts OptSensitive = true) (key : String)
    (bytes : List UInt8) (reg : Registry) :
    Releases (Block.ErasedIf exact) (setData P key bytes opts reg) fun _ => True := by
  unfold setData
  rw [hsens]
  refine releases_ite (fun _ => ?_) fun _ => releases_pure trivial
  refine releases_ite (fun _ => releases_pure trivial) fun _ => ?_
  exact releases_bind (releases_dispose fun _ => rfl) fun _ _ => releases_pure trivial

/-- The part of a write behind the layers. -/
theorem releases_write_some (hsens : has opts OptSensitive = true) (key : String)
    {o : Option Payload} (ho : ExactPayload exact o) (reg : Registry) :
    Releases (Block.ErasedIf exact) (match o with
      | none => pure (false, reg)
      | some p => do
        let bytes ← loadAt p.buf 0 p.size
        replacePayload (has opts OptSensitive) p p.size
        setData P key bytes opts reg) fun _ => True := by
  cases o with
  | none => exact releases_pure trivial
  | some p =>
    refine releases_bind (releases_loadAt ..) fun bytes _ => ?_
    rw [hsens]
    refine releases_bind (releases_replacePayload (ho p rfl)) fun _ _ => ?_
    exact releases_setData hsens key bytes reg

/-- **A write that does not compress** releases erased blocks only. -/
theorem releases_write (hsens : has opts OptSensitive = true) (key : String) (src : List UInt8)
    (reg : Registry) :
    Releases (Block.ErasedIf (¬ Compresses opts)) (write A P key src opts enckey reg)
      fun _ => True := by
  unfold write
  refine releases_ite (fun _ => releases_pure trivial) fun _ => ?_
  exact releases_bind (releases_wrap hsens fun _ => rfl) fun o ho =>
    releases_write_some hsens key ho reg

/-! ## Writes that compress -/

variable {h h' : Heap Block} {src : List UInt8}

/-- A compression without memory for its buffer, or for the state of the encoder, fails, and
releases erased blocks only. -/
theorem compress_refused {size : ℕ} {r : Option (List UInt8 × ℕ)}
    (hno : ¬ Buffer.Available A h ((size + 1024) % uint32) ∨
      ¬ Buffer.Available A ⟨h.requests + 1, h.released⟩ sizeofEncodeState)
    (hrun : Runs (compress A src size true) h r h') : r = none ∧ h.Grew Block.Erased h' := by
  obtain ⟨o, h₁, hcreate, hrest⟩ := runs_bind.mp hrun
  by_cases hav : Buffer.Available A h ((size + 1024) % uint32)
  · have hmade : Ensures (Buffer.create A ((size + 1024) % uint32)) h fun o h₁ =>
        (∃ fresh, o = some fresh ∧ fresh.length = (size + 1024) % uint32) ∧
          h₁ = ⟨h.requests + 1, h.released⟩ :=
      Buffer.ensures_create_available hav fun fresh hlen => ⟨⟨fresh, rfl, hlen⟩, rfl⟩
    obtain ⟨⟨fresh, rfl, hlen⟩, rfl⟩ := hmade.of_runs hcreate
    obtain ⟨buf, h₂, hstore, hrest⟩ := runs_bind.mp hrest
    obtain rfl := eq_of_runs_storeAt hstore
    obtain ⟨hroom, rfl⟩ := runs_storeAt hstore
    obtain ⟨bytes, h₃, hload, hrest⟩ := runs_bind.mp hrest
    obtain rfl := eq_of_runs_loadAt hload
    obtain ⟨⟨n, buf⟩, h₄, hcodec, hrest⟩ := runs_bind.mp hrest
    have hfails : Ensures (Compression.compress A ModeLZSS ((size + 1024) % uint32) bytes
        (some (patch fresh 0 (leBytes 4 size), 4))) ⟨h.requests + 1, h.released⟩ fun r h₄ =>
          r = (none, patch fresh 0 (leBytes 4 size)) ∧ h₄.released = h.released :=
      ensures_codec_refused (hno.resolve_left (not_not.mpr hav)) fun n => ⟨rfl, rfl⟩
    obtain ⟨hr, hlog⟩ := hfails.of_runs hcodec
    obtain ⟨rfl, rfl⟩ := Prod.mk.inj hr
    obtain ⟨u, h₅, hfree, hrest⟩ := runs_bind.mp hrest
    obtain ⟨rfl, rfl⟩ := runs_pure.mp hrest
    have hlen' : True → (patch fresh 0 (leBytes 4 size)).length = (size + 1024) % uint32 :=
      fun _ => (length_patch hroom).trans hlen
    have herased := (releases_dispose hlen' hfree).1
    exact ⟨rfl, (Heap.Grew.of_eq hlog).trans (herased.mono fun b hb => hb trivial)⟩
  · have hnone : Ensures (Buffer.create A ((size + 1024) % uint32)) h fun o h₁ =>
        o = none ∧ h₁.released = h.released :=
      Buffer.ensures_create_refused hav fun n => ⟨rfl, rfl⟩
    obtain ⟨rfl, hlog⟩ := hnone.of_runs hcreate
    obtain ⟨rfl, rfl⟩ := runs_pure.mp hrest
    exact ⟨rfl, .of_eq hlog⟩

/-- A compression with memory for its buffer and for the state of the encoder leaves that state
behind. -/
theorem violates_compress {size : ℕ} (hsize : 0 < size)
    (hav : Buffer.Available A h ((size + 1024) % uint32))
    (hstate : Buffer.Available A ⟨h.requests + 1, h.released⟩ sizeofEncodeState) :
    Violates Block.Erased (compress A src size true) h := by
  refine violates_bind fun o h₁ hcreate => ?_
  have hmade : Ensures (Buffer.create A ((size + 1024) % uint32)) h fun o h₁ =>
      (∃ fresh, o = some fresh) ∧ h₁ = ⟨h.requests + 1, h.released⟩ :=
    Buffer.ensures_create_available hav fun fresh _ => ⟨⟨fresh, rfl⟩, rfl⟩
  obtain ⟨⟨fresh, rfl⟩, rfl⟩ := hmade.of_runs hcreate
  refine ⟨rfl, violates_bind fun buf h₂ hstore => ?_⟩
  obtain rfl := eq_of_runs_storeAt hstore
  refine ⟨rfl, violates_bind fun bytes h₃ hload => ?_⟩
  obtain rfl := eq_of_runs_loadAt hload
  have hbytes : bytes ≠ [] := by
    obtain ⟨-, hroom, rfl⟩ := releases_loadAt (P := fun _ => True) _ _ _ hload
    have hlen := length_slice hroom
    exact List.ne_nil_of_length_pos (by omega)
  refine ⟨rfl, Violates.bind ?_ (releases_codec ..) fun r => releases_compressed _ true r⟩
  unfold Compression.compress target
  simp only [pure_bind, if_true]
  refine (violates_compressLzss hbytes hstate).bind (releases_compressLzss ..) fun r => ?_
  cases r.2 with
  | none => exact releases_pure trivial
  | some n => exact releases_pure trivial

/-- Without sizes that are known, every payload is as good as an exact one. -/
theorem exactPayload_false (o : Option Payload) : ExactPayload False o :=
  fun _ _ hfalse => hfalse.elim

variable {key : String} {reg : Registry}

theorem violates_write (hsens : has opts OptSensitive = true) (hcomp : Compresses opts)
    (hsrc : src ≠ []) (hav : Buffer.Available A h ((src.length + 1024) % uint32))
    (hstate : Buffer.Available A ⟨h.requests + 1, h.released⟩ sizeofEncodeState) :
    Violates Block.Erased (write A P key src opts enckey reg) h := by
  have hfalse : ∀ p : Payload, p.Exact False := fun p hfalse => hfalse.elim
  have hlog : Releases (Block.ErasedIf False) (compress A src src.length true)
      (Crypto.Exact False) := releases_compress not_false src src.length true
  set p : Payload := ⟨src, src.length, false⟩
  set f : List UInt8 → ℕ → BlockM (Option (List UInt8 × ℕ)) := fun buf size =>
    compress A buf size true
  have hlayer : Violates Block.Erased (layer true (has opts OptCompressed) f p) h := by
    unfold layer
    rw [if_pos hcomp.2]
    refine (violates_compress (List.length_pos_of_ne_nil hsrc) hav hstate).bind hlog.log
      fun r => ?_
    exact (releases_bind (releases_replacePayload (hfalse p)) fun _ _ =>
      releases_pure (Q := fun _ => True) trivial).log
  have hlayerLog : Releases (Block.ErasedIf False) (layer true (has opts OptCompressed) f p)
      (ExactPayload False) := releases_layer (hfalse p) fun _ => hlog
  have hwrap : Violates Block.Erased (wrap A P opts enckey p) h := by
    unfold wrap
    rw [if_neg hcomp.1, hsens]
    exact hlayer.bind hlayerLog.log
      fun o => (releases_wrap_some hsens (exactPayload_false o)).log
  unfold write
  rw [if_neg (mt List.length_eq_zero_iff.mp hsrc)]
  exact hwrap.bind (releases_wrap hsens fun _ => rfl).log
    fun o => (releases_write_some hsens key (exactPayload_false o) reg).log

theorem grew_write_refused {r : Bool × Registry} (hsens : has opts OptSensitive = true)
    (hcomp : Compresses opts)
    (hno : ¬ Buffer.Available A h ((src.length + 1024) % uint32) ∨
      ¬ Buffer.Available A ⟨h.requests + 1, h.released⟩ sizeofEncodeState)
    (hrun : Runs (write A P key src opts enckey reg) h r h') : h.Grew Block.Erased h' := by
  unfold write at hrun
  split_ifs at hrun with hempty
  · rw [(runs_pure.mp hrun).2]
    exact .refl _
  obtain ⟨o, h₁, hwrap, hrest⟩ := runs_bind.mp hrun
  unfold wrap at hwrap
  rw [if_neg hcomp.1, hsens] at hwrap
  obtain ⟨o', h₂, hlayer, htail⟩ := runs_bind.mp hwrap
  unfold layer at hlayer
  rw [if_pos hcomp.2] at hlayer
  obtain ⟨new, h₃, hcompress, hpayload⟩ := runs_bind.mp hlayer
  obtain ⟨rfl, hgrew⟩ := compress_refused hno hcompress
  -- the source itself is not released, and nothing else is done
  obtain ⟨u, h₄, hkept, hnone⟩ := runs_bind.mp hpayload
  obtain ⟨-, rfl⟩ := runs_pure.mp hkept
  obtain ⟨rfl, rfl⟩ := runs_pure.mp hnone
  obtain ⟨rfl, rfl⟩ := runs_pure.mp htail
  obtain ⟨rfl, rfl⟩ := runs_pure.mp hrest
  exact hgrew

/-- **Every block is erased** that a run of a sensitive write releases, exactly if the run does not
come to the encoder. -/
theorem erased_iff {r : Bool × Registry} (hsens : has opts OptSensitive = true)
    (hrun : Runs (write A P key src opts enckey reg) h r h') :
    h.Grew Block.Erased h' ↔ src = [] ∨ has opts OptRaw ∨ ¬ has opts OptCompressed ∨
      ¬ Buffer.Available A h ((src.length + 1024) % 2 ^ 32) ∨
      ¬ Buffer.Available A ⟨h.requests + 1, h.released⟩ sizeofEncodeState := by
  constructor
  · intro hgrew
    by_contra hno
    simp only [not_or, not_not] at hno
    obtain ⟨hsrc, hraw, hon, hav, hstate⟩ := hno
    exact violates_write hsens ⟨hraw, hon⟩ hsrc hav hstate hrun hgrew
  · intro hcond
    by_cases hcomp : Compresses opts
    · rcases hcond with rfl | hraw | hoff | hno
      · rw [(runs_pure.mp hrun).2]
        exact .refl _
      · exact absurd hraw hcomp.1
      · exact absurd hcomp.2 hoff
      · exact grew_write_refused hsens hcomp hno hrun
    · exact (releases_write hsens key src reg hrun).1.mono fun b hb => hb hcomp

/-- A sensitive value of one byte that is written without compression. -/
theorem erased_plain : ∃ r h', Runs (write generous plain "key" [7] OptSensitive none fun _ => none)
    ⟨0, []⟩ r h' ∧ Heap.Grew Block.Erased ⟨0, []⟩ h' := by
  obtain ⟨r, h', hrun⟩ : ∃ r h', Runs (write generous plain "key" [7] OptSensitive none fun _ =>
      none) ⟨0, []⟩ r h' := ⟨_, _, rfl⟩
  exact ⟨r, h', hrun, (erased_iff (by decide) hrun).mpr (.inr (.inr (.inl (by decide))))⟩

/-- A write within the limits is defined. -/
theorem ensures_write_fits (hA : A.Generous) (haes : P.aes.Inverts) (hsrc : src ≠ [])
    (hlt : src.length < uint32) (hraw : ¬ has opts OptRaw) (hfits : Fits opts enckey src) :
    Ensures (write A P key src opts enckey reg) h fun _ _ => True := by
  unfold write
  rw [if_neg (mt List.length_eq_zero_iff.mp hsrc), ensures_bind]
  refine (ensures_wrap hA haes hsrc hlt hraw hfits).mono fun o h' ho => ?_
  cases o with
  | none => exact ensures_pure.mpr trivial
  | some p =>
    obtain ⟨hp, -, -⟩ := ho p rfl
    simp only [ensures_bind]
    refine ensures_loadAt (by have := hp.le_length; omega) (ensures_replacePayload hp fun h'' => ?_)
    exact ensures_setData (fun _ _ => trivial) fun _ => trivial

/-- **The defect**: the state of the encoder is left in memory, with the sensitive value in it. -/
theorem not_erased_compressed : ∃ r h', Runs (write generous plain "key" [7]
    (OptSensitive ||| OptCompressed) none fun _ => none) ⟨0, []⟩ r h' ∧
      ¬ Heap.Grew Block.Erased ⟨0, []⟩ h' := by
  have hfits : Fits (OptSensitive ||| OptCompressed) none [7] := by
    rw [Fits, if_pos (by decide)]
    exact fitsCompressed_of_le (List.cons_ne_nil 7 []) (by decide)
  have hcomp : Compresses (OptSensitive ||| OptCompressed) := ⟨by decide, by decide⟩
  have hdefined : Ensures (write generous plain "key" [7] (OptSensitive ||| OptCompressed) none
      fun _ => none) ⟨0, []⟩ fun _ _ => True :=
    ensures_write_fits generous_generous plain_inverts (List.cons_ne_nil 7 []) (by decide) hcomp.1
      hfits
  obtain ⟨r, h', hrun, -⟩ := hdefined
  refine ⟨r, h', hrun, ?_⟩
  apply violates_write (by decide) hcomp (List.cons_ne_nil 7 []) _ _ hrun
  · exact available_generous (by decide) _
  · exact available_generous (by decide) _

end NVStorage

end Lilu
