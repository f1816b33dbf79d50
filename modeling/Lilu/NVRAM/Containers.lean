import Lilu.NVRAM.ReadBack

/-!
# The round trip through a container

A source that is encrypted is decrypted again, whatever its length is modulo the size of a block.
The sizes of the two buffers are sums of 32 bit numbers. The limit of the allocator refuses most
sizes that are too large, but is checked after the sums have wrapped.

## Main definitions

* `BuffersSuffice`: the buffers of an encryption are large enough

## Main results

* `decrypt_encrypt`: the round trip
* `buffersSuffice_iff`: when the buffers suffice
-/

namespace Lilu.Crypto

open Compression NVStorage

variable {A : Allocator} {aes : Aes} {random : Random} {h : Heap Block}

/-- The cipher makes no error on whole blocks with a key and a vector of their size. -/
def Aes.Works (aes : Aes) : Prop :=
  ∀ {key iv data}, key.length = BlockSize → iv.length = BlockSize → data.length % BlockSize = 0 →
    ∃ enc, aes.encryptCbc key iv data = some enc

/-- **The round trip**: a source that fits becomes a container of at least two whole blocks, which
the key opens at any later time. -/
theorem decrypt_encrypt (hA : A.Generous) (haes : aes.Inverts) (hworks : aes.Works)
    {key src : List UInt8} (hkey : key.length = BlockSize) (hsrc : src ≠ [])
    (hmax : 4 + src.length + 31 ≤ Buffer.BufferMax) :
    Ensures (encrypt A aes random (some key) src src.length) h fun r _ => ∃ buf n,
      r = some (buf, n) ∧ buf.length = n ∧ n % BlockSize = 0 ∧ 32 ≤ n ∧
      ∀ h', Ensures (decrypt A aes (some key) buf n) h' fun r' _ => ∃ dec,
        r' = some (dec, src.length) ∧ dec.take src.length = src := by
  have hB : BlockSize = 16 := rfl
  have hU : uint32 = 4294967296 := rfl
  have hM : Buffer.BufferMax = 1073741824 := rfl
  have hpos : src.length ≠ 0 := mt List.length_eq_zero_iff.mp hsrc
  refine (ensures_encrypt_cases hpos le_rfl (by omega)).mono fun r _ hr => ?_
  rw [List.take_length] at hr
  cases hr with
  | large hlt => exact absurd hmax (Nat.not_le.mpr hlt)
  | refused hno => exact absurd hA hno
  | failed hiv hblocks hcbc =>
    obtain ⟨enc, henc⟩ := hworks hkey hiv hblocks
    rw [hcbc] at henc
    cases henc
  | @container iv data enc hiv hdata hblocks hcbc hfit =>
    have hlen : (iv ++ enc).length = data.length + BlockSize := by
      rw [List.length_append, hiv, aes.length_encrypt hcbc, Nat.add_comm]
    have hle := hdata.le_length
    refine ⟨_, _, rfl, hlen, ?_, ?_, fun h' => ?_⟩
    · rw [Nat.add_mod_right, hblocks]
    · rw [hB] at hblocks ⊢
      omega
    · refine ((agree_decrypt hlen.ge).ensures h').mono fun r' _ hgives => ?_
      have hopen := openEncrypted_container haes hiv hdata hblocks hcbc hfit
      rw [← hlen, List.take_length, hopen] at hgives
      obtain ⟨dec, hdec, htake, -, -⟩ := hgives.resolve_right fun hno => hno.2 hA
      exact ⟨dec, hdec, htake⟩

theorem plain_works : plain.aes.Works :=
  fun {_ _ data} _ _ _ => ⟨data, rfl⟩

theorem decrypt_encrypt_singleton :
    Ensures (encrypt generous plain.aes plain.random (some (List.replicate 16 0)) [7] 1) ⟨0, []⟩
      fun r _ => ∃ buf n, r = some (buf, n) ∧ buf.length = n ∧ n % BlockSize = 0 ∧ 32 ≤ n ∧
        ∀ h', Ensures (decrypt generous plain.aes (some (List.replicate 16 0)) buf n) h'
          fun r' _ => ∃ dec, r' = some (dec, 1) ∧ dec.take 1 = [7] :=
  decrypt_encrypt generous_generous plain_inverts plain_works List.length_replicate
    (List.cons_ne_nil 7 []) (by decide)

/-! ## Sizes that wrap -/

/-- **The buffers suffice**: where the data buffer is allocated, it has room for the length, the
source and the padding, the output buffer has room for the vector and the blocks, and no access
leaves a buffer. -/
def BuffersSuffice (A : Allocator) (aes : Aes) (random : Random) (h : Heap Block)
    (key src : List UInt8) (size : ℕ) : Prop :=
  (Buffer.Available A h (encSize size) → 4 + size + padding (4 + size) ≤ encSize size ∧
    BlockSize + encSize size ≤ fullSize size) ∧
  ¬ Undefined (encrypt A aes random (some key) src size) h

/-- **The buffers of an encryption suffice** exactly if the sizes do not wrap, or the few bytes that
are asked for instead are refused. -/
theorem buffersSuffice_iff {key src : List UInt8} {size : ℕ} (hpos : 1 ≤ size)
    (hlt : size < 2 ^ 32) (hsize : size ≤ src.length) :
    BuffersSuffice A aes random h key src size ↔
      size ≤ 2 ^ 32 - 20 ∨ ¬ Buffer.Available A h (if size ≤ 2 ^ 32 - 4 then 0 else 16) := by
  have hB : BlockSize = 16 := rfl
  have hU : uint32 = 2 ^ 32 := rfl
  constructor
  · rintro ⟨-, hdefined⟩
    by_contra hno
    obtain ⟨hwrap, hav⟩ := not_or.mp hno
    have hwrap : uint32 - BlockSize < 4 + size := by omega
    refine hdefined (undefined_encrypt_of_available hlt hwrap ?_)
    rw [encSize_of_wrap hlt hwrap]
    exact not_not.mp hav
  · intro hcond
    by_cases hfits : 4 + size ≤ uint32 - BlockSize
    · refine ⟨fun hav => ⟨(encSize_eq hfits).ge, ?_⟩, ?_⟩
      · rw [fullSize_eq hav.1, Nat.add_comm]
      · exact (ensures_encrypt_cases (by omega) hsize hfits).not_undefined
    · have hwrap := Nat.not_le.mp hfits
      have hno := hcond.resolve_left (by omega)
      have hrefused : ¬ Buffer.Available A h (encSize size) := by
        rw [encSize_of_wrap hlt hwrap]
        exact hno
      refine ⟨fun hav => absurd hav hrefused, ?_⟩
      -- without a data buffer nothing is stored
      have hnone : Ensures (encrypt A aes random (some key) src size) h fun _ _ => True := by
        unfold encrypt
        rw [if_neg (by omega)]
        simp only [ensures_bind]
        exact Buffer.ensures_create_refused hrefused fun _ => ensures_pure.mpr trivial
      exact hnone.not_undefined

/-- A size of one byte is one that the buffers suffice for. -/
theorem buffersSuffice_one : BuffersSuffice generous plain.aes plain.random ⟨0, []⟩ [] [7] 1 :=
  (buffersSuffice_iff le_rfl (by decide) le_rfl).mpr (.inl (by decide))

/-- **The defect**: the largest size wraps, and one block is allocated for four gigabytes. -/
theorem not_buffersSuffice_largest :
    ¬ BuffersSuffice generous plain.aes plain.random ⟨0, []⟩ (List.replicate 16 0)
      (List.replicate (2 ^ 32 - 1) 0) (2 ^ 32 - 1) := by
  rintro ⟨-, hdefined⟩
  have hlt : 2 ^ 32 - 1 < uint32 := by decide
  have hwrap : uint32 - BlockSize < 4 + (2 ^ 32 - 1) := by decide
  apply hdefined
  exact undefined_encrypt generous_generous hlt hwrap

end Lilu.Crypto
