import Lilu.Prelude.Heap
import Lilu.Compression.SearchTrees

/-!
# Buffers

Buffers come from the kernel's allocator, but never more than a gigabyte at once. A buffer that is
resized is a new one with the old contents, as far as both reach.

## Main definitions

* `Block`: what a released block holds
* `Buffer.create`, `Buffer.resize`, `Buffer.deleter`: the three operations
* `Allocator.Generous`: there is memory for every buffer within the limit
-/

namespace Lilu

open Compression

/-- A block of memory: a buffer of bytes, or the state of the LZSS encoder. -/
inductive Block where
  | bytes (contents : List UInt8)
  | encoder (sp : EncodeState)

/-- Computations over a heap of blocks. -/
abbrev BlockM := HeapM Block

namespace Buffer

/-- Allocating more than 1 GB is unreasonable for stability purposes. -/
def BufferMax : ℕ := 1024 * 1024 * 1024

variable (A : Allocator)

/-- `Buffer::create`: a fresh buffer of `size` bytes, or `nullptr`. -/
def create (size : ℕ) : BlockM (Option (List UInt8)) :=
  if size > BufferMax then pure none else A.request size

/-- `Buffer::deleter`. -/
def deleter (b : Block) : BlockM Unit :=
  release b

/-- `Buffer::resize`: the buffer afterwards, unchanged if memory is refused. -/
def resize (buf : List UInt8) (size : ℕ) : BlockM (List UInt8) :=
  if size > BufferMax then pure buf
  else do
    match ← A.request size with
    | none => pure buf
    | some fresh =>
      deleter (.bytes buf)
      pure (buf.take size ++ fresh.drop buf.length)

/-- The allocator has memory for a buffer of `size` bytes. -/
def Available (h : Heap Block) (size : ℕ) : Prop :=
  size ≤ BufferMax ∧ ∃ fresh, A.answer h.requests size = some fresh

variable {A} {h : Heap Block}

/-- A fresh buffer has the size asked for; there is one when memory is available. -/
theorem ensures_create {size : ℕ} {Q : Option (List UInt8) → Heap Block → Prop}
    (hnone : ∀ h', ¬ Available A h size → Q none h')
    (hsome : ∀ fresh h', fresh.length = size → size ≤ BufferMax → Q (some fresh) h') :
    Ensures (create A size) h Q := by
  unfold create
  by_cases hmax : size > BufferMax
  · rw [if_pos hmax]
    exact ensures_pure.mpr (hnone h fun hav => absurd hav.1 (Nat.not_le.mpr hmax))
  · rw [if_neg hmax, Allocator.ensures_request]
    cases hans : A.answer h.requests size with
    | none =>
      refine hnone _ fun ⟨_, fresh, hfresh⟩ => ?_
      rw [hans] at hfresh
      cases hfresh
    | some fresh => exact hsome fresh _ (A.length_answer hans) (Nat.not_lt.mp hmax)

/-- A buffer that is available is created, by one request. -/
theorem ensures_create_available {size : ℕ} {Q : Option (List UInt8) → Heap Block → Prop}
    (hav : Available A h size)
    (hQ : ∀ fresh, fresh.length = size → Q (some fresh) ⟨h.requests + 1, h.released⟩) :
    Ensures (create A size) h Q := by
  obtain ⟨hmax, fresh, hans⟩ := hav
  rw [create, if_neg (Nat.not_lt.mpr hmax), Allocator.ensures_request, hans]
  exact hQ fresh (A.length_answer hans)

theorem ensures_create_refused {size : ℕ} {Q : Option (List UInt8) → Heap Block → Prop}
    (hno : ¬ Available A h size) (hQ : ∀ n, Q none ⟨n, h.released⟩) :
    Ensures (create A size) h Q := by
  unfold create
  by_cases hmax : size > BufferMax
  · rw [if_pos hmax]
    exact ensures_pure.mpr (hQ h.requests)
  · have hans : A.answer h.requests size = none :=
      Option.eq_none_iff_forall_ne_some.mpr fun fresh hfresh =>
        hno ⟨Nat.not_lt.mp hmax, fresh, hfresh⟩
    rw [if_neg hmax, Allocator.ensures_request, hans]
    exact hQ _

/-- A buffer that is made smaller keeps its contents up to the new size. -/
theorem ensures_resize {buf : List UInt8} {size : ℕ} {Q : List UInt8 → Heap Block → Prop}
    (hsize : size ≤ buf.length)
    (hQ : ∀ buf' h', buf'.take size = buf.take size → Q buf' h') :
    Ensures (resize A buf size) h Q := by
  unfold resize
  by_cases hmax : size > BufferMax
  · rw [if_pos hmax]
    exact ensures_pure.mpr (hQ buf h rfl)
  · rw [if_neg hmax, ensures_bind, Allocator.ensures_request]
    cases A.answer h.requests size with
    | none => exact ensures_pure.mpr (hQ buf _ rfl)
    | some fresh =>
      simp only [deleter, ensures_bind, ensures_release, ensures_pure]
      refine hQ _ _ ?_
      rw [List.take_append_of_le_length (by simp [hsize]), List.take_take, Nat.min_self]

/-- A buffer that is made smaller is the same in both computations. -/
theorem agree_resize {buf : List UInt8} {size : ℕ} (hsize : size ≤ buf.length) :
    Agree (resize A buf size) (resize A buf size) fun buf' =>
      buf'.take size = buf.take size ∧ size ≤ buf'.length := by
  unfold resize
  by_cases hmax : size > BufferMax
  · rw [if_pos hmax]
    exact agree_pure ⟨rfl, hsize⟩
  · rw [if_neg hmax]
    refine agree_bind (A.agree_request size) ?_
    rintro _ ⟨i, rfl⟩
    cases hans : A.answer i size with
    | none => exact agree_pure ⟨rfl, hsize⟩
    | some fresh =>
      refine agree_bind (agree_release _ _) fun _ _ => agree_pure ⟨?_, by simp [hsize]⟩
      rw [List.take_append_of_le_length (by simp [hsize]), List.take_take, Nat.min_self]

end Buffer

/-- The allocator never refuses a buffer within the limit. -/
def Allocator.Generous (A : Allocator) : Prop :=
  ∀ h size, size ≤ Buffer.BufferMax → Buffer.Available A h size

namespace Buffer

variable {A : Allocator} {h : Heap Block} {size : ℕ}

theorem ensures_create_generous (hA : A.Generous) {Q : Option (List UInt8) → Heap Block → Prop}
    (hnone : ∀ h', BufferMax < size → Q none h')
    (hsome : ∀ fresh h', fresh.length = size → size ≤ BufferMax → Q (some fresh) h') :
    Ensures (create A size) h Q :=
  ensures_create (fun h' hno => hnone h' (Nat.not_le.mp fun hle => hno (hA h size hle))) hsome

/-- Two computations that create a buffer first get the same one, or none if it is too large or
memory may be refused. -/
theorem agree_create {β : Type} {f₁ f₂ : Option (List UInt8) → BlockM β} {Q : β → Prop}
    (hnone : BufferMax < size ∨ ¬ A.Generous → Agree (f₁ none) (f₂ none) Q)
    (hsome : ∀ fresh, fresh.length = size → size ≤ BufferMax →
      Agree (f₁ (some fresh)) (f₂ (some fresh)) Q) :
    Agree (create A size >>= f₁) (create A size >>= f₂) Q := by
  unfold create
  by_cases hmax : size > BufferMax
  · rw [if_pos hmax]
    exact agree_bind (agree_pure rfl) fun _ hnot => hnot ▸ hnone (Or.inl hmax)
  rw [if_neg hmax]
  refine agree_bind (A.agree_request size) ?_
  rintro _ ⟨i, rfl⟩
  cases hans : A.answer i size with
  | some fresh => exact hsome fresh (A.length_answer hans) (Nat.not_lt.mp hmax)
  | none =>
    refine hnone (Or.inr fun hA => ?_)
    obtain ⟨-, fresh, hfresh⟩ := hA ⟨i, []⟩ size (Nat.not_lt.mp hmax)
    rw [hans] at hfresh
    cases hfresh

end Buffer

end Lilu
