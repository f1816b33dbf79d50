import Mathlib.Tactic

/-!
# Computations over a heap with undefined behaviour

A computation changes a heap and returns a value, unless its behaviour is undefined. The heap is
seen from the outside: how many requests for memory were made, and what the released blocks held
when they were released. Whether a request is granted, and what fresh memory holds, is up to an
allocator, a function of the requests.

## Main definitions

* `HeapM ρ α`: computations over heaps that log released blocks of type `ρ`
* `Runs`, `MayReturn`: a defined run, and what an undefined one may look like from outside
* `Ensures`: the run is defined and its result satisfies a postcondition
* `Agree`: two computations that cannot be told apart by what they return
* `Allocator`: the answers to the requests for memory
* `storeAt`, `loadAt`: accesses to a buffer, undefined outside of it

## Main results

* `ensures_bind`: the rule of sequence for total correctness
* `agree_bind`: the rule of sequence for two computations
* `ensures_storeAt`: a store inside the buffer replaces exactly its bytes
-/

namespace Lilu

/-- The heap as a computation sees it. -/
structure Heap (ρ : Type) where
  requests : ℕ
  released : List ρ

/-- Computations over the heap; `none` is undefined behaviour. -/
abbrev HeapM (ρ : Type) := StateT (Heap ρ) Option

section

variable {ρ α β : Type}

/-- The computation is defined from `h` on, and returns `a` with the heap `h'`. -/
def Runs (m : HeapM ρ α) (h : Heap ρ) (a : α) (h' : Heap ρ) : Prop :=
  m.run h = some (a, h')

/-- The behaviour of the computation is undefined. -/
def Undefined (m : HeapM ρ α) (h : Heap ρ) : Prop :=
  m.run h = none

/-- The computation may be seen to return `a`: undefined behaviour may look like anything. -/
def MayReturn (m : HeapM ρ α) (h : Heap ρ) (a : α) : Prop :=
  Undefined m h ∨ ∃ h', Runs m h a h'

/-- Undefined behaviour. -/
def undefined : HeapM ρ α :=
  fun _ => none

@[simp] theorem runs_pure {a b : α} {h h' : Heap ρ} :
    Runs (pure a : HeapM ρ α) h b h' ↔ a = b ∧ h = h' := by
  simp [Runs]

@[simp] theorem not_runs_undefined {b : α} {h h' : Heap ρ} :
    ¬ Runs (undefined : HeapM ρ α) h b h' := by
  simp [Runs, undefined, StateT.run]

/-- **A sequence** runs when its first part does and the second does from there. -/
theorem runs_bind {m : HeapM ρ α} {f : α → HeapM ρ β} {h h'' : Heap ρ} {b : β} :
    Runs (m >>= f) h b h'' ↔ ∃ a h', Runs m h a h' ∧ Runs (f a) h' b h'' := by
  unfold Runs
  rw [StateT.run_bind]
  cases hm : m.run h with
  | none => simp
  | some p =>
    obtain ⟨a, h'⟩ := p
    simp

/-- From `h` on the computation is defined, and its result and the heap satisfy `Q`. -/
def Ensures (m : HeapM ρ α) (h : Heap ρ) (Q : α → Heap ρ → Prop) : Prop :=
  ∃ a h', Runs m h a h' ∧ Q a h'

theorem Runs.ensures {m : HeapM ρ α} {h h' : Heap ρ} {a : α} {Q : α → Heap ρ → Prop}
    (hr : Runs m h a h') (hQ : Q a h') : Ensures m h Q :=
  ⟨a, h', hr, hQ⟩

theorem Ensures.mono {m : HeapM ρ α} {h : Heap ρ} {Q Q' : α → Heap ρ → Prop}
    (hm : Ensures m h Q) (hQ : ∀ a h', Q a h' → Q' a h') : Ensures m h Q' := by
  obtain ⟨a, h', hr, hq⟩ := hm
  exact ⟨a, h', hr, hQ a h' hq⟩

@[simp] theorem ensures_pure {a : α} {h : Heap ρ} {Q : α → Heap ρ → Prop} :
    Ensures (pure a) h Q ↔ Q a h := by
  simp [Ensures]

/-- **The rule of sequence**. -/
theorem ensures_bind {m : HeapM ρ α} {f : α → HeapM ρ β} {h : Heap ρ} {Q : β → Heap ρ → Prop} :
    Ensures (m >>= f) h Q ↔ Ensures m h fun a h' => Ensures (f a) h' Q := by
  constructor
  · rintro ⟨b, h'', hr, hQ⟩
    obtain ⟨a, h', hm, hf⟩ := runs_bind.mp hr
    exact ⟨a, h', hm, b, h'', hf, hQ⟩
  · rintro ⟨a, h', hm, b, h'', hf, hQ⟩
    exact ⟨b, h'', runs_bind.mpr ⟨a, h', hm, hf⟩, hQ⟩

theorem Ensures.not_undefined {m : HeapM ρ α} {h : Heap ρ} {Q : α → Heap ρ → Prop}
    (hm : Ensures m h Q) : ¬ Undefined m h := by
  obtain ⟨a, h', hr, -⟩ := hm
  unfold Runs at hr
  simp [Undefined, hr]

/-- What is ensured holds of every run. -/
theorem Ensures.of_runs {m : HeapM ρ α} {h h' : Heap ρ} {a : α} {Q : α → Heap ρ → Prop}
    (hm : Ensures m h Q) (hr : Runs m h a h') : Q a h' := by
  obtain ⟨b, h'', hr', hq⟩ := hm
  unfold Runs at hr hr'
  rw [hr] at hr'
  simp only [Option.some.injEq, Prod.mk.injEq] at hr'
  obtain ⟨rfl, rfl⟩ := hr'
  exact hq

/-- A sequence is undefined when its second part is, from where the first one ends. -/
theorem Ensures.undefined_bind {m : HeapM ρ α} {f : α → HeapM ρ β} {h : Heap ρ}
    (hm : Ensures m h fun a h' => Undefined (f a) h') : Undefined (m >>= f) h := by
  obtain ⟨a, h', hr, hf⟩ := hm
  unfold Runs at hr
  unfold Undefined at hf ⊢
  rw [StateT.run_bind, hr]
  exact hf

/-- A sequence is undefined when its first part is. -/
theorem Undefined.bind {m : HeapM ρ α} {h : Heap ρ} (hm : Undefined m h) (f : α → HeapM ρ β) :
    Undefined (m >>= f) h := by
  unfold Undefined at hm ⊢
  rw [StateT.run_bind, hm]
  rfl

/-- From heaps that have seen as many requests both computations are defined, make as many requests
and return the same value, one of `Q`. What they release may differ. -/
def Agree (m₁ m₂ : HeapM ρ α) (Q : α → Prop) : Prop :=
  ∀ h₁ h₂ : Heap ρ, h₁.requests = h₂.requests → ∃ a h₁' h₂', Runs m₁ h₁ a h₁' ∧
    Runs m₂ h₂ a h₂' ∧ h₁'.requests = h₂'.requests ∧ Q a

theorem agree_pure {a : α} {Q : α → Prop} (hQ : Q a) :
    Agree (pure a : HeapM ρ α) (pure a) Q :=
  fun h₁ h₂ heq => ⟨a, h₁, h₂, runs_pure.mpr ⟨rfl, rfl⟩, runs_pure.mpr ⟨rfl, rfl⟩, heq, hQ⟩

/-- **The rule of sequence** for two computations. -/
theorem agree_bind {m₁ m₂ : HeapM ρ α} {f₁ f₂ : α → HeapM ρ β} {R : α → Prop} {Q : β → Prop}
    (hm : Agree m₁ m₂ R) (hf : ∀ a, R a → Agree (f₁ a) (f₂ a) Q) :
    Agree (m₁ >>= f₁) (m₂ >>= f₂) Q := by
  intro h₁ h₂ heq
  obtain ⟨a, h₁', h₂', hm₁, hm₂, heq', ha⟩ := hm h₁ h₂ heq
  obtain ⟨b, h₁'', h₂'', hf₁, hf₂, heq'', hb⟩ := hf a ha h₁' h₂' heq'
  exact ⟨b, h₁'', h₂'', runs_bind.mpr ⟨a, h₁', hm₁, hf₁⟩, runs_bind.mpr ⟨a, h₂', hm₂, hf₂⟩,
    heq'', hb⟩

theorem Agree.mono {m₁ m₂ : HeapM ρ α} {Q Q' : α → Prop} (hm : Agree m₁ m₂ Q)
    (hQ : ∀ a, Q a → Q' a) : Agree m₁ m₂ Q' := by
  intro h₁ h₂ heq
  obtain ⟨a, h₁', h₂', hm₁, hm₂, heq', ha⟩ := hm h₁ h₂ heq
  exact ⟨a, h₁', h₂', hm₁, hm₂, heq', hQ a ha⟩

/-- A computation that agrees with another is defined. -/
theorem Agree.ensures {m₁ m₂ : HeapM ρ α} {Q : α → Prop} (hm : Agree m₁ m₂ Q) (h : Heap ρ) :
    Ensures m₁ h fun a _ => Q a := by
  obtain ⟨a, h', -, hm₁, -, -, ha⟩ := hm h h rfl
  exact ⟨a, h', hm₁, ha⟩

/-- Releasing a block logs what it holds. -/
def release (b : ρ) : HeapM ρ Unit :=
  modify fun h => { h with released := h.released ++ [b] }

@[simp] theorem ensures_release {b : ρ} {h : Heap ρ} {Q : Unit → Heap ρ → Prop} :
    Ensures (release b) h Q ↔ Q () ⟨h.requests, h.released ++ [b]⟩ := by
  simp only [Ensures, Runs, release, modify, StateT.run_modifyGet, Option.pure_def,
    Option.some.injEq, Prod.mk.injEq]
  constructor
  · rintro ⟨u, h', ⟨-, rfl⟩, hQ⟩
    exact hQ
  · exact fun hQ => ⟨(), _, ⟨trivial, rfl⟩, hQ⟩

/-- Which block is released makes no difference. -/
theorem agree_release (b₁ b₂ : ρ) : Agree (release b₁) (release b₂) fun _ => True :=
  fun _ _ heq => ⟨(), _, _, rfl, rfl, heq, trivial⟩

end

/-- The answers to the requests for memory: the contents of the fresh block, or a refusal. -/
structure Allocator where
  answer : ℕ → ℕ → Option (List UInt8)
  length_answer : ∀ {i n : ℕ} {junk : List UInt8}, answer i n = some junk → junk.length = n

namespace Allocator

variable {ρ : Type} (A : Allocator)

/-- Request `n` bytes. -/
def request (n : ℕ) : HeapM ρ (Option (List UInt8)) := do
  let h ← get
  set { h with requests := h.requests + 1 }
  return A.answer h.requests n

@[simp] theorem ensures_request {n : ℕ} {h : Heap ρ} {Q : Option (List UInt8) → Heap ρ → Prop} :
    Ensures (A.request n) h Q ↔ Q (A.answer h.requests n) ⟨h.requests + 1, h.released⟩ := by
  simp [Ensures, Runs, request]

/-- Both computations get the same answer. -/
theorem agree_request (n : ℕ) : Agree (A.request n : HeapM ρ _) (A.request n) fun answer =>
    ∃ i, answer = A.answer i n := by
  intro h₁ h₂ heq
  exact ⟨A.answer h₁.requests n, ⟨h₁.requests + 1, h₁.released⟩, ⟨h₂.requests + 1, h₂.released⟩,
    rfl, by rw [heq]; rfl, by rw [heq], _, rfl⟩

end Allocator

section Stores

variable {ρ : Type}

/-- The buffer after its bytes from `off` on were replaced. -/
def patch (buf : List UInt8) (off : ℕ) (bytes : List UInt8) : List UInt8 :=
  buf.take off ++ bytes ++ buf.drop (off + bytes.length)

/-- The `n` bytes of the buffer from `off` on. -/
def slice (buf : List UInt8) (off n : ℕ) : List UInt8 :=
  (buf.drop off).take n

/-- Store bytes to a buffer at `off`. -/
def storeAt (buf : List UInt8) (off : ℕ) (bytes : List UInt8) : HeapM ρ (List UInt8) :=
  if off + bytes.length ≤ buf.length then pure (patch buf off bytes) else undefined

/-- Load bytes from a buffer at `off`. -/
def loadAt (buf : List UInt8) (off n : ℕ) : HeapM ρ (List UInt8) :=
  if off + n ≤ buf.length then pure (slice buf off n) else undefined

theorem length_slice {buf : List UInt8} {off n : ℕ} (h : off + n ≤ buf.length) :
    (slice buf off n).length = n := by
  simp [slice]
  omega

theorem slice_take (buf : List UInt8) {off n m : ℕ} (h : off + n ≤ m) :
    slice (buf.take m) off n = slice buf off n := by
  rw [slice, slice, List.drop_take, List.take_take, Nat.min_eq_left (by omega)]

theorem slice_zero (buf : List UInt8) (n : ℕ) : slice buf 0 n = buf.take n := by
  rw [slice, List.drop_zero]

theorem length_patch {buf : List UInt8} {off : ℕ} {bytes : List UInt8}
    (h : off + bytes.length ≤ buf.length) : (patch buf off bytes).length = buf.length := by
  simp [patch]
  omega

/-- What a buffer holds up to the end of a store. -/
theorem take_patch {buf bytes : List UInt8} {off : ℕ} (h : off + bytes.length ≤ buf.length) :
    (patch buf off bytes).take (off + bytes.length) = buf.take off ++ bytes := by
  have hoff : (buf.take off ++ bytes).length = off + bytes.length := by simp; omega
  rw [patch, ← hoff, List.take_left]

/-- Two stores, one behind the other. -/
theorem take_patch_patch {buf xs ys : List UInt8} (h : xs.length + ys.length ≤ buf.length) :
    (patch (patch buf 0 xs) xs.length ys).take (xs.length + ys.length) = xs ++ ys := by
  have hhead : (patch buf 0 xs).take (0 + xs.length) = buf.take 0 ++ xs := take_patch (by omega)
  rw [Nat.zero_add, List.take_zero, List.nil_append] at hhead
  rw [take_patch (by rwa [length_patch (by omega)]), hhead]

/-- A store leaves what lies before it. -/
theorem slice_patch_of_le {buf bytes : List UInt8} {off off' n : ℕ} (h : off' + n ≤ off)
    (hoff : off ≤ buf.length) : slice (patch buf off bytes) off' n = slice buf off' n := by
  have hlen : (buf.take off).length = off := by simp [hoff]
  rw [patch, List.append_assoc, ← slice_take buf h, slice, slice,
    List.drop_append_of_le_length (by omega), List.take_append_of_le_length (by simp; omega)]

/-- **A load** inside its buffer. -/
theorem ensures_loadAt {buf : List UInt8} {off n : ℕ} {h : Heap ρ}
    {Q : List UInt8 → Heap ρ → Prop} (hle : off + n ≤ buf.length) (hQ : Q (slice buf off n) h) :
    Ensures (loadAt buf off n) h Q := by
  rw [loadAt, if_pos hle]
  exact ensures_pure.mpr hQ

theorem slice_patch {buf : List UInt8} {off : ℕ} {bytes : List UInt8}
    (h : off + bytes.length ≤ buf.length) : slice (patch buf off bytes) off bytes.length = bytes := by
  have hoff : (buf.take off).length = off := by simp; omega
  rw [slice, patch, List.append_assoc, List.drop_append_of_le_length hoff.ge,
    List.drop_of_length_le hoff.le, List.nil_append, List.take_left]

/-- **A store** inside its buffer replaces its bytes. -/
theorem ensures_storeAt {buf bytes : List UInt8} {off : ℕ} {h : Heap ρ}
    {Q : List UInt8 → Heap ρ → Prop} (hle : off + bytes.length ≤ buf.length)
    (hQ : Q (patch buf off bytes) h) : Ensures (storeAt buf off bytes) h Q := by
  rw [storeAt, if_pos hle]
  exact ensures_pure.mpr hQ

theorem agree_loadAt {buf : List UInt8} {off n : ℕ} (hle : off + n ≤ buf.length) :
    Agree (loadAt buf off n : HeapM ρ _) (loadAt buf off n) (· = slice buf off n) := by
  rw [loadAt, if_pos hle]
  exact agree_pure rfl

theorem agree_storeAt {buf bytes : List UInt8} {off : ℕ} (hle : off + bytes.length ≤ buf.length) :
    Agree (storeAt buf off bytes : HeapM ρ _) (storeAt buf off bytes)
      (· = patch buf off bytes) := by
  rw [storeAt, if_pos hle]
  exact agree_pure rfl

theorem undefined_storeAt {buf bytes : List UInt8} {off : ℕ} {h : Heap ρ}
    (hlt : buf.length < off + bytes.length) : Undefined (storeAt buf off bytes) h := by
  rw [storeAt, if_neg (Nat.not_le.mpr hlt)]
  rfl

theorem runs_storeAt {buf bytes buf' : List UInt8} {off : ℕ} {h h' : Heap ρ}
    (hr : Runs (storeAt buf off bytes) h buf' h') :
    off + bytes.length ≤ buf.length ∧ buf' = patch buf off bytes := by
  by_cases hle : off + bytes.length ≤ buf.length
  · rw [storeAt, if_pos hle, runs_pure] at hr
    exact ⟨hle, hr.1.symm⟩
  · rw [storeAt, if_neg hle] at hr
    exact absurd hr not_runs_undefined

/-- Accesses leave the heap as it is. -/
theorem eq_of_runs_storeAt {buf bytes buf' : List UInt8} {off : ℕ} {h h' : Heap ρ}
    (hr : Runs (storeAt buf off bytes) h buf' h') : h' = h := by
  obtain ⟨hle, -⟩ := runs_storeAt hr
  rw [storeAt, if_pos hle, runs_pure] at hr
  exact hr.2.symm

theorem eq_of_runs_loadAt {buf bytes : List UInt8} {off n : ℕ} {h h' : Heap ρ}
    (hr : Runs (loadAt buf off n) h bytes h') : h' = h := by
  by_cases hle : off + n ≤ buf.length
  · rw [loadAt, if_pos hle, runs_pure] at hr
    exact hr.2.symm
  · rw [loadAt, if_neg hle] at hr
    exact absurd hr not_runs_undefined

end Stores

end Lilu
