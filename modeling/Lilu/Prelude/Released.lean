import Lilu.Prelude.Heap

/-!
# What a computation releases

The heap logs what each block holds when it is released. What a run adds to the log is said by a
property that all of these blocks have, together with one of the value that is returned; nothing is
said of a computation whose behaviour is undefined.

## Main definitions

* `Heap.Grew`: the blocks that were released between two heaps have a property
* `Releases`: so it is in every run of a computation
* `Violates`: it is not in any run

## Main results

* `releases_bind`, `Violates.bind`: the rules of sequence
* `releases_storeAt`, `releases_loadAt`: an access that is defined was inside of the buffer
-/

namespace Lilu

variable {ρ α β : Type} {P : ρ → Prop}

/-- The log has grown by blocks that have the property. -/
def Heap.Grew (P : ρ → Prop) (h h' : Heap ρ) : Prop :=
  ∃ bs, h'.released = h.released ++ bs ∧ ∀ b ∈ bs, P b

namespace Heap.Grew

variable {h h' h'' : Heap ρ}

theorem refl (h : Heap ρ) : Grew P h h :=
  ⟨[], (List.append_nil _).symm, by simp⟩

theorem of_eq (heq : h'.released = h.released) : Grew P h h' :=
  ⟨[], by rw [heq, List.append_nil], by simp⟩

theorem trans (hl : Grew P h h') (hr : Grew P h' h'') : Grew P h h'' := by
  obtain ⟨bs, hbs, hP⟩ := hl
  obtain ⟨cs, hcs, hQ⟩ := hr
  refine ⟨bs ++ cs, by rw [hcs, hbs, List.append_assoc], fun b hb => ?_⟩
  exact (List.mem_append.mp hb).elim (hP b) (hQ b)

theorem release {b : ρ} (hb : P b) (n : ℕ) : Grew P h ⟨n, h.released ++ [b]⟩ :=
  ⟨[b], rfl, by simpa using hb⟩

theorem mono {P' : ρ → Prop} (hg : Grew P h h') (hP : ∀ b, P b → P' b) : Grew P' h h' := by
  obtain ⟨bs, hbs, hall⟩ := hg
  exact ⟨bs, hbs, fun b hb => hP b (hall b hb)⟩

/-- What was released at first has the property. -/
theorem front (hg : Grew P h h'') (hl : Grew (fun _ => True) h h')
    (hr : Grew (fun _ => True) h' h'') : Grew P h h' := by
  obtain ⟨bs, hbs, hP⟩ := hg
  obtain ⟨as, has, -⟩ := hl
  obtain ⟨cs, hcs, -⟩ := hr
  refine ⟨as, has, fun b hb => hP b ?_⟩
  rw [hcs, has, List.append_assoc] at hbs
  rw [← List.append_cancel_left hbs]
  exact List.mem_append_left _ hb

end Heap.Grew

/-- In every run the released blocks have a property, and so has what is returned. -/
def Releases (P : ρ → Prop) (m : HeapM ρ α) (Q : α → Prop) : Prop :=
  ∀ ⦃h : Heap ρ⦄ ⦃a : α⦄ ⦃h' : Heap ρ⦄, Runs m h a h' → h.Grew P h' ∧ Q a

variable {m : HeapM ρ α} {Q Q' : α → Prop}

theorem releases_pure {a : α} (hQ : Q a) : Releases P (pure a) Q := by
  intro h b h' hrun
  obtain ⟨rfl, rfl⟩ := runs_pure.mp hrun
  exact ⟨.refl h, hQ⟩

theorem releases_undefined : Releases P (undefined : HeapM ρ α) Q :=
  fun _ _ _ hrun => absurd hrun not_runs_undefined

/-- **The rule of sequence**. -/
theorem releases_bind {f : α → HeapM ρ β} {R : β → Prop} (hm : Releases P m Q)
    (hf : ∀ a, Q a → Releases P (f a) R) : Releases P (m >>= f) R := by
  intro h b h'' hrun
  obtain ⟨a, h', hrun₁, hrun₂⟩ := runs_bind.mp hrun
  obtain ⟨hgrew₁, ha⟩ := hm hrun₁
  obtain ⟨hgrew₂, hb⟩ := hf a ha hrun₂
  exact ⟨hgrew₁.trans hgrew₂, hb⟩

theorem Releases.mono (hm : Releases P m Q) (hQ : ∀ a, Q a → Q' a) : Releases P m Q' :=
  fun _ a _ hrun => ⟨(hm hrun).1, hQ a (hm hrun).2⟩

theorem releases_release {b : ρ} (hb : P b) : Releases P (release b) fun _ => True := by
  intro h u h' hrun
  have hlog : Ensures (release b) h fun _ h' => h.Grew P h' :=
    ensures_release.mpr (.release hb _)
  exact ⟨hlog.of_runs hrun, trivial⟩

theorem releases_request (A : Allocator) (n : ℕ) :
    Releases P (A.request n) fun answer => ∀ fresh, answer = some fresh → fresh.length = n := by
  intro h answer h' hrun
  have hlog : Ensures (A.request n) h fun answer h' =>
      h.Grew P h' ∧ ∀ fresh, answer = some fresh → fresh.length = n :=
    A.ensures_request.mpr ⟨.of_eq rfl, fun fresh hfresh => A.length_answer hfresh⟩
  exact hlog.of_runs hrun

theorem releases_storeAt (buf : List UInt8) (off : ℕ) (bytes : List UInt8) :
    Releases P (storeAt buf off bytes) fun buf' =>
      off + bytes.length ≤ buf.length ∧ buf' = patch buf off bytes := by
  by_cases hle : off + bytes.length ≤ buf.length
  · rw [storeAt, if_pos hle]
    exact releases_pure ⟨hle, rfl⟩
  · rw [storeAt, if_neg hle]
    exact releases_undefined

theorem releases_loadAt (buf : List UInt8) (off n : ℕ) :
    Releases P (loadAt buf off n) fun bytes => off + n ≤ buf.length ∧ bytes = slice buf off n := by
  by_cases hle : off + n ≤ buf.length
  · rw [loadAt, if_pos hle]
    exact releases_pure ⟨hle, rfl⟩
  · rw [loadAt, if_neg hle]
    exact releases_undefined

/-- A choice releases what both of its branches may release. -/
theorem releases_ite {c : Prop} [Decidable c] {m' : HeapM ρ α} (hm : c → Releases P m Q)
    (hm' : ¬ c → Releases P m' Q) : Releases P (if c then m else m') Q := by
  split_ifs with hc
  · exact hm hc
  · exact hm' hc

/-- Nothing is said of the blocks. -/
theorem Releases.log (hm : Releases P m Q) : Releases (fun _ => True) m fun _ => True :=
  fun _ _ _ hrun => ⟨(hm hrun).1.mono fun _ _ => trivial, trivial⟩

/-- Every run from a heap on releases a block that does not have the property. -/
def Violates (P : ρ → Prop) (m : HeapM ρ α) (h : Heap ρ) : Prop :=
  ∀ ⦃a : α⦄ ⦃h' : Heap ρ⦄, Runs m h a h' → ¬ h.Grew P h'

variable {f : α → HeapM ρ β} {h : Heap ρ}

/-- What was released is not taken back. -/
theorem Violates.bind (hm : Violates P m h) (hlog : Releases (fun _ => True) m fun _ => True)
    (hf : ∀ a, Releases (fun _ => True) (f a) fun _ => True) : Violates P (m >>= f) h := by
  intro b h'' hrun hgrew
  obtain ⟨a, h', hrun₁, hrun₂⟩ := runs_bind.mp hrun
  exact hm hrun₁ (hgrew.front (hlog hrun₁).1 (hf a hrun₂).1)

/-- The first part releases nothing, and the second part does not keep to the property. -/
theorem violates_bind (hm : ∀ a h', Runs m h a h' →
    h'.released = h.released ∧ Violates P (f a) h') : Violates P (m >>= f) h := by
  intro b h'' hrun hgrew
  obtain ⟨a, h', hrun₁, hrun₂⟩ := runs_bind.mp hrun
  obtain ⟨hsame, hrest⟩ := hm a h' hrun₁
  apply hrest hrun₂
  obtain ⟨bs, hbs, hP⟩ := hgrew
  exact ⟨bs, by rw [hbs, hsame], hP⟩

theorem violates_release {b : ρ} (hb : ¬ P b) : Violates P (release b) h := by
  intro u h' hrun hgrew
  have hlog : Ensures (release b) h fun _ h' => h'.released = h.released ++ [b] :=
    ensures_release.mpr rfl
  obtain ⟨bs, hbs, hP⟩ := hgrew
  rw [hlog.of_runs hrun] at hbs
  exact hb (hP b (List.append_cancel_left hbs ▸ List.mem_singleton_self b))

end Lilu
