import Lilu.Prelude.Loop

/-!
# Programs that change a state, or fail

A program of this kind takes a state, and returns a value and the next state. It fails where it does
what it must not, such as an access out of bounds, and where a loop runs out of fuel. That a program
ends says all three: it accesses nothing else, it terminates, and what it returns and leaves is as
it should be.

## Main definitions

* `Effect σ α`: the programs
* `Effect.ask`, `Effect.change`, `Effect.need`: reading the state, changing it, and failing
* `Effect.loop`: a loop whose turns are such programs
* `Effect.Ends p s Q`: total correctness

## Main results

* `Effect.ends_bind`: the rule for one program behind another
* `Effect.ends_loop`: the rule for a loop, by an invariant and a measure
-/

namespace Lilu

/-- A program: what it returns and the state that it leaves, or none if it fails. -/
def Effect (σ α : Type) := σ → Option (α × σ)

namespace Effect

variable {σ τ α β : Type} {p : Effect σ α} {f : α → Effect σ β} {s : σ} {a : α}
  {P : α → σ → Prop} {Q : β → σ → Prop}

instance instMonadEffect : Monad (Effect σ) where
  pure a := fun s => some (a, s)
  bind p f := fun s => (p s).bind fun r => f r.1 r.2

/-- A part of the state. -/
def ask (f : σ → α) : Effect σ α := fun s =>
  some (f s, s)

def change (f : σ → σ) : Effect σ Unit := fun s =>
  some ((), f s)

/-- Going on if the condition holds. -/
def need (c : Prop) [Decidable c] : Effect σ Unit := fun s =>
  if c then some ((), s) else none

/-- The program is run if the condition holds. -/
def onlyIf (c : Prop) [Decidable c] (p : Effect σ Unit) : Effect σ Unit :=
  if c then p else pure ()

def fail : Effect σ α := fun _ =>
  none

/-- **Total correctness**: from the state, the program does not fail, and what it returns and leaves
is as it should be. -/
def Ends (p : Effect σ α) (s : σ) (Q : α → σ → Prop) : Prop :=
  ∃ r, p s = some r ∧ Q r.1 r.2

@[simp] theorem ends_pure : Ends (pure a) s P ↔ P a s :=
  ⟨fun ⟨_, h, hP⟩ => by cases h; exact hP, fun h => ⟨_, rfl, h⟩⟩

@[simp] theorem ends_ask {g : σ → α} : Ends (ask g) s P ↔ P (g s) s :=
  ⟨fun ⟨_, h, hP⟩ => by cases h; exact hP, fun h => ⟨_, rfl, h⟩⟩

@[simp] theorem ends_change {g : σ → σ} {P : Unit → σ → Prop} :
    Ends (change g) s P ↔ P () (g s) :=
  ⟨fun ⟨_, h, hP⟩ => by cases h; exact hP, fun h => ⟨_, rfl, h⟩⟩

@[simp] theorem ends_need {c : Prop} [Decidable c] {P : Unit → σ → Prop} :
    Ends (need c) s P ↔ c ∧ P () s := by
  constructor
  · rintro ⟨r, h, hP⟩
    rw [need] at h
    split_ifs at h with hc
    cases h
    exact ⟨hc, hP⟩
  · rintro ⟨hc, hP⟩
    exact ⟨_, if_pos hc, hP⟩

/-- **One program behind another.** -/
theorem ends_bind : Ends (p >>= f) s Q ↔ Ends p s fun a s' => Ends (f a) s' Q := by
  constructor
  · rintro ⟨r, h, hQ⟩
    obtain ⟨q, hq, hr⟩ := Option.bind_eq_some_iff.mp h
    exact ⟨q, hq, r, hr, hQ⟩
  · rintro ⟨q, hq, r, hr, hQ⟩
    exact ⟨r, Option.bind_eq_some_iff.mpr ⟨q, hq, hr⟩, hQ⟩

theorem Ends.imp {P' : α → σ → Prop} (h : Ends p s P) (himp : ∀ a s', P a s' → P' a s') :
    Ends p s P' := by
  obtain ⟨r, hr, hP⟩ := h
  exact ⟨r, hr, himp _ _ hP⟩

theorem Ends.bind (h : Ends p s P) (hf : ∀ a s', P a s' → Ends (f a) s' Q) :
    Ends (p >>= f) s Q :=
  ends_bind.mpr (h.imp hf)

theorem ends_ite {c : Prop} [Decidable c] {q : Effect σ α} :
    Ends (if c then p else q) s P ↔ (c → Ends p s P) ∧ (¬ c → Ends q s P) := by
  split_ifs with hc
  · simp only [hc, true_imp_iff, not_true, false_imp_iff, and_true]
  · simp only [hc, false_imp_iff, not_false_eq_true, true_imp_iff, true_and]

theorem ends_onlyIf {c : Prop} [Decidable c] {p : Effect σ Unit} {P : Unit → σ → Prop} :
    Ends (onlyIf c p) s P ↔ (c → Ends p s P) ∧ (¬ c → P () s) := by
  rw [onlyIf, ends_ite, ends_pure]

/-! ## Loops -/

/-- At most `n` turns from `t`. -/
def loop (turn : τ → Effect σ (Turn τ β)) : ℕ → τ → Effect σ β
  | 0, _ => fail
  | n + 1, t => do
    match ← turn t with
    | .again t' => loop turn n t'
    | .leave b => pure b

/-- What a turn comes to: it goes round again, or the loop is left. -/
def Comes (again : τ → σ → Prop) (leave : β → σ → Prop) : Turn τ β → σ → Prop
  | .again t => again t
  | .leave b => leave b

/-- **A loop**: every turn keeps the invariant and decreases the measure, or leaves with what should
hold then. -/
theorem ends_loop {turn : τ → Effect σ (Turn τ β)} (Inv : τ → σ → Prop) (μ : τ → σ → ℕ)
    (hturn : ∀ t s, Inv t s →
      Ends (turn t) s (Comes (fun t' s' => Inv t' s' ∧ μ t' s' < μ t s) Q))
    {t : τ} {n : ℕ} (h : Inv t s) (hn : μ t s < n) : Ends (loop turn n t) s Q := by
  induction n generalizing t s with
  | zero => exact absurd hn (Nat.not_lt_zero _)
  | succ n ih =>
    refine (hturn t s h).bind fun r s' hr => ?_
    cases r with
    | again t' => exact ih hr.1 (by have := hr.2; omega)
    | leave b => exact ends_pure.mpr hr

end Effect

end Lilu
