import Mathlib.Tactic

/-!
# Loops with a break

A `for (;;)` loop is a function from the loop's state to its next turn: either another state or
the value the loop is left with. Running it with fuel gives `none` only when the fuel is gone, so
total correctness is an invariant with a measure that every pass decreases. A loop that follows a
chain, where each place has one successor at most, ends where the chain does.

## Main definitions

* `Turn σ β`: what one pass through the loop's body does
* `loop turn n s`: at most `n` passes from the state `s`
* `tryLoop turn n s`: the same with passes that may fail
* `ComesTo turn s t`: a loop that starts in `s` comes to `t`
* `ComesAt f s l a t`, `FoldsAt f s l a t`: a loop over the list `l` comes to its element `a` with
  the state `t`
* `chain next a n`: where `n` steps lead

## Main results

* `loop_spec`: an invariant and a measure of the body make every run end in the postcondition
* `tryLoop_eq`: where no pass fails, it makes no difference that it may
* `loop_partial`, `foldlM_partial`: an invariant holds in the end of a loop that ends
* `foldlM_ends`, `foldlM_ends_iff`: a loop over a list ends if its turns do, or those that it
  comes to
* `foldl_change`: what a fold changes, some step changes first
* `loop_ends_iff_chain`: a loop that follows a chain ends if and only if the chain does
* `chain_ends_iff`: a chain of finitely many places ends if and only if none comes twice
-/

namespace Lilu

variable {σ β : Type*}

/-- One pass through a loop's body: go round again from a new state, or leave with a value. -/
inductive Turn (σ β : Type*) where
  | again (s : σ)
  | leave (b : β)

/-- At most `n` passes of the body `turn` from `s`; `none` when the fuel runs out first. -/
def loop (turn : σ → Turn σ β) : ℕ → σ → Option β
  | 0, _ => none
  | n + 1, s =>
    match turn s with
    | .again s' => loop turn n s'
    | .leave b => some b

theorem loop_succ_again {turn : σ → Turn σ β} {s s' : σ} (h : turn s = .again s') (n : ℕ) :
    loop turn (n + 1) s = loop turn n s' := by
  simp [loop, h]

theorem loop_succ_leave {turn : σ → Turn σ β} {s : σ} {b : β} (h : turn s = .leave b) (n : ℕ) :
    loop turn (n + 1) s = some b := by
  simp [loop, h]

/-- How much fuel there is does not matter where a loop ends. -/
theorem loop_unique {turn : σ → Turn σ β} {s : σ} {n n' : ℕ} {b b' : β} (h : loop turn n s = some b)
    (h' : loop turn n' s = some b') : b = b' := by
  induction n generalizing s n' with
  | zero => cases h
  | succ n ih =>
    cases n' with
    | zero => cases h'
    | succ n' =>
      cases ht : turn s with
      | again s' =>
        rw [loop_succ_again ht] at h h'
        exact ih h h'
      | leave c =>
        rw [loop_succ_leave ht] at h h'
        exact Option.some.inj (h.symm.trans h')

/-- More fuel does no harm. -/
theorem loop_mono {turn : σ → Turn σ β} {s : σ} {n n' : ℕ} {b : β} (h : loop turn n s = some b)
    (hle : n ≤ n') : loop turn n' s = some b := by
  induction n generalizing s n' with
  | zero => cases h
  | succ n ih =>
    obtain ⟨m, rfl⟩ := Nat.exists_eq_add_of_le' (Nat.one_le_of_lt hle)
    cases ht : turn s with
    | again s' =>
      rw [loop_succ_again ht] at h ⊢
      exact ih h (Nat.le_of_succ_le_succ hle)
    | leave c =>
      rw [loop_succ_leave ht] at h ⊢
      exact h

/-- **Total correctness**: if every pass from a state of the invariant keeps it and decreases the
measure, or leaves with a value of the postcondition, then a run with more fuel than the measure
ends, and in such a value. -/
theorem loop_spec (turn : σ → Turn σ β) (Inv : σ → Prop) (Post : β → Prop) (μ : σ → ℕ)
    (hagain : ∀ s s', Inv s → turn s = .again s' → Inv s' ∧ μ s' < μ s)
    (hleave : ∀ s b, Inv s → turn s = .leave b → Post b) :
    ∀ {n : ℕ} {s : σ}, Inv s → μ s < n → ∃ b, loop turn n s = some b ∧ Post b := by
  intro n
  induction n with
  | zero => intro s _ h; exact absurd h (Nat.not_lt_zero _)
  | succ n ih =>
    intro s hs hμ
    cases ht : turn s with
    | again s' =>
      obtain ⟨hs', hlt⟩ := hagain s s' hs ht
      rw [loop_succ_again ht]
      exact ih hs' (by omega)
    | leave b => exact ⟨b, loop_succ_leave ht n, hleave s b hs ht⟩

/-- **Partial correctness**: an invariant of the body that gives the postcondition where the loop is
left gives it whenever the loop ends. -/
theorem loop_partial {turn : σ → Turn σ β} (Inv : σ → Prop) {Post : β → Prop}
    (hagain : ∀ s s', Inv s → turn s = .again s' → Inv s')
    (hleave : ∀ s b, Inv s → turn s = .leave b → Post b) :
    ∀ {n : ℕ} {s : σ} {b : β}, Inv s → loop turn n s = some b → Post b := by
  intro n
  induction n with
  | zero =>
    intro s b _ hb
    cases hb
  | succ n ih =>
    intro s b hs hb
    cases ht : turn s with
    | again s' =>
      rw [loop_succ_again ht] at hb
      exact ih (hagain s s' hs ht) hb
    | leave b' =>
      rw [loop_succ_leave ht] at hb
      obtain rfl := Option.some.inj hb
      exact hleave s b' hs ht

/-- A loop over a list that may not end: an invariant of the state and of what is left of the list
holds in the end. -/
theorem foldlM_partial {α : Type*} {f : σ → α → Option σ} (Inv : List α → σ → Prop)
    (hstep : ∀ a l s s', Inv (a :: l) s → f s a = some s' → Inv l s') :
    ∀ {l : List α} {s s' : σ}, Inv l s → l.foldlM f s = some s' → Inv [] s' := by
  intro l
  induction l with
  | nil =>
    intro s s' hs h
    obtain rfl := Option.some.inj h
    exact hs
  | cons a l ih =>
    intro s s' hs h
    rw [List.foldlM_cons] at h
    obtain ⟨s₁, hs₁, h⟩ := Option.bind_eq_some_iff.mp h
    exact ih (hstep a l s s₁ hs hs₁) h

/-- A loop over a list ends if each of its turns does, with enough fuel. -/
theorem foldlM_ends {α : Type*} {f : ℕ → σ → α → Option σ} {l : List α}
    (h : ∀ a ∈ l, ∃ n, ∀ fuel, n ≤ fuel → ∀ s, ∃ s', f fuel s a = some s') :
    ∃ n, ∀ fuel, n ≤ fuel → ∀ s, ∃ s', l.foldlM (f fuel) s = some s' := by
  induction l with
  | nil => exact ⟨0, fun _ _ s => ⟨s, rfl⟩⟩
  | cons a l ih =>
    obtain ⟨n, hn⟩ := h a List.mem_cons_self
    obtain ⟨m, hm⟩ := ih fun b hb => h b (List.mem_cons_of_mem a hb)
    refine ⟨max n m, fun fuel hle s => ?_⟩
    obtain ⟨s', hs'⟩ := hn fuel ((le_max_left n m).trans hle) s
    obtain ⟨s'', hs''⟩ := hm fuel ((le_max_right n m).trans hle) s'
    refine ⟨s'', ?_⟩
    rw [List.foldlM_cons, hs']
    exact hs''

/-- An invariant that every pass keeps, and that never leaves, is a loop that does not end. -/
theorem loop_never {turn : σ → Turn σ β} (Inv : σ → Prop)
    (hagain : ∀ s, Inv s → ∃ s', turn s = .again s' ∧ Inv s') :
    ∀ {n : ℕ} {s : σ}, Inv s → loop turn n s = none := by
  intro n
  induction n with
  | zero => exact fun _ => rfl
  | succ n ih =>
    intro s hs
    obtain ⟨s', ht, hs'⟩ := hagain s hs
    rw [loop_succ_again ht]
    exact ih hs'

/-- A loop ends if there is a measure of its state and of something that is related to it. -/
theorem loop_ends {γ : Type*} {turn : σ → Turn σ β} (R : σ → γ → Prop) (μ : σ → γ → ℕ)
    (hagain : ∀ s g s', R s g → turn s = .again s' → ∃ g', R s' g' ∧ μ s' g' < μ s g) :
    ∀ {n : ℕ} {s : σ} {g : γ}, R s g → μ s g < n → ∃ b, loop turn n s = some b := by
  intro n
  induction n with
  | zero => exact fun _ h => absurd h (Nat.not_lt_zero _)
  | succ n ih =>
    intro s g hs hμ
    cases ht : turn s with
    | again s' =>
      obtain ⟨g', hs', hlt⟩ := hagain s g s' hs ht
      rw [loop_succ_again ht]
      exact ih hs' (by omega)
    | leave b => exact ⟨b, loop_succ_leave ht n⟩

/-- At most `n` passes of a body that may fail; `none` when one does, or when the fuel runs out. -/
def tryLoop (turn : σ → Option (Turn σ β)) : ℕ → σ → Option β
  | 0, _ => none
  | n + 1, s => (turn s).bind fun
    | .again s' => tryLoop turn n s'
    | .leave b => some b

/-- **Passes that may fail but do not**: where the body does not fail from the states of an
invariant, the loop is the one that cannot. -/
theorem tryLoop_eq {turn : σ → Turn σ β} {turn' : σ → Option (Turn σ β)} (Inv : σ → Prop)
    (hturn : ∀ s, Inv s → turn' s = some (turn s))
    (hagain : ∀ s s', Inv s → turn s = .again s' → Inv s') :
    ∀ {n : ℕ} {s : σ}, Inv s → tryLoop turn' n s = loop turn n s := by
  intro n
  induction n with
  | zero => exact fun _ => rfl
  | succ n ih =>
    intro s hs
    rw [tryLoop, hturn s hs, Option.bind_some, loop]
    cases ht : turn s with
    | again s' => exact ih (hagain s s' hs ht)
    | leave b => rfl

/-! ## Where a loop comes -/

/-- The states before the passes of a loop. -/
inductive ComesTo (turn : σ → Turn σ β) (s : σ) : σ → Prop
  | start : ComesTo turn s s
  | again {t t' : σ} (h : ComesTo turn s t) (ht : turn t = .again t') : ComesTo turn s t'

theorem ComesTo.trans {turn : σ → Turn σ β} {s t u : σ} (h : ComesTo turn s t)
    (h' : ComesTo turn t u) : ComesTo turn s u := by
  induction h' with
  | start => exact h
  | again _ ht ih => exact ih.again ht

/-- What comes after the first pass. -/
theorem ComesTo.of_again {turn : σ → Turn σ β} {s s' t : σ} (hs : turn s = .again s')
    (h : ComesTo turn s' t) : ComesTo turn s t :=
  (ComesTo.again .start hs).trans h

theorem ComesTo.invariant {turn : σ → Turn σ β} {s t : σ} (h : ComesTo turn s t) (Inv : σ → Prop)
    (hagain : ∀ s s', Inv s → turn s = .again s' → Inv s') (hs : Inv s) : Inv t := by
  induction h with
  | start => exact hs
  | again _ ht ih => exact hagain _ _ ih ht

/-- A loop ends in a value if and only if it does from any state that it comes to. -/
theorem ComesTo.loop_iff {turn : σ → Turn σ β} {s t : σ} (h : ComesTo turn s t) {b : β} :
    (∃ n, loop turn n s = some b) ↔ ∃ n, loop turn n t = some b := by
  induction h with
  | start => rfl
  | again _ ht ih =>
    rw [ih]
    constructor
    · rintro ⟨n, hb⟩
      cases n with
      | zero => cases hb
      | succ n => exact ⟨n, (loop_succ_again ht n).symm.trans hb⟩
    · rintro ⟨n, hb⟩
      exact ⟨n + 1, (loop_succ_again ht n).trans hb⟩

theorem ComesTo.ends_iff {turn : σ → Turn σ β} {s t : σ} (h : ComesTo turn s t) :
    (∃ n b, loop turn n s = some b) ↔ ∃ n b, loop turn n t = some b := by
  rw [exists_comm, exists_congr fun b => h.loop_iff, exists_comm]

/-! ## Where a loop over a list comes -/

section List

variable {α : Type*} {f : σ → α → Option σ} {l : List α} {a : α} {s t : σ}

/-- A loop over a list comes to an element with a state. -/
def ComesAt (f : σ → α → Option σ) (s : σ) (l : List α) (a : α) (t : σ) : Prop :=
  ∃ before behind, l = before ++ a :: behind ∧ before.foldlM f s = some t

/-- An invariant of the state and of what is left of the list holds where the loop comes. -/
theorem ComesAt.invariant (h : ComesAt f s l a t) (Inv : List α → σ → Prop)
    (hstep : ∀ a l s s', Inv (a :: l) s → f s a = some s' → Inv l s') (hs : Inv l s) :
    ∃ behind, Inv (a :: behind) t := by
  obtain ⟨before, behind, rfl, hbefore⟩ := h
  refine ⟨behind, ?_⟩
  have hend := foldlM_partial (fun l s => Inv (l ++ a :: behind) s)
    (fun b l s s' hs hrun => hstep b _ s s' hs hrun) hs hbefore
  exact hend

/-- A loop over a list that ends comes to all of its elements. -/
theorem exists_comesAt (h : l.foldlM f s = some t) (ha : a ∈ l) :
    ∃ u u', ComesAt f s l a u ∧ f u a = some u' := by
  obtain ⟨before, behind, rfl⟩ := List.append_of_mem ha
  rw [List.foldlM_append] at h
  obtain ⟨u, hu, h⟩ := Option.bind_eq_some_iff.mp h
  rw [List.foldlM_cons] at h
  obtain ⟨u', hu', -⟩ := Option.bind_eq_some_iff.mp h
  exact ⟨u, u', ⟨before, behind, rfl, hu⟩, hu'⟩

variable {g : ℕ → σ → α → Option σ}

/-- More fuel does a loop over a list no harm if it does its turns none. -/
theorem foldlM_mono (hmono : ∀ n n' s a s', n ≤ n' → g n s a = some s' → g n' s a = some s')
    {n n' : ℕ} (hle : n ≤ n') (h : l.foldlM (g n) s = some t) : l.foldlM (g n') s = some t := by
  induction l generalizing s with
  | nil => exact h
  | cons a l ih =>
    rw [List.foldlM_cons] at h ⊢
    obtain ⟨s', hs', h⟩ := Option.bind_eq_some_iff.mp h
    rw [hmono n n' s a s' hle hs']
    exact ih h

/-- **A loop over a list** ends if and only if the turns do that it comes to. -/
theorem foldlM_ends_iff
    (hmono : ∀ n n' s a s', n ≤ n' → g n s a = some s' → g n' s a = some s') :
    (∃ n t, l.foldlM (g n) s = some t) ↔
      ∀ n a t, ComesAt (g n) s l a t → ∃ n' t', g n' t a = some t' := by
  constructor
  · rintro ⟨n, t, hrun⟩ m a u ⟨before, behind, rfl, hbefore⟩
    -- with fuel for both, the run that ends passes through the state
    have hboth := foldlM_mono hmono (le_max_left n m) hrun
    rw [List.foldlM_append, foldlM_mono hmono (le_max_right n m) hbefore, Option.bind_eq_bind,
      Option.bind_some, List.foldlM_cons] at hboth
    obtain ⟨u', hu', -⟩ := Option.bind_eq_some_iff.mp hboth
    exact ⟨_, u', hu'⟩
  · intro h
    induction l generalizing s with
    | nil => exact ⟨0, s, rfl⟩
    | cons a l ih =>
      obtain ⟨n, s', hs'⟩ := h 0 a s ⟨[], l, rfl, rfl⟩
      obtain ⟨m, t, ht⟩ := ih fun m b u hcomes => by
        obtain ⟨before, behind, rfl, hbefore⟩ := hcomes
        refine h (max n m) b u ⟨a :: before, behind, rfl, ?_⟩
        rw [List.foldlM_cons, hmono n _ s a s' (le_max_left n m) hs']
        exact foldlM_mono hmono (le_max_right n m) hbefore
      refine ⟨max n m, t, ?_⟩
      rw [List.foldlM_cons, hmono n _ s a s' (le_max_left n m) hs']
      exact foldlM_mono hmono (le_max_right n m) ht

end List

/-! ## Where a fold changes -/

section Fold

variable {α : Type*} {f : σ → α → σ} {l : List α} {a : α} {s t : σ}

/-- A fold over a list comes to an element with a state. -/
def FoldsAt (f : σ → α → σ) (s : σ) (l : List α) (a : α) (t : σ) : Prop :=
  ∃ before behind, l = before ++ a :: behind ∧ before.foldl f s = t

/-- What every step keeps, a fold keeps. -/
theorem foldl_keeps {P : σ → Prop} (hstep : ∀ s a, P s → P (f s a)) (h : P s) :
    P (l.foldl f s) := by
  induction l generalizing s with
  | nil => exact h
  | cons a l ih => exact ih (hstep s a h)

theorem FoldsAt.before {P : σ → Prop} (h : FoldsAt f s l a t) (hstep : ∀ s a, P s → P (f s a))
    (hs : P s) : P t := by
  obtain ⟨before, behind, rfl, rfl⟩ := h
  exact foldl_keeps hstep hs

theorem FoldsAt.behind {P : σ → Prop} (h : FoldsAt f s l a t) (hstep : ∀ s a, P s → P (f s a))
    (ht : P (f t a)) : P (l.foldl f s) := by
  obtain ⟨before, behind, rfl, rfl⟩ := h
  rw [List.foldl_append]
  exact foldl_keeps (l := behind) hstep ht

/-- **What a fold changes, some step changes**, and the first such step finds it as it was. -/
theorem foldl_change {g : σ → β} (h : g (l.foldl f s) ≠ g s) :
    ∃ a t, FoldsAt f s l a t ∧ g t = g s ∧ g (f t a) ≠ g s := by
  induction l using List.reverseRecOn with
  | nil => exact absurd rfl h
  | append_singleton l a ih =>
    by_cases hl : g (l.foldl f s) = g s
    · refine ⟨a, _, ⟨l, [], rfl, rfl⟩, hl, ?_⟩
      rwa [List.foldl_append] at h
    · obtain ⟨b, t, ⟨before, behind, rfl, hbefore⟩, ht, hb⟩ := ih hl
      refine ⟨b, t, ⟨before, behind ++ [a], ?_, hbefore⟩, ht, hb⟩
      rw [List.append_assoc, List.cons_append]

end Fold

/-! ## Chains -/

section Chain

variable {α : Type*} {next : α → Option α} {a : Option α} {m n : ℕ}

/-- Where `n` steps lead. -/
def chain (next : α → Option α) (a : Option α) : ℕ → Option α
  | 0 => a
  | n + 1 => (chain next a n).bind next

theorem chain_succ_start : chain next a (n + 1) = chain next (a.bind next) n := by
  induction n with
  | zero => rfl
  | succ n ih => rw [chain, ih, chain]

/-- A chain that has ended stays so. -/
theorem chain_of_le (h : chain next a n = none) (hle : n ≤ m) : chain next a m = none := by
  induction m, hle using Nat.le_induction with
  | base => exact h
  | succ m _ ih => rw [chain, ih, Option.bind_none]

/-- Where a place comes twice, everything behind it does. -/
theorem chain_add {i j : ℕ} (h : chain next a i = chain next a j) (k : ℕ) :
    chain next a (i + k) = chain next a (j + k) := by
  induction k with
  | zero => exact h
  | succ k ih => rw [← Nat.add_assoc, ← Nat.add_assoc, chain, chain, ih]

/-- **Chains of finitely many places**: they end if and only if no place comes twice. -/
theorem chain_ends_iff [Finite α] : (∃ n, chain next a n = none) ↔
    ∀ i j x, chain next a i = some x → chain next a j = some x → i = j := by
  constructor
  · rintro ⟨n, hn⟩
    have hlt : ∀ i j x, i < j → chain next a i = some x → chain next a j ≠ some x := by
      intro i j x hij hi hj
      have hsame : chain next a i = chain next a (i + (j - i)) := by
        rw [Nat.add_sub_cancel' hij.le, hi, hj]
      -- the place comes again and again, also behind the end
      have hagain : ∀ k, chain next a (i + (j - i) * k) = some x := by
        intro k
        induction k with
        | zero => exact hi
        | succ k ih => rw [Nat.mul_succ, Nat.add_comm _ (j - i), ← Nat.add_assoc,
            ← chain_add hsame, ih]
      have hbehind : n ≤ i + (j - i) * n :=
        le_add_left (Nat.le_mul_of_pos_left n (Nat.sub_pos_of_lt hij))
      exact absurd ((hagain n).symm.trans (chain_of_le hn hbehind)) (by simp)
    intro i j x hi hj
    rcases Nat.lt_trichotomy i j with hij | hij | hij
    · exact absurd hj (hlt i j x hij hi)
    · exact hij
    · exact absurd hi (hlt j i x hij hj)
  · intro h
    by_contra hno
    have hsome : ∀ n, ∃ x, chain next a n = some x := fun n =>
      Option.ne_none_iff_exists'.mp fun hn => hno ⟨n, hn⟩
    choose place hplace using hsome
    obtain ⟨i, j, hne, heq⟩ := Finite.exists_ne_map_eq_of_infinite place
    exact hne (h i j _ (hplace i) (heq ▸ hplace j))

/-- **Following a chain**: if a pass goes round again where the chain goes on, and leaves where it
ends, then the loop ends if and only if the chain does. -/
theorem loop_ends_iff_chain {turn : σ → Turn σ β} (R : σ → α → Prop)
    (hnext : ∀ s x x', R s x → next x = some x' → ∃ s', turn s = .again s' ∧ R s' x')
    (hend : ∀ s x, R s x → next x = none → ∃ b, turn s = .leave b) {s : σ} {x : α} (hs : R s x) :
    (∃ n b, loop turn n s = some b) ↔ ∃ n, chain next (some x) n = none := by
  constructor
  · rintro ⟨n, b, h⟩
    induction n generalizing s x with
    | zero => cases h
    | succ n ih =>
      cases hx : next x with
      | none => exact ⟨1, hx⟩
      | some x' =>
        obtain ⟨s', ht, hs'⟩ := hnext s x x' hs hx
        rw [loop_succ_again ht] at h
        obtain ⟨m, hm⟩ := ih hs' h
        refine ⟨m + 1, ?_⟩
        rw [chain_succ_start, Option.bind_some, hx]
        exact hm
  · rintro ⟨n, h⟩
    induction n generalizing s x with
    | zero => cases h
    | succ n ih =>
      rw [chain_succ_start, Option.bind_some] at h
      cases hx : next x with
      | none =>
        obtain ⟨b, ht⟩ := hend s x hs hx
        exact ⟨1, b, loop_succ_leave ht 0⟩
      | some x' =>
        obtain ⟨s', ht, hs'⟩ := hnext s x x' hs hx
        rw [hx] at h
        obtain ⟨m, b, hm⟩ := ih hs' h
        exact ⟨m + 1, b, (loop_succ_again ht m).trans hm⟩

end Chain

end Lilu
