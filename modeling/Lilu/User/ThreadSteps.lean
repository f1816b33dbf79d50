import Lilu.User.ThreadLocal

/-!
# Thread-specific storage, one access at a time

Each load, each compare-exchange and each store of a value is a step of its own, and the steps of the
threads follow each other in any order. A thread scans the slots while other threads claim and
release theirs. It finds its own slot nevertheless, since only its own steps change that.

## Main definitions

* `Place`: where a thread is inside of an operation
* `turn`: the next step of a thread
* `Step`, `Reachable`: the steps of all threads
* `stored`: what a thread's operations have stored so far

## Main results

* `turn_spec`, `Inv.step`: what each step keeps
* `reachable_spec`: what holds in every reachable state
* `alone_start`: an operation that is not interrupted is a single step
-/

namespace Lilu.ThreadLocal

open Function

variable {T V : Type*} {N : ℕ}

/-- The operations. -/
inductive Op (V : Type*) where
  | set (value : V)
  | get
  | erase

/-- What they return: `get` returns a pointer to the value of a slot. -/
inductive Reply (V : Type*) (N : ℕ) where
  | set (value : V) (ok : Bool)
  | get (ptr : Option (Fin N))
  | erase (ok : Bool)

/-- Where a thread is: before an access to the slot `i` of a loop, or to a slot that was found. -/
inductive Place (V : Type*) (N : ℕ) where
  | setFind (value : V) (i : ℕ)
  | setClaim (value : V) (i : ℕ)
  | setStore (value : V) (ptr : Fin N)
  | getFind (i : ℕ)
  | eraseFind (i : ℕ)
  | eraseClear (i : Fin N)
  | eraseRelease (i : Fin N)

/-- Where an operation begins. -/
def Op.start : Op V → Place V N
  | .set value => .setFind value 0
  | .get => .getFind 0
  | .erase => .eraseFind 0

section Code

variable [DecidableEq T]

/-- The next step of the thread `t`: the slots afterwards, and where it is then, or what the
operation returns. -/
def turn (s : ThreadLocal T V N) (t : T) : Place V N → ThreadLocal T V N × (Place V N ⊕ Reply V N)
  | .setFind value i =>
    if h : i < N then
      if s.threads ⟨i, h⟩ = some t then (s, .inl (.setStore value ⟨i, h⟩))
      else (s, .inl (.setFind value (i + 1)))
    else (s, .inl (.setClaim value 0))
  | .setClaim value i =>
    if h : i < N then
      if s.threads ⟨i, h⟩ = none then
        ({ s with threads := update s.threads ⟨i, h⟩ (some t) }, .inl (.setStore value ⟨i, h⟩))
      else (s, .inl (.setClaim value (i + 1)))
    else (s, .inr (.set value false))
  | .setStore value i => ({ s with values := update s.values i (some value) }, .inr (.set value true))
  | .getFind i =>
    if h : i < N then
      if s.threads ⟨i, h⟩ = some t then (s, .inr (.get (some ⟨i, h⟩)))
      else (s, .inl (.getFind (i + 1)))
    else (s, .inr (.get none))
  | .eraseFind i =>
    if h : i < N then
      if s.threads ⟨i, h⟩ = some t then (s, .inl (.eraseClear ⟨i, h⟩))
      else (s, .inl (.eraseFind (i + 1)))
    else (s, .inr (.erase false))
  | .eraseClear i => ({ s with values := update s.values i none }, .inl (.eraseRelease i))
  | .eraseRelease i =>
    if s.threads i = some t then ({ s with threads := update s.threads i none }, .inr (.erase true))
    else (s, .inr (.erase false))

/-- The slots, where each thread is if it is inside of an operation, and what was returned. -/
structure System (T V : Type*) (N : ℕ) where
  slots : ThreadLocal T V N := .empty
  place : T → Option (Place V N) := fun _ => none
  replies : List (T × Reply V N) := []

/-- The thread `t` makes the step that is due at a place. -/
def System.advance (s : System T V N) (t : T) (p : Place V N) : System T V N :=
  match turn s.slots t p with
  | (slots, .inl p') => { s with slots, place := update s.place t (some p') }
  | (slots, .inr r) =>
    ⟨slots, update s.place t none, s.replies ++ [(t, r)]⟩

/-- A thread that is not inside of an operation begins one, or one that is makes its next step. -/
inductive Step : System T V N → System T V N → Prop
  | call {s t} (op : Op V) (h : s.place t = none) :
      Step s { s with place := update s.place t (some op.start) }
  | advance {s t p} (h : s.place t = some p) : Step s (s.advance t p)

/-- The states that any order of steps leads to. -/
def Reachable (s : System T V N) : Prop :=
  Relation.ReflTransGen Step {} s

/-- What is stored after an operation: an operation that fails changes nothing. -/
def Reply.after (value : Option V) : Reply V N → Option V
  | .set v true => some v
  | .erase true => none
  | _ => value

/-- What the last successful operation of a thread has stored; an erasure has stored nothing. -/
def stored (replies : List (T × Reply V N)) (t : T) : Option V :=
  replies.foldl (fun value r => if r.1 = t then r.2.after value else value) none

theorem stored_concat (replies : List (T × Reply V N)) (t u : T) (r : Reply V N) :
    stored (replies ++ [(t, r)]) u =
      if t = u then r.after (stored replies u) else stored replies u := by
  rw [stored, List.foldl_append]
  rfl

end Code

/-! ## The invariant -/

/-- No slot is the thread's. -/
def Without (s : ThreadLocal T V N) (t : T) : Prop :=
  ∀ i, s.threads i ≠ some t

/-- The thread has a slot with the value, or none if there is no value. -/
def Keeps (s : ThreadLocal T V N) (t : T) : Option V → Prop
  | none => s.Without t
  | some v => ∃ i, s.threads i = some t ∧ s.values i = some v

/-- No slot before the one at `k` is the thread's. -/
def Passed (s : ThreadLocal T V N) (t : T) (k : ℕ) : Prop :=
  ∀ i : Fin N, i < k → s.threads i ≠ some t

/-- What holds of a thread that has stored a value, at each place: a thread that looks for its slot
has kept the value, one that claims a slot has none, and otherwise the slot is its own. -/
def Holds (s : ThreadLocal T V N) (t : T) (value : Option V) : Option (Place V N) → Prop
  | none => s.Keeps t value
  | some (.setFind _ k) => s.Keeps t value ∧ s.Passed t k
  | some (.setClaim _ _) => value = none ∧ s.Without t
  | some (.setStore _ i) => s.threads i = some t
  | some (.getFind k) => s.Keeps t value ∧ s.Passed t k
  | some (.eraseFind k) => s.Keeps t value ∧ s.Passed t k
  | some (.eraseClear i) => s.threads i = some t
  | some (.eraseRelease i) => s.threads i = some t

/-- The slots of the other threads are as they were, with their values. -/
def Untouched (t : T) (s s' : ThreadLocal T V N) : Prop :=
  ∀ u, u ≠ t → ∀ i, (s'.threads i = some u ↔ s.threads i = some u) ∧
    (s.threads i = some u → s'.values i = s.values i)

/-- At most one slot is the thread's. -/
def OneSlot (s : ThreadLocal T V N) (t : T) : Prop :=
  ∀ i j, s.threads i = some t → s.threads j = some t → i = j

variable {s s' : ThreadLocal T V N} {t u : T} {value : Option V} {p : Place V N} {i : Fin N} {k : ℕ}

theorem Untouched.refl (t : T) (s : ThreadLocal T V N) : Untouched t s s :=
  fun _ _ _ => ⟨Iff.rfl, fun _ => rfl⟩

theorem Untouched.oneSlot (h : Untouched t s s') (hu : u ≠ t) (hone : s.OneSlot u) :
    s'.OneSlot u :=
  fun i j hi hj => hone i j ((h u hu i).1.mp hi) ((h u hu j).1.mp hj)

theorem Untouched.without (h : Untouched t s s') (hu : u ≠ t) (hw : s.Without u) :
    s'.Without u :=
  fun i hi => hw i ((h u hu i).1.mp hi)

theorem Untouched.keeps (h : Untouched t s s') (hu : u ≠ t) (hk : s.Keeps u value) :
    s'.Keeps u value := by
  cases value with
  | none => exact h.without hu hk
  | some v =>
    obtain ⟨i, hi, hv⟩ := hk
    exact ⟨i, (h u hu i).1.mpr hi, ((h u hu i).2 hi).trans hv⟩

theorem Untouched.passed (h : Untouched t s s') (hu : u ≠ t) (hp : s.Passed u k) :
    s'.Passed u k :=
  fun i hik hi => hp i hik ((h u hu i).1.mp hi)

/-- What holds of a thread is not changed by the others. -/
theorem Untouched.holds (h : Untouched t s s') (hu : u ≠ t) {place : Option (Place V N)}
    (hh : s.Holds u value place) : s'.Holds u value place := by
  cases place with
  | none => exact h.keeps hu hh
  | some p =>
    cases p with
    | setFind | getFind | eraseFind => exact ⟨h.keeps hu hh.1, h.passed hu hh.2⟩
    | setClaim => exact ⟨hh.1, h.without hu hh.2⟩
    | setStore _ i | eraseClear i | eraseRelease i => exact (h u hu i).1.mpr hh

/-- A slot that was free, or that is the thread's, changes its holder. -/
theorem untouched_threads {o : Option T} (hi : s.threads i = none ∨ s.threads i = some t)
    (ho : o = none ∨ o = some t) :
    Untouched t s { s with threads := update s.threads i o } := by
  intro u hu j
  refine ⟨?_, fun _ => rfl⟩
  rcases eq_or_ne j i with rfl | hne
  · dsimp only
    rw [update_self]
    rcases hi with hi | hi <;> rcases ho with rfl | rfl <;> simp [hi, hu.symm]
  · dsimp only
    rw [update_of_ne hne]

theorem untouched_values {o : Option V} (hi : s.threads i = some t) :
    Untouched t s { s with values := update s.values i o } := by
  refine fun u hu j => ⟨Iff.rfl, fun hj => update_of_ne ?_ _ _⟩
  rintro rfl
  rw [hi] at hj
  exact hu (Option.some.inj hj).symm

theorem Passed.next (h : s.Passed t k) (hk : k < N) (hne : s.threads ⟨k, hk⟩ ≠ some t) :
    s.Passed t (k + 1) := by
  intro i hi heq
  rcases Nat.lt_succ_iff_lt_or_eq.mp hi with hlt | rfl
  · exact h i hlt heq
  · exact hne heq

theorem Passed.without (h : s.Passed t k) (hk : ¬ k < N) : s.Without t :=
  fun i => h i (i.isLt.trans_le (Nat.not_lt.mp hk))

theorem passed_zero (s : ThreadLocal T V N) (t : T) : s.Passed t 0 :=
  fun _ hi => absurd hi (Nat.not_lt_zero _)

theorem Keeps.eq_none (h : s.Keeps t value) (hw : s.Without t) : value = none := by
  cases value with
  | none => rfl
  | some v =>
    obtain ⟨i, hi, -⟩ := h
    exact absurd hi (hw i)

/-- Each operation begins by looking for the thread's slot. -/
theorem holds_start (op : Op V) (h : s.Keeps t value) : s.Holds t value (some op.start) := by
  cases op <;> exact ⟨h, passed_zero s t⟩

variable [DecidableEq T]

/-- What a step leaves: the place it leads to, or what the operation has stored. -/
def Leaves (t : T) (value : Option V) :
    ThreadLocal T V N × (Place V N ⊕ Reply V N) → Prop
  | (s', .inl p') => s'.Holds t value (some p')
  | (s', .inr r) => s'.Holds t (r.after value) none

/-- **The step of a thread**: it touches no other thread's slot, the thread has one slot at most, and
what holds of the thread is what its new place asks for. -/
theorem turn_spec (hone : s.OneSlot t) (h : s.Holds t value (some p)) :
    Untouched t s (turn s t p).1 ∧ (turn s t p).1.OneSlot t ∧ Leaves t value (turn s t p) := by
  cases p with
  | setFind v k =>
    obtain ⟨hkeeps, hpassed⟩ := h
    rw [turn]
    split_ifs with hk hi
    · exact ⟨.refl t s, hone, hi⟩
    · exact ⟨.refl t s, hone, hkeeps, hpassed.next hk hi⟩
    · have hwithout := hpassed.without hk
      exact ⟨.refl t s, hone, hkeeps.eq_none hwithout, hwithout⟩
  | setClaim v k =>
    obtain ⟨rfl, hwithout⟩ := h
    rw [turn]
    split_ifs with hk hi
    · refine ⟨untouched_threads (.inl hi) (.inr rfl), fun j l hj hl => ?_, update_self ..⟩
      -- the slot that was claimed is the only one
      have hclaimed : ∀ j, update s.threads ⟨k, hk⟩ (some t) j = some t → j = ⟨k, hk⟩ := by
        intro j hj
        by_contra hne
        rw [update_of_ne hne] at hj
        exact hwithout j hj
      rw [hclaimed j hj, hclaimed l hl]
    · exact ⟨.refl t s, hone, rfl, hwithout⟩
    · exact ⟨.refl t s, hone, hwithout⟩
  | setStore v i => exact ⟨untouched_values h, hone, i, h, update_self ..⟩
  | getFind k =>
    obtain ⟨hkeeps, hpassed⟩ := h
    rw [turn]
    split_ifs with hk hi
    · exact ⟨.refl t s, hone, hkeeps⟩
    · exact ⟨.refl t s, hone, hkeeps, hpassed.next hk hi⟩
    · exact ⟨.refl t s, hone, hkeeps⟩
  | eraseFind k =>
    obtain ⟨hkeeps, hpassed⟩ := h
    rw [turn]
    split_ifs with hk hi
    · exact ⟨.refl t s, hone, hi⟩
    · exact ⟨.refl t s, hone, hkeeps, hpassed.next hk hi⟩
    · exact ⟨.refl t s, hone, hkeeps⟩
  | eraseClear i => exact ⟨untouched_values h, hone, h⟩
  | eraseRelease i =>
    have hslot : s.threads i = some t := h
    have hfreed : ∀ j, update s.threads i none j ≠ some t := by
      intro j hj
      rcases eq_or_ne j i with rfl | hne
      · rw [update_self] at hj
        cases hj
      · rw [update_of_ne hne] at hj
        exact hne (hone j i hj hslot)
    rw [turn, if_pos hslot]
    exact ⟨untouched_threads (.inr hslot) (.inl rfl), fun j l hj => absurd hj (hfreed j), hfreed⟩

/-- **What `get` returns**: nothing if nothing is stored, otherwise a pointer to what is. -/
theorem turn_get (hone : s.OneSlot t) (h : s.Holds t value (some p)) {ptr : Option (Fin N)}
    (hget : (turn s t p).2 = .inr (.get ptr)) :
    (ptr = none ↔ value = none) ∧
      ∀ v, value = some v → ∃ i, ptr = some i ∧ s.threads i = some t ∧ s.values i = some v := by
  cases p with
  | getFind k =>
    obtain ⟨hkeeps, hpassed⟩ := h
    rw [turn] at hget
    split_ifs at hget with hk hi
    · obtain rfl : some ⟨k, hk⟩ = ptr := by simpa using hget
      cases value with
      | none => exact absurd hi (hkeeps _)
      | some v =>
        obtain ⟨i, hslot, hv⟩ := hkeeps
        refine ⟨by simp, ?_⟩
        rintro _ ⟨⟩
        rw [hone i _ hslot hi] at hv
        exact ⟨_, rfl, hi, hv⟩
    · obtain rfl : none = ptr := by simpa using hget
      have hnone := hkeeps.eq_none (hpassed.without hk)
      rw [hnone]
      exact ⟨iff_of_true rfl rfl, fun v hv => by cases hv⟩
  -- the other steps do not return from `get`
  | setFind v k =>
    rw [turn] at hget
    split_ifs at hget
  | setClaim v k | eraseFind k =>
    rw [turn] at hget
    split_ifs at hget
    simp at hget
  | eraseRelease i =>
    rw [turn] at hget
    split_ifs at hget <;> simp at hget
  | setStore v i => simp [turn] at hget
  | eraseClear i => simp [turn] at hget

/-! ## Runs -/

/-- **The invariant**: each thread has one slot at most, and what holds of it is what its place asks
for, with the value that it has stored. -/
structure Inv (s : System T V N) : Prop where
  one : ∀ t, s.slots.OneSlot t
  holds : ∀ t, s.slots.Holds t (stored s.replies t) (s.place t)

theorem inv_start : Inv ({} : System T V N) :=
  ⟨fun _ i _ hi => absurd hi (by simp [empty]), fun _ i => by simp [empty]⟩

theorem Inv.advance {s : System T V N} (h : Inv s) (hp : s.place t = some p) :
    Inv (s.advance t p) := by
  have hholds := h.holds t
  rw [hp] at hholds
  obtain ⟨huntouched, hone, hleaves⟩ := turn_spec (h.one t) hholds
  have hone' : ∀ u, (turn s.slots t p).1.OneSlot u := by
    intro u
    rcases eq_or_ne u t with rfl | hu
    · exact hone
    · exact huntouched.oneSlot hu (h.one u)
  rw [System.advance]
  generalize turn s.slots t p = r at huntouched hleaves hone'
  obtain ⟨slots, p' | r⟩ := r
  · refine ⟨hone', fun u => ?_⟩
    dsimp only
    rcases eq_or_ne u t with rfl | hu
    · rw [update_self]
      exact hleaves
    · rw [update_of_ne hu]
      exact huntouched.holds hu (h.holds u)
  · refine ⟨hone', fun u => ?_⟩
    dsimp only
    rw [stored_concat]
    rcases eq_or_ne u t with rfl | hu
    · rw [update_self, if_pos rfl]
      exact hleaves
    · rw [update_of_ne hu, if_neg hu.symm]
      exact huntouched.holds hu (h.holds u)

/-- **Each step** keeps the invariant. -/
theorem Inv.step {s s' : System T V N} (h : Inv s) (hstep : Step s s') : Inv s' := by
  cases hstep with
  | advance hp => exact h.advance hp
  | @call t op hidle =>
    refine ⟨h.one, fun u => ?_⟩
    have hholds := h.holds u
    dsimp only
    rcases eq_or_ne u t with rfl | hu
    · rw [hidle] at hholds
      rw [update_self]
      exact holds_start op hholds
    · rwa [update_of_ne hu]

theorem Reachable.inv {s : System T V N} (h : Reachable s) : Inv s := by
  induction h with
  | refl => exact inv_start
  | tail _ hstep ih => exact ih.step hstep

/-- **In every reachable state** a thread has one slot at most, its `get` returns nothing exactly if
its last successful operation has stored nothing, and a pointer to what was stored otherwise, and its
steps leave the slots of the others and their values as they are. -/
theorem reachable_spec {s : System T V N} (h : Reachable s) (t : T) :
    s.slots.OneSlot t ∧ ∀ p, s.place t = some p →
      (∀ ptr, (turn s.slots t p).2 = .inr (.get ptr) →
        (ptr = none ↔ stored s.replies t = none) ∧
        ∀ v, stored s.replies t = some v →
          ∃ i, ptr = some i ∧ s.slots.threads i = some t ∧ s.slots.values i = some v) ∧
      ∀ u, u ≠ t → ∀ i, s.slots.threads i = some u →
        (turn s.slots t p).1.threads i = some u ∧
        (turn s.slots t p).1.values i = s.slots.values i := by
  have hone := h.inv.one t
  refine ⟨hone, fun p hp => ?_⟩
  have hholds := h.inv.holds t
  rw [hp] at hholds
  obtain ⟨huntouched, -, -⟩ := turn_spec hone hholds
  refine ⟨fun ptr hget => turn_get hone hholds hget, fun u hu i hi => ?_⟩
  exact ⟨(huntouched u hu i).1.mpr hi, (huntouched u hu i).2 hi⟩

/-- A thread has stored a value in the only slot, and asks for it. -/
def asks : System ℕ ℕ 1 :=
  let s := ({ place := update (fun _ => none) 0 (some (.setFind 7 0)) } : System ℕ ℕ 1)
  let s := (((s.advance 0 (.setFind 7 0)).advance 0 (.setFind 7 1)).advance 0 (.setClaim 7 0)).advance
    0 (.setStore 7 0)
  { s with place := update s.place 0 (some (.getFind 0)) }

theorem reachable_asks : Reachable asks := by
  have hcall : Reachable ({ place := update (fun _ => none) 0 (some (.setFind 7 0)) } :
      System ℕ ℕ 1) := .single (.call (.set 7) rfl)
  exact ((((hcall.tail (.advance rfl)).tail (.advance rfl)).tail (.advance rfl)).tail
    (.advance rfl)).tail (.call .get rfl)

theorem reachable_spec_asks : ∃ i, (turn asks.slots 0 (.getFind 0)).2 = .inr (.get (some i)) ∧
    asks.slots.threads i = some 0 ∧ asks.slots.values i = some 7 := by
  obtain ⟨-, hspec⟩ := reachable_spec reachable_asks 0
  obtain ⟨-, hptr⟩ := (hspec (.getFind 0) rfl).1 (some 0) rfl
  obtain ⟨i, hi, hthread, hvalue⟩ := hptr 7 rfl
  obtain rfl := Option.some.inj hi
  exact ⟨0, rfl, hthread, hvalue⟩

/-! ## A thread that is not interrupted -/

/-- The thread `t` makes one step after the other, to the end of its operation. -/
inductive Alone (t : T) : ThreadLocal T V N → Place V N → ThreadLocal T V N → Reply V N → Prop
  | done {s s' p r} (h : turn s t p = (s', .inr r)) : Alone t s p s' r
  | step {s s' s'' p p' r} (h : turn s t p = (s', .inl p')) (hrest : Alone t s' p' s'' r) :
    Alone t s p s'' r

theorem slotOf_eq_some {o : Option T} (hi : s.threads i = o) (hfirst : ∀ j < i, s.threads j ≠ o) :
    s.slotOf o = some i := by
  refine List.find?_eq_some_iff_getElem.mpr ⟨by simpa using hi, i, by simp, by simp, ?_⟩
  intro j hj
  simpa using hfirst ⟨j, hj.trans i.isLt⟩ hj

theorem Passed.slotOf_eq (h : s.Passed t k) (hk : k < N) (hi : s.threads ⟨k, hk⟩ = some t) :
    s.slotOf (some t) = some ⟨k, hk⟩ :=
  slotOf_eq_some hi fun j hj => h j hj

theorem alone_getFind : ∀ (n k : ℕ), k + n = N → s.Passed t k →
    Alone t s (.getFind k) s (.get (s.get t)) := by
  intro n
  induction n with
  | zero =>
    intro k hk h
    have hend : ¬ k < N := by omega
    rw [get, slotOf_eq_none_iff.mpr (h.without hend)]
    exact .done (by rw [turn, dif_neg hend])
  | succ n ih =>
    intro k hk h
    have hlt : k < N := by omega
    by_cases hi : s.threads ⟨k, hlt⟩ = some t
    · rw [get, h.slotOf_eq hlt hi]
      exact .done (by rw [turn, dif_pos hlt, if_pos hi])
    · exact .step (by rw [turn, dif_pos hlt, if_neg hi]) (ih (k + 1) (by omega) (h.next hlt hi))

/-- What `erase` leaves and returns. -/
def erased (s : ThreadLocal T V N) (t : T) : ThreadLocal T V N × Reply V N :=
  match s.erase t with
  | some s' => (s', .erase true)
  | none => (s, .erase false)

theorem alone_eraseFind : ∀ (n k : ℕ), k + n = N → s.Passed t k →
    Alone t s (.eraseFind k) (s.erased t).1 (s.erased t).2 := by
  intro n
  induction n with
  | zero =>
    intro k hk h
    have hend : ¬ k < N := by omega
    rw [erased, erase, slotOf_eq_none_iff.mpr (h.without hend)]
    exact .done (by rw [turn, dif_neg hend])
  | succ n ih =>
    intro k hk h
    have hlt : k < N := by omega
    by_cases hi : s.threads ⟨k, hlt⟩ = some t
    · rw [erased, erase, h.slotOf_eq hlt hi]
      refine .step (by rw [turn, dif_pos hlt, if_pos hi]) (.step rfl (.done ?_))
      rw [turn, if_pos hi]
    · exact .step (by rw [turn, dif_pos hlt, if_neg hi]) (ih (k + 1) (by omega) (h.next hlt hi))

/-- What `set` leaves and returns. -/
def wasSet (s : ThreadLocal T V N) (t : T) (v : V) : ThreadLocal T V N × Reply V N :=
  match s.set t v with
  | some s' => (s', .set v true)
  | none => (s, .set v false)

theorem alone_setClaim (hw : s.Without t) (v : V) : ∀ (n k : ℕ), k + n = N →
    (∀ i : Fin N, i < k → s.threads i ≠ none) →
    Alone t s (.setClaim v k) (s.wasSet t v).1 (s.wasSet t v).2 := by
  intro n
  induction n with
  | zero =>
    intro k hk h
    have hend : ¬ k < N := by omega
    have hfull : s.slotOf none = none :=
      slotOf_eq_none_iff.mpr fun i => h i (i.isLt.trans_le (Nat.not_lt.mp hend))
    rw [wasSet, set, slotOf_eq_none_iff.mpr hw]
    dsimp only
    rw [hfull]
    exact .done (by rw [turn, dif_neg hend])
  | succ n ih =>
    intro k hk h
    have hlt : k < N := by omega
    by_cases hi : s.threads ⟨k, hlt⟩ = none
    · have hfree : s.slotOf none = some ⟨k, hlt⟩ := slotOf_eq_some hi fun j hj => h j hj
      rw [wasSet, set, slotOf_eq_none_iff.mpr hw]
      dsimp only
      rw [hfree]
      exact .step (by rw [turn, dif_pos hlt, if_pos hi]) (.done rfl)
    · refine .step (by rw [turn, dif_pos hlt, if_neg hi]) (ih (k + 1) (by omega) fun i hik => ?_)
      rcases Nat.lt_succ_iff_lt_or_eq.mp hik with hlt' | rfl
      · exact h i hlt'
      · exact hi

theorem alone_setFind (v : V) : ∀ (n k : ℕ), k + n = N → s.Passed t k →
    Alone t s (.setFind v k) (s.wasSet t v).1 (s.wasSet t v).2 := by
  intro n
  induction n with
  | zero =>
    intro k hk h
    have hend : ¬ k < N := by omega
    refine .step (by rw [turn, dif_neg hend]) ?_
    exact alone_setClaim (h.without hend) v N 0 (Nat.zero_add N)
      fun i hi => absurd hi (Nat.not_lt_zero _)
  | succ n ih =>
    intro k hk h
    have hlt : k < N := by omega
    by_cases hi : s.threads ⟨k, hlt⟩ = some t
    · rw [wasSet, set, h.slotOf_eq hlt hi]
      exact .step (by rw [turn, dif_pos hlt, if_pos hi]) (.done rfl)
    · exact .step (by rw [turn, dif_pos hlt, if_neg hi]) (ih (k + 1) (by omega) (h.next hlt hi))

/-- **An operation that is not interrupted** does what the operation as a single step does. -/
theorem alone_start (s : ThreadLocal T V N) (t : T) :
    Alone t s (Op.start .get) s (.get (s.get t)) ∧
    Alone t s (Op.start .erase) (s.erased t).1 (s.erased t).2 ∧
    ∀ v, Alone t s (Op.start (.set v)) (s.wasSet t v).1 (s.wasSet t v).2 :=
  ⟨alone_getFind N 0 (Nat.zero_add N) (passed_zero s t),
    alone_eraseFind N 0 (Nat.zero_add N) (passed_zero s t),
    fun v => alone_setFind v N 0 (Nat.zero_add N) (passed_zero s t)⟩

end Lilu.ThreadLocal
