import Mathlib.Tactic
import Lilu.Prelude.Loop
import Lilu.Prelude.Memory
import Lilu.Prelude.Sweep

/-!
# Programs that read

A program that only reads is a tree: it is done, or it asks for the byte at an address and goes on
with what it gets. Such a tree is run on a memory, and says which addresses it asks for on the way.
Where a program reads is then told by its parts, one after the other.

## Main definitions

* `Probe A α`: programs that read bytes at addresses of the type `A`
* `Probe.run`, `Probe.asked`: the value on a memory, and the addresses that are read there
* `Probe.Within`: all addresses that are read are in a set
* `Probe.Meets`: so they are, and the value is as it should be
* `Probe.bytes`, `Probe.number`, `Probe.word`: reading bytes, numbers and words
* `Probe.agrees`, `Probe.compare`: comparing bytes up to the first that differs, and C strings
* `Probe.via`: the same program at other addresses
* `Probe.seek`, `Probe.loop`: searches and loops whose turns read

## Main results

* `Probe.within_bind`: where a program of two parts reads
* `Probe.within_agrees_iff`, `Probe.within_compare_iff`: where a comparison reads
* `Probe.Within.congr`: what is not read does not matter
* `Probe.meets_loop`: an invariant and a measure of a loop's turns, which are also where it reads
-/

namespace Lilu

universe u v

/-- A program that reads bytes, one after the other. -/
inductive Probe (A : Type u) (α : Type v) where
  | done (a : α)
  | ask (x : A) (k : UInt8 → Probe A α)

namespace Probe

variable {A : Type u} {α β : Type v}

/-- The value of a program on a memory. -/
def run (m : A → UInt8) : Probe A α → α
  | done a => a
  | ask x k => run m (k (m x))

/-- The addresses that are read, in their order. -/
def asked (m : A → UInt8) : Probe A α → List A
  | done _ => []
  | ask x k => x :: asked m (k (m x))

def bind : Probe A α → (α → Probe A β) → Probe A β
  | done a, f => f a
  | ask x k, f => ask x fun b => bind (k b) f

instance : Monad (Probe A) where
  pure := done
  bind := bind

variable {m m' : A → UInt8} {S T : Set A} {p : Probe A α} {f : α → Probe A β}

@[simp] theorem run_pure (a : α) : (pure a : Probe A α).run m = a :=
  rfl

@[simp] theorem run_bind : (p >>= f).run m = (f (p.run m)).run m := by
  induction p with
  | done a => rfl
  | ask x k ih => exact ih (m x)

@[simp] theorem run_ite {q : Probe A α} {c : Prop} [Decidable c] :
    (if c then p else q).run m = if c then p.run m else q.run m :=
  apply_ite (run m) c p q

theorem asked_bind : (p >>= f).asked m = p.asked m ++ (f (p.run m)).asked m := by
  induction p with
  | done a => rfl
  | ask x k ih => exact congrArg (x :: ·) (ih (m x))

/-! ## Where a program reads -/

/-- All addresses that are read are in the set. -/
def Within (S : Set A) (m : A → UInt8) (p : Probe A α) : Prop :=
  ∀ x ∈ p.asked m, x ∈ S

@[simp] theorem within_pure (a : α) : Within S m (pure a : Probe A α) :=
  fun _ hx => absurd hx List.not_mem_nil

/-- **Where a program of two parts reads**: the second part follows the value of the first. -/
@[simp] theorem within_bind :
    Within S m (p >>= f) ↔ Within S m p ∧ Within S m (f (p.run m)) := by
  simp only [Within, asked_bind, List.mem_append]
  constructor
  · exact fun h => ⟨fun x hx => h x (.inl hx), fun x hx => h x (.inr hx)⟩
  · rintro ⟨hp, hf⟩ x (hx | hx)
    · exact hp x hx
    · exact hf x hx

theorem within_ite {q : Probe A α} {c : Prop} [Decidable c] :
    Within S m (if c then p else q) ↔ (c → Within S m p) ∧ (¬ c → Within S m q) := by
  split_ifs with hc
  · simp only [hc, true_imp_iff, not_true, false_imp_iff, and_true]
  · simp only [hc, false_imp_iff, not_false_eq_true, true_imp_iff, true_and]

theorem Within.mono (h : Within S m p) (hST : S ⊆ T) : Within T m p :=
  fun x hx => hST (h x hx)

/-- **What is not read does not matter**: on memories that agree where a program reads, it has the
same value and reads the same. -/
theorem Within.congr (h : Within S m p) (hm : Set.EqOn m' m S) :
    p.run m' = p.run m ∧ p.asked m' = p.asked m := by
  induction p with
  | done a => exact ⟨rfl, rfl⟩
  | ask x k ih =>
    have hx : m' x = m x := hm (h x List.mem_cons_self)
    have hrest : Within S m (k (m x)) := fun y hy => h y (List.mem_cons_of_mem x hy)
    -- the byte is the same, and so is the rest of the program
    obtain ⟨hrun, hasked⟩ := ih (m x) hrest
    constructor
    · rw [run, run, hx, hrun]
    · rw [asked, asked, hx, hasked]

/-- What is read is in the set, and the value is as it should be. -/
def Meets (S : Set A) (m : A → UInt8) (Q : α → Prop) (p : Probe A α) : Prop :=
  Within S m p ∧ Q (p.run m)

section Meets

variable {Q : β → Prop}

theorem meets_pure {b : β} : Meets S m Q (pure b) ↔ Q b :=
  and_iff_right (within_pure _)

theorem meets_bind : Meets S m Q (p >>= f) ↔ Within S m p ∧ Meets S m Q (f (p.run m)) := by
  rw [Meets, Meets, within_bind, run_bind, and_assoc]

/-- **A program of two parts** does as it should if the second part does whenever the first did. -/
theorem Meets.bind {P : α → Prop} (h : Meets S m P p) (hf : ∀ a, P a → Meets S m Q (f a)) :
    Meets S m Q (p >>= f) :=
  meets_bind.mpr ⟨h.1, hf _ h.2⟩

theorem Meets.imp {Q Q' : α → Prop} (h : Meets S m Q p) (himp : ∀ a, Q a → Q' a) : Meets S m Q' p :=
  ⟨h.1, himp _ h.2⟩

end Meets

/-! ## Loops -/

section Loops

variable {σ β : Type} {s : σ} {n : ℕ}

/-- The first place from `s` on that is hit, or the place behind the last of `n`. -/
def seek (hit : σ → Probe A Bool) (next : σ → σ) : ℕ → σ → Probe A σ
  | 0, s => pure s
  | n + 1, s => do if ← hit s then pure s else seek hit next n (next s)

/-- At most `n` passes from a state; none when the fuel runs out first. -/
def loop (turn : σ → Probe A (Turn σ β)) : ℕ → σ → Probe A (Option β)
  | 0, _ => pure none
  | n + 1, s => do
    match ← turn s with
    | .again s' => loop turn n s'
    | .leave b => pure (some b)

@[simp] theorem run_seek {hit : σ → Probe A Bool} {next : σ → σ} :
    (seek hit next n s).run m = Lilu.seek (fun s => (hit s).run m) next n s := by
  induction n generalizing s with
  | zero => rfl
  | succ n ih => rw [seek, run_bind, run_ite, ih, run_pure, Lilu.seek]

theorem within_seek {hit : σ → Probe A Bool} {next : σ → σ}
    (h : ∀ i < n, Within S m (hit (next^[i] s))) : Within S m (seek hit next n s) := by
  induction n generalizing s with
  | zero => exact within_pure s
  | succ n ih =>
    rw [seek, within_bind, within_ite]
    refine ⟨h 0 (Nat.succ_pos n), fun _ => within_pure s, fun _ => ?_⟩
    apply ih
    exact fun i hi => h (i + 1) (Nat.succ_lt_succ hi)

section Turns

variable {turn : σ → Probe A (Turn σ β)} {s' : σ} {b : β} {Q : Option β → Prop}

/-- A loop whose turn goes round again. -/
theorem meets_loop_again (hread : Within S m (turn s)) (hturn : (turn s).run m = .again s') :
    Meets S m Q (loop turn (n + 1) s) ↔ Meets S m Q (loop turn n s') := by
  rw [loop, meets_bind, and_iff_right hread, hturn]

/-- A loop whose turn leaves it. -/
theorem meets_loop_leave (hread : Within S m (turn s)) (hturn : (turn s).run m = .leave b) :
    Meets S m Q (loop turn (n + 1) s) ↔ Q (some b) := by
  rw [loop, meets_bind, and_iff_right hread, hturn]
  exact meets_pure

/-- A loop reads what its first turn reads. -/
theorem Within.first_turn (h : Within S m (loop turn (n + 1) s)) : Within S m (turn s) := by
  rw [loop, within_bind] at h
  exact h.1

end Turns

/-- **Total correctness**: if every turn from a state of the invariant reads where it may, and keeps
the invariant and decreases the measure or leaves with a value as it should be, then a loop with
more fuel than the measure ends with such a value. -/
theorem meets_loop {turn : σ → Probe A (Turn σ β)} (Inv : σ → Prop) (Q : β → Prop) (μ : σ → ℕ)
    (hread : ∀ s, Inv s → Within S m (turn s))
    (hagain : ∀ s s', Inv s → (turn s).run m = .again s' → Inv s' ∧ μ s' < μ s)
    (hleave : ∀ s b, Inv s → (turn s).run m = .leave b → Q b) (hs : Inv s) (hn : μ s < n) :
    Meets S m (fun r => ∃ b, r = some b ∧ Q b) (loop turn n s) := by
  induction n generalizing s with
  | zero => exact absurd hn (Nat.not_lt_zero _)
  | succ n ih =>
    rw [loop, meets_bind]
    refine ⟨hread s hs, ?_⟩
    cases ht : (turn s).run m with
    | again s' =>
      obtain ⟨hs', hlt⟩ := hagain s s' hs ht
      exact ih hs' (by omega)
    | leave b => exact meets_pure.mpr ⟨b, rfl, hleave s b hs ht⟩

/-- **A loop over the first numbers**: an invariant that each pass keeps holds in the end. -/
theorem meets_foldlM_range {f : σ → ℕ → Probe A σ} (Inv : ℕ → σ → Prop)
    (hstep : ∀ i < n, ∀ s, Inv i s → Meets S m (Inv (i + 1)) (f s i)) (hs : Inv 0 s) :
    Meets S m (Inv n) ((List.range n).foldlM f s) := by
  have hfrom : ∀ k i s, i + k = n → Inv i s → Meets S m (Inv n) ((List.range' i k).foldlM f s) := by
    intro k
    induction k with
    | zero =>
      rintro i s rfl h
      exact meets_pure.mpr h
    | succ k ih =>
      intro i s hik h
      obtain ⟨hread, hnext⟩ := hstep i (by omega) s h
      rw [List.range'_succ, List.foldlM_cons, meets_bind]
      exact ⟨hread, ih (i + 1) _ (by omega) hnext⟩
  rw [List.range_eq_range']
  exact hfrom n 0 s (Nat.zero_add n) hs

end Loops

/-! ## Bytes and numbers -/

def byte (x : A) : Probe A UInt8 :=
  ask x done

@[simp] theorem run_byte (x : A) : (byte x).run m = m x :=
  rfl

@[simp] theorem within_byte {x : A} : Within S m (byte x) ↔ x ∈ S :=
  List.forall_mem_singleton

/-- The bytes at some addresses. -/
def bytes : List A → Probe A (List UInt8)
  | [] => pure []
  | x :: xs => do
    let b ← byte x
    let bs ← bytes xs
    pure (b :: bs)

@[simp] theorem run_bytes (xs : List A) : (bytes xs).run m = xs.map m := by
  induction xs with
  | nil => rfl
  | cons x xs ih => rw [bytes, run_bind, run_byte, run_bind, ih, run_pure, List.map_cons]

@[simp] theorem within_bytes {xs : List A} : Within S m (bytes xs) ↔ ∀ x ∈ xs, x ∈ S := by
  induction xs with
  | nil => exact iff_of_true (within_pure _) (fun _ hx => absurd hx List.not_mem_nil)
  | cons x xs ih =>
    rw [bytes, within_bind, within_byte, within_bind, ih, List.forall_mem_cons]
    exact and_congr_right fun _ => and_iff_left (within_pure _)

/-- The little endian number at some addresses. -/
def number (xs : List A) : Probe A ℕ := do
  let bs ← bytes xs
  pure (leNat bs)

@[simp] theorem run_number (xs : List A) : (number xs).run m = leNat (xs.map m) := by
  rw [number, run_bind, run_bytes, run_pure]

@[simp] theorem within_number {xs : List A} : Within S m (number xs) ↔ ∀ x ∈ xs, x ∈ S := by
  rw [number, within_bind, within_bytes]
  exact and_iff_left (within_pure _)

/-! ## Comparisons -/

/-- Whether the addresses have the bytes that they are given with, up to the first that does not. -/
def agrees : List (A × UInt8) → Probe A Bool
  | [] => pure true
  | (x, c) :: xs => do
    let b ← byte x
    if b = c then agrees xs else pure false

@[simp] theorem run_agrees (xs : List (A × UInt8)) :
    (agrees xs).run m = decide (∀ q ∈ xs, m q.1 = q.2) := by
  induction xs with
  | nil => simp [agrees]
  | cons q xs ih =>
    obtain ⟨x, c⟩ := q
    rw [agrees, run_bind, run_byte, run_ite, ih, run_pure]
    split_ifs with hc
    · simp [hc]
    · simp [hc]

/-- **Where a comparison reads**: up to the first byte that differs. -/
theorem within_agrees_iff {xs : List (A × UInt8)} : Within S m (agrees xs) ↔
    ∀ (i : ℕ) (q : A × UInt8), xs[i]? = some q →
      (∀ j < i, ∀ r : A × UInt8, xs[j]? = some r → m r.1 = r.2) → q.1 ∈ S := by
  induction xs with
  | nil => simp [agrees]
  | cons q xs ih =>
    obtain ⟨x, c⟩ := q
    rw [agrees, within_bind, within_byte, run_byte, within_ite, ih]
    constructor
    · rintro ⟨hx, hxs, -⟩ i r hi hbefore
      cases i with
      | zero =>
        obtain rfl := Option.some.inj hi
        exact hx
      | succ i =>
        -- the first byte agrees, and the rest is read
        refine hxs (hbefore 0 (Nat.succ_pos i) (x, c) rfl) i r hi fun j hj r' hr' => ?_
        exact hbefore (j + 1) (Nat.succ_lt_succ hj) r' hr'
    · intro h
      refine ⟨h 0 (x, c) rfl fun j hj => absurd hj (Nat.not_lt_zero j), fun hx i r hi hbefore => ?_,
        fun _ => within_pure _⟩
      refine h (i + 1) r hi fun j hj r' hr' => ?_
      cases j with
      | zero =>
        obtain rfl := Option.some.inj hr'
        exact hx
      | succ j => exact hbefore j (Nat.lt_of_succ_lt_succ hj) r' hr'

/-! ## Programs at other addresses -/

/-- A program that reads at other addresses. -/
def via {A' : Type u} (g : A → A') : Probe A α → Probe A' α
  | done a => done a
  | ask x k => ask (g x) fun b => via g (k b)

section Via

variable {A' : Type u} {g : A → A'} {m : A' → UInt8} {S : Set A'}

@[simp] theorem run_via : (via g p).run m = p.run fun x => m (g x) := by
  induction p with
  | done a => rfl
  | ask x k ih => exact ih (m (g x))

theorem asked_via : (via g p).asked m = (p.asked fun x => m (g x)).map g := by
  induction p with
  | done a => rfl
  | ask x k ih => exact congrArg (g x :: ·) (ih (m (g x)))

theorem within_via : Within S m (via g p) ↔ ∀ x ∈ p.asked fun x => m (g x), g x ∈ S := by
  rw [Within, asked_via, List.forall_mem_map]

end Via

/-! ## C strings -/

/-- `strncmp` of the string at some addresses with another one, that is zero behind its end. -/
def compare (xs : List A) (name : List UInt8) : Probe A Bool :=
  agrees (xs.zip (name ++ [0]))

/-- A string is compared with its terminating zero, if there is room for that. -/
theorem zip_eq_iff {name : List UInt8} (hname : 0 ∉ name) : ∀ {bs : List UInt8},
    (∀ q ∈ bs.zip (name ++ [0]), q.1 = q.2) ↔ bs.takeWhile (· ≠ 0) = name.take bs.length := by
  induction name with
  | nil =>
    intro bs
    cases bs with
    | nil => simp
    | cons b bs => simp [List.takeWhile_cons]
  | cons c name ih =>
    rw [List.mem_cons, not_or] at hname
    intro bs
    cases bs with
    | nil => simp
    | cons b bs =>
      rw [List.cons_append, List.zip_cons_cons, List.forall_mem_cons, ih hname.2,
        List.takeWhile_cons, List.length_cons, List.take_succ_cons]
      dsimp only
      by_cases hb : b = 0
      · subst hb
        simp [hname.1]
      · simp [hb]

theorem run_compare {xs : List A} {name : List UInt8} (hname : 0 ∉ name) :
    (compare xs name).run m = decide ((xs.map m).takeWhile (· ≠ 0) = name.take xs.length) := by
  have hzip := @zip_eq_iff name hname (xs.map m)
  rw [List.zip_map_left, List.forall_mem_map, List.length_map] at hzip
  rw [compare, run_agrees]
  exact decide_eq_decide.mpr hzip

theorem run_compare_all {xs : List A} {name : List UInt8} :
    (compare xs name).run m = (xs.zip (name ++ [0])).all fun q => m q.1 == q.2 := by
  rw [compare, run_agrees, Bool.eq_iff_iff, decide_eq_true_eq, List.all_eq_true]
  simp only [beq_iff_eq]

/-- A comparison of the whole string, with its terminating zero. -/
theorem run_compare_whole {xs : List A} {name : List UInt8} (h : xs.length = name.length + 1) :
    (compare xs name).run m = decide (xs.map m = name ++ [0]) := by
  have hlen : xs.length = (name ++ [0]).length := by
    rw [h, List.length_append, List.length_singleton]
  -- the two are as long as each other, so that no byte is left out
  have hzip : (∀ q ∈ xs.zip (name ++ [0]), m q.1 = q.2) ↔ xs.map m = name ++ [0] := by
    rw [← List.forall₂_eq_eq_eq, List.forall₂_map_left_iff, List.forall₂_iff_zip,
      and_iff_right hlen]
    exact ⟨fun h a b hab => h (a, b) hab, fun h q hq => h hq⟩
  rw [compare, run_agrees]
  exact decide_eq_decide.mpr hzip

/-- **Where a comparison with a string reads**: up to the first byte that differs, or the
terminating zero. -/
theorem within_compare_iff {xs : List A} {name : List UInt8} : Within S m (compare xs name) ↔
    ∀ i x, xs[i]? = some x → i ≤ name.length → (xs.map m).take i = name.take i → x ∈ S := by
  have hget : ∀ (i : ℕ) (q : A × UInt8), (xs.zip (name ++ [0]))[i]? = some q ↔
      xs[i]? = some q.1 ∧ (name ++ [0])[i]? = some q.2 := fun i q => List.getElem?_zip_eq_some
  have hname : ∀ i, i < name.length → (name ++ [0])[i]? = name[i]? := fun i hi =>
    List.getElem?_append_left hi
  rw [compare, within_agrees_iff]
  constructor
  · intro h i x hx hi htake
    have hlt : i < (name ++ [0]).length := by
      rw [List.length_append, List.length_singleton]
      omega
    refine h i (x, (name ++ [0])[i]) ((hget i _).mpr ⟨hx, List.getElem?_eq_getElem hlt⟩) ?_
    intro j hj r hr
    obtain ⟨hr₁, hr₂⟩ := (hget j r).mp hr
    -- the bytes before are those of the name
    have hj' := congrArg (·[j]?) htake
    simp only [List.getElem?_take, if_pos hj, List.getElem?_map, hr₁] at hj'
    rw [hname j (by omega), ← hj'] at hr₂
    exact Option.some.inj hr₂
  · intro h i q hq hbefore
    obtain ⟨hq₁, hq₂⟩ := (hget i q).mp hq
    have hlt : i < (name ++ [0]).length := (List.getElem?_eq_some_iff.mp hq₂).1
    rw [List.length_append, List.length_singleton] at hlt
    refine h i q.1 hq₁ (by omega) (List.ext_getElem? fun j => ?_)
    rw [List.getElem?_take, List.getElem?_take]
    split_ifs with hj
    · have hxs : j < xs.length := hj.trans (List.getElem?_eq_some_iff.mp hq₁).1
      have hlt' : j < (name ++ [0]).length := by
        rw [List.length_append, List.length_singleton]
        omega
      have hr := hbefore j hj (xs[j], (name ++ [0])[j])
        ((hget j _).mpr ⟨List.getElem?_eq_getElem hxs, List.getElem?_eq_getElem hlt'⟩)
      rw [List.getElem?_map, List.getElem?_eq_getElem hxs, Option.map_some, hr,
        ← List.getElem?_eq_getElem hlt', hname j (by omega)]
    · rfl

/-- The same for addresses that follow one another. -/
theorem within_compare_range {g : ℕ → A} {n : ℕ} {name : List UInt8} :
    Within S m (compare ((List.range n).map g) name) ↔ ∀ i < n, i ≤ name.length →
      (List.range i).map (fun k => m (g k)) = name.take i → g i ∈ S := by
  have htake : ∀ i < n, (((List.range n).map g).map m).take i =
      (List.range i).map fun k => m (g k) := by
    intro i hi
    rw [List.map_map, ← List.map_take, List.take_range, Nat.min_eq_left hi.le]
    rfl
  rw [within_compare_iff]
  constructor
  · intro h i hi hle hsame
    refine h i (g i) ?_ hle (by rw [htake i hi, hsame])
    rw [List.getElem?_map, List.getElem?_range hi, Option.map_some]
  · intro h i x hx hle hsame
    rw [List.getElem?_map, Option.map_eq_some_iff] at hx
    obtain ⟨k, hk, rfl⟩ := hx
    obtain ⟨hi, rfl⟩ := List.getElem?_eq_some_iff.mp hk
    rw [List.length_range] at hi
    rw [List.getElem_range]
    exact h i hi hle (by rw [← htake i hi, hsame])

end Probe

/-! ## Words at machine addresses -/

namespace Probe

variable {w : ℕ} {m : BitVec w → UInt8} {S : Set (BitVec w)} {a : BitVec w} {n : ℕ}

/-- The addresses of a block. -/
def span (a : BitVec w) (n : ℕ) : List (BitVec w) :=
  (List.range n).map fun k => a + BitVec.ofNat w k

theorem map_span : (span a n).map m = load m a n := by
  rw [span, List.map_map]
  rfl

/-- A long block is two short ones. -/
theorem span_add (k : ℕ) : span a (n + k) = span a n ++ span (a + BitVec.ofNat w n) k := by
  rw [span, List.range_add, List.map_append, List.map_map]
  refine congrArg (span a n ++ ·) (List.map_congr_left fun i _ => ?_)
  rw [Function.comp_apply, BitVec.ofNat_add, BitVec.add_assoc]

theorem span_subset_iff : (∀ x ∈ span a n, x ∈ S) ↔ block a n ⊆ S := by
  constructor
  · intro h x hx
    refine h x (List.mem_map.mpr ⟨(x - a).toNat, List.mem_range.mpr hx, ?_⟩)
    rw [BitVec.ofNat_toNat, BitVec.setWidth_eq, BitVec.add_comm, BitVec.sub_add_cancel]
  · intro h x hx
    obtain ⟨k, hk, rfl⟩ := List.mem_map.mp hx
    exact h (add_mem_block (List.mem_range.mp hk))

/-- The word of `v` bits at an address. -/
def word (v : ℕ) (a : BitVec w) : Probe (BitVec w) (BitVec v) := do
  let bs ← bytes (span a (v / 8))
  pure (BitVec.ofNat v (leNat bs))

@[simp] theorem run_word (v : ℕ) : (word v a).run m = read v m a := by
  rw [word, run_bind, run_bytes, map_span, run_pure]
  rfl

@[simp] theorem within_word {v : ℕ} : Within S m (word v a) ↔ block a (v / 8) ⊆ S := by
  rw [word, within_bind, within_bytes, span_subset_iff]
  exact and_iff_left (within_pure _)

end Probe

end Lilu
