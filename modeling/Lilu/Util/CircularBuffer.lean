import Lilu.Prelude.Queue

/-!
# Circular buffers

Elements are written at one index and read at another, both counted modulo the capacity. The indices
are equal when the buffer is empty and when it is full, which a counter tells apart. All of it is 32
bit arithmetic, and the lock makes each call a single step.

## Main definitions

* `CircularBuffer`: the fields
* `push`, `pop`: the calls, undefined if an index leaves the storage or is reduced modulo zero
* `Holds`: the buffer holds a queue

## Main results

* `simulates`: the calls are those of a bounded queue
-/

namespace Lilu

open Queue (Call Reply InRing)

structure CircularBuffer (T : Type*) where
  storage : List T
  size : UInt32
  indexr : UInt32 := 0
  indexw : UInt32 := 0
  count : UInt32 := 0

namespace CircularBuffer

variable {T : Type*}

/-- `init`. -/
def init (buffer : List T) (capacity : UInt32) : CircularBuffer T where
  storage := buffer
  size := capacity

def isEmpty (b : CircularBuffer T) : Bool :=
  b.count == 0 && b.indexr == b.indexw

def isFull (b : CircularBuffer T) : Bool :=
  b.count == b.size && b.indexr == b.indexw

def getCount (b : CircularBuffer T) : UInt32 :=
  b.count

/-- The index behind another one. -/
def advance (i size : UInt32) : Option UInt32 :=
  if size = 0 then none else some ((i + 1) % size)

/-- `push`. -/
def push (b : CircularBuffer T) (element : T) : Option (Reply T × CircularBuffer T) :=
  if b.isFull then some (.pushed false, b)
  else if b.indexw.toNat < b.storage.length then
    (advance b.indexw b.size).map fun indexw => (.pushed true,
      { b with storage := b.storage.set b.indexw.toNat element, indexw, count := b.count + 1 })
  else none

/-- `pop`. -/
def pop (b : CircularBuffer T) : Option (Reply T × CircularBuffer T) :=
  if b.isEmpty then some (.popped none, b)
  else b.storage[b.indexr.toNat]?.bind fun element =>
    (advance b.indexr b.size).map fun indexr => (.popped (some element),
      { b with indexr, count := b.count - 1 })

def call (b : CircularBuffer T) : Call T → Option (Reply T × CircularBuffer T)
  | .push x => b.push x
  | .pop => b.pop

/-! ## The queue in a buffer -/

/-- **The buffer holds a queue**: as many elements as are counted, from the reading index on, and
the writing index is behind them. -/
structure Holds (b : CircularBuffer T) (q : List T) : Prop where
  room : b.storage.length = b.size.toNat
  inRing : InRing b.storage b.indexr.toNat q
  count : b.count.toNat = q.length
  indexr : b.indexr.toNat < b.size.toNat ∨ b.size = 0
  indexw : b.indexw.toNat = (b.indexr.toNat + q.length) % b.size.toNat

variable {b : CircularBuffer T} {q : List T} {x : T}

theorem holds_init {buffer : List T} {capacity : UInt32} (h : buffer.length = capacity.toNat) :
    (init buffer capacity).Holds [] := by
  refine ⟨h, Queue.inRing_nil buffer 0, rfl, ?_, (Nat.zero_mod _).symm⟩
  rcases eq_or_ne capacity 0 with rfl | hne
  · exact .inr rfl
  · exact .inl (Nat.pos_of_ne_zero fun h0 => hne (UInt32.toNat_inj.mp h0))

theorem Holds.length_le (h : b.Holds q) : q.length ≤ b.size.toNat :=
  h.room ▸ h.inRing.fits

/-- The indices are equal when there is no element, and when there is no room. -/
theorem Holds.indexr_eq_iff (h : b.Holds q) :
    b.indexr = b.indexw ↔ q.length = 0 ∨ q.length = b.size.toNat := by
  have hle := h.length_le
  have hw := h.indexw
  rw [← UInt32.toNat_inj]
  rcases h.indexr with hr | hzero
  · by_cases hturn : b.indexr.toNat + q.length < b.size.toNat
    · rw [Nat.mod_eq_of_lt hturn] at hw
      omega
    · rw [Nat.mod_eq_sub_mod (Nat.not_lt.mp hturn), Nat.mod_eq_of_lt (by omega)] at hw
      omega
  · have hsize : b.size.toNat = 0 := by rw [hzero]; rfl
    rw [hsize, Nat.mod_zero] at hw
    omega

theorem Holds.isEmpty_iff (h : b.Holds q) : b.isEmpty = true ↔ q = [] := by
  rw [isEmpty, Bool.and_eq_true, beq_iff_eq, beq_iff_eq, h.indexr_eq_iff, ← UInt32.toNat_inj,
    h.count, ← List.length_eq_zero_iff, UInt32.toNat_zero]
  exact ⟨fun hq => hq.1, fun hq => ⟨hq, .inl hq⟩⟩

theorem Holds.isFull_iff (h : b.Holds q) : b.isFull = true ↔ q.length = b.size.toNat := by
  rw [isFull, Bool.and_eq_true, beq_iff_eq, beq_iff_eq, h.indexr_eq_iff, ← UInt32.toNat_inj,
    h.count]
  exact ⟨fun hq => hq.1, fun hq => ⟨hq, .inr hq⟩⟩

/-- An index that is inside goes on modulo the size; the sum does not wrap around. -/
theorem advance_eq {i size : UInt32} (h : i.toNat < size.toNat) :
    ∃ i', advance i size = some i' ∧ i'.toNat = (i.toNat + 1) % size.toNat ∧
      i'.toNat < size.toNat := by
  have hne : size ≠ 0 := by
    rintro rfl
    exact absurd h (Nat.not_lt_zero _)
  have hlt := size.toNat_lt
  refine ⟨(i + 1) % size, if_neg hne, ?_, ?_⟩
  · rw [UInt32.toNat_mod, UInt32.toNat_add, UInt32.toNat_one,
      Nat.mod_eq_of_lt (show i.toNat + 1 < 2 ^ 32 by omega)]
  · rw [UInt32.toNat_mod]
    exact Nat.mod_lt _ (Nat.zero_lt_of_lt h)

/-- **Pushing** puts an element behind the others, if there is room. -/
theorem Holds.push (h : b.Holds q) (x : T) : ∃ b',
    b.push x = some ((Queue.call b.size.toNat q (.push x)).1, b') ∧ b'.size = b.size ∧
      b'.Holds (Queue.call b.size.toNat q (.push x)).2 := by
  rw [CircularBuffer.push, Queue.call]
  by_cases hroom : q.length < b.size.toNat
  · have hfull : ¬ b.isFull = true := fun hfull => hroom.ne (h.isFull_iff.mp hfull)
    have hpos : 0 < b.size.toNat := Nat.zero_lt_of_lt hroom
    have hin : b.indexw.toNat < b.size.toNat := h.indexw ▸ Nat.mod_lt _ hpos
    obtain ⟨indexw, hadvance, hnext, -⟩ := advance_eq hin
    have hring := h.inRing.push (h.room ▸ hroom) x
    rw [h.room, ← h.indexw] at hring
    rw [if_neg hfull, if_pos (h.room ▸ hin), hadvance, if_pos hroom]
    refine ⟨_, rfl, rfl, ?_⟩
    constructor
    · rw [List.length_set, h.room]
    · exact hring
    · have hlt := b.size.toNat_lt
      rw [UInt32.toNat_add, UInt32.toNat_one, h.count, Nat.mod_eq_of_lt (by omega),
        List.length_append, List.length_singleton]
    · exact h.indexr
    · rw [hnext, h.indexw, Nat.mod_add_mod, List.length_append, List.length_singleton,
        Nat.add_assoc]
  · have hfull : b.isFull = true := h.isFull_iff.mpr (h.length_le.antisymm (Nat.not_lt.mp hroom))
    rw [if_pos hfull, if_neg hroom]
    exact ⟨b, rfl, rfl, h⟩

/-- **Popping** takes the first element out, if there is one. -/
theorem Holds.pop (h : b.Holds q) : ∃ b',
    b.pop = some ((Queue.call b.size.toNat q .pop).1, b') ∧ b'.size = b.size ∧
      b'.Holds (Queue.call b.size.toNat q .pop).2 := by
  rw [CircularBuffer.pop]
  cases q with
  | nil =>
    rw [if_pos (h.isEmpty_iff.mpr rfl)]
    exact ⟨b, rfl, rfl, h⟩
  | cons x q =>
    have hempty : ¬ b.isEmpty = true := fun hempty => nomatch h.isEmpty_iff.mp hempty
    have hle := h.length_le
    rw [List.length_cons] at hle
    have hr : b.indexr.toNat < b.size.toNat := by
      refine h.indexr.resolve_right fun hzero => ?_
      rw [hzero, UInt32.toNat_zero] at hle
      omega
    obtain ⟨indexr, hadvance, hnext, hin⟩ := advance_eq hr
    obtain ⟨hfirst, hring⟩ := h.inRing.pop
    rw [h.room, Nat.mod_eq_of_lt hr] at hfirst
    rw [h.room, ← hnext] at hring
    rw [if_neg hempty, hfirst, Option.bind_some, hadvance]
    refine ⟨_, rfl, rfl, ?_⟩
    constructor
    · exact h.room
    · exact hring
    · have hone : (1 : UInt32) ≤ b.count := by
        rw [UInt32.le_iff_toNat_le, h.count]
        exact Nat.succ_le_succ (Nat.zero_le _)
      rw [UInt32.toNat_sub_of_le _ _ hone, h.count, UInt32.toNat_one]
      rfl
    · exact .inl hin
    · have hw := h.indexw
      rw [List.length_cons] at hw
      rw [hw, hnext, Nat.mod_add_mod, Nat.add_assoc, Nat.add_comm 1]
      rfl

/-- **The calls are those of a queue** with room for as many elements as the capacity says. -/
theorem simulates (n : ℕ) : Simulates (call (T := T)) (Queue.call n) (fun _ _ => True)
    fun b q => b.size.toNat = n ∧ b.Holds q := by
  rintro b q c ⟨rfl, h⟩ -
  cases c with
  | push x =>
    obtain ⟨b', hpush, hsize, h'⟩ := h.push x
    exact ⟨b', hpush, by rw [hsize], h'⟩
  | pop =>
    obtain ⟨b', hpop, hsize, h'⟩ := h.pop
    exact ⟨b', hpop, by rw [hsize], h'⟩

/-- **A bounded queue**: whatever is called, and however often, the calls return what those of a
queue do, nothing is lost, and the buffer's state tells how many elements there are. -/
theorem queue_run (buffer : List T) (capacity : UInt32) (calls : List (Call T))
    (hroom : buffer.length = capacity.toNat) :
    ∃ b q, runCalls call (init buffer capacity) calls =
        some ((answers (Queue.call capacity.toNat) [] calls).1, b) ∧
      q = (answers (Queue.call capacity.toNat) [] calls).2 ∧
      Queue.accepted calls (answers (Queue.call capacity.toNat) [] calls).1 =
        Queue.handedOut (answers (Queue.call capacity.toNat) [] calls).1 ++ q ∧
      b.getCount.toNat = q.length ∧ (b.isEmpty = true ↔ q = []) ∧
      (b.isFull = true ↔ q.length = capacity.toNat) ∧ q.length ≤ capacity.toNat := by
  obtain ⟨b, hrun, hsize, h⟩ := (simulates (T := T) capacity.toNat).run
    ⟨rfl, holds_init hroom⟩ (mayCall_true [] calls)
  refine ⟨b, _, hrun, rfl, Queue.accepted_eq capacity.toNat [] calls, h.count, h.isEmpty_iff, ?_,
    ?_⟩
  · rw [h.isFull_iff, hsize]
  · exact h.length_le.trans_eq hsize

theorem queue_run_two :
    ∃ b q, runCalls call (init [0, 0] 2) [.push 7, .push 8, .push 9, .pop] =
        some ((answers (Queue.call 2) [] [.push 7, .push 8, .push 9, .pop]).1, b) ∧
      q = (answers (Queue.call 2) [] [.push 7, .push 8, .push 9, .pop]).2 ∧
      Queue.accepted [.push 7, .push 8, .push 9, .pop]
          (answers (Queue.call 2) [] [.push 7, .push 8, .push 9, .pop]).1 =
        Queue.handedOut (answers (Queue.call 2) [] [.push 7, .push 8, .push 9, .pop]).1 ++ q ∧
      b.getCount.toNat = q.length ∧ (b.isEmpty = true ↔ q = []) ∧
      (b.isFull = true ↔ q.length = 2) ∧ q.length ≤ 2 :=
  queue_run [0, 0] 2 [.push 7, .push 8, .push 9, .pop] rfl

end CircularBuffer

end Lilu
