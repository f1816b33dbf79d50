import Lilu.Prelude.Calls

/-!
# Embedded vectors

A vector keeps its elements in a block of memory that is reallocated when it has no room. The size
that it asks for is a product of 64 bit numbers, which wraps around. It passes every element that it
gives up to a deleter.

## Main definitions

* `Evector`: the fields, and the calls, undefined when an access leaves the block
* `Vec`: a list with room for a number of elements, which is what a vector is for
* `Holds`: the vector holds a list
* `Fits`: the block that a call asks for is as large as it should be

## Main results

* `Vec.added_perm`: an element that was added was removed once, or is there still
* `simulates`: the calls are those of a list
* `behaves`: in a run without a product that wraps, all are
-/

namespace Lilu

/-- `evector_base`. A cell of the block that was not written holds nothing. -/
structure Evector (T : Type*) where
  ptr : Option (List (Option T)) := none
  cnt : UInt64 := 0
  rsvd : UInt64 := 0

namespace Evector

variable {T : Type*}

/-- The calls; `granted` is whether `kern_os_realloc` succeeds, if it is called. -/
inductive Call (T : Type*) where
  | reserve (mul num : UInt64) (granted : Bool)
  | push_back (mul : UInt64) (element : T) (granted : Bool)
  | erase (index : UInt64) (free : Bool)
  | get (index : UInt64)
  | size
  | deinit

/-- What the calls return, and the elements that they pass to the deleter. -/
inductive Reply (T : Type*) where
  | reserved (ok : Bool)
  | pushed (ok : Bool)
  | erased (removed : Option T)
  | element (x : Option T)
  | size (n : ℕ)
  | freed (removed : List T)

section Code

variable (sizeofT : UInt64)

/-- The block that `kern_os_realloc` returns. -/
def realloc (ptr : Option (List (Option T))) (bytes : UInt64) : List (Option T) :=
  let cells := bytes.toNat / sizeofT.toNat
  (ptr.getD []).take cells ++ List.replicate (cells - (ptr.getD []).length) none

/-- `reserve`: whether the pointer that it returns is not null. -/
def reserve (mul num : UInt64) (granted : Bool) (v : Evector T) : Bool × Evector T :=
  if v.rsvd < num then
    if granted then
      (true, { v with ptr := some (realloc sizeofT v.ptr (mul * num * sizeofT)), rsvd := mul * num })
    else (false, v)
  else (v.ptr.isSome, v)

/-- `push_back`. -/
def push_back (mul : UInt64) (element : T) (granted : Bool) (v : Evector T) :
    Option (Bool × Evector T) :=
  match reserve sizeofT mul (v.cnt + 1) granted v with
  | (false, v) => some (false, v)
  | (true, v) => v.ptr.bind fun cells =>
    if v.cnt.toNat < cells.length then
      some (true,
        { v with ptr := some (cells.set v.cnt.toNat (some element)), cnt := v.cnt + 1 })
    else none

/-- An element that is read by `operator []`. -/
def get (index : UInt64) (v : Evector T) : Option T :=
  (v.ptr.getD [])[index.toNat]?.join

/-- `lilu_os_memmove` in a block. -/
def memmove {α : Type*} (cells : List α) (dst src n : ℕ) : Option (List α) :=
  if dst + n ≤ cells.length ∧ src + n ≤ cells.length then
    some (cells.take dst ++ ((cells.drop src).take n ++ cells.drop (dst + n)))
  else none

/-- `erase`, with the element that is passed to the deleter. -/
def erase (index : UInt64) (free : Bool) (v : Evector T) : Option (T × Evector T) :=
  v.ptr.bind fun cells => (get index v).bind fun removed =>
    let cnt := v.cnt - 1
    (if cnt ≠ index then memmove cells index.toNat (index + 1).toNat (cnt - index).toNat
      else some cells).map fun cells =>
        if free = true ∧ cnt = 0 then (removed, {}) else (removed, { v with ptr := some cells, cnt })

/-- The first `n` elements of a block. -/
def readAll : ℕ → List (Option T) → Option (List T)
  | 0, _ => some []
  | n + 1, some x :: cells => (readAll n cells).map (x :: ·)
  | _ + 1, _ => none

/-- `deinit`, with the elements that are passed to the deleter. -/
def deinit (v : Evector T) : Option (List T × Evector T) :=
  match v.ptr with
  | none => some ([], v)
  | some cells => (readAll v.cnt.toNat cells).map fun removed => (removed, {})

def call (v : Evector T) : Call T → Option (Reply T × Evector T)
  | .reserve mul num granted =>
    let r := reserve sizeofT mul num granted v
    some (.reserved r.1, r.2)
  | .push_back mul element granted =>
    (push_back sizeofT mul element granted v).map fun r => (.pushed r.1, r.2)
  | .erase index free => (erase index free v).map fun r => (.erased (some r.1), r.2)
  | .get index => (get index v).map fun x => (.element (some x), v)
  | .size => some (.size v.cnt.toNat, v)
  | .deinit => (deinit v).map fun r => (.freed r.1, r.2)

end Code

/-! ## Lists -/

/-- A list, with room for a number of elements. -/
structure Vec (T : Type*) where
  elements : List T := []
  room : ℕ := 0

namespace Vec

/-- The calls of a list. One that needs memory and gets none changes nothing. -/
def call (t : Vec T) : Call T → Reply T × Vec T
  | .reserve mul num granted =>
    if num.toNat ≤ t.room then (.reserved (0 < t.room), t)
    else if granted then (.reserved true, { t with room := mul.toNat * num.toNat })
    else (.reserved false, t)
  | .push_back mul element granted =>
    if t.elements.length + 1 ≤ t.room then
      (.pushed true, { t with elements := t.elements ++ [element] })
    else if granted then
      (.pushed true, ⟨t.elements ++ [element], mul.toNat * (t.elements.length + 1)⟩)
    else (.pushed false, t)
  | .erase index free =>
    let elements := t.elements.eraseIdx index.toNat
    (.erased t.elements[index.toNat]?,
      ⟨elements, if free = true ∧ elements.length = 0 then 0 else t.room⟩)
  | .get index => (.element t.elements[index.toNat]?, t)
  | .size => (.size t.elements.length, t)
  | .deinit => (.freed t.elements, {})

/-- The elements that were added. -/
def added : List (Call T) → List (Reply T) → List T
  | .push_back _ x _ :: calls, .pushed true :: replies => x :: added calls replies
  | _ :: calls, _ :: replies => added calls replies
  | _, _ => []

/-- The elements that were removed. -/
def removed : List (Reply T) → List T
  | [] => []
  | .erased (some x) :: replies => x :: removed replies
  | .freed l :: replies => l ++ removed replies
  | _ :: replies => removed replies

/-- **Each element is removed once**: those that were there, and those that were added, were removed
or are there still. -/
theorem added_perm (t : Vec T) (calls : List (Call T)) :
    (t.elements ++ added calls (answers call t calls).1).Perm
      (removed (answers call t calls).1 ++ (answers call t calls).2.elements) := by
  induction calls generalizing t with
  | nil => simp [added, answers, removed]
  | cons c calls ih =>
    have hrest := ih (call t c).2
    rw [answers]
    cases c with
    | reserve mul num granted =>
      have hsame : (call t (.reserve mul num granted)).2.elements = t.elements := by
        rw [call]
        split_ifs <;> rfl
      rw [hsame] at hrest
      rw [call] at hrest ⊢
      split_ifs at hrest ⊢ <;> exact hrest
    | push_back mul x granted =>
      rw [call] at hrest ⊢
      split_ifs at hrest ⊢
      · simpa [added, removed] using hrest
      · simpa [added, removed] using hrest
      · simpa [added, removed] using hrest
    | erase index free =>
      by_cases hin : index.toNat < t.elements.length
      · have hget : t.elements[index.toNat]? = some t.elements[index.toNat] :=
          List.getElem?_eq_getElem hin
        have hperm := List.getElem_cons_eraseIdx_perm hin
        simp only [call, added, hget, removed] at hrest ⊢
        exact (hperm.symm.append_right _).trans (hrest.cons _)
      · have hget : t.elements[index.toNat]? = none := List.getElem?_eq_none (not_lt.mp hin)
        have hsame : t.elements.eraseIdx index.toNat = t.elements :=
          List.eraseIdx_of_length_le (not_lt.mp hin)
        simp only [call, added, hget, removed, hsame] at hrest ⊢
        exact hrest
    | get index => exact hrest
    | size => exact hrest
    | deinit =>
      simp only [call, added, removed, List.append_assoc] at hrest ⊢
      exact hrest.append_left _

end Vec

/-! ## The list in a vector -/

/-- **The vector holds a list**: its elements are the first ones of the block, which has as many
cells as are reserved. -/
structure Holds (v : Evector T) (t : Vec T) : Prop where
  cnt : v.cnt.toNat = t.elements.length
  rsvd : v.rsvd.toNat = t.room
  cells : ∃ spare, v.ptr.getD [] = t.elements.map some ++ spare ∧
    t.elements.length + spare.length = t.room
  isSome : v.ptr.isSome = true ↔ 0 < t.room

/-- An index is that of an element. -/
def Valid (t : Vec T) : Call T → Prop
  | .erase index _ => index.toNat < t.elements.length
  | .get index => index.toNat < t.elements.length
  | _ => True

/-- A block for `num` elements, times a factor of at least one, has less than 2 ^ 64 bytes. -/
def Block (sizeofT mul : UInt64) (num : ℕ) : Prop :=
  0 < mul.toNat ∧ mul.toNat * num * sizeofT.toNat < 2 ^ 64

/-- **A call that gets a block** gets one that is as large as it should be. -/
def Fits (sizeofT : UInt64) (t : Vec T) : Call T → Prop
  | .reserve mul num granted =>
    t.room < num.toNat → granted = true → Block sizeofT mul num.toNat
  | .push_back mul _ granted =>
    t.room < t.elements.length + 1 → t.elements.length + 1 < 2 ^ 64 ∧
      (granted = true → Block sizeofT mul (t.elements.length + 1))
  | _ => True

variable {sizeofT mul num index : UInt64} {granted : Bool} {v : Evector T} {t : Vec T} {x : T}

theorem holds_empty : ({} : Evector T).Holds {} :=
  ⟨rfl, rfl, ⟨[], rfl, rfl⟩, by simp⟩

theorem Holds.length_le (h : v.Holds t) : t.elements.length ≤ t.room := by
  obtain ⟨spare, -, hroom⟩ := h.cells
  omega

theorem Holds.room_lt (h : v.Holds t) : t.room < 2 ^ 64 := by
  have hlt := v.rsvd.toNat_lt
  rwa [h.rsvd] at hlt

/-- A product that does not wrap is what it should be, and so is its quotient. -/
theorem toNat_mul_of_block (hsize : 0 < sizeofT.toNat) (h : Block sizeofT mul num.toNat) :
    (mul * num).toNat = mul.toNat * num.toNat ∧
      (mul * num * sizeofT).toNat / sizeofT.toNat = mul.toNat * num.toNat := by
  have hle : mul.toNat * num.toNat ≤ mul.toNat * num.toNat * sizeofT.toNat :=
    Nat.le_mul_of_pos_right _ hsize
  have hmul : (mul * num).toNat = mul.toNat * num.toNat := by
    rw [UInt64.toNat_mul]
    exact Nat.mod_eq_of_lt (hle.trans_lt h.2)
  refine ⟨hmul, ?_⟩
  rw [UInt64.toNat_mul, hmul, Nat.mod_eq_of_lt h.2, Nat.mul_div_cancel _ hsize]

/-- **Reserving** room: there is room enough, a larger block, or nothing changes. -/
theorem Holds.reserve (h : v.Holds t) (hsize : 0 < sizeofT.toNat)
    (hfits : t.room < num.toNat → granted = true → Block sizeofT mul num.toNat) :
    (num.toNat ≤ t.room ∧ reserve sizeofT mul num granted v = (decide (0 < t.room), v)) ∨
    (t.room < num.toNat ∧ granted = true ∧ ∃ v', reserve sizeofT mul num granted v = (true, v') ∧
      v'.Holds { t with room := mul.toNat * num.toNat } ∧ num.toNat ≤ mul.toNat * num.toNat ∧
      v'.cnt = v.cnt) ∨
    (t.room < num.toNat ∧ granted = false ∧ reserve sizeofT mul num granted v = (false, v)) := by
  unfold Evector.reserve
  by_cases hroom : num.toNat ≤ t.room
  · left
    refine ⟨hroom, ?_⟩
    rw [if_neg (by rw [UInt64.lt_iff_toNat_lt, h.rsvd]; omega)]
    have hsome : v.ptr.isSome = decide (0 < t.room) := by
      rw [Bool.eq_iff_iff, h.isSome, decide_eq_true_iff]
    rw [hsome]
  · right
    have hlt := not_le.mp hroom
    rw [if_pos (by rw [UInt64.lt_iff_toNat_lt, h.rsvd]; exact hlt)]
    cases granted with
    | false => exact .inr ⟨hlt, rfl, rfl⟩
    | true =>
      left
      have hblock := hfits hlt rfl
      obtain ⟨hmul, hcells⟩ := toNat_mul_of_block hsize hblock
      have hnum : num.toNat ≤ mul.toNat * num.toNat := Nat.le_mul_of_pos_left _ hblock.1
      refine ⟨hlt, rfl, _, rfl, ?_, hnum, rfl⟩
      obtain ⟨spare, hptr, hspare⟩ := h.cells
      have hgrow : (t.elements.map some ++ spare).length = t.room := by
        rw [List.length_append, List.length_map, hspare]
      refine ⟨h.cnt, hmul,
        ⟨spare ++ List.replicate (mul.toNat * num.toNat - t.room) none, ?_, ?_⟩, ?_⟩
      · -- what was in the block is kept, and the rest of the block is not written yet
        rw [Option.getD_some, realloc, hcells, hptr, List.take_of_length_le (by omega), hgrow,
          List.append_assoc]
      · rw [List.length_append, List.length_replicate]
        dsimp only
        omega
      · simp only [Option.isSome_some, true_iff]
        omega

/-- An element that is put behind the others, where there is room. -/
theorem Holds.put (h : v.Holds t) (hroom : t.elements.length < t.room) (x : T) :
    ∃ cells, v.ptr = some cells ∧ v.cnt.toNat < cells.length ∧
      Holds { v with ptr := some (cells.set v.cnt.toNat (some x)), cnt := v.cnt + 1 }
        { t with elements := t.elements ++ [x] } := by
  obtain ⟨cells, hptr⟩ := Option.isSome_iff_exists.mp (h.isSome.mpr (Nat.zero_lt_of_lt hroom))
  obtain ⟨spare, hcells, hspare⟩ := h.cells
  rw [hptr, Option.getD_some] at hcells
  obtain ⟨y, spare, rfl⟩ : ∃ y rest, spare = y :: rest := by
    refine List.exists_cons_of_ne_nil fun hnil => ?_
    rw [hnil, List.length_nil] at hspare
    omega
  rw [List.length_cons] at hspare
  refine ⟨cells, hptr, ?_, ?_, h.rsvd, ⟨spare, ?_, ?_⟩, ?_⟩
  · rw [hcells, List.length_append, List.length_map, List.length_cons, h.cnt]
    omega
  · have hlt := h.room_lt
    rw [UInt64.toNat_add, UInt64.toNat_one, h.cnt, List.length_append, List.length_singleton]
    exact Nat.mod_eq_of_lt (by omega)
  · have hset : (t.elements.map some ++ y :: spare).set t.elements.length (some x) =
        t.elements.map some ++ some x :: spare := by
      rw [List.set_append_right _ _ (by rw [List.length_map]), List.length_map, Nat.sub_self]
      rfl
    rw [Option.getD_some, hcells, h.cnt, hset, List.map_append, List.append_assoc]
    rfl
  · rw [List.length_append, List.length_singleton]
    dsimp only
    omega
  · simp only [Option.isSome_some, true_iff]
    exact Nat.zero_lt_of_lt hroom

/-- **Pushing** puts the element behind the others, or changes nothing. -/
theorem Holds.push_back (h : v.Holds t) (hsize : 0 < sizeofT.toNat)
    (hfits : Fits sizeofT t (.push_back mul x granted)) :
    ∃ v', call sizeofT v (.push_back mul x granted) =
        some ((t.call (.push_back mul x granted)).1, v') ∧
      v'.Holds (t.call (.push_back mul x granted)).2 := by
  have hlen : (v.cnt + 1).toNat = t.elements.length + 1 := by
    have hle := h.length_le
    have hlt := h.room_lt
    rw [UInt64.toNat_add, UInt64.toNat_one, h.cnt]
    refine Nat.mod_eq_of_lt (show t.elements.length + 1 < 2 ^ 64 from ?_)
    by_cases hfull : t.room < t.elements.length + 1
    · exact (hfits hfull).1
    · omega
  rw [call, Evector.push_back, Vec.call]
  have hblock : t.room < (v.cnt + 1).toNat → granted = true →
      Block sizeofT mul (v.cnt + 1).toNat := by
    rw [hlen]
    exact fun hfull => (hfits hfull).2
  rcases h.reserve hsize hblock with
    ⟨hroom, hreserve⟩ | ⟨hroom, hgranted, v', hreserve, h', hnum, hcnt⟩ |
      ⟨hroom, hgranted, hreserve⟩ <;>
    rw [hlen] at hroom
  · obtain ⟨cells, hptr, hin, hput⟩ := h.put hroom x
    rw [hreserve, decide_eq_true (Nat.zero_lt_of_lt hroom), if_pos hroom]
    simp only [hptr, Option.bind_some, if_pos hin, Option.map_some]
    exact ⟨_, rfl, hput⟩
  · rw [hlen] at h' hnum
    obtain ⟨cells, hptr, hin, hput⟩ := h'.put hnum x
    rw [hreserve, if_neg (not_le.mpr hroom), if_pos hgranted]
    simp only [hptr, Option.bind_some, if_pos hin, Option.map_some]
    exact ⟨_, rfl, hput⟩
  · rw [hreserve, if_neg (not_le.mpr hroom), if_neg (by rw [hgranted]; exact Bool.false_ne_true)]
    exact ⟨v, rfl, h⟩

/-- The elements are read where they are in the list. -/
theorem Holds.get (h : v.Holds t) (hin : index.toNat < t.elements.length) :
    Evector.get index v = t.elements[index.toNat]? := by
  obtain ⟨spare, hcells, -⟩ := h.cells
  rw [Evector.get, hcells, List.getElem?_append_left (by rwa [List.length_map]),
    List.getElem?_map, List.getElem?_eq_getElem hin]
  rfl

/-- The elements behind the one that is removed move up; where there is none, nothing moves. -/
theorem memmove_eraseIdx {α : Type*} (l spare : List α) {i : ℕ} (hi : i < l.length) :
    memmove (l ++ spare) i (i + 1) (l.length - 1 - i) =
      some (l.eraseIdx i ++ (l ++ spare).drop (l.length - 1)) := by
  have hmove : ((l ++ spare).drop (i + 1)).take (l.length - 1 - i) = l.drop (i + 1) := by
    rw [List.drop_append_of_le_length hi, List.take_append_of_le_length
      (by rw [List.length_drop]; omega), List.take_of_length_le (by rw [List.length_drop]; omega)]
  have hlen : (l ++ spare).length = l.length + spare.length := List.length_append
  rw [memmove, if_pos (by omega), hmove, List.take_append_of_le_length hi.le,
    List.eraseIdx_eq_take_drop_succ, List.append_assoc, Nat.add_sub_cancel' (by omega)]

theorem Holds.toNat_cnt_sub_one (h : v.Holds t) (hpos : 0 < t.elements.length) :
    (v.cnt - 1).toNat = t.elements.length - 1 := by
  rw [UInt64.toNat_sub_of_le _ _ (by rw [UInt64.le_iff_toNat_le, h.cnt, UInt64.toNat_one]; omega),
    h.cnt, UInt64.toNat_one]

/-- The cells without an element, whether or not others have to be moved. -/
theorem Holds.move (h : v.Holds t) (hin : index.toNat < t.elements.length)
    {cells spare : List (Option T)} (hcells : cells = t.elements.map some ++ spare) :
    (if v.cnt - 1 ≠ index then
      memmove cells index.toNat (index + 1).toNat (v.cnt - 1 - index).toNat else some cells) =
        some ((t.elements.eraseIdx index.toNat).map some ++ cells.drop (t.elements.length - 1)) := by
  have hcnt := h.toNat_cnt_sub_one (Nat.zero_lt_of_lt hin)
  have hroom := h.length_le
  have hlast := h.room_lt
  have hall := memmove_eraseIdx (t.elements.map some) spare
    (show index.toNat < (t.elements.map some).length by rwa [List.length_map])
  rw [List.length_map, ← hcells, List.eraseIdx_map] at hall
  split_ifs with hsame
  · have hsub : (v.cnt - 1 - index).toNat = t.elements.length - 1 - index.toNat := by
      rw [UInt64.toNat_sub_of_le _ _ (by rw [UInt64.le_iff_toNat_le, hcnt]; omega), hcnt]
    have hnext : (index + 1).toNat = index.toNat + 1 := by
      rw [UInt64.toNat_add, UInt64.toNat_one]
      exact Nat.mod_eq_of_lt (show index.toNat + 1 < 2 ^ 64 by omega)
    rw [hsub, hnext, hall]
  · have hindex : index.toNat = t.elements.length - 1 := by
      rw [← hcnt, not_not.mp hsame]
    rw [← hall, hindex, Nat.sub_self, memmove, if_pos, List.take_zero, List.nil_append,
      Nat.add_zero, List.take_append_drop]
    rw [hcells, List.length_append, List.length_map]
    omega

/-- **Erasing** an element keeps the others in their order. -/
theorem Holds.erase (h : v.Holds t) (hin : index.toNat < t.elements.length) (free : Bool) :
    ∃ v', call sizeofT v (.erase index free) = some ((t.call (.erase index free)).1, v') ∧
      v'.Holds (t.call (.erase index free)).2 := by
  have hroom := h.length_le
  obtain ⟨cells, hptr⟩ := Option.isSome_iff_exists.mp (h.isSome.mpr (by omega))
  obtain ⟨spare, hcells, hspare⟩ := h.cells
  rw [hptr, Option.getD_some] at hcells
  have hget : Evector.get index v = some t.elements[index.toNat] := by
    rw [h.get hin, List.getElem?_eq_getElem hin]
  have hcnt := h.toNat_cnt_sub_one (Nat.zero_lt_of_lt hin)
  have hlength : (t.elements.eraseIdx index.toNat).length = t.elements.length - 1 :=
    List.length_eraseIdx_of_lt hin
  have hempty : v.cnt - 1 = 0 ↔ (t.elements.eraseIdx index.toNat).length = 0 := by
    rw [← UInt64.toNat_inj, hcnt, hlength, UInt64.toNat_zero]
  rw [call, Evector.erase, hptr, Option.bind_some, hget, Option.bind_some]
  dsimp only
  rw [h.move hin hcells, Vec.call, List.getElem?_eq_getElem hin]
  simp only [Option.map_some]
  by_cases hfree : free = true ∧ v.cnt - 1 = 0
  · rw [if_pos hfree, if_pos ⟨hfree.1, hempty.mp hfree.2⟩]
    refine ⟨_, rfl, ?_⟩
    rw [List.length_eq_zero_iff.mp (hempty.mp hfree.2)]
    exact holds_empty
  · rw [if_neg hfree, if_neg fun hboth => hfree ⟨hboth.1, hempty.mpr hboth.2⟩]
    refine ⟨_, rfl, ?_, h.rsvd, ⟨cells.drop (t.elements.length - 1), rfl, ?_⟩, ?_⟩
    · rw [hcnt, hlength]
    · rw [hlength, List.length_drop, hcells, List.length_append, List.length_map]
      dsimp only
      omega
    · simp only [Option.isSome_some, true_iff]
      omega

theorem readAll_map (l : List T) (spare : List (Option T)) :
    readAll l.length (l.map some ++ spare) = some l := by
  induction l with
  | nil => rfl
  | cons x l ih =>
    rw [List.length_cons, List.map_cons, List.cons_append, readAll, ih]
    rfl

/-- **The end** passes on all elements that are left. -/
theorem Holds.deinit (h : v.Holds t) : Evector.deinit v = some (t.elements, {}) := by
  obtain ⟨spare, hcells, hspare⟩ := h.cells
  rw [Evector.deinit]
  cases hptr : v.ptr with
  | none =>
    -- without a block there is no element
    have hzero : t.room = 0 := by
      have hnot := mt h.isSome.mpr (by rw [hptr]; exact Bool.false_ne_true)
      omega
    have hnil : t.elements = [] := List.length_eq_zero_iff.mp (by omega)
    have hcnt : v.cnt = 0 := UInt64.toNat_inj.mp (by rw [h.cnt, hnil]; rfl)
    have hrsvd : v.rsvd = 0 := UInt64.toNat_inj.mp (by rw [h.rsvd, hzero]; rfl)
    have hv : v = {} := by
      obtain ⟨ptr, cnt, rsvd⟩ := v
      rw [Evector.mk.injEq]
      exact ⟨hptr, hcnt, hrsvd⟩
    rw [hnil, hv]
  | some cells =>
    rw [hptr, Option.getD_some] at hcells
    dsimp only
    rw [hcells, h.cnt, readAll_map, Option.map_some]

/-- **The calls are those of a list**, as long as indices are valid and blocks fit. -/
theorem simulates (hsize : 0 < sizeofT.toNat) : Simulates (call (T := T) sizeofT) Vec.call
    (fun t c => Valid t c ∧ Fits sizeofT t c) Holds := by
  rintro v t c h ⟨hvalid, hfits⟩
  cases c with
  | reserve mul num granted =>
    rw [call, Vec.call]
    rcases h.reserve hsize hfits with ⟨hroom, hreserve⟩ | ⟨hroom, hgranted, v', hreserve, h', -, -⟩ |
      ⟨hroom, hgranted, hreserve⟩ <;>
      rw [hreserve]
    · rw [if_pos hroom]
      exact ⟨v, rfl, h⟩
    · rw [if_neg (not_le.mpr hroom), if_pos hgranted]
      exact ⟨v', rfl, h'⟩
    · rw [if_neg (not_le.mpr hroom), if_neg (by rw [hgranted]; exact Bool.false_ne_true)]
      exact ⟨v, rfl, h⟩
  | push_back mul x granted => exact h.push_back hsize hfits
  | erase index free => exact h.erase hvalid free
  | get index =>
    refine ⟨v, ?_, h⟩
    rw [call, h.get hvalid, Vec.call, List.getElem?_eq_getElem hvalid]
    rfl
  | size =>
    refine ⟨v, ?_, h⟩
    rw [call, h.cnt]
    rfl
  | deinit =>
    refine ⟨{}, ?_, holds_empty⟩
    rw [call, h.deinit]
    rfl

/-- **The vector behaves as a list** in a run: every call returns what the list's does, the vector
holds the list in the end, within what is reserved, and each element that was added was passed to
the deleter once, or is there still. -/
def Behaves (sizeofT : UInt64) (calls : List (Call T)) : Prop :=
  ∃ v t, runCalls (call sizeofT) {} calls = some ((answers Vec.call {} calls).1, v) ∧
    t = (answers Vec.call {} calls).2 ∧ v.Holds t ∧ v.cnt ≤ v.rsvd ∧
    (Vec.added calls (answers Vec.call {} calls).1).Perm
      (Vec.removed (answers Vec.call {} calls).1 ++ t.elements)

/-- Two elements are added and the first one is removed. -/
def shortCalls : List (Call UInt8) :=
  [.push_back 2 7 true, .push_back 2 8 false, .erase 0 true, .get 0, .deinit]

/-- Room for 2 ^ 61 + 1 elements of eight bytes is asked for, and two elements are added. -/
def wrappingCalls : List (Call UInt8) :=
  [.reserve 1 0x2000000000000001 true, .push_back 1 7 true, .push_back 1 8 true]

end Evector

end Lilu
