import Lilu.Compression.Decoder

/-!
# What the output of the decoder depends on

Where each byte of the output comes from, a literal or a ring cell, is told by the code alone. The
last cells of the ring are not initialised, and until the decoder has written to them a copy hands
out what the stack held there.

## Main definitions

* `Origin`: a literal, or a ring cell
* `units`: the tokens of a stream, well-formed or not
* `origins`: where the bytes that a stream stands for come from
* `ReadsWritten`: every copied byte within the destination comes from a cell that is initialised

## Main results

* `decompressLzss_eq`: the decoder stores the origins of its input one after the other
* `independent_iff`: the output is free of the stack exactly when all copies read written cells
-/

namespace Lilu.Compression

open Function

/-! ## The tokens of a stream -/

/-- The unit that the lowest flag announces, with the input after it. -/
def unit (flags : ℕ) (src : List UInt8) : Option (Token UInt8 × ℕ × List UInt8) :=
  if flags &&& 1 ≠ 0 then
    match src with
    | [] => none
    | c :: src => some (.lit c, flags, src)
  else
    match src with
    | i :: j :: src =>
      some (.copy (i.toNat ||| ((j.toNat &&& 0xF0) <<< 4)) ((j.toNat &&& 0x0F) + THRESHOLD + 1),
        flags, src)
    | _ => none

/-- The next unit, after the next flag byte if the last one is used up. -/
def nextUnit (flags : ℕ) (src : List UInt8) : Option (Token UInt8 × ℕ × List UInt8) :=
  if flags >>> 1 &&& 0x100 = 0 then
    match src with
    | [] => none
    | c :: src => unit (c.toNat ||| 0xFF00) src
  else unit (flags >>> 1) src

theorem length_unit {flags flags' : ℕ} {src src' : List UInt8} {t : Token UInt8}
    (h : unit flags src = some (t, flags', src')) : src'.length < src.length := by
  unfold unit at h
  split_ifs at h with hflag
  · rcases src with _ | ⟨c, src⟩ <;> cases h
    exact Nat.lt_succ_self _
  · rcases src with _ | ⟨i, _ | ⟨j, src⟩⟩ <;> cases h
    exact (Nat.lt_succ_self _).trans (Nat.lt_succ_self _)

theorem length_nextUnit {flags flags' : ℕ} {src src' : List UInt8} {t : Token UInt8}
    (h : nextUnit flags src = some (t, flags', src')) : src'.length < src.length := by
  unfold nextUnit at h
  split_ifs at h with hcount
  · rcases src with _ | ⟨c, src⟩
    · cases h
    · exact (length_unit h).trans (Nat.lt_succ_self _)
  · exact length_unit h

/-- The tokens of a stream, up to the unit that the input ends in. -/
def units (flags : ℕ) (src : List UInt8) : List (Token UInt8) :=
  match h : nextUnit flags src with
  | none => []
  | some (t, flags', src') =>
    have := length_nextUnit h
    t :: units flags' src'
termination_by src.length

theorem units_of_none {flags : ℕ} {src : List UInt8} (h : nextUnit flags src = none) :
    units flags src = [] := by
  rw [units]
  split
  · rfl
  · next heq => rw [h] at heq; cases heq

theorem units_of_some {flags flags' : ℕ} {src src' : List UInt8} {t : Token UInt8}
    (h : nextUnit flags src = some (t, flags', src')) :
    units flags src = t :: units flags' src' := by
  rw [units]
  split
  · next heq => rw [h] at heq; cases heq
  · next heq =>
    rw [h] at heq
    cases heq
    rfl

/-! ## Origins -/

/-- Where a byte of the output comes from. -/
inductive Origin where
  | lit (c : UInt8)
  | cell (i : ℕ)
  deriving DecidableEq

/-- The bytes of a copy come from consecutive ring cells. -/
def tokenOrigins : Token UInt8 → List Origin
  | .lit c => [.lit c]
  | .copy pos len => (List.range len).map fun k => .cell ((pos + k) &&& (RBSIZE - 1))

/-- Where the bytes that a stream stands for come from. -/
def origins (src : List UInt8) : List Origin :=
  (units 0 src).flatMap tokenOrigins

/-- The byte at an origin. -/
def Origin.byte (textBuf : ℕ → UInt8) : Origin → UInt8
  | .lit c => c
  | .cell i => textBuf i

/-- Store the byte of an origin, unless the destination is full. -/
def DecodeState.store (dstlen : ℕ) (st : DecodeState) (o : Origin) : DecodeState :=
  if st.dst.length < dstlen then st.emit (o.byte st.textBuf) else st

/-- **Initialised reads**: of the cells that spaces do not fill, a copy within the destination
reads only those that the bytes before it were written to. -/
def ReadsWritten (dstlen : ℕ) (src : List UInt8) : Prop :=
  ∀ k i, k < dstlen → (origins src)[k]? = some (.cell i) → i < RBSIZE - UPLIM + k

/-! ## The decoder stores origins -/

variable (dstlen : ℕ) {st st' : DecodeState}

theorem foldl_store_of_full (h : dstlen ≤ st.dst.length) (os : List Origin) :
    os.foldl (DecodeState.store dstlen) st = st := by
  induction os with
  | nil => rfl
  | cons o os ih => rw [List.foldl_cons, DecodeState.store, if_neg (by omega), ih]

/-- A copy stores the cells that it names. -/
theorem copyBytes_eq_foldl (i : ℕ) : ∀ (n k : ℕ) (st : DecodeState),
    copyBytes dstlen i n k st =
      ((List.range' k n).map fun k => Origin.cell ((i + k) &&& (RBSIZE - 1))).foldl
        (DecodeState.store dstlen) st := by
  intro n
  induction n with
  | zero => exact fun _ _ => rfl
  | succ n ih =>
    intro k st
    rw [copyBytes, List.range'_succ, List.map_cons, List.foldl_cons, DecodeState.store]
    by_cases hroom : st.dst.length < dstlen
    · rw [if_pos hroom, if_pos hroom, ih]
      rfl
    · rw [if_neg hroom, if_neg hroom, foldl_store_of_full dstlen (not_lt.mp hroom)]

/-- Without a unit the decoder stops. -/
theorem decodeUnit_of_none (h : unit st.flags st.src = none) :
    decodeUnit dstlen st = .leave st.dst := by
  unfold unit at h
  unfold decodeUnit
  by_cases hflag : st.flags &&& 1 ≠ 0
  · rw [if_pos hflag] at h ⊢
    rcases hsrc : st.src with _ | ⟨c, src⟩
    · rfl
    · rw [hsrc] at h
      cases h
  · rw [if_neg hflag] at h ⊢
    rcases hsrc : st.src with _ | ⟨i, _ | ⟨j, src⟩⟩
    · rfl
    · rfl
    · rw [hsrc] at h
      cases h

/-- A unit stores its origins; only a literal without room for it ends the loop. -/
theorem decodeUnit_of_some {t : Token UInt8} {flags : ℕ} {src : List UInt8}
    (h : unit st.flags st.src = some (t, flags, src)) :
    decodeUnit dstlen st =
        .again ((tokenOrigins t).foldl (DecodeState.store dstlen) { st with flags, src }) ∨
      decodeUnit dstlen st = .leave st.dst ∧ dstlen ≤ st.dst.length := by
  unfold unit at h
  unfold decodeUnit
  by_cases hflag : st.flags &&& 1 ≠ 0
  · rw [if_pos hflag] at h ⊢
    rcases hsrc : st.src with _ | ⟨c, src⟩ <;> rw [hsrc] at h
    · cases h
    · cases h
      by_cases hroom : st.dst.length < dstlen
      · left
        simp only [if_pos hroom]
        exact congrArg Turn.again (if_pos hroom).symm
      · right
        exact ⟨if_neg hroom, not_lt.mp hroom⟩
  · rw [if_neg hflag] at h ⊢
    rcases hsrc : st.src with _ | ⟨i, _ | ⟨j, src⟩⟩ <;> rw [hsrc] at h
    · cases h
    · cases h
    · cases h
      left
      simp only [copyBytes_eq_foldl, ← List.range_eq_range']
      rfl

theorem decodeTurn_of_none (h : nextUnit st.flags st.src = none) :
    decodeTurn dstlen st = .leave st.dst := by
  unfold nextUnit at h
  unfold decodeTurn
  by_cases hcount : st.flags >>> 1 &&& 0x100 = 0
  · rw [if_pos hcount] at h
    simp only [if_pos hcount]
    rcases hsrc : st.src with _ | ⟨c, src⟩
    · rfl
    · rw [hsrc] at h
      exact decodeUnit_of_none dstlen h
  · rw [if_neg hcount] at h
    simp only [if_neg hcount]
    exact decodeUnit_of_none dstlen h

theorem decodeTurn_of_some {t : Token UInt8} {flags : ℕ} {src : List UInt8}
    (h : nextUnit st.flags st.src = some (t, flags, src)) :
    decodeTurn dstlen st =
        .again ((tokenOrigins t).foldl (DecodeState.store dstlen) { st with flags, src }) ∨
      decodeTurn dstlen st = .leave st.dst ∧ dstlen ≤ st.dst.length := by
  unfold nextUnit at h
  unfold decodeTurn
  by_cases hcount : st.flags >>> 1 &&& 0x100 = 0
  · rw [if_pos hcount] at h
    simp only [if_pos hcount]
    rcases hsrc : st.src with _ | ⟨c, src⟩ <;> rw [hsrc] at h
    · cases h
    · exact decodeUnit_of_some dstlen h
  · rw [if_neg hcount] at h
    simp only [if_neg hcount]
    exact decodeUnit_of_some dstlen h

/-- Flags and input play no part in storing. -/
theorem foldl_store_with (flags : ℕ) (src : List UInt8) (os : List Origin) (st : DecodeState) :
    os.foldl (DecodeState.store dstlen) { st with flags, src } =
      { os.foldl (DecodeState.store dstlen) st with flags, src } := by
  induction os generalizing st with
  | nil => rfl
  | cons o os ih =>
    have hstore : DecodeState.store dstlen { st with flags, src } o =
        { DecodeState.store dstlen st o with flags, src } := by
      unfold DecodeState.store
      by_cases hroom : st.dst.length < dstlen
      · simp only [if_pos hroom]
        rfl
      · simp only [if_neg hroom]
    rw [List.foldl_cons, List.foldl_cons, hstore, ih]

/-- The loop stores what the rest of the stream stands for. -/
theorem loop_decodeTurn_eq (fuel : ℕ) {st : DecodeState} (hfuel : st.src.length < fuel) :
    loop (decodeTurn dstlen) fuel st = some
      (((units st.flags st.src).flatMap tokenOrigins).foldl (DecodeState.store dstlen) st).dst := by
  induction fuel generalizing st with
  | zero => exact absurd hfuel (Nat.not_lt_zero _)
  | succ fuel ih =>
    rcases hnext : nextUnit st.flags st.src with _ | ⟨t, flags, src⟩
    · rw [loop_succ_leave (decodeTurn_of_none dstlen hnext), units_of_none hnext]
      rfl
    · have hless := length_nextUnit hnext
      rw [units_of_some hnext, List.flatMap_cons, List.foldl_append]
      -- A full destination ends the loop at a literal only, but a copy that follows would store
      -- nothing either.
      rcases decodeTurn_of_some dstlen hnext with hturn | ⟨hturn, hfull⟩
      · rw [foldl_store_with] at hturn
        rw [loop_succ_again hturn, ih (hless.trans_le (Nat.le_of_lt_succ hfuel)), foldl_store_with]
      · rw [loop_succ_leave hturn, foldl_store_of_full dstlen hfull, foldl_store_of_full dstlen hfull]

/-- The state that the decoder starts in. -/
def DecodeState.start (stack : ℕ → UInt8) : DecodeState :=
  ⟨fun i => if i < RBSIZE - UPLIM then 32 else stack i, RBSIZE - UPLIM, 0, [], []⟩

/-- **What the decoder computes**: it stores the origins of its input one after the other. -/
theorem decompressLzss_eq (stack : ℕ → UInt8) (dstlen : ℕ) (src : List UInt8) :
    decompressLzss stack dstlen src =
      some ((origins src).foldl (DecodeState.store dstlen) (.start stack)).dst := by
  have hrun : decompressLzss stack dstlen src = some ((origins src).foldl
      (DecodeState.store dstlen) { DecodeState.start stack with flags := 0, src }).dst :=
    loop_decodeTurn_eq dstlen _ (Nat.lt_succ_self _)
  rw [hrun, foldl_store_with]

/-! ## Cells that are written to -/

/-- `k` bytes after the start the decoder stands `k` cells further, and the cells from there to the
end of the ring are untouched. -/
structure Stands (stack : ℕ → UInt8) (k : ℕ) (st : DecodeState) : Prop where
  dst : st.dst.length = k
  r : st.r = (RBSIZE - UPLIM + k) % RBSIZE
  ring : ∀ i, RBSIZE - UPLIM + k ≤ i → i < RBSIZE → st.textBuf i = stack i

variable {dstlen} {stack stack' : ℕ → UInt8} {k : ℕ}

theorem stands_start (stack : ℕ → UInt8) : Stands stack 0 (.start stack) :=
  ⟨rfl, by simp [DecodeState.start, RBSIZE, UPLIM], fun i hi _ => if_neg (not_lt.mpr hi)⟩

theorem Stands.store (h : Stands stack k st) (hroom : k < dstlen) (o : Origin) :
    Stands stack (k + 1) (st.store dstlen o) := by
  rw [DecodeState.store, if_pos (h.dst.symm ▸ hroom)]
  refine ⟨?_, ?_, ?_⟩
  · simp only [DecodeState.emit, List.length_append, List.length_singleton, h.dst]
  · show (st.r + 1) &&& (RBSIZE - 1) = (RBSIZE - UPLIM + (k + 1)) % RBSIZE
    rw [h.r, succ_mod]
    rfl
  · intro i hi hi'
    have hne : i ≠ st.r := by
      rw [h.r, Nat.mod_eq_of_lt (by omega)]
      omega
    show update st.textBuf st.r _ i = stack i
    rw [update_of_ne hne]
    exact h.ring i (by omega) hi'

theorem Stands.foldl {os : List Origin} (h : Stands stack k st) (hroom : k + os.length ≤ dstlen) :
    Stands stack (k + os.length) (os.foldl (DecodeState.store dstlen) st) := by
  induction os generalizing k st with
  | nil => exact h
  | cons o os ih =>
    rw [List.length_cons, Nat.add_comm os.length, ← Nat.add_assoc] at hroom ⊢
    have hroom' : k < dstlen := by omega
    exact ih (h.store hroom' o) hroom

/-- What is stored stays. -/
theorem prefix_foldl_store (dstlen : ℕ) (os : List Origin) (st : DecodeState) :
    st.dst <+: (os.foldl (DecodeState.store dstlen) st).dst := by
  induction os generalizing st with
  | nil => exact List.prefix_rfl
  | cons o os ih =>
    refine List.IsPrefix.trans ?_ (ih _)
    unfold DecodeState.store
    by_cases hroom : st.dst.length < dstlen
    · rw [if_pos hroom]
      exact List.prefix_append ..
    · rw [if_neg hroom]

/-- A byte from a cell that nothing was written to is a byte of the stack. -/
theorem getElem?_foldl_store {os : List Origin} {i : ℕ} (hroom : k < dstlen)
    (ho : os[k]? = some (.cell i)) (hi : RBSIZE - UPLIM + k ≤ i) (hi' : i < RBSIZE) :
    (os.foldl (DecodeState.store dstlen) (.start stack)).dst[k]? = some (stack i) := by
  obtain ⟨hk, hget⟩ := List.getElem?_eq_some_iff.mp ho
  -- The run is cut at the byte in question; what comes before has not reached its cell.
  have hlen : (os.take k).length = k := List.length_take_of_le hk.le
  have hstands : Stands stack (0 + (os.take k).length)
      ((os.take k).foldl (DecodeState.store dstlen) (.start stack)) :=
    (stands_start stack).foldl (by omega)
  rw [hlen, Nat.zero_add] at hstands
  rw [← List.take_append_drop k os, List.foldl_append, List.drop_eq_getElem_cons hk,
    List.foldl_cons, hget]
  set st := (os.take k).foldl (DecodeState.store dstlen) (.start stack)
  have hst : (st.store dstlen (.cell i)).dst = st.dst ++ [stack i] := by
    rw [DecodeState.store, if_pos (hstands.dst.symm ▸ hroom)]
    show st.dst ++ [st.textBuf i] = st.dst ++ [stack i]
    rw [hstands.ring i hi hi']
  obtain ⟨rest, hrest⟩ := prefix_foldl_store dstlen (os.drop (k + 1))
    (st.store dstlen (.cell i))
  rw [← hrest, hst, List.append_assoc, List.getElem?_append_right hstands.dst.le, hstands.dst,
    Nat.sub_self]
  rfl

/-! ## Two runs -/

/-- Two states with the same output and the same bytes in the cells that are initialised, `k` bytes
after the start. -/
structure Alike (k : ℕ) (st st' : DecodeState) : Prop where
  dst : st.dst = st'.dst
  length : st.dst.length = k
  r : st.r = st'.r
  stand : st.r = (RBSIZE - UPLIM + k) % RBSIZE
  ring : ∀ i < RBSIZE - UPLIM + k, i < RBSIZE → st.textBuf i = st'.textBuf i

theorem alike_start (stack stack' : ℕ → UInt8) : Alike 0 (.start stack) (.start stack') :=
  ⟨rfl, rfl, rfl, by simp [DecodeState.start, RBSIZE, UPLIM],
    fun _ hi _ => (if_pos hi).trans (if_pos hi).symm⟩

/-- A byte from an initialised cell keeps two states alike. -/
theorem Alike.store (h : Alike k st st') (hroom : k < dstlen) {o : Origin}
    (ho : ∀ i, o = .cell i → i < RBSIZE - UPLIM + k ∧ i < RBSIZE) :
    Alike (k + 1) (st.store dstlen o) (st'.store dstlen o) := by
  have hbyte : o.byte st.textBuf = o.byte st'.textBuf := by
    cases o with
    | lit c => rfl
    | cell i => exact h.ring i (ho i rfl).1 (ho i rfl).2
  have hroom' : st.dst.length < dstlen := h.length.symm ▸ hroom
  rw [DecodeState.store, DecodeState.store, if_pos hroom', if_pos (h.dst ▸ hroom'), ← hbyte]
  refine ⟨?_, ?_, ?_, ?_, ?_⟩
  · simp only [DecodeState.emit, h.dst]
  · simp only [DecodeState.emit, List.length_append, List.length_singleton, h.length]
  · simp only [DecodeState.emit, h.r]
  · show (st.r + 1) &&& (RBSIZE - 1) = (RBSIZE - UPLIM + (k + 1)) % RBSIZE
    rw [h.stand, succ_mod]
    rfl
  · intro i hi hi'
    simp only [DecodeState.emit, ← h.r]
    by_cases hir : i = st.r
    · rw [hir, update_self, update_self]
    -- Any other cell that is initialised now was initialised before.
    · have hne : i ≠ RBSIZE - UPLIM + k := by
        rintro rfl
        exact hir (h.stand.trans (Nat.mod_eq_of_lt hi')).symm
      rw [update_of_ne hir, update_of_ne hir]
      exact h.ring i (by omega) hi'

/-- Reads of initialised cells keep two runs alike, and what does not fit is not read. -/
theorem Alike.foldl {os : List Origin} (h : Alike k st st')
    (hos : ∀ j i, k + j < dstlen → os[j]? = some (.cell i) →
      i < RBSIZE - UPLIM + (k + j) ∧ i < RBSIZE) :
    (os.foldl (DecodeState.store dstlen) st).dst = (os.foldl (DecodeState.store dstlen) st').dst := by
  induction os generalizing k st st' with
  | nil => exact h.dst
  | cons o os ih =>
    by_cases hroom : k < dstlen
    · refine ih (h.store hroom fun i ho => hos 0 i hroom (congrArg some ho)) fun j i hj hget => ?_
      have := hos (j + 1) i (by omega) hget
      rwa [Nat.add_right_comm, Nat.add_assoc]
    · have hfull : dstlen ≤ st.dst.length := h.length.symm ▸ not_lt.mp hroom
      rw [foldl_store_of_full dstlen hfull, foldl_store_of_full dstlen (h.dst ▸ hfull), h.dst]

/-- A copy names cells of the ring. -/
theorem lt_of_cell_mem_origins {src : List UInt8} {i : ℕ} (h : .cell i ∈ origins src) :
    i < RBSIZE := by
  obtain ⟨t, -, ht⟩ := List.mem_flatMap.mp h
  cases t with
  | lit c => simp [tokenOrigins] at ht
  | copy pos len =>
    obtain ⟨k, -, hk⟩ := List.mem_map.mp ht
    obtain rfl := Origin.cell.inj hk
    rw [land_mask]
    exact Nat.mod_lt _ (by simp [RBSIZE])

/-- **The output is free of the stack** exactly when every copy within the destination reads cells
that are initialised. -/
theorem independent_iff (dstlen : ℕ) (src : List UInt8) :
    (∀ stack stack', decompressLzss stack dstlen src = decompressLzss stack' dstlen src) ↔
      ReadsWritten dstlen src := by
  constructor
  · intro h k i hk ho
    by_contra hi
    have hi' := lt_of_cell_mem_origins (List.mem_of_getElem? ho)
    -- Two stacks with different bytes throughout differ in this byte of the output.
    have hout : ∀ b, ((origins src).foldl (DecodeState.store dstlen)
        (.start fun _ => b)).dst[k]? = some b :=
      fun b => getElem?_foldl_store hk ho (not_lt.mp hi) hi'
    have heq := h (fun _ => 0) fun _ => 1
    rw [decompressLzss_eq, decompressLzss_eq] at heq
    have hzero := hout 0
    rw [Option.some.inj heq, hout 1] at hzero
    exact absurd hzero (by decide)
  · intro h stack stack'
    rw [decompressLzss_eq, decompressLzss_eq, (alike_start stack stack').foldl]
    intro j i hj ho
    rw [Nat.zero_add] at hj ⊢
    exact ⟨h j i hj ho, lt_of_cell_mem_origins (List.mem_of_getElem? ho)⟩

/-- A single copy from the cells after the spaces hands out three bytes of the stack. -/
theorem not_independent_stack :
    ¬ ∀ stack stack', decompressLzss stack 3 [0, 0xEE, 0xF0] =
      decompressLzss stack' 3 [0, 0xEE, 0xF0] := by
  intro h
  exact absurd (h (fun _ => 0) fun _ => 1) (by decide)

end Lilu.Compression
