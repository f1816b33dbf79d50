import Lilu.Compression.Format

/-!
# The LZSS encoder

The encoder slides a window of 4096 positions over the text, with a lookahead of up to 18 bytes. A
turn of its main loop sends the next code unit, flushes a full group of eight, and moves the window
by the unit's length, one byte at a time while there is input and then without reading.

## Main definitions

* `Scan`, `CodeBuf`: the window with the input left, and the code buffer with the output
* `compressTurn`, `encodeLzss`: the main loop and the function around it
* `Synced`: the window's state at a position of the text

## Main results

* `Synced.sendUnit`, `Synced.slide`: a turn sends a token for the next bytes and moves past them
* `encodeLzss_spec`: the output is the stream of a parse of the input, as far as it fits
-/

namespace Lilu.Compression

open Function

/-- The sliding window: the trees with the ring buffer, the input that was not read, the position
of the string to send and of the next byte to read, and the lookahead's length. -/
structure Scan where
  sp : EncodeState
  src : List UInt8
  r : ℕ
  s : ℕ
  len : ℕ

/-- The code buffer: the flags (`code_buf[0]`), the flag to set next, the units behind the flags;
and what was stored to the destination. -/
structure CodeBuf where
  flags : UInt8
  mask : UInt8
  units : List UInt8
  dst : List UInt8

/-- An empty code buffer. -/
def CodeBuf.start (dst : List UInt8) : CodeBuf := ⟨0, 1, [], dst⟩

/-- Store bytes to a destination of `dstlen` bytes until it is full. -/
def store (dstlen : ℕ) : List UInt8 → List UInt8 → List UInt8 × Bool
  | dst, [] => (dst, true)
  | dst, c :: cs => if dst.length < dstlen then store dstlen (dst ++ [c]) cs else (dst, false)

/-- Read up to `n` bytes of input behind the `len` bytes of the lookahead at `r`. -/
def fillLookahead (r : ℕ) : ℕ → ℕ → EncodeState → List UInt8 → ℕ × EncodeState × List UInt8
  | 0, len, sp, src => (len, sp, src)
  | _ + 1, len, sp, [] => (len, sp, [])
  | n + 1, len, sp, c :: src =>
    fillLookahead r n (len + 1) { sp with textBuf := update sp.textBuf (r + len) c } src

/-- Insert the `n` strings at `r - i`, `r - i - 1` and so on. -/
def insertStrings (r : ℕ) : ℕ → ℕ → EncodeState → Option EncodeState
  | 0, _, sp => some sp
  | n + 1, i, sp => do
    let sp ← insertNode sp (r - i)
    insertStrings r n (i + 1) sp

/-- Write a byte to the ring buffer; the first bytes are mirrored behind its end, which makes the
comparison of strings easier. -/
def EncodeState.put (sp : EncodeState) (s : ℕ) (c : UInt8) : EncodeState :=
  let sp := { sp with textBuf := update sp.textBuf s c }
  if s < UPLIM - 1 then { sp with textBuf := update sp.textBuf (s + RBSIZE) c } else sp

/-- Slide the window by up to `n` bytes while there is input: delete the oldest string, read a
byte over it and insert the string at the new position. Also returns how many bytes are left. -/
def readAhead : ℕ → Scan → Option (ℕ × Scan)
  | 0, st => some (0, st)
  | n + 1, st =>
    match st.src with
    | [] => some (n + 1, st)
    | c :: src => do
      let sp ← deleteNode st.sp st.s
      let sp := sp.put st.s c
      let s := (st.s + 1) &&& (RBSIZE - 1)
      let r := (st.r + 1) &&& (RBSIZE - 1)
      let sp ← insertNode sp r
      readAhead n ⟨sp, src, r, s, st.len⟩

/-- Slide the window by `n` bytes after the end of the text. -/
def drain : ℕ → Scan → Option Scan
  | 0, st => some st
  | n + 1, st => do
    let sp ← deleteNode st.sp st.s
    let s := (st.s + 1) &&& (RBSIZE - 1)
    let r := (st.r + 1) &&& (RBSIZE - 1)
    let len := st.len - 1
    let sp ← if len ≠ 0 then insertNode sp r else some sp
    drain n ⟨sp, st.src, r, s, len⟩

/-- Put the next unit into the code buffer: the byte at `r`, or the match found for it. Short
matches are sent as one byte. -/
def sendUnit (st : Scan) (cb : CodeBuf) : Scan × CodeBuf :=
  -- the match may be spuriously long near the end of the text
  let matchLength := if st.sp.matchLength > st.len then st.len else st.sp.matchLength
  if matchLength ≤ THRESHOLD then
    ({ st with sp := { st.sp with matchLength := 1 } },
      { cb with flags := cb.flags ||| cb.mask, units := cb.units ++ [st.sp.textBuf st.r] })
  else
    ({ st with sp := { st.sp with matchLength := matchLength } },
      { cb with
        units := cb.units ++ [UInt8.ofNat st.sp.matchPosition,
          UInt8.ofNat (((st.sp.matchPosition >>> 4) &&& 0xF0) |||
            (matchLength - (THRESHOLD + 1)))] })

/-- Eight units of code are sent together, when the flag has left the mask. Also returns whether
the destination had room for them. -/
def flushGroup (dstlen : ℕ) (cb : CodeBuf) : CodeBuf × Bool :=
  if cb.mask = 0 then
    let (dst, fits) := store dstlen cb.dst (cb.flags :: cb.units)
    if fits then (CodeBuf.start dst, true) else ({ cb with dst }, false)
  else (cb, true)

/-- One turn of the main loop. It is left with the state, what was stored and whether all of it
fit, or with `none` if a loop of the trees did not end. -/
def compressTurn (dstlen : ℕ) (st : Scan × CodeBuf) :
    Turn (Scan × CodeBuf) (Option (EncodeState × List UInt8 × Bool)) :=
  let (sc, cb) := sendUnit st.1 st.2
  let (cb, fits) := flushGroup dstlen { cb with mask := cb.mask <<< 1 }
  if fits then
    match (do
      let (left, sc) ← readAhead sc.sp.matchLength sc
      drain left sc) with
    | none => .leave none
    | some sc =>
      if sc.len > 0 then .again (sc, cb)
      else if cb.units ≠ [] then .leave (some (sc.sp, store dstlen cb.dst (cb.flags :: cb.units)))
      else .leave (some (sc.sp, cb.dst, true))
  else .leave (some (sc.sp, cb.dst, false))

/-- `compress_lzss` with its state allocated: the final state, the bytes stored to the destination,
and whether the result is a success. `none` would be a run that does not end. -/
def encodeLzss (dstlen : ℕ) (src : List UInt8) : Option (EncodeState × List UInt8 × Bool) :=
  let r := RBSIZE - UPLIM
  let (len, sp, rest) := fillLookahead r UPLIM 0 initState src
  if len = 0 then some (sp, [], false)
  else do
    let sp ← insertStrings r UPLIM 1 sp
    let sp ← insertNode sp r
    (loop (compressTurn dstlen) (src.length + 1) (⟨sp, rest, r, 0, len⟩, CodeBuf.start [])).join

/-! ## The window over the text -/

/-- The text that the window slides over: spaces, and from position 4078 on the input. -/
def inputText (src : List UInt8) (a : ℕ) : UInt8 :=
  if a < RBSIZE - UPLIM then 32 else src.getD (a - (RBSIZE - UPLIM)) 0

/-- Some ring position is not a node of a tree. -/
def EncodeState.HasGap (sp : EncodeState) : Prop :=
  ∃ x < RBSIZE, ¬ sp.Linked x

/-- The encoder's arrays at the position `R` of a text that ends at `E`: the ring buffer holds the
window and the lookahead, the mirror agrees with it, and the nodes are positions of the window
below `top`. -/
structure Window (V : ℕ → UInt8) (E R top : ℕ) (sp : EncodeState) : Prop where
  wellLinked : sp.WellLinked
  ring : HoldsWindow sp.textBuf RBSIZE V (R + UPLIM - RBSIZE) (min (R + UPLIM) E)
  mirror : ∀ a, R + UPLIM ≤ a + RBSIZE → a < min (R + UPLIM) E → RBSIZE ≤ a →
    a % RBSIZE < UPLIM - 1 → sp.textBuf (a % RBSIZE + RBSIZE) = V a
  nodes : ∀ x, sp.Linked x → ∃ P, R + UPLIM ≤ P + RBSIZE ∧ P < top ∧ P % RBSIZE = x

/-- The match that the last insertion found is a match in the text. -/
def Found (V : ℕ → UInt8) (E R : ℕ) (sp : EncodeState) : Prop :=
  sp.matchLength ≤ UPLIM ∧ (0 < sp.matchLength → ∃ P, R + UPLIM ≤ P + RBSIZE ∧ P < R ∧
    sp.matchPosition = P % RBSIZE ∧
    ∀ k < sp.matchLength, R + k < E → V (P + k) = V (R + k))

/-- The window has reached the position `R`. -/
structure Synced (V : ℕ → UInt8) (E R : ℕ) (sc : Scan) : Prop where
  window : Window V E R (R + 1) sc.sp
  src : sc.src = segment V (R + UPLIM) E
  r : sc.r = R % RBSIZE
  s : sc.s = (R + UPLIM) % RBSIZE
  len : sc.len = min UPLIM (E - R)

variable {V : ℕ → UInt8} {E R top : ℕ} {sp sp' : EncodeState}

/-- The nodes of the trees are positions of the window at `R` below `top`. -/
def NodesIn (R top : ℕ) (sp : EncodeState) : Prop :=
  ∀ x, sp.Linked x → ∃ P, R + UPLIM ≤ P + RBSIZE ∧ P < top ∧ P % RBSIZE = x

namespace NodesIn

theorem mono (h : NodesIn R top sp) {top' : ℕ} (hle : top ≤ top') : NodesIn R top' sp := by
  intro x hx
  obtain ⟨P, hlo, hlt, hP⟩ := h x hx
  exact ⟨P, hlo, hlt.trans_le hle, hP⟩

/-- The cell of the next string is no node. -/
theorem not_linked (h : NodesIn R R sp) : ¬ sp.Linked (R % RBSIZE) := by
  intro hx
  obtain ⟨P, hlo, hlt, hP⟩ := h _ hx
  exact mod_ne_of_close hlt (by simp only [UPLIM, RBSIZE] at *; omega) hP

/-- Nor is the cell of the next byte, once its old string was deleted. -/
theorem not_linked_next (h : NodesIn (R + 1) (R + 1) sp) : ¬ sp.Linked ((R + UPLIM) % RBSIZE) := by
  intro hx
  obtain ⟨P, hlo, hlt, hP⟩ := h _ hx
  exact mod_ne_of_close (by simp only [UPLIM]; omega) (by omega) hP

theorem insert (h : NodesIn R R sp) (hins : Inserted sp (R % RBSIZE) sp') :
    NodesIn R (R + 1) sp' := by
  intro x hx
  rcases (hins.linked x).mp hx with ⟨hx, -⟩ | rfl
  · exact h.mono (Nat.le_succ R) x hx
  · exact ⟨R, by simp only [UPLIM, RBSIZE]; omega, Nat.lt_succ_self R, rfl⟩

/-- The deleted string is the one at the window's far end. -/
theorem delete (h : NodesIn R (R + 1) sp) (hdel : Deleted sp ((R + UPLIM) % RBSIZE) sp') :
    NodesIn (R + 1) (R + 1) sp' := by
  intro x hx
  obtain ⟨hx, hne⟩ := (hdel.linked x).mp hx
  obtain ⟨P, hlo, hlt, rfl⟩ := h x hx
  refine ⟨P, ?_, hlt, rfl⟩
  rcases hlo.eq_or_lt with heq | hlt'
  · rw [heq, Nat.add_mod_right] at hne
    exact absurd rfl hne
  · omega

end NodesIn

namespace Window

/-- Strings of the lookahead's length read the text, in the ring or in its mirror. -/
theorem read (h : Window V E R top sp) {a k : ℕ} (ha : R + UPLIM ≤ a + RBSIZE) (haR : a ≤ R)
    (hk : k < UPLIM) (hE : a + k < E) : sp.textBuf (a % RBSIZE + k) = V (a + k) := by
  have hring := h.ring (a + k) (by omega) (by simp only [UPLIM] at *; omega)
  have hmirror := h.mirror (a + k) (by omega) (by simp only [UPLIM] at *; omega)
  simp only [RBSIZE, UPLIM] at *
  by_cases hwrap : a % 4096 + k < 4096
  · rwa [show (a + k) % 4096 = a % 4096 + k by omega] at hring
  · -- the string runs over the end of the ring
    have hmod : (a + k) % 4096 + 4096 = a % 4096 + k := by omega
    rw [← hmod]
    exact hmirror (by omega) (by omega)

/-- Some ring position is no node: the next string's, if nothing behind the window is one. -/
theorem hasGap (h : Window V E R top sp) (htop : top ≤ R + 1) : sp.HasGap := by
  refine ⟨(R + 1) % RBSIZE, Nat.mod_lt _ (by simp [RBSIZE]), fun hx => ?_⟩
  obtain ⟨P, hlo, hlt, hP⟩ := h.nodes _ hx
  exact mod_ne_of_close (by omega) (by simp only [UPLIM, RBSIZE] at *; omega) hP

/-- **Inserting the string at the window's position** finds a match in the text. -/
theorem insert (h : Window V E R R sp) : ∃ sp', insertNode sp (R % RBSIZE) = some sp' ∧
    Window V E R (R + 1) sp' ∧ Found V E R sp' := by
  have hr : R % RBSIZE < RBSIZE := Nat.mod_lt _ (by simp [RBSIZE])
  have hnodes : NodesIn R R sp := h.nodes
  obtain ⟨sp', hsp', hins⟩ := insertNode_spec h.wellLinked hr hnodes.not_linked
  refine ⟨sp', hsp', ⟨hins.wellLinked, ?_, ?_, hnodes.insert hins⟩, hins.length, ?_⟩
  · rw [hins.text]
    exact h.ring
  · rw [hins.text]
    exact h.mirror
  · intro hpos
    obtain ⟨hlink, hmatch⟩ := hins.found hpos
    obtain ⟨P, hlo, hlt, hP⟩ := h.nodes _ hlink
    refine ⟨P, hlo, hlt, hP.symm, fun k hk hE => ?_⟩
    have hk' : k < UPLIM := hk.trans_le hins.length
    rw [← h.read hlo hlt.le hk' (by omega), hP, hmatch k hk,
      h.read (by simp only [UPLIM, RBSIZE]; omega) le_rfl hk' hE]

/-- Deleting the oldest string makes room for the next byte. -/
theorem delete (h : Window V E R (R + 1) sp) :
    ∃ sp', deleteNode sp ((R + UPLIM) % RBSIZE) = some sp' ∧ sp'.WellLinked ∧
      sp'.textBuf = sp.textBuf ∧ sp'.matchLength = sp.matchLength ∧
      NodesIn (R + 1) (R + 1) sp' := by
  have hs : (R + UPLIM) % RBSIZE < RBSIZE := Nat.mod_lt _ (by simp [RBSIZE])
  obtain ⟨sp', hsp', hdel⟩ := deleteNode_spec h.wellLinked hs
  exact ⟨sp', hsp', hdel.wellLinked, hdel.text, hdel.matchLength, NodesIn.delete h.nodes hdel⟩

end Window

/-- Reading a byte leaves the trees alone. -/
theorem linked_put (sp : EncodeState) (s : ℕ) (c : UInt8) (x : ℕ) :
    (sp.put s c).Linked x ↔ sp.Linked x := by
  unfold EncodeState.put
  split_ifs <;> rfl

theorem EncodeState.WellLinked.put (h : sp.WellLinked) {s : ℕ} (hs : s < RBSIZE)
    (hout : ¬ sp.Linked s) (c : UInt8) : (sp.put s c).WellLinked := by
  obtain ⟨depth, hf⟩ := h
  have hlinks : (sp.put s c).toLinks = sp.toLinks := by
    unfold EncodeState.put
    split_ifs <;> rfl
  have htext : ∀ x, x < RBSIZE → x ≠ s → (sp.put s c).textBuf x = sp.textBuf x := by
    intro x hx hne
    unfold EncodeState.put
    split_ifs
    · show update (update sp.textBuf s c) (s + RBSIZE) c x = _
      rw [update_of_ne (by omega), update_of_ne hne]
    · exact update_of_ne hne _ _
  refine ⟨depth, ?_⟩
  rw [hlinks]
  refine hf.congr_tree (fun x hx => ?_) (fun x hx => by rw [treeOf_of_head hx, treeOf_of_head hx])
  rw [treeOf_of_lt hx.1, treeOf_of_lt hx.1, htext x hx.1]
  rintro rfl
  exact hout hx

namespace Window

/-- **Sliding with input**: delete the oldest string and read a byte over it. -/
theorem read_ahead (h : Window V E R (R + 1) sp) (hR : RBSIZE ≤ R + UPLIM) (hE : R + UPLIM < E) :
    ∃ sp', deleteNode sp ((R + UPLIM) % RBSIZE) = some sp' ∧
      sp'.matchLength = sp.matchLength ∧
      Window V E (R + 1) (R + 1) (sp'.put ((R + UPLIM) % RBSIZE) (V (R + UPLIM))) := by
  have hs : (R + UPLIM) % RBSIZE < RBSIZE := Nat.mod_lt _ (by simp [RBSIZE])
  obtain ⟨sp', hsp', hwell, htext, hlen, hnodes⟩ := h.delete
  have hout := hnodes.not_linked_next
  have hlinks := linked_put sp' ((R + UPLIM) % RBSIZE) (V (R + UPLIM))
  have hbuf : ∀ x, (sp'.put ((R + UPLIM) % RBSIZE) (V (R + UPLIM))).textBuf x =
      if (R + UPLIM) % RBSIZE < UPLIM - 1 ∧ x = (R + UPLIM) % RBSIZE + RBSIZE then V (R + UPLIM)
      else update sp.textBuf ((R + UPLIM) % RBSIZE) (V (R + UPLIM)) x := by
    intro x
    unfold EncodeState.put
    rw [← htext]
    split_ifs <;> simp_all
  refine ⟨sp', hsp', hlen, hwell.put hs hout _, ?_, ?_, fun x hx => hnodes x ((hlinks x).mp hx)⟩
  · have hring : HoldsWindow sp.textBuf RBSIZE V (R + UPLIM - RBSIZE) (R + UPLIM) :=
      h.ring.mono le_rfl (by omega)
    have hpush : HoldsWindow (update sp.textBuf ((R + UPLIM) % RBSIZE) (V (R + UPLIM))) RBSIZE V
        (R + 1 + UPLIM - RBSIZE) (R + UPLIM + 1) :=
      hring.push (by omega) (by simp only [RBSIZE, UPLIM] at *; omega)
    intro a ha ha'
    have hx : a % RBSIZE < RBSIZE := Nat.mod_lt _ (by simp [RBSIZE])
    rw [hbuf, if_neg (by omega)]
    exact hpush a ha (by omega)
  · intro a ha ha' hwrap hlow
    rw [hbuf]
    by_cases heq : a = R + UPLIM
    · rw [heq] at hlow ⊢
      rw [if_pos ⟨hlow, rfl⟩]
    · have hne : a % RBSIZE ≠ (R + UPLIM) % RBSIZE := mod_ne_of_close (by omega) (by omega)
      rw [if_neg (by omega), update_of_ne (by omega)]
      exact h.mirror a (by omega) (by omega) hwrap hlow

/-- **Sliding after the end** of the text: the window only gets shorter. -/
theorem drain (h : Window V E R (R + 1) sp) (hR : RBSIZE ≤ R + UPLIM) (hE : E ≤ R + UPLIM) :
    ∃ sp', deleteNode sp ((R + UPLIM) % RBSIZE) = some sp' ∧ Window V E (R + 1) (R + 1) sp' := by
  obtain ⟨sp', hsp', hwell, htext, -, hnodes⟩ := h.delete
  refine ⟨sp', hsp', hwell, ?_, ?_, hnodes⟩
  · rw [htext]
    exact h.ring.mono (by omega) (by omega)
  · rw [htext]
    exact fun a ha ha' => h.mirror a (by omega) (by omega)

end Window

namespace Synced

/-- Sliding by `n` bytes reads `k` of them, and leaves the rest when the input has ended. -/
theorem readAhead : ∀ (n : ℕ) {R : ℕ} {sc : Scan}, RBSIZE ≤ R + UPLIM → Synced V E R sc →
    ∃ k left sc', readAhead n sc = some (left, sc') ∧ k + left = n ∧
      Synced V E (R + k) sc' ∧ (k ≠ 0 ∨ Found V E R sc.sp → Found V E (R + k) sc'.sp) ∧
      (left ≠ 0 → E ≤ R + k + UPLIM) := by
  intro n
  induction n with
  | zero => exact fun {R sc} _ h => ⟨0, 0, sc, rfl, rfl, h, by simp, by simp⟩
  | succ n ih =>
    intro R sc hR h
    rcases Nat.lt_or_ge (R + UPLIM) E with hE | hE
    · -- there is a byte to read
      obtain ⟨sp, hdel, -, hwin⟩ := h.window.read_ahead hR hE
      obtain ⟨sp', hins, hwin', hfound⟩ := hwin.insert
      have hsrc : sc.src = V (R + UPLIM) :: segment V (R + 1 + UPLIM) E := by
        rw [h.src, segment_cons V hE, Nat.add_right_comm]
      have hnext : Synced V E (R + 1) ⟨sp', segment V (R + 1 + UPLIM) E, (R + 1) % RBSIZE,
          (R + 1 + UPLIM) % RBSIZE, sc.len⟩ := by
        refine ⟨hwin', rfl, rfl, rfl, ?_⟩
        have := h.len
        simp only
        omega
      obtain ⟨k, left, sc', hrun, hk, hsync, hfound', hleft⟩ := ih (by omega) hnext
      have hsum : R + (k + 1) = R + 1 + k := by omega
      refine ⟨k + 1, left, sc', ?_⟩
      rw [hsum]
      refine ⟨?_, by omega, hsync, fun _ => hfound' (Or.inr hfound), hleft⟩
      rw [Compression.readAhead, hsrc]
      simp only [h.r, h.s, succ_mod, hdel, Option.bind_eq_bind, Option.bind_some, hins]
      rw [Nat.add_right_comm R UPLIM 1, hrun]
    · refine ⟨0, n + 1, sc, ?_, by omega, h, by simp, fun _ => by omega⟩
      rw [Compression.readAhead, h.src, segment_of_le V hE]

/-- Draining by `n` bytes of the lookahead. -/
theorem drain : ∀ (n : ℕ) {R : ℕ} {sc : Scan}, RBSIZE ≤ R + UPLIM → Synced V E R sc →
    (n ≠ 0 → E ≤ R + UPLIM) → R + n ≤ E →
    ∃ sc', drain n sc = some sc' ∧ (R + n < E → Synced V E (R + n) sc') ∧
      (n ≠ 0 ∨ Found V E R sc.sp → R + n < E → Found V E (R + n) sc'.sp) ∧
      sc'.len = min UPLIM (E - (R + n)) ∧ sc'.sp.HasGap := by
  intro n
  induction n with
  | zero =>
    exact fun {R sc} _ h _ _ =>
      ⟨sc, rfl, fun _ => h, by simp +contextual, h.len, h.window.hasGap le_rfl⟩
  | succ n ih =>
    intro R sc hR h hE hn
    have hend := hE (Nat.succ_ne_zero n)
    have hlen := h.len
    obtain ⟨sp, hdel, hwin⟩ := h.window.drain hR hend
    by_cases hlast : sc.len - 1 ≠ 0
    · obtain ⟨sp', hins, hwin', hfound⟩ := hwin.insert
      have hnext : Synced V E (R + 1) ⟨sp', sc.src, (R + 1) % RBSIZE, (R + 1 + UPLIM) % RBSIZE,
          sc.len - 1⟩ := by
        refine ⟨hwin', ?_, rfl, rfl, ?_⟩
        · rw [h.src, segment_of_le V hend, segment_of_le V (by omega)]
        · simp only
          omega
      obtain ⟨sc', hrun, hsync, hfound', hlen', hgap⟩ :=
        ih (by omega) hnext (fun _ => by omega) (by omega)
      have hsum : R + (n + 1) = R + 1 + n := by omega
      rw [hsum]
      refine ⟨sc', ?_, hsync, fun _ => hfound' (Or.inr hfound), hlen', hgap⟩
      rw [Compression.drain]
      simp only [h.r, h.s, succ_mod, hdel, Option.bind_eq_bind, Option.bind_some, hlast, if_true,
        ne_eq, not_false_eq_true, hins]
      rw [Nat.add_right_comm R UPLIM 1, hrun]
    · -- the last byte of the lookahead: nothing is inserted and the text ends here
      obtain rfl : n = 0 := by omega
      refine ⟨⟨sp, sc.src, (R + 1) % RBSIZE, (R + 1 + UPLIM) % RBSIZE, sc.len - 1⟩, ?_,
        fun hlt => by omega, fun _ hlt => by omega, by simp only; omega,
        hwin.hasGap (Nat.le_succ _)⟩
      rw [Compression.drain]
      simp only [h.r, h.s, succ_mod, hdel, Option.bind_eq_bind, Option.bind_some, hlast, if_false]
      rw [Nat.add_right_comm R UPLIM 1, Compression.drain]

/-- **Sliding by a unit** brings the window to the end of the unit, with a new match. -/
theorem slide {R : ℕ} {sc : Scan} (hR : RBSIZE ≤ R + UPLIM) (h : Synced V E R sc) {n : ℕ}
    (hn : R + n ≤ E) (hpos : 0 < n) :
    ∃ sc', (do
        let (left, sc) ← Compression.readAhead n sc
        Compression.drain left sc) = some sc' ∧
      (R + n < E → Synced V E (R + n) sc' ∧ Found V E (R + n) sc'.sp) ∧
      sc'.len = min UPLIM (E - (R + n)) ∧ sc'.sp.HasGap := by
  obtain ⟨k, left, sc', hread, hk, hsync, hfound, hleft⟩ := h.readAhead n hR
  obtain ⟨sc'', hdrain, hsync', hfound', hlen, hgap⟩ :=
    hsync.drain left (by omega) hleft (by omega)
  have hsum : R + k + left = R + n := by omega
  rw [hsum] at hsync' hfound' hlen
  refine ⟨sc'', by rw [hread]; exact hdrain, fun hlt => ⟨hsync' hlt, hfound' ?_ hlt⟩, hlen, hgap⟩
  by_cases hleft0 : left = 0
  · exact Or.inr (hfound (Or.inl (by omega)))
  · exact Or.inl hleft0

/-- **The next unit** is a token for the bytes at the window's position. -/
theorem sendUnit {R : ℕ} {sc : Scan} (h : Synced V E R sc) (hf : Found V E R sc.sp)
    (hE : R < E) : ∃ t n, 0 < n ∧ R + n ≤ E ∧ Sendable t ∧
      (∀ ts R', Parses V RBSIZE (RBSIZE - UPLIM) (R + n) ts R' →
        Parses V RBSIZE (RBSIZE - UPLIM) R (t :: ts) R') ∧
      ∀ cb, Compression.sendUnit sc cb =
        ({ sc with sp := { sc.sp with matchLength := n } },
          { cb with
            flags := if unitFlag t = 1 then cb.flags ||| cb.mask else cb.flags
            units := cb.units ++ unitBytes t }) := by
  have hlen := h.len
  have hnext : sc.sp.textBuf sc.r = V R := by
    have := h.window.ring R (by simp only [UPLIM, RBSIZE]; omega) (by simp only [UPLIM]; omega)
    rwa [h.r]
  by_cases hshort : (if sc.sp.matchLength > sc.len then sc.len else sc.sp.matchLength) ≤ THRESHOLD
  · refine ⟨.lit (V R), 1, Nat.one_pos, hE, trivial, fun ts R' hp => .lit hp, fun cb => ?_⟩
    simp only [Compression.sendUnit, hshort, if_true, unitFlag, unitBytes, hnext]
  · obtain ⟨hml, hpos⟩ := hf
    obtain ⟨P, hlo, hlt, hP, hV⟩ := hpos (by split_ifs at hshort <;> omega)
    set n := if sc.sp.matchLength > sc.len then sc.len else sc.sp.matchLength with hn
    have hnlen : n ≤ sc.len ∧ n ≤ sc.sp.matchLength := by
      rw [hn]
      split_ifs <;> omega
    refine ⟨.copy (P % RBSIZE) n, n, by omega, by omega, ⟨by omega, by omega⟩,
      fun ts R' hp => .copy hlt (by simp only [UPLIM, RBSIZE] at *; omega)
        (fun k hk => hV k (by omega) (by omega)) hp, fun cb => ?_⟩
    simp only [Compression.sendUnit, ← hn, hshort, if_false, unitFlag, unitBytes, hP, Nat.zero_ne_one]

end Synced

/-! ## The code buffer -/

/-- The code buffer holds the tokens `p` of an unfinished group. -/
structure CodeBuf.Holds (cb : CodeBuf) (p : List (Token UInt8)) : Prop where
  flags : cb.flags = UInt8.ofNat (flagBits p)
  mask : cb.mask = UInt8.ofNat (2 ^ p.length)
  units : cb.units = p.flatMap unitBytes
  short : p.length < 8

/-- What a destination gets of the code `out`: the part that fits, and whether that is all. -/
def fitted (dstlen : ℕ) (out : List UInt8) : List UInt8 × Bool :=
  (out.take dstlen, decide (out.length ≤ dstlen))

theorem store_eq (dstlen : ℕ) (cs : List UInt8) : ∀ {dst : List UInt8}, dst.length ≤ dstlen →
    store dstlen dst cs = fitted dstlen (dst ++ cs) := by
  unfold fitted
  induction cs with
  | nil =>
    intro dst h
    simp [store, h]
  | cons c cs ih =>
    intro dst h
    by_cases hroom : dst.length < dstlen
    · rw [store, if_pos hroom, ih (by simpa using hroom), List.append_assoc]
      rfl
    · obtain rfl : dst.length = dstlen := by omega
      simp [store]

namespace CodeBuf.Holds

variable {cb : CodeBuf} {p : List (Token UInt8)}

theorem start (dst : List UInt8) : (CodeBuf.start dst).Holds [] :=
  ⟨rfl, rfl, rfl, by simp⟩

theorem flags_add (h : cb.Holds p) (t : Token UInt8) :
    (if unitFlag t = 1 then cb.flags ||| cb.mask else cb.flags) =
      UInt8.ofNat (flagBits (p ++ [t])) := by
  have hlt := flagBits_lt p
  rw [flagBits_concat]
  cases t with
  | copy => simp [unitFlag, h.flags]
  | lit b =>
    have hor := Nat.two_pow_add_eq_or_of_lt hlt 1
    rw [Nat.mul_one, Nat.or_comm, Nat.add_comm] at hor
    rw [unitFlag, if_pos rfl, h.flags, h.mask, ← UInt8.ofNat_or, ← hor, Nat.one_mul]

/-- The bytes that are sent for the group. -/
theorem pack_eq (h : cb.Holds p) (t : Token UInt8) :
    (if unitFlag t = 1 then cb.flags ||| cb.mask else cb.flags) :: (cb.units ++ unitBytes t) =
      pack (p ++ [t]) := by
  rw [h.flags_add, h.units, pack, List.flatMap_append, List.flatMap_singleton]

theorem mask_shift (h : cb.Holds p) : cb.mask <<< 1 = UInt8.ofNat (2 ^ (p.length + 1)) := by
  rw [h.mask]
  have := h.short
  generalize p.length = n at this
  interval_cases n <;> rfl

theorem mask_shift_eq_zero (h : cb.Holds p) : cb.mask <<< 1 = 0 ↔ p.length = 7 := by
  rw [h.mask_shift]
  have := h.short
  generalize p.length = n at this
  interval_cases n <;> decide

theorem add (h : cb.Holds p) (t : Token UInt8) (hp : p.length ≠ 7) :
    CodeBuf.Holds ⟨if unitFlag t = 1 then cb.flags ||| cb.mask else cb.flags, cb.mask <<< 1,
      cb.units ++ unitBytes t, cb.dst⟩ (p ++ [t]) := by
  have := h.short
  refine ⟨h.flags_add t, ?_, ?_, ?_⟩
  · rw [h.mask_shift, List.length_append, List.length_singleton]
  · simp only [h.units, List.flatMap_append, List.flatMap_singleton]
  · rw [List.length_append, List.length_singleton]
    omega

/-- **Flushing** a group that the token `t` completes, or keeping it: the output and the code
buffer together stand for the same stream, and a destination that is full has all that fits. -/
theorem flush {dstlen : ℕ} (h : cb.Holds p) (hdst : cb.dst.length ≤ dstlen) (t : Token UInt8) :
    ∃ cb' fits, flushGroup dstlen ⟨if unitFlag t = 1 then cb.flags ||| cb.mask else cb.flags,
        cb.mask <<< 1, cb.units ++ unitBytes t, cb.dst⟩ = (cb', fits) ∧
      (fits = true → ∃ q, cb'.Holds q ∧ cb'.dst.length ≤ dstlen ∧
        ∀ ts, cb'.dst ++ stream (q ++ ts) = cb.dst ++ stream (p ++ t :: ts)) ∧
      (fits = false → ∀ ts, cb'.dst = (cb.dst ++ stream (p ++ t :: ts)).take dstlen ∧
        dstlen < (cb.dst ++ stream (p ++ t :: ts)).length) := by
  by_cases hp : p.length = 7
  · -- the group is complete
    have hstream : ∀ ts, stream (p ++ t :: ts) = pack (p ++ [t]) ++ stream ts := by
      intro ts
      have hg : (p ++ [t]).length = 8 := by simp [hp]
      rw [← stream_group hg, List.append_assoc, List.singleton_append]
    rw [flushGroup, if_pos (h.mask_shift_eq_zero.mpr hp), h.pack_eq t, store_eq _ _ hdst, fitted]
    by_cases hfits : (cb.dst ++ pack (p ++ [t])).length ≤ dstlen
    · refine ⟨CodeBuf.start (cb.dst ++ pack (p ++ [t])), true, ?_, fun _ => ?_, by simp⟩
      · simp only [hfits, decide_true, if_true, List.take_of_length_le hfits]
      · refine ⟨[], start _, hfits, fun ts => ?_⟩
        rw [hstream, List.nil_append, ← List.append_assoc]
        rfl
    · refine ⟨_, false, by simp only [hfits, decide_false, Bool.false_eq_true, if_false]; rfl,
        by simp, fun _ ts => ?_⟩
      rw [hstream, ← List.append_assoc]
      exact ⟨(List.take_append_of_le_length (by omega)).symm, by
        rw [List.length_append]
        omega⟩
  · refine ⟨_, true, by rw [flushGroup, if_neg fun he => hp (h.mask_shift_eq_zero.mp he)],
      fun _ => ⟨p ++ [t], h.add t hp, hdst, fun ts => ?_⟩, by simp⟩
    rw [List.append_assoc, List.singleton_append]

/-- What is left in the code buffer at the end of the text is sent as a shorter group. -/
theorem finish {dstlen : ℕ} (h : cb.Holds p) (hdst : cb.dst.length ≤ dstlen) :
    (if cb.units ≠ [] then store dstlen cb.dst (cb.flags :: cb.units) else (cb.dst, true)) =
      fitted dstlen (cb.dst ++ stream p) := by
  rw [fitted]
  cases hp : p with
  | nil => simp [h.units, hp, hdst]
  | cons t ts =>
    have hne : cb.units ≠ [] := by
      rw [h.units, hp]
      cases t <;> simp [unitBytes]
    have hpack : stream (t :: ts) = cb.flags :: cb.units := by
      rw [stream_short (hp ▸ h.short) (List.cons_ne_nil t ts), pack, h.flags, h.units, hp]
    rw [if_pos hne, store_eq _ _ hdst, fitted, hpack]

end CodeBuf.Holds

/-! ## The main loop -/

/-- **The main loop** sends a parse of the rest of the text, whatever the size of the destination
and the part of a group in the code buffer. -/
theorem loop_compressTurn : ∀ (m : ℕ) {R : ℕ} {sc : Scan}, E - R = m → RBSIZE ≤ R + UPLIM →
    R < E → Synced V E R sc → Found V E R sc.sp →
    ∃ ts, Parses V RBSIZE (RBSIZE - UPLIM) R ts E ∧ (∀ t ∈ ts, Sendable t) ∧
      ∀ dstlen cb p fuel, cb.Holds p → cb.dst.length ≤ dstlen → m ≤ fuel →
        ∃ sp, sp.HasGap ∧ loop (compressTurn dstlen) fuel (sc, cb) =
          some (some (sp, fitted dstlen (cb.dst ++ stream (p ++ ts)))) := by
  intro m
  induction m using Nat.strong_induction_on with
  | _ m ih =>
    intro R sc hm hR hE h hf
    obtain ⟨t, n, hn, hnE, hsend, hparse, hunit⟩ := h.sendUnit hf hE
    have h₁ : Synced V E R { sc with sp := { sc.sp with matchLength := n } } :=
      ⟨⟨h.window.wellLinked, h.window.ring, h.window.mirror, h.window.nodes⟩, h.src, h.r, h.s,
        h.len⟩
    have hgap₁ := h₁.window.hasGap le_rfl
    obtain ⟨sc', hslide, hsync, hlen, hgap⟩ := h₁.slide hR hnE hn
    have hturn : ∀ dstlen cb, compressTurn dstlen (sc, cb) =
        match flushGroup dstlen ⟨if unitFlag t = 1 then cb.flags ||| cb.mask else cb.flags,
          cb.mask <<< 1, cb.units ++ unitBytes t, cb.dst⟩ with
        | (cb, fits) =>
          if fits then
            if sc'.len > 0 then .again (sc', cb)
            else if cb.units ≠ [] then
              .leave (some (sc'.sp, store dstlen cb.dst (cb.flags :: cb.units)))
            else .leave (some (sc'.sp, cb.dst, true))
          else .leave (some ({ sc.sp with matchLength := n }, cb.dst, false)) := by
      intro dstlen cb
      simp only [compressTurn, hunit, hslide]
    by_cases hend : R + n = E
    · -- the text ends with this unit
      refine ⟨[t], hparse _ _ (hend ▸ .nil _), by simpa using hsend,
        fun dstlen cb p fuel hcb hdst hfuel => ?_⟩
      obtain ⟨fuel, rfl⟩ := Nat.exists_eq_succ_of_ne_zero (by omega : fuel ≠ 0)
      obtain ⟨cb', fits, hflush, hfits, hfull⟩ := hcb.flush hdst t
      have hlen0 : ¬ sc'.len > 0 := by omega
      cases fits with
      | true =>
        obtain ⟨q, hq, hqdst, hstream⟩ := hfits rfl
        have hfinish := hq.finish hqdst
        rw [← List.append_nil q, hstream []] at hfinish
        refine ⟨sc'.sp, hgap, loop_succ_leave ?_ fuel⟩
        rw [hturn, hflush]
        simp only [if_true, hlen0, if_false, ← hfinish]
        split_ifs <;> rfl
      | false =>
        obtain ⟨hdst', hlt⟩ := hfull rfl []
        refine ⟨{ sc.sp with matchLength := n }, hgap₁, loop_succ_leave ?_ fuel⟩
        rw [hturn, hflush, fitted]
        simp only [Bool.false_eq_true, if_false, hdst', hlt.not_ge, decide_false]
    · obtain ⟨hsync', hfound'⟩ := hsync (by omega)
      obtain ⟨ts, hts, hsends, hloop⟩ := ih (E - (R + n)) (by omega) rfl (by omega) (by omega)
        hsync' hfound'
      refine ⟨t :: ts, hparse _ _ hts, by simpa using ⟨hsend, hsends⟩,
        fun dstlen cb p fuel hcb hdst hfuel => ?_⟩
      obtain ⟨fuel, rfl⟩ := Nat.exists_eq_succ_of_ne_zero (by omega : fuel ≠ 0)
      obtain ⟨cb', fits, hflush, hfits, hfull⟩ := hcb.flush hdst t
      have hlenpos : sc'.len > 0 := by simp only [UPLIM] at hlen; omega
      cases fits with
      | true =>
        obtain ⟨q, hq, hqdst, hstream⟩ := hfits rfl
        have hagain : compressTurn dstlen (sc, cb) = .again (sc', cb') := by
          rw [hturn, hflush]
          simp only [if_true, hlenpos]
        rw [loop_succ_again hagain, ← hstream]
        exact hloop dstlen cb' q fuel hq hqdst (by omega)
      | false =>
        obtain ⟨hdst', hlt⟩ := hfull rfl ts
        refine ⟨{ sc.sp with matchLength := n }, hgap₁, loop_succ_leave ?_ fuel⟩
        rw [hturn, hflush, fitted]
        simp only [Bool.false_eq_true, if_false, hdst', hlt.not_ge, decide_false]

/-! ## The start of the text -/

theorem not_linked_initState (x : ℕ) : ¬ initState.Linked x := by
  rintro ⟨hx, hpar⟩
  exact hpar (if_pos hx)

theorem wellLinked_initState : initState.WellLinked := by
  refine ⟨fun _ => 0, ?_, ?_, ?_, ?_, ?_, ?_⟩
  · exact fun y hy => absurd hy (not_linked_initState y)
  · intro y hy hne
    rcases hy with hy | hy
    · exact absurd hy (not_linked_initState y)
    · exact absurd (if_pos ⟨hy.1, hy.2⟩) hne
  all_goals exact fun y hy => absurd hy (not_linked_initState y)

theorem segment_inputText (src : List UInt8) (k : ℕ) :
    segment (inputText src) (RBSIZE - UPLIM + k) (RBSIZE - UPLIM + src.length) = src.drop k := by
  refine List.ext_getElem (by simp; omega) fun i h1 h2 => ?_
  rw [List.length_drop] at h2
  have hpos : ¬ RBSIZE - UPLIM + k + i < RBSIZE - UPLIM := by omega
  have hidx : RBSIZE - UPLIM + k + i - (RBSIZE - UPLIM) = k + i := by omega
  simp only [segment, List.getElem_map, List.getElem_range', Nat.one_mul, List.getElem_drop,
    inputText, if_neg hpos, hidx]
  rw [List.getD_eq_getElem?_getD, List.getElem?_eq_getElem (by omega), Option.getD_some]

/-- The state with another ring buffer. -/
def EncodeState.withText (sp : EncodeState) (text : ℕ → UInt8) : EncodeState :=
  { sp with textBuf := text }

@[simp] theorem EncodeState.textBuf_withText (sp : EncodeState) (text : ℕ → UInt8) :
    (sp.withText text).textBuf = text := rfl

/-- Empty trees do not depend on the bytes in the ring buffer. -/
theorem EncodeState.WellLinked.withText (h : sp.WellLinked) (hout : ∀ x, ¬ sp.Linked x)
    (text : ℕ → UInt8) : (sp.withText text).WellLinked := by
  obtain ⟨depth, hf⟩ := h
  exact ⟨depth, hf.congr_tree (fun x hx => absurd hx (hout x))
    (fun x hx => by rw [treeOf_of_head hx, treeOf_of_head hx])⟩

theorem fillLookahead_eq (r : ℕ) : ∀ (n len : ℕ) (sp : EncodeState) (src : List UInt8),
    fillLookahead r n len sp src = (len + min n src.length,
      sp.withText fun x => if r + len ≤ x ∧ x < r + len + min n src.length
        then src.getD (x - (r + len)) 0 else sp.textBuf x, src.drop n) := by
  intro n
  induction n with
  | zero =>
    intro len sp src
    refine Prod.ext rfl (Prod.ext (congrArg sp.withText (funext fun x => ?_)) rfl)
    rw [if_neg (by omega)]
  | succ n ih =>
    intro len sp src
    cases src with
    | nil =>
      refine Prod.ext rfl (Prod.ext (congrArg sp.withText (funext fun x => ?_)) rfl)
      rw [List.length_nil, if_neg (by omega)]
    | cons c src =>
      rw [fillLookahead, ih, List.length_cons, List.drop_succ_cons]
      refine Prod.ext (by simp only; omega)
        (Prod.ext (congrArg sp.withText (funext fun x => ?_)) rfl)
      -- the byte read first is the one at `r + len`
      rcases Nat.lt_trichotomy x (r + len) with hx | rfl | hx
      · rw [if_neg (by omega), if_neg (by omega)]
        exact update_of_ne hx.ne _ _
      · rw [if_neg (by omega), if_pos (by omega), Nat.sub_self, List.getD_cons_zero]
        exact update_self ..
      · have hidx : x - (r + len) = x - (r + (len + 1)) + 1 := by omega
        rw [hidx, List.getD_cons_succ]
        refine if_congr ?_ rfl (update_of_ne hx.ne' _ _)
        omega

/-- Inserting the strings before the text. -/
theorem insertStrings_spec {r : ℕ} (hr : r < RBSIZE) : ∀ (n i : ℕ) {sp : EncodeState},
    sp.WellLinked → 0 < i → i + n ≤ r + 1 → (∀ x, sp.Linked x → r < x + i ∧ x < r) →
    ∃ sp', insertStrings r n i sp = some sp' ∧ sp'.WellLinked ∧ sp'.textBuf = sp.textBuf ∧
      ∀ x, sp'.Linked x → r < x + (i + n) ∧ x < r := by
  intro n
  induction n with
  | zero => exact fun i sp h _ _ hnodes => ⟨sp, rfl, h, rfl, hnodes⟩
  | succ n ih =>
    intro i sp h hi hn hnodes
    have hout : ¬ sp.Linked (r - i) := fun hx => by
      have := hnodes _ hx
      omega
    obtain ⟨sp₁, hrun₁, hins⟩ := insertNode_spec h (r := r - i) (by omega) hout
    have hnodes₁ : ∀ x, sp₁.Linked x → r < x + (i + 1) ∧ x < r := by
      intro x hx
      rcases (hins.linked x).mp hx with ⟨hx, -⟩ | rfl
      · have := hnodes x hx
        omega
      · omega
    obtain ⟨sp', hrun, hwell, htext, hnodes'⟩ :=
      ih (i + 1) hins.wellLinked (Nat.succ_pos i) (by omega) hnodes₁
    refine ⟨sp', ?_, hwell, htext.trans hins.text, fun x hx => ?_⟩
    · rw [insertStrings, hrun₁]
      exact hrun
    · have := hnodes' x hx
      omega

/-- **The encoder**: for every input there is a parse of it, such that every destination gets
as much of the parse's stream as fits, and the result is a success when all of it fits. -/
theorem encodeLzss_spec {src : List UInt8} (hsrc : src ≠ []) :
    ∃ ts, Parses (inputText src) RBSIZE (RBSIZE - UPLIM) (RBSIZE - UPLIM) ts
        (RBSIZE - UPLIM + src.length) ∧ (∀ t ∈ ts, Sendable t) ∧
      ∀ dstlen, ∃ sp, sp.HasGap ∧
        encodeLzss dstlen src = some (sp, fitted dstlen (stream ts)) := by
  have hpos : 0 < src.length := List.length_pos_of_ne_nil hsrc
  set text : ℕ → UInt8 := fun x =>
    if RBSIZE - UPLIM + 0 ≤ x ∧ x < RBSIZE - UPLIM + 0 + min UPLIM src.length
    then src.getD (x - (RBSIZE - UPLIM + 0)) 0 else initState.textBuf x with htext
  have hwell₀ := wellLinked_initState.withText not_linked_initState text
  obtain ⟨sp₁, hrun₁, hwell₁, htext₁, hnodes₁⟩ := insertStrings_spec (r := RBSIZE - UPLIM)
    (by simp [RBSIZE, UPLIM]) UPLIM 1 hwell₀ Nat.one_pos (by simp [RBSIZE, UPLIM])
    (fun x hx => absurd hx (not_linked_initState x))
  have hwin : Window (inputText src) (RBSIZE - UPLIM + src.length) (RBSIZE - UPLIM)
      (RBSIZE - UPLIM) sp₁ := by
    refine ⟨hwell₁, ?_, ?_, fun x hx => ⟨x, ?_, (hnodes₁ x hx).2, ?_⟩⟩
    · intro a _ ha
      simp only [RBSIZE, UPLIM] at ha
      rw [htext₁, EncodeState.textBuf_withText]
      simp only [htext, inputText, initState, RBSIZE, UPLIM]
      rw [Nat.mod_eq_of_lt (by omega)]
      by_cases hlow : a < 4078
      · simp [hlow, show ¬ 4078 ≤ a by omega]
      · have : 4078 ≤ a ∧ a < 4078 + min 18 src.length := by omega
        simp [hlow, this]
    · intro a _ ha hwrap
      simp only [RBSIZE, UPLIM] at ha hwrap
      omega
    · have := (hnodes₁ x hx).1
      simp only [RBSIZE, UPLIM] at *
      omega
    · have := (hnodes₁ x hx).2
      exact Nat.mod_eq_of_lt (this.trans (by simp [RBSIZE, UPLIM]))
  obtain ⟨sp₂, hrun₂, hwin₂, hfound⟩ := hwin.insert
  have hsync : Synced (inputText src) (RBSIZE - UPLIM + src.length) (RBSIZE - UPLIM)
      ⟨sp₂, src.drop UPLIM, RBSIZE - UPLIM, 0, min UPLIM src.length⟩ :=
    ⟨hwin₂, (segment_inputText src UPLIM).symm, by simp [RBSIZE, UPLIM], by simp [RBSIZE, UPLIM],
      by simp⟩
  obtain ⟨ts, hts, hsend, hloop⟩ := loop_compressTurn _ rfl (by simp [RBSIZE, UPLIM]) (by omega)
    hsync hfound
  refine ⟨ts, hts, hsend, fun dstlen => ?_⟩
  have hlen : ¬ 0 + min UPLIM src.length = 0 := by simp only [UPLIM]; omega
  have hmod : (RBSIZE - UPLIM) % RBSIZE = RBSIZE - UPLIM := by simp [RBSIZE, UPLIM]
  obtain ⟨sp₃, hgap, hrun⟩ := hloop dstlen (CodeBuf.start []) [] (src.length + 1) (.start [])
    (Nat.zero_le _) (by omega)
  rw [hmod] at hrun₂
  refine ⟨sp₃, hgap, ?_⟩
  rw [encodeLzss]
  simp only [fillLookahead_eq, hlen, if_false, ← htext, hrun₁, hrun₂, Option.bind_eq_bind,
    Option.bind_some]
  rw [Nat.zero_add, hrun]
  rfl

end Lilu.Compression
