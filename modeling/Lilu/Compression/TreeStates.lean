import Lilu.Compression.Accesses
import Lilu.Compression.Encoder
import Lilu.Prelude.SpelledTrees

/-!
# The states of the encoder's trees

Between two operations on its trees the encoder stands at one of a few places of `compress_lzss`.
Here it runs from place to place, with the array accesses of the operations checked and with a log
of the strings that were inserted, replaced and deleted. In every state on the way the arrays spell
out 256 trees, and their nodes are the positions that the log leaves.

## Main definitions

* `Event`, `live`: the log, and the positions that it leaves in the trees
* `Phase`, `Point`: the places, and the state at a place
* `encodeTurn`: a step from place to place
* `SearchTrees`: the trees that the arrays spell out

## Main results

* `EncodeState.WellLinked.searchTrees`: well linked arrays spell out the trees
* `Point.Valid.turn`: what holds at a place holds behind a step, and no access fails
* `loop_encodeTurn`: step by step the encoder comes to the end of `encodeLzss`
* `encoder_searchTrees`: the trees in every state, and that the encoder ends
-/

namespace Lilu.Compression

open Function

/-! ## The trees -/

/-- The head of the tree of the strings that begin with `c`. -/
def treeHead (c : UInt8) : ℕ :=
  RBSIZE + 1 + c.toNat

/-- The arrays are 256 binary trees, one for each first byte: each head spells out its tree, where
children and parents point at each other; no node is in a tree twice or in two trees; the nodes are
the positions of `live`, and these are the ring positions that have a parent. -/
structure SearchTrees (sp : EncodeState) (live : Finset ℕ) (trees : UInt8 → BinaryTree ℕ) :
    Prop where
  spells : ∀ c, Spells NIL sp.toLinks (treeHead c) (sp.rchild (treeHead c)) (trees c)
  nodup : ∀ c, (inorder (trees c)).Nodup
  disjoint : ∀ c d, c ≠ d → (inorder (trees c)).Disjoint (inorder (trees d))
  first : ∀ c, ∀ x ∈ inorder (trees c), sp.textBuf x = c
  nodes : ∀ x, x ∈ live ↔ ∃ c, x ∈ inorder (trees c)
  used : ∀ x, x ∈ live ↔ x < RBSIZE ∧ sp.parent x ≠ NIL

theorem isHead_treeHead (c : UInt8) : sites.IsHead (treeHead c) := by
  have := c.toNat_lt
  exact ⟨by simp only [treeHead]; omega, by simp only [treeHead]; omega⟩

theorem treeHead_injective : Injective treeHead := by
  intro c d h
  simp only [treeHead] at h
  exact UInt8.toNat_inj.mp (by omega)

variable {sp sp' : EncodeState}

/-- **Well linked arrays spell out the trees.** -/
theorem EncodeState.WellLinked.searchTrees (h : sp.WellLinked) {live : Finset ℕ}
    (hlive : ∀ x, x ∈ live ↔ sp.Linked x) : ∃ trees, SearchTrees sp live trees := by
  obtain ⟨depth, hf⟩ := h
  have hspells : ∀ c, ∃ t, Spells NIL sp.toLinks (treeHead c) (sp.rchild (treeHead c)) t :=
    fun c => hf.exists_spells (Finset.range RBSIZE) (fun x hx => Finset.mem_range.mpr hx)
      (hf.linkFrom_right (.inr (isHead_treeHead c)))
  choose trees hspells using hspells
  have hinj : ∀ y y', sites.IsHead y → sites.IsHead y' →
      treeOf sp.textBuf y = treeOf sp.textBuf y' → y = y' := by
    intro y y' hy hy' heq
    rwa [treeOf_of_head hy, treeOf_of_head hy'] at heq
  have hmem : ∀ c x, x ∈ inorder (trees c) ↔ sp.Linked x ∧ sp.textBuf x = c := by
    intro c x
    rw [hf.mem_inorder_head_iff hinj (isHead_treeHead c) (hspells c)]
    apply and_congr_right
    intro hx
    rw [treeOf_of_head (isHead_treeHead c), treeOf_of_lt hx.1]
    exact treeHead_injective.eq_iff
  refine ⟨trees, hspells, fun c => ?_, fun c d hne x hc hd => ?_, fun c x hx => ?_, fun x => ?_,
    hlive⟩
  · exact hf.nodup_inorder (hspells c) (hf.linkFrom_right (.inr (isHead_treeHead c)))
  · exact hne (((hmem c x).mp hc).2.symm.trans ((hmem d x).mp hd).2)
  · exact ((hmem c x).mp hx).2
  · simp only [hlive, hmem, exists_and_left, exists_eq', and_true]

/-! ## Steps -/

/-- What happens to a ring position in the trees. -/
inductive Event where
  | inserted (r : ℕ)
  | replaced (p : ℕ)
  | deleted (s : ℕ)

def Event.apply (live : Finset ℕ) : Event → Finset ℕ
  | inserted r => insert r live
  | replaced p => live.erase p
  | deleted s => live.erase s

/-- The positions that were inserted and neither replaced nor deleted since. -/
def live (log : List Event) : Finset ℕ :=
  log.foldl Event.apply ∅

/-- What an insertion at `r` that left the state `sp` adds to the log: with a match of the full
length it has replaced the node that matched. -/
def insertion (r : ℕ) (sp : EncodeState) : List Event :=
  if UPLIM ≤ sp.matchLength then [.inserted r, .replaced sp.matchPosition] else [.inserted r]

/-- The places of `compress_lzss`, with the counters of its loops. -/
inductive Phase where
  /-- the lookahead is read, with room for `n` bytes more -/
  | fill (n : ℕ)
  /-- the strings before the text are inserted, `n` of them from `r - i` on -/
  | prime (n i : ℕ)
  /-- the whole lookahead is inserted -/
  | first
  /-- the head of the main loop -/
  | unit
  /-- the unit stands in the code buffer -/
  | flush
  /-- the head of the loop that reads on, `n` bytes at most -/
  | ahead (n : ℕ)
  /-- the oldest string was deleted, and the byte `c` is to be read over it -/
  | read (n : ℕ) (c : UInt8)
  /-- the byte was read -/
  | enter (n : ℕ)
  /-- the head of the loop behind the end of the text -/
  | drain (n : ℕ)
  /-- the oldest string was deleted there -/
  | shrink (n : ℕ)
  /-- the lookahead is not empty yet -/
  | renew (n : ℕ)

/-- The encoder at a place. -/
structure Point where
  phase : Phase
  sc : Scan
  cb : CodeBuf
  log : List Event

/-- The encoder before it reads. -/
def Point.start (src : List UInt8) : Point :=
  ⟨.fill UPLIM, ⟨initState, src, RBSIZE - UPLIM, 0, 0⟩, .start [], []⟩

/-- Insert the string at `r` and go to a place; `none` if an access fails. -/
def Point.insert (pt : Point) (r : ℕ) (phase : Phase) :
    Turn Point (Option (EncodeState × List UInt8 × Bool)) :=
  match Checked.insertNode pt.sc.sp r with
  | some sp => .again ⟨phase, { pt.sc with sp }, pt.cb, pt.log ++ insertion r sp⟩
  | none => .leave none

/-- Delete the string at `s` and go to a place; `none` if an access fails. -/
def Point.delete (pt : Point) (phase : Phase) :
    Turn Point (Option (EncodeState × List UInt8 × Bool)) :=
  match Checked.deleteNode pt.sc.sp pt.sc.s with
  | some sp => .again ⟨phase, { pt.sc with sp }, pt.cb, pt.log ++ [.deleted pt.sc.s]⟩
  | none => .leave none

/-- The positions move on by one. -/
def Scan.advance (sc : Scan) : Scan :=
  { sc with s := (sc.s + 1) &&& (RBSIZE - 1), r := (sc.r + 1) &&& (RBSIZE - 1) }

/-- A step from place to place. -/
def encodeTurn (dstlen : ℕ) (pt : Point) :
    Turn Point (Option (EncodeState × List UInt8 × Bool)) :=
  match pt with
  | ⟨.fill n, sc, cb, log⟩ =>
    match n, sc.src with
    | n + 1, c :: src =>
      let sp := { sc.sp with textBuf := update sc.sp.textBuf (sc.r + sc.len) c }
      .again ⟨.fill n, { sc with sp, src, len := sc.len + 1 }, cb, log⟩
    | _, _ =>
      if sc.len = 0 then .leave (some (sc.sp, [], false)) else .again ⟨.prime UPLIM 1, sc, cb, log⟩
  | ⟨.prime (n + 1) i, sc, _, _⟩ => pt.insert (sc.r - i) (.prime n (i + 1))
  | ⟨.prime 0 _, sc, cb, log⟩ => .again ⟨.first, sc, cb, log⟩
  | ⟨.first, sc, _, _⟩ => pt.insert sc.r .unit
  | ⟨.unit, sc, cb, log⟩ =>
    let (sc, cb) := sendUnit sc cb
    .again ⟨.flush, sc, { cb with mask := cb.mask <<< 1 }, log⟩
  | ⟨.flush, sc, cb, log⟩ =>
    let (cb, fits) := flushGroup dstlen cb
    if fits then .again ⟨.ahead sc.sp.matchLength, sc, cb, log⟩
    else .leave (some (sc.sp, cb.dst, false))
  | ⟨.ahead 0, sc, cb, log⟩ => .again ⟨.drain 0, sc, cb, log⟩
  | ⟨.ahead (n + 1), sc, cb, log⟩ =>
    match sc.src with
    | [] => .again ⟨.drain (n + 1), sc, cb, log⟩
    | c :: src => Point.delete ⟨.ahead (n + 1), { sc with src }, cb, log⟩ (.read n c)
  | ⟨.read n c, sc, cb, log⟩ =>
    .again ⟨.enter n, { sc with sp := sc.sp.put sc.s c }.advance, cb, log⟩
  | ⟨.enter n, sc, _, _⟩ => pt.insert sc.r (.ahead n)
  | ⟨.drain 0, sc, cb, log⟩ =>
    if sc.len > 0 then .again ⟨.unit, sc, cb, log⟩
    else if cb.units ≠ [] then .leave (some (sc.sp, store dstlen cb.dst (cb.flags :: cb.units)))
    else .leave (some (sc.sp, cb.dst, true))
  | ⟨.drain (n + 1), _, _, _⟩ => pt.delete (.shrink n)
  | ⟨.shrink n, sc, cb, log⟩ =>
    let sc := { sc.advance with len := sc.len - 1 }
    .again ⟨if sc.len ≠ 0 then .renew n else .drain n, sc, cb, log⟩
  | ⟨.renew n, sc, _, _⟩ => pt.insert sc.r (.drain n)

/-! ## What holds at each place -/

/-- The next position to insert at is `R`, and the nodes are positions of the window at `S` below
`top`. -/
structure Scan.At (R S top : ℕ) (sc : Scan) : Prop where
  r : sc.r = R % RBSIZE
  s : sc.s = (R + UPLIM) % RBSIZE
  nodes : NodesIn S top sc.sp

/-- What holds of the window at a place. The bytes to slide by are no more than the lookahead has,
so its length never gets below zero. -/
def Phase.Holds (sc : Scan) : Phase → Prop
  | .fill _ => sc.r = RBSIZE - UPLIM ∧ sc.s = 0 ∧ ∀ x, ¬ sc.sp.Linked x
  | .prime n i => sc.r = RBSIZE - UPLIM ∧ sc.s = 0 ∧ 0 < sc.len ∧ 0 < i ∧ i + n = UPLIM + 1 ∧
      ∀ x, sc.sp.Linked x → sc.r < x + i ∧ x < sc.r
  | .first => (∃ R, sc.At R R R) ∧ 0 < sc.len
  | .unit => (∃ R, sc.At R R (R + 1)) ∧ 0 < sc.len
  | .flush => (∃ R, sc.At R R (R + 1)) ∧ sc.sp.matchLength ≤ sc.len
  | .ahead n => (∃ R, sc.At R R (R + 1)) ∧ n ≤ sc.len
  | .read n _ => (∃ R, sc.At R (R + 1) (R + 1)) ∧ n < sc.len
  | .enter n => (∃ R, sc.At R R R) ∧ n ≤ sc.len
  | .drain n => (∃ R, sc.At R R (R + 1)) ∧ n ≤ sc.len
  | .shrink n => (∃ R, sc.At R (R + 1) (R + 1)) ∧ n < sc.len
  | .renew n => (∃ R, sc.At R R R) ∧ n ≤ sc.len

/-- The arrays are well linked, their nodes are the positions that the log leaves, and the window is
as it should be at the place. -/
structure Point.Valid (pt : Point) : Prop where
  wellLinked : pt.sc.sp.WellLinked
  live : ∀ x, x ∈ live pt.log ↔ pt.sc.sp.Linked x
  holds : pt.phase.Holds pt.sc

variable {sc : Scan} {cb : CodeBuf} {log : List Event} {pt pt' : Point} {R S top r n : ℕ}

theorem Scan.At.r_lt (h : sc.At R S top) : sc.r < RBSIZE := by
  rw [h.r]
  exact Nat.mod_lt _ (by simp [RBSIZE])

theorem Scan.At.s_lt (h : sc.At R S top) : sc.s < RBSIZE := by
  rw [h.s]
  exact Nat.mod_lt _ (by simp [RBSIZE])

theorem Scan.At.not_linked (h : sc.At R R R) : ¬ sc.sp.Linked sc.r := by
  rw [h.r]
  exact h.nodes.not_linked

/-- The strings before the text are inserted where no node is. -/
theorem prime_position {i : ℕ} (h : Phase.Holds sc (.prime (n + 1) i)) :
    sc.r - i < RBSIZE ∧ ¬ sc.sp.Linked (sc.r - i) := by
  obtain ⟨hr, -, -, hi, hn, hnodes⟩ := h
  have hr' : sc.r = 4078 := hr
  have hn' : i + (n + 1) = 19 := hn
  constructor
  · simp only [hr', RBSIZE]
    omega
  · intro hx
    have hlt : sc.r < sc.r - i + i := (hnodes _ hx).1
    omega

theorem Scan.At.advance (h : sc.At R (R + 1) (R + 1)) : sc.advance.At (R + 1) (R + 1) (R + 1) := by
  refine ⟨?_, ?_, h.nodes⟩
  · simp only [Scan.advance, h.r, succ_mod]
  · simp only [Scan.advance, h.s, succ_mod, Nat.add_right_comm]

theorem live_insertion (hlive : ∀ x, x ∈ live log ↔ sp.Linked x) (hout : ¬ sp.Linked r)
    (hins : Inserted sp r sp') (x : ℕ) : x ∈ live (log ++ insertion r sp') ↔ sp'.Linked x := by
  rw [hins.linked x, live, List.foldl_append]
  change x ∈ (insertion r sp').foldl Event.apply (live log) ↔ _
  by_cases hfull : UPLIM ≤ sp'.matchLength
  · -- the node that was replaced is another one
    have heq : sp'.matchLength = UPLIM := le_antisymm hins.length hfull
    have hne : r ≠ sp'.matchPosition := by
      rintro rfl
      exact hout (hins.found (by rw [heq]; exact Nat.succ_pos 17)).1
    rw [insertion, if_pos hfull]
    simp only [List.foldl_cons, List.foldl_nil, Event.apply, Finset.mem_erase, Finset.mem_insert,
      hlive, heq, true_and]
    constructor
    · rintro ⟨hx, rfl | hlink⟩
      · exact .inr rfl
      · exact .inl ⟨hlink, hx⟩
    · rintro (⟨hlink, hx⟩ | rfl)
      · exact ⟨hx, .inr hlink⟩
      · exact ⟨hne, .inl rfl⟩
  · have hlt : ¬ sp'.matchLength = UPLIM := fun he => hfull he.ge
    rw [insertion, if_neg hfull]
    simp only [List.foldl_cons, List.foldl_nil, Event.apply, Finset.mem_insert, hlive, hlt,
      false_and, not_false_eq_true, and_true, or_comm]

theorem live_deletion (hlive : ∀ x, x ∈ live log ↔ sp.Linked x) (hdel : Deleted sp r sp') (x : ℕ) :
    x ∈ live (log ++ [.deleted r]) ↔ sp'.Linked x := by
  rw [hdel.linked x, live, List.foldl_append]
  change x ∈ (live log).erase r ↔ _
  rw [Finset.mem_erase, hlive, and_comm]

namespace Point

/-- Inserting at a position that is no node. -/
theorem insert_eq (hwell : pt.sc.sp.WellLinked) (hr : r < RBSIZE) (hout : ¬ pt.sc.sp.Linked r)
    (phase : Phase) : ∃ sp, insertNode pt.sc.sp r = some sp ∧ Inserted pt.sc.sp r sp ∧
      pt.insert r phase = .again ⟨phase, { pt.sc with sp }, pt.cb, pt.log ++ insertion r sp⟩ := by
  obtain ⟨sp, hrun, hins⟩ := insertNode_spec hwell hr hout
  have hchecked := (Checked.insertNode_eq hwell hr hout).trans hrun
  exact ⟨sp, hrun, hins, by simp only [Point.insert, hchecked]⟩

theorem delete_eq (hwell : pt.sc.sp.WellLinked) (hs : pt.sc.s < RBSIZE) (phase : Phase) :
    ∃ sp, deleteNode pt.sc.sp pt.sc.s = some sp ∧ Deleted pt.sc.sp pt.sc.s sp ∧
      pt.delete phase = .again ⟨phase, { pt.sc with sp }, pt.cb, pt.log ++ [.deleted pt.sc.s]⟩ := by
  obtain ⟨sp, hrun, hdel⟩ := deleteNode_spec hwell hs
  have hchecked := (Checked.deleteNode_eq hwell hs).trans hrun
  exact ⟨sp, hrun, hdel, by simp only [Point.delete, hchecked]⟩

/-- A step leads to a place where everything is as it should be, or it is the last one and no access
has failed. -/
def Fine : Turn Point (Option (EncodeState × List UInt8 × Bool)) → Prop
  | .again pt => pt.Valid
  | .leave out => out ≠ none

theorem Valid.insert (h : pt.Valid) (hr : r < RBSIZE) (hout : ¬ pt.sc.sp.Linked r) {phase : Phase}
    (hholds : ∀ sp, Inserted pt.sc.sp r sp → phase.Holds { pt.sc with sp }) :
    Fine (pt.insert r phase) := by
  obtain ⟨sp, -, hins, hturn⟩ := insert_eq h.wellLinked hr hout phase
  rw [hturn]
  exact ⟨hins.wellLinked, live_insertion h.live hout hins, hholds sp hins⟩

theorem Valid.delete (h : pt.Valid) (hs : pt.sc.s < RBSIZE) {phase : Phase}
    (hholds : ∀ sp, Deleted pt.sc.sp pt.sc.s sp → phase.Holds { pt.sc with sp }) :
    Fine (pt.delete phase) := by
  obtain ⟨sp, -, hdel, hturn⟩ := delete_eq h.wellLinked hs phase
  rw [hturn]
  exact ⟨hdel.wellLinked, live_deletion h.live hdel, hholds sp hdel⟩

/-- Inserting the string at the window's position. -/
theorem Valid.insert_next (h : pt.Valid) (hat : pt.sc.At R R R) {phase : Phase}
    (hholds : ∀ sp, ({ pt.sc with sp } : Scan).At R R (R + 1) → phase.Holds { pt.sc with sp }) :
    Fine (pt.insert pt.sc.r phase) := by
  refine h.insert hat.r_lt hat.not_linked fun sp hins => hholds sp ⟨hat.r, hat.s, ?_⟩
  rw [hat.r] at hins
  exact hat.nodes.insert hins

/-- Deleting the oldest string. -/
theorem Valid.delete_oldest (h : pt.Valid) (hat : pt.sc.At R R (R + 1)) {phase : Phase}
    (hholds : ∀ sp, ({ pt.sc with sp } : Scan).At R (R + 1) (R + 1) →
      phase.Holds { pt.sc with sp }) : Fine (pt.delete phase) := by
  refine h.delete hat.s_lt fun sp hdel => hholds sp ⟨hat.r, hat.s, ?_⟩
  rw [hat.s] at hdel
  exact hat.nodes.delete hdel

theorem valid_start (src : List UInt8) : (start src).Valid := by
  refine ⟨wellLinked_initState, fun x => ?_, rfl, rfl, not_linked_initState⟩
  simp only [start, live, List.foldl_nil, Finset.notMem_empty, not_linked_initState]

/-- Sending a unit changes the trees only in the length to slide by, which is no more than the
lookahead has. -/
theorem exists_sendUnit (cb : CodeBuf) (h : 0 < sc.len) : ∃ n cb', n ≤ sc.len ∧
    sendUnit sc cb = ({ sc with sp := { sc.sp with matchLength := n } }, cb') := by
  by_cases hshort : (if sc.sp.matchLength > sc.len then sc.len else sc.sp.matchLength) ≤ THRESHOLD
  · exact ⟨1, _, h, if_pos hshort⟩
  · refine ⟨_, _, ?_, if_neg hshort⟩
    split_ifs with hlong
    · exact le_rfl
    · exact not_lt.mp hlong

variable {dstlen : ℕ}

/-- The lookahead is as long as it gets. -/
theorem Valid.filled (h : Valid ⟨.fill n, sc, cb, log⟩) :
    Fine (if sc.len = 0 then .leave (some (sc.sp, [], false))
      else .again ⟨.prime UPLIM 1, sc, cb, log⟩) := by
  obtain ⟨hr, hs, hout⟩ := h.holds
  split_ifs with hlen
  · exact Option.some_ne_none _
  · exact ⟨h.wellLinked, h.live, hr, hs, Nat.pos_of_ne_zero hlen, Nat.one_pos, rfl,
      fun x hx => absurd hx (hout x)⟩

theorem Valid.turn_fill (h : Valid ⟨.fill n, sc, cb, log⟩) :
    Fine (encodeTurn dstlen ⟨.fill n, sc, cb, log⟩) := by
  obtain ⟨hr, hs, hout⟩ := h.holds
  obtain ⟨sp, src, r, s, len⟩ := sc
  cases n with
  | zero => exact h.filled
  | succ n =>
    cases src with
    | nil => exact h.filled
    | cons c src => exact ⟨h.wellLinked.withText hout _, h.live, hr, hs, hout⟩

theorem Valid.turn_prime {i : ℕ} (h : Valid ⟨.prime n i, sc, cb, log⟩) :
    Fine (encodeTurn dstlen ⟨.prime n i, sc, cb, log⟩) := by
  obtain ⟨hr, hs, hlen, hi, hn, hnodes⟩ := h.holds
  have hr' : sc.r = 4078 := hr
  cases n with
  | zero =>
    -- the strings before the text were inserted
    refine ⟨h.wellLinked, h.live, ⟨RBSIZE - UPLIM, ?_, ?_, fun x hx => ?_⟩, hlen⟩
    · rw [hr]
      rfl
    · rw [hs]
      rfl
    · have hx' := hnodes x hx
      simp only [RBSIZE, UPLIM] at *
      exact ⟨x, by omega, by omega, Nat.mod_eq_of_lt (by omega)⟩
  | succ n =>
    obtain ⟨hlt, hout⟩ := prime_position h.holds
    refine h.insert hlt hout fun sp hins => ?_
    refine ⟨hr, hs, hlen, Nat.succ_pos i, by rw [← hn]; omega, fun x hx => ?_⟩
    rcases (hins.linked x).mp hx with ⟨hx, -⟩ | hx
    · have := hnodes x hx
      exact ⟨this.1.trans (Nat.lt_succ_self _), this.2⟩
    · have hn' : i + (n + 1) = 19 := hn
      simp only [hx, hr']
      omega

theorem Valid.turn_ahead (h : Valid ⟨.ahead n, sc, cb, log⟩) :
    Fine (encodeTurn dstlen ⟨.ahead n, sc, cb, log⟩) := by
  obtain ⟨⟨R, hat⟩, hle⟩ := h.holds
  obtain ⟨sp, src, r, s, len⟩ := sc
  cases n with
  | zero => exact ⟨h.wellLinked, h.live, ⟨R, hat⟩, hle⟩
  | succ n =>
    cases src with
    | nil => exact ⟨h.wellLinked, h.live, ⟨R, hat⟩, hle⟩
    | cons c src =>
      have hvalid : Valid ⟨.ahead (n + 1), ⟨sp, src, r, s, len⟩, cb, log⟩ :=
        ⟨h.wellLinked, h.live, ⟨R, hat.r, hat.s, hat.nodes⟩, hle⟩
      exact hvalid.delete_oldest ⟨hat.r, hat.s, hat.nodes⟩ fun sp hat' => ⟨⟨R, hat'⟩, hle⟩

/-- The byte is read where no node is, which leaves the trees alone. -/
theorem Valid.turn_read {c : UInt8} (h : Valid ⟨.read n c, sc, cb, log⟩) :
    Fine (encodeTurn dstlen ⟨.read n c, sc, cb, log⟩) := by
  obtain ⟨⟨R, hat⟩, hle⟩ := h.holds
  have hout : ¬ sc.sp.Linked sc.s := by
    rw [hat.s]
    exact hat.nodes.not_linked_next
  have hlinks := linked_put sc.sp sc.s c
  have hnext : ({ sc with sp := sc.sp.put sc.s c } : Scan).At R (R + 1) (R + 1) :=
    ⟨hat.r, hat.s, fun x hx => hat.nodes x ((hlinks x).mp hx)⟩
  exact ⟨h.wellLinked.put hat.s_lt hout c, fun x => (h.live x).trans (hlinks x).symm,
    ⟨R + 1, hnext.advance⟩, hle.le⟩

theorem Valid.turn_shrink (h : Valid ⟨.shrink n, sc, cb, log⟩) :
    Fine (encodeTurn dstlen ⟨.shrink n, sc, cb, log⟩) := by
  obtain ⟨⟨R, hat⟩, hle⟩ := h.holds
  have hat' : ({ sc.advance with len := sc.len - 1 } : Scan).At (R + 1) (R + 1) (R + 1) :=
    ⟨hat.advance.r, hat.advance.s, hat.nodes⟩
  have hle' : n ≤ sc.len - 1 := Nat.le_sub_one_of_lt hle
  simp only [encodeTurn]
  split_ifs with hlen
  · exact ⟨h.wellLinked, h.live, ⟨R + 1, hat'⟩, hle'⟩
  · exact ⟨h.wellLinked, h.live, ⟨R + 1, hat'.r, hat'.s, hat'.nodes.mono (Nat.le_succ _)⟩, hle'⟩

/-- **A step** leads from a place where everything is as it should be to such a place, and no access
fails. -/
theorem Valid.turn (dstlen : ℕ) (h : pt.Valid) : Fine (encodeTurn dstlen pt) := by
  obtain ⟨phase, sc, cb, log⟩ := pt
  have hholds := h.holds
  cases phase with
  | fill n => exact h.turn_fill
  | prime n i => exact h.turn_prime
  | first =>
    obtain ⟨⟨R, hat⟩, hlen⟩ := hholds
    exact h.insert_next hat fun sp hat' => ⟨⟨R, hat'⟩, hlen⟩
  | unit =>
    obtain ⟨⟨R, hat⟩, hlen⟩ := hholds
    obtain ⟨n, cb', hn, hsend⟩ := exists_sendUnit cb hlen
    simp only [encodeTurn, hsend]
    exact ⟨h.wellLinked, h.live, ⟨R, hat.r, hat.s, hat.nodes⟩, hn⟩
  | flush =>
    obtain ⟨hat, hle⟩ := hholds
    simp only [encodeTurn]
    split_ifs
    · exact ⟨h.wellLinked, h.live, hat, hle⟩
    · exact Option.some_ne_none _
  | ahead n => exact h.turn_ahead
  | read n c => exact h.turn_read
  | enter n =>
    obtain ⟨⟨R, hat⟩, hle⟩ := hholds
    exact h.insert_next hat fun sp hat' => ⟨⟨R, hat'⟩, hle⟩
  | drain n =>
    obtain ⟨⟨R, hat⟩, hle⟩ := hholds
    cases n with
    | zero =>
      simp only [encodeTurn]
      split_ifs with hlen
      · exact ⟨h.wellLinked, h.live, ⟨R, hat⟩, hlen⟩
      · exact Option.some_ne_none _
      · exact Option.some_ne_none _
    | succ n => exact h.delete_oldest hat fun sp hat' => ⟨⟨R, hat'⟩, hle⟩
  | shrink n => exact h.turn_shrink
  | renew n =>
    obtain ⟨⟨R, hat⟩, hle⟩ := hholds
    exact h.insert_next hat fun sp hat' => ⟨⟨R, hat'⟩, hle⟩

theorem Valid.again (h : pt.Valid) (ht : encodeTurn dstlen pt = .again pt') :
    pt'.Valid := by
  have hfine := h.turn dstlen
  rwa [ht] at hfine

theorem Valid.comesTo (h : pt.Valid) (hcomes : ComesTo (encodeTurn dstlen) pt pt') :
    pt'.Valid :=
  hcomes.invariant Valid (fun _ _ hpt ht => hpt.again ht) h

end Point

/-! ## From place to place -/

variable {dstlen : ℕ} {out : EncodeState × List UInt8 × Bool}

/-- Reading the lookahead. -/
theorem comesTo_fill : ∀ (n len : ℕ) (sp : EncodeState) (src : List UInt8) (r s : ℕ), ∃ m,
    (m = 0 ∨ (fillLookahead r n len sp src).2.2 = []) ∧
      ComesTo (encodeTurn dstlen) ⟨.fill n, ⟨sp, src, r, s, len⟩, cb, log⟩
        ⟨.fill m, ⟨(fillLookahead r n len sp src).2.1, (fillLookahead r n len sp src).2.2, r, s,
          (fillLookahead r n len sp src).1⟩, cb, log⟩ := by
  intro n
  induction n with
  | zero => exact fun len sp src r s => ⟨0, .inl rfl, .start⟩
  | succ n ih =>
    intro len sp src r s
    cases src with
    | nil => exact ⟨n + 1, .inr rfl, .start⟩
    | cons c src =>
      obtain ⟨m, hm, hcomes⟩ := ih (len + 1) { sp with textBuf := update sp.textBuf (r + len) c }
        src r s
      exact ⟨m, hm, .of_again rfl hcomes⟩

/-- Inserting the strings before the text. -/
theorem comesTo_prime : ∀ (n : ℕ) {i : ℕ} {sc : Scan} {log : List Event} {sp' : EncodeState},
    Point.Valid ⟨.prime n i, sc, cb, log⟩ → insertStrings sc.r n i sc.sp = some sp' →
    ∃ i' log', ComesTo (encodeTurn dstlen) ⟨.prime n i, sc, cb, log⟩
      ⟨.prime 0 i', { sc with sp := sp' }, cb, log'⟩ := by
  intro n
  induction n with
  | zero =>
    intro i sc log sp' _ hrun
    obtain rfl := Option.some.inj hrun
    exact ⟨i, log, .start⟩
  | succ n ih =>
    intro i sc log sp' h hrun
    obtain ⟨hlt, hout⟩ := prime_position h.holds
    obtain ⟨sp, hins, -, hturn⟩ := Point.insert_eq h.wellLinked hlt hout (.prime n (i + 1))
    have hturn' : encodeTurn dstlen ⟨.prime (n + 1) i, sc, cb, log⟩ = _ := hturn
    have hrun' : insertStrings sc.r n (i + 1) sp = some sp' := by
      simp only [insertStrings, hins, Option.bind_eq_bind, Option.bind_some] at hrun
      exact hrun
    obtain ⟨i', log', hcomes⟩ := ih (h.again hturn') hrun'
    exact ⟨i', log', .of_again hturn' hcomes⟩

/-- Reading one byte: the oldest string is deleted, the byte is read over it, and the new string is
inserted. -/
theorem comesTo_read {c : UInt8} {src : List UInt8} {r s len : ℕ}
    (h : Point.Valid ⟨.ahead (n + 1), ⟨sp, c :: src, r, s, len⟩, cb, log⟩) :
    ∃ sp₁ sp₂ log', deleteNode sp s = some sp₁ ∧
      insertNode (sp₁.put s c) ((r + 1) &&& (RBSIZE - 1)) = some sp₂ ∧
      ComesTo (encodeTurn dstlen) ⟨.ahead (n + 1), ⟨sp, c :: src, r, s, len⟩, cb, log⟩
        ⟨.ahead n, ⟨sp₂, src, (r + 1) &&& (RBSIZE - 1), (s + 1) &&& (RBSIZE - 1), len⟩, cb,
          log'⟩ := by
  obtain ⟨⟨R, hat⟩, -⟩ := h.holds
  obtain ⟨sp₁, hdel, -, hturn₁⟩ := @Point.delete_eq ⟨.ahead (n + 1), ⟨sp, src, r, s, len⟩, cb, log⟩
    h.wellLinked hat.s_lt (.read n c)
  have hread : encodeTurn dstlen ⟨.ahead (n + 1), ⟨sp, c :: src, r, s, len⟩, cb, log⟩ =
      .again ⟨.read n c, ⟨sp₁, src, r, s, len⟩, cb, log ++ [.deleted s]⟩ := hturn₁
  have henter : encodeTurn dstlen ⟨.read n c, ⟨sp₁, src, r, s, len⟩, cb, log ++ [.deleted s]⟩ =
      .again ⟨.enter n, ⟨sp₁.put s c, src, (r + 1) &&& (RBSIZE - 1), (s + 1) &&& (RBSIZE - 1), len⟩,
        cb, log ++ [.deleted s]⟩ := rfl
  have hvalid := (h.again hread).again henter
  obtain ⟨⟨R', hat'⟩, -⟩ := hvalid.holds
  obtain ⟨sp₂, hins, -, hturn₂⟩ := Point.insert_eq hvalid.wellLinked hat'.r_lt hat'.not_linked
    (.ahead n)
  exact ⟨sp₁, sp₂, _, hdel, hins, .of_again hread (.of_again henter (.of_again hturn₂ .start))⟩

/-- Reading on. -/
theorem comesTo_ahead : ∀ (n : ℕ) {sc sc' : Scan} {log : List Event} {left : ℕ},
    Point.Valid ⟨.ahead n, sc, cb, log⟩ → readAhead n sc = some (left, sc') →
    ∃ log', ComesTo (encodeTurn dstlen) ⟨.ahead n, sc, cb, log⟩ ⟨.drain left, sc', cb, log'⟩ := by
  intro n
  induction n with
  | zero =>
    intro sc sc' log left _ hrun
    obtain ⟨rfl, rfl⟩ := Prod.mk.inj (Option.some.inj hrun)
    exact ⟨log, .of_again rfl .start⟩
  | succ n ih =>
    intro sc sc' log left h hrun
    obtain ⟨sp, src, r, s, len⟩ := sc
    cases src with
    | nil =>
      obtain ⟨rfl, rfl⟩ := Prod.mk.inj (Option.some.inj hrun)
      exact ⟨log, .of_again rfl .start⟩
    | cons c src =>
      obtain ⟨sp₁, sp₂, log₁, hdel, hins, hcomes⟩ := @comesTo_read _ _ _ _ dstlen _ _ _ _ _ h
      simp only [readAhead, hdel, hins, Option.bind_eq_bind, Option.bind_some] at hrun
      obtain ⟨log', hcomes'⟩ := ih (h.comesTo hcomes) hrun
      exact ⟨log', hcomes.trans hcomes'⟩

/-- Sliding by one byte behind the end of the text. -/
theorem comesTo_shrink {src : List UInt8} {r s len : ℕ}
    (h : Point.Valid ⟨.drain (n + 1), ⟨sp, src, r, s, len⟩, cb, log⟩) :
    ∃ sp₁ sp₂ log', deleteNode sp s = some sp₁ ∧
      (if len - 1 ≠ 0 then insertNode sp₁ ((r + 1) &&& (RBSIZE - 1)) else some sp₁) = some sp₂ ∧
      ComesTo (encodeTurn dstlen) ⟨.drain (n + 1), ⟨sp, src, r, s, len⟩, cb, log⟩
        ⟨.drain n, ⟨sp₂, src, (r + 1) &&& (RBSIZE - 1), (s + 1) &&& (RBSIZE - 1), len - 1⟩, cb,
          log'⟩ := by
  obtain ⟨⟨R, hat⟩, -⟩ := h.holds
  obtain ⟨sp₁, hdel, -, hturn₁⟩ := Point.delete_eq h.wellLinked hat.s_lt (.shrink n)
  have hshrink : encodeTurn dstlen ⟨.drain (n + 1), ⟨sp, src, r, s, len⟩, cb, log⟩ =
      .again ⟨.shrink n, ⟨sp₁, src, r, s, len⟩, cb, log ++ [.deleted s]⟩ := hturn₁
  have hnext : encodeTurn dstlen ⟨.shrink n, ⟨sp₁, src, r, s, len⟩, cb, log ++ [.deleted s]⟩ =
      .again ⟨if len - 1 ≠ 0 then .renew n else .drain n,
        ⟨sp₁, src, (r + 1) &&& (RBSIZE - 1), (s + 1) &&& (RBSIZE - 1), len - 1⟩, cb,
        log ++ [.deleted s]⟩ := rfl
  have hvalid := (h.again hshrink).again hnext
  by_cases hlen : len - 1 ≠ 0
  · simp only [hlen, if_true, not_false_eq_true, ne_eq] at hnext hvalid ⊢
    obtain ⟨⟨R', hat'⟩, -⟩ := hvalid.holds
    obtain ⟨sp₂, hins, -, hturn₂⟩ := Point.insert_eq hvalid.wellLinked hat'.r_lt hat'.not_linked
      (.drain n)
    exact ⟨sp₁, sp₂, _, hdel, hins, .of_again hshrink (.of_again hnext (.of_again hturn₂ .start))⟩
  · simp only [hlen, if_false] at hnext ⊢
    exact ⟨sp₁, sp₁, _, hdel, rfl, .of_again hshrink (.of_again hnext .start)⟩

/-- Sliding on behind the end of the text. -/
theorem comesTo_drain : ∀ (n : ℕ) {sc sc' : Scan} {log : List Event},
    Point.Valid ⟨.drain n, sc, cb, log⟩ → drain n sc = some sc' →
    ∃ log', ComesTo (encodeTurn dstlen) ⟨.drain n, sc, cb, log⟩ ⟨.drain 0, sc', cb, log'⟩ := by
  intro n
  induction n with
  | zero =>
    intro sc sc' log _ hrun
    obtain rfl := Option.some.inj hrun
    exact ⟨log, .start⟩
  | succ n ih =>
    intro sc sc' log h hrun
    obtain ⟨sp, src, r, s, len⟩ := sc
    obtain ⟨sp₁, sp₂, log₁, hdel, hins, hcomes⟩ := @comesTo_shrink _ _ _ _ dstlen _ _ _ _ h
    have hrun' : drain n ⟨sp₂, src, (r + 1) &&& (RBSIZE - 1), (s + 1) &&& (RBSIZE - 1), len - 1⟩ =
        some sc' := by
      simp only [drain, hdel, Option.bind_eq_bind, Option.bind_some] at hrun
      split_ifs at hrun hins
      · rwa [hins, Option.bind_some] at hrun
      · obtain rfl := Option.some.inj hins
        exact hrun
    obtain ⟨log', hcomes'⟩ := ih (h.comesTo hcomes) hrun'
    exact ⟨log', hcomes.trans hcomes'⟩

/-- Sliding to the next unit, or to the end of the text. -/
theorem comesTo_slide {sc' : Scan} (h : Point.Valid ⟨.ahead n, sc, cb, log⟩)
    (hrun : ((readAhead n sc).bind fun x => drain x.1 x.2) = some sc') :
    ∃ log', ComesTo (encodeTurn dstlen) ⟨.ahead n, sc, cb, log⟩ ⟨.drain 0, sc', cb, log'⟩ := by
  obtain ⟨⟨left, sc₁⟩, hread, hdrain⟩ := Option.bind_eq_some_iff.mp hrun
  obtain ⟨log₁, hcomes₁⟩ := @comesTo_ahead cb dstlen _ _ _ _ _ h hread
  obtain ⟨log₂, hcomes₂⟩ := @comesTo_drain cb dstlen _ _ _ _ (h.comesTo hcomes₁) hdrain
  exact ⟨log₂, hcomes₁.trans hcomes₂⟩

/-- **The main loop** from place to place ends as it does turn by turn. -/
theorem loop_unit : ∀ (fuel : ℕ) {sc : Scan} {cb : CodeBuf} {log : List Event},
    Point.Valid ⟨.unit, sc, cb, log⟩ → loop (compressTurn dstlen) fuel (sc, cb) = some (some out) →
    ∃ fuel', loop (encodeTurn dstlen) fuel' ⟨.unit, sc, cb, log⟩ = some (some out) := by
  intro fuel
  induction fuel with
  | zero =>
    intro sc cb log _ hrun
    cases hrun
  | succ fuel ih =>
    intro sc cb log h hrun
    have hunit : encodeTurn dstlen ⟨.unit, sc, cb, log⟩ =
        .again ⟨.flush, (sendUnit sc cb).1,
          { (sendUnit sc cb).2 with mask := (sendUnit sc cb).2.mask <<< 1 }, log⟩ := rfl
    have hvalid := h.again hunit
    rw [(ComesTo.of_again hunit .start).loop_iff]
    simp only [loop, compressTurn] at hrun
    generalize (sendUnit sc cb).1 = sc₁ at hrun hvalid ⊢
    generalize { (sendUnit sc cb).2 with mask := (sendUnit sc cb).2.mask <<< 1 } = cb₁
      at hrun hvalid ⊢
    have hflush : encodeTurn dstlen ⟨.flush, sc₁, cb₁, log⟩ =
        if (flushGroup dstlen cb₁).2 then
          .again ⟨.ahead sc₁.sp.matchLength, sc₁, (flushGroup dstlen cb₁).1, log⟩
        else .leave (some (sc₁.sp, (flushGroup dstlen cb₁).1.dst, false)) := rfl
    generalize flushGroup dstlen cb₁ = flushed at hrun hflush
    obtain ⟨cb₂, fits⟩ := flushed
    cases fits with
    | false =>
      obtain rfl := Option.some.inj (Option.some.inj hrun)
      exact ⟨1, loop_succ_leave hflush 0⟩
    | true =>
      simp only [if_true] at hrun hflush
      have hahead := hvalid.again hflush
      cases hslide : (readAhead sc₁.sp.matchLength sc₁).bind fun x => drain x.1 x.2 with
      | none =>
        simp only [Option.bind_eq_bind, hslide] at hrun
        cases hrun
      | some sc₂ =>
        simp only [Option.bind_eq_bind, hslide] at hrun
        -- the window slides to the next unit, or to the end of the text
        obtain ⟨log', hcomes⟩ := @comesTo_slide _ cb₂ _ _ dstlen _ hahead hslide
        rw [((ComesTo.of_again hflush .start).trans hcomes).loop_iff]
        have hend : encodeTurn dstlen ⟨.drain 0, sc₂, cb₂, log'⟩ =
            if sc₂.len > 0 then .again ⟨.unit, sc₂, cb₂, log'⟩
            else if cb₂.units ≠ [] then
              .leave (some (sc₂.sp, store dstlen cb₂.dst (cb₂.flags :: cb₂.units)))
            else .leave (some (sc₂.sp, cb₂.dst, true)) := rfl
        by_cases hlen : sc₂.len > 0
        · simp only [hlen, if_true] at hrun hend
          rw [(ComesTo.of_again hend .start).loop_iff]
          exact ih ((hahead.comesTo hcomes).again hend) hrun
        · simp only [hlen, if_false] at hrun hend
          by_cases hunits : cb₂.units ≠ []
          · simp only [hunits, if_true, ne_eq, not_false_eq_true] at hrun hend
            obtain rfl := Option.some.inj (Option.some.inj hrun)
            exact ⟨1, loop_succ_leave hend 0⟩
          · simp only [hunits, if_false] at hrun hend
            obtain rfl := Option.some.inj (Option.some.inj hrun)
            exact ⟨1, loop_succ_leave hend 0⟩

/-- **The encoder** from place to place comes to the end of `encodeLzss`. -/
theorem loop_encodeTurn {src : List UInt8} (h : encodeLzss dstlen src = some out) :
    ∃ fuel, loop (encodeTurn dstlen) fuel (Point.start src) = some (some out) := by
  obtain ⟨m, hm, hfill⟩ := @comesTo_fill (CodeBuf.start []) [] dstlen UPLIM 0 initState src
    (RBSIZE - UPLIM) 0
  have hstart : Point.start src =
      ⟨.fill UPLIM, ⟨initState, src, RBSIZE - UPLIM, 0, 0⟩, .start [], []⟩ := rfl
  rw [hstart, hfill.loop_iff]
  have hvalid := (Point.valid_start src).comesTo hfill
  simp only [encodeLzss] at h
  generalize fillLookahead (RBSIZE - UPLIM) UPLIM 0 initState src = filled at h hm hvalid ⊢
  obtain ⟨len, sp, rest⟩ := filled
  simp only at h hm hvalid ⊢
  have hread : encodeTurn dstlen ⟨.fill m, ⟨sp, rest, RBSIZE - UPLIM, 0, len⟩, .start [], []⟩ =
      if len = 0 then .leave (some (sp, [], false))
      else .again ⟨.prime UPLIM 1, ⟨sp, rest, RBSIZE - UPLIM, 0, len⟩, .start [], []⟩ := by
    rcases hm with rfl | rfl
    · rfl
    · cases m <;> rfl
  by_cases hlen : len = 0
  · subst hlen
    simp only [if_true] at h hread
    obtain rfl := Option.some.inj h
    exact ⟨1, loop_succ_leave hread 0⟩
  · simp only [hlen, if_false] at h hread
    obtain ⟨sp₁, hstrings, h⟩ := Option.bind_eq_some_iff.mp h
    obtain ⟨sp₂, hins, h⟩ := Option.bind_eq_some_iff.mp h
    have hprime := hvalid.again hread
    obtain ⟨i, log₁, hcomes⟩ := @comesTo_prime _ dstlen _ _ _ _ _ hprime hstrings
    have hfirst : encodeTurn dstlen
        ⟨.prime 0 i, ⟨sp₁, rest, RBSIZE - UPLIM, 0, len⟩, .start [], log₁⟩ =
      .again ⟨.first, ⟨sp₁, rest, RBSIZE - UPLIM, 0, len⟩, .start [], log₁⟩ := rfl
    have hvalid₁ := (hprime.comesTo hcomes).again hfirst
    obtain ⟨⟨R, hat⟩, -⟩ := hvalid₁.holds
    obtain ⟨sp, hins', -, hturn⟩ := Point.insert_eq hvalid₁.wellLinked hat.r_lt hat.not_linked .unit
    obtain rfl := Option.some.inj (hins'.symm.trans hins)
    have hinsert : encodeTurn dstlen
        ⟨.first, ⟨sp₁, rest, RBSIZE - UPLIM, 0, len⟩, .start [], log₁⟩ =
      .again ⟨.unit, ⟨sp, rest, RBSIZE - UPLIM, 0, len⟩, .start [],
        log₁ ++ insertion (RBSIZE - UPLIM) sp⟩ := hturn
    -- the trees hold the strings before the text and the first of the text
    rw [(((ComesTo.of_again hread .start).trans hcomes).trans
      (.of_again hfirst (.of_again hinsert .start))).loop_iff]
    exact loop_unit _ (hvalid₁.again hinsert) (Option.join_eq_some_iff.mp h)

/-- The encoder ends on every input. -/
theorem exists_encodeLzss (dstlen : ℕ) (src : List UInt8) :
    ∃ out, encodeLzss dstlen src = some out := by
  by_cases hsrc : src = []
  · subst hsrc
    exact ⟨_, rfl⟩
  · obtain ⟨ts, -, -, hrun⟩ := encodeLzss_spec hsrc
    obtain ⟨sp, -, hrun⟩ := hrun dstlen
    exact ⟨_, hrun⟩

/-- **The encoder's trees**: in every state on every input the arrays are 256 trees of the positions
that were inserted and neither replaced nor deleted since; from there insertions and deletions end
without an access out of the arrays; and the encoder itself ends so, with the result of
`encodeLzss`. -/
theorem encoder_searchTrees (dstlen : ℕ) (src : List UInt8) :
    (∀ pt, ComesTo (encodeTurn dstlen) (Point.start src) pt →
      (∃ trees, SearchTrees pt.sc.sp (live pt.log) trees) ∧
      (∀ r < RBSIZE, r ∉ live pt.log → ∃ sp, Checked.insertNode pt.sc.sp r = some sp) ∧
      ∀ p < RBSIZE, ∃ sp, Checked.deleteNode pt.sc.sp p = some sp) ∧
    ∃ fuel out, loop (encodeTurn dstlen) fuel (Point.start src) = some (some out) ∧
      encodeLzss dstlen src = some out := by
  constructor
  · intro pt hcomes
    have h := (Point.valid_start src).comesTo hcomes
    refine ⟨h.wellLinked.searchTrees h.live, fun r hr hout => ?_, fun p hp => ?_⟩
    · rw [h.live] at hout
      obtain ⟨sp, hrun, -⟩ := insertNode_spec h.wellLinked hr hout
      exact ⟨sp, (Checked.insertNode_eq h.wellLinked hr hout).trans hrun⟩
    · obtain ⟨sp, hrun, -⟩ := deleteNode_spec h.wellLinked hp
      exact ⟨sp, (Checked.deleteNode_eq h.wellLinked hp).trans hrun⟩
  · obtain ⟨out, hout⟩ := exists_encodeLzss dstlen src
    obtain ⟨fuel, hloop⟩ := loop_encodeTurn hout
    exact ⟨fuel, out, hloop, hout⟩

end Lilu.Compression
