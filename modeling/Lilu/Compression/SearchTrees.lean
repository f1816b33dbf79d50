import Lilu.Prelude.Loop
import Lilu.Prelude.LinkedForest

/-!
# The LZSS search trees

The encoder keeps the strings of its window in 256 binary search trees, one for each first byte,
linked through three arrays that are indexed by ring position. Inserting the string at `r` descends
its tree, remembers the longest match met on the way, and replaces a node that matches in full.

## Main definitions

* `EncodeState`: the encoder's arrays and the match the last insertion found
* `insertNode`, `deleteNode`: the two operations on the trees

## Main results

* `insertNode_spec`: an insertion ends, keeps the forest, and finds a true match of linked nodes
* `deleteNode_spec`: a deletion ends, keeps the forest and unlinks exactly its node
-/

namespace Lilu.Compression

open Function

/-- Size of the ring buffer. -/
def RBSIZE : ℕ := 4096

/-- Upper limit for the length of a match. -/
def UPLIM : ℕ := 18

/-- Matches up to this length are sent as single bytes. -/
def THRESHOLD : ℕ := 2

/-- The index that stands for "no node". -/
def NIL : ℕ := RBSIZE

/-- The encoder's state: the trees, the ring buffer with its mirrored tail, and the longest match
that the last insertion met. -/
structure EncodeState extends Links ℕ where
  textBuf : ℕ → UInt8
  matchPosition : ℕ
  matchLength : ℕ

/-- `init_state`: empty trees over a buffer of spaces; everything else is zeroed by `memset`. -/
def initState : EncodeState where
  lchild _ := 0
  rchild i := if RBSIZE + 1 ≤ i ∧ i ≤ RBSIZE + 256 then NIL else 0
  parent i := if i < RBSIZE then NIL else 0
  textBuf i := if i < RBSIZE - UPLIM then 32 else 0
  matchPosition := 0
  matchLength := 0

/-- Compare the strings at `r` and `p` from offset `i` on, at most `n` bytes further: the offset of
the first difference and the difference there. -/
def compareKeys (text : ℕ → UInt8) (r p : ℕ) : ℕ → ℕ → ℕ × ℤ
  | 0, i => (i, 0)
  | n + 1, i =>
    let cmp : ℤ := (text (r + i)).toNat - (text (p + i)).toNat
    if cmp ≠ 0 then (i, cmp) else compareKeys text r p n (i + 1)

/-- One turn of the descent of `insert_node`: follow the link the last comparison chose, or hang
the new string there; compare with the string met, and let the new string replace it when they are
equal in full. -/
def insertTurn (r : ℕ) (st : EncodeState × ℕ × ℤ) : Turn (EncodeState × ℕ × ℤ) EncodeState :=
  let (sp, p, cmp) := st
  if 0 ≤ cmp ∧ sp.rchild p = NIL then
    .leave { sp with toLinks := sp.attachRight p r }
  else if ¬ 0 ≤ cmp ∧ sp.lchild p = NIL then
    .leave { sp with toLinks := sp.attachLeft p r }
  else
    let p := if 0 ≤ cmp then sp.rchild p else sp.lchild p
    let (i, cmp) := compareKeys sp.textBuf r p (UPLIM - 1) 1
    if i > sp.matchLength then
      let sp := { sp with matchPosition := p, matchLength := i }
      if UPLIM ≤ i then .leave { sp with toLinks := sp.replace NIL p r } else .again (sp, p, cmp)
    else .again (sp, p, cmp)

/-- `insert_node`: insert the string at `r` into the tree of its first byte. A tree has at most
`RBSIZE` nodes, which bounds the descent. -/
def insertNode (sp : EncodeState) (r : ℕ) : Option EncodeState :=
  let p := RBSIZE + 1 + (sp.textBuf r).toNat
  let sp := { sp with rchild := update sp.rchild r NIL }
  let sp := { sp with lchild := update sp.lchild r NIL }
  let sp := { sp with matchLength := 0 }
  loop (insertTurn r) (RBSIZE + 2) (sp, p, 1)

/-- One turn of the walk to the rightmost node. -/
def rightmostTurn (sp : EncodeState) (q : ℕ) : Turn ℕ ℕ :=
  if sp.rchild q ≠ NIL then .again (sp.rchild q) else .leave q

/-- `delete_node`: take the node `p` out of its tree. A node with two children gives its place to
the rightmost node of its left subtree. -/
def deleteNode (sp : EncodeState) (p : ℕ) : Option EncodeState :=
  if sp.parent p = NIL then some sp
  else if sp.rchild p = NIL then some { sp with toLinks := sp.bypass NIL p (sp.lchild p) }
  else if sp.lchild p = NIL then some { sp with toLinks := sp.bypass NIL p (sp.rchild p) }
  else
    let q := sp.lchild p
    if sp.rchild q ≠ NIL then
      (loop (rightmostTurn sp) (RBSIZE + 2) (sp.rchild q)).map fun q =>
        { sp with toLinks := ((sp.adoptLeft p q).adoptRight p q).bypass NIL p q }
    else some { sp with toLinks := (sp.adoptRight p q).bypass NIL p q }

/-! ## The forest invariant -/

/-- Ring positions are the nodes and the 256 cells after `NIL` the heads of the trees. -/
def sites : Sites ℕ where
  nil := NIL
  IsNode x := x < RBSIZE
  IsHead x := RBSIZE < x ∧ x ≤ RBSIZE + 256
  nil_not_node := by simp [NIL]
  nil_not_head := by simp [NIL]
  head_not_node := by intro x h; omega

/-- The head of the tree a cell belongs to: that of the string's first byte. -/
def treeOf (text : ℕ → UInt8) (x : ℕ) : ℕ :=
  if x < RBSIZE then RBSIZE + 1 + (text x).toNat else x

namespace EncodeState

/-- The ring position `x` is a node of some tree. -/
abbrev Linked (sp : EncodeState) (x : ℕ) : Prop := Links.Linked sites sp.toLinks x

/-- The trees form a forest, and each string is in the tree of its first byte. -/
def WellLinked (sp : EncodeState) : Prop :=
  ∃ depth : ℕ → ℕ, Forest sites sp.toLinks (treeOf sp.textBuf) depth

end EncodeState

/-- The strings of `n` bytes at `r` and `p` are equal. -/
def Matches (text : ℕ → UInt8) (r p n : ℕ) : Prop :=
  ∀ i < n, text (p + i) = text (r + i)

theorem compareKeys_matches (text : ℕ → UInt8) (r p : ℕ) :
    ∀ n i, Matches text r p i → Matches text r p (compareKeys text r p n i).1 := by
  intro n
  induction n with
  | zero => intro i h; exact h
  | succ n ih =>
    intro i h
    simp only [compareKeys]
    split_ifs with hc
    · exact h
    · refine ih (i + 1) fun k hk => ?_
      rcases Nat.lt_succ_iff_lt_or_eq.mp hk with hk | rfl
      · exact h k hk
      · exact (UInt8.toNat_inj.mp (by omega)).symm

theorem compareKeys_fst_le (text : ℕ → UInt8) (r p : ℕ) :
    ∀ n i, (compareKeys text r p n i).1 ≤ i + n := by
  intro n
  induction n with
  | zero => intro i; simp [compareKeys]
  | succ n ih =>
    intro i
    simp only [compareKeys]
    split_ifs with hc
    · simp
    · have := ih (i + 1)
      omega

/-! ## Insertion -/

theorem treeOf_of_lt {text : ℕ → UInt8} {x : ℕ} (h : x < RBSIZE) :
    treeOf text x = RBSIZE + 1 + (text x).toNat := by simp [treeOf, h]

theorem treeOf_of_head {text : ℕ → UInt8} {x : ℕ} (h : sites.IsHead x) : treeOf text x = x := by
  have : ¬ x < RBSIZE := fun hx => sites.head_not_node x h hx
  simp [treeOf, this]

/-- The cell `p` is in the tree with the head `hd`: it is the head or a linked node. -/
def InTree (sp : EncodeState) (hd p : ℕ) : Prop :=
  (sp.Linked p ∨ sites.IsHead p) ∧ treeOf sp.textBuf p = hd

/-- The longest match met so far is a true match with a node of the trees. -/
def TrueMatch (sp₀ sp : EncodeState) (r : ℕ) : Prop :=
  0 < sp.matchLength →
    sp₀.Linked sp.matchPosition ∧ Matches sp₀.textBuf r sp.matchPosition sp.matchLength

/-- What the descent of `insert_node` keeps: the trees as they were, a place in the tree of the new
string's first byte, and a true match. -/
structure InsertInv (sp₀ : EncodeState) (r : ℕ) (st : EncodeState × ℕ × ℤ) : Prop where
  links : st.1.toLinks = sp₀.toLinks
  text : st.1.textBuf = sp₀.textBuf
  place : InTree sp₀ (treeOf sp₀.textBuf r) st.2.1
  right : sites.IsHead st.2.1 → 0 ≤ st.2.2
  length : st.1.matchLength < UPLIM
  found : TrueMatch sp₀ st.1 r

/-- What an insertion leaves behind. -/
structure Inserted (sp₀ : EncodeState) (r : ℕ) (sp : EncodeState) : Prop where
  wellLinked : sp.WellLinked
  text : sp.textBuf = sp₀.textBuf
  linked : ∀ x, sp.Linked x ↔
    sp₀.Linked x ∧ ¬ (sp.matchLength = UPLIM ∧ x = sp.matchPosition) ∨ x = r
  length : sp.matchLength ≤ UPLIM
  found : TrueMatch sp₀ sp r

theorem matches_one {sp : EncodeState} {r p : ℕ} (hr : r < RBSIZE) (hp : sp.Linked p)
    (ht : treeOf sp.textBuf p = treeOf sp.textBuf r) : Matches sp.textBuf r p 1 := by
  intro i hi
  obtain rfl : i = 0 := by omega
  rw [treeOf_of_lt hp.1, treeOf_of_lt hr] at ht
  exact UInt8.toNat_inj.mp (by simpa using ht)

/-- A turn of the descent moves to a child or ends the insertion. -/
theorem insertTurn_spec {sp₀ : EncodeState} {depth : ℕ → ℕ} {r : ℕ}
    (h : Forest sites sp₀.toLinks (treeOf sp₀.textBuf) depth) (hr : r < RBSIZE)
    (hout : ¬ sp₀.Linked r) (hl : sp₀.lchild r = NIL) (hrt : sp₀.rchild r = NIL)
    {st : EncodeState × ℕ × ℤ} (hst : InsertInv sp₀ r st) :
    match insertTurn r st with
    | .again st' => InsertInv sp₀ r st' ∧ sp₀.Linked st'.2.1 ∧ sp₀.parent st'.2.1 = st.2.1
    | .leave sp => Inserted sp₀ r sp := by
  obtain ⟨⟨links, text, mp, ml⟩, p, cmp⟩ := st
  obtain ⟨hlinks, htext, ⟨hp, htree⟩, hright, hlen, hfound⟩ := hst
  simp only at hlinks htext hp htree hright hlen hfound
  subst hlinks htext
  have hlin : ∀ {x : ℕ} {sp : EncodeState}, sp.matchLength = ml → (sp.Linked x ↔
      sp₀.Linked x ∨ x = r) → (sp.Linked x ↔
        sp₀.Linked x ∧ ¬ (sp.matchLength = UPLIM ∧ x = sp.matchPosition) ∨ x = r) := by
    intro x sp hml hx
    simp [hx, hml, hlen.ne]
  by_cases h1 : 0 ≤ cmp ∧ sp₀.rchild p = NIL
  · -- the new string becomes a right leaf
    obtain ⟨hf, hx⟩ := h.attachRight hp h1.2 hr hout hl hrt htree.symm
    simp only [insertTurn, if_pos h1]
    exact ⟨⟨_, hf⟩, rfl, fun x => hlin rfl (hx x), hlen.le, hfound⟩
  by_cases h2 : ¬ 0 ≤ cmp ∧ sp₀.lchild p = NIL
  · -- the new string becomes a left leaf
    have hp' : sp₀.Linked p := hp.resolve_right fun hh => h2.1 (hright hh)
    obtain ⟨hf, hx⟩ := h.attachLeft hp' h2.2 hr hout hl hrt htree.symm
    simp only [insertTurn, if_neg h1, if_pos h2]
    exact ⟨⟨_, hf⟩, rfl, fun x => hlin rfl (hx x), hlen.le, hfound⟩
  simp only [insertTurn, if_neg h1, if_neg h2]
  -- the descent goes on to the child `q`
  obtain ⟨hq, hpar⟩ : sp₀.Linked (if 0 ≤ cmp then sp₀.rchild p else sp₀.lchild p) ∧
      sp₀.parent (if 0 ≤ cmp then sp₀.rchild p else sp₀.lchild p) = p := by
    by_cases hc : 0 ≤ cmp
    · simp only [if_pos hc]
      exact h.right p hp fun he => h1 ⟨hc, he⟩
    · simp only [if_neg hc]
      exact h.left p (hp.resolve_right fun hh => hc (hright hh)) fun he => h2 ⟨hc, he⟩
  generalize (if 0 ≤ cmp then sp₀.rchild p else sp₀.lchild p) = q at hq hpar
  have hqtree : treeOf sp₀.textBuf q = treeOf sp₀.textBuf r := by
    rw [← h.tree q hq, hpar, htree]
  have hmatch := compareKeys_matches sp₀.textBuf r q (UPLIM - 1) 1 (matches_one hr hq hqtree)
  have hle := compareKeys_fst_le sp₀.textBuf r q (UPLIM - 1) 1
  have hqhead : ¬ sites.IsHead q := Forest.not_head hq
  generalize compareKeys sp₀.textBuf r q (UPLIM - 1) 1 = found at hmatch hle
  obtain ⟨i, cmp'⟩ := found
  simp only [UPLIM] at hmatch hle hlen
  by_cases hlonger : i > ml
  · by_cases hfull : UPLIM ≤ i
    · -- the new string takes the place of an equal one
      obtain rfl : i = 18 := by simp only [UPLIM] at hfull; omega
      obtain ⟨hf, hx⟩ := h.replace hq hr hout hqtree.symm
      simp only [if_pos hlonger, if_pos hfull]
      refine ⟨⟨_, hf⟩, rfl, fun x => ?_, le_rfl, fun _ => ⟨hq, hmatch⟩⟩
      have : ¬ ((18 : ℕ) = UPLIM ∧ x = q) ↔ x ≠ q := by simp [UPLIM]
      simp only [this]
      exact hx x
    · simp only [if_pos hlonger, if_neg hfull]
      exact ⟨⟨rfl, rfl, ⟨Or.inl hq, hqtree⟩, fun hh => absurd hh hqhead, Nat.not_le.mp hfull,
        fun _ => ⟨hq, hmatch⟩⟩, hq, hpar⟩
  · simp only [if_neg hlonger]
    exact ⟨⟨rfl, rfl, ⟨Or.inl hq, hqtree⟩, fun hh => absurd hh hqhead, hlen, hfound⟩, hq, hpar⟩

/-- The state in which the descent starts: the new string has no children, and no match was met. -/
def EncodeState.cleared (sp : EncodeState) (r : ℕ) : EncodeState :=
  { sp with
    rchild := update sp.rchild r NIL, lchild := update sp.lchild r NIL, matchLength := 0 }

/-- The descent starts at the head of the tree of the first byte, in the forest as it was. -/
theorem InsertInv.start {sp : EncodeState} {depth : ℕ → ℕ} {r : ℕ}
    (h : Forest sites sp.toLinks (treeOf sp.textBuf) depth) (hr : r < RBSIZE)
    (hout : ¬ sp.Linked r) :
    Forest sites (sp.cleared r).toLinks (treeOf (sp.cleared r).textBuf) depth ∧
      InsertInv (sp.cleared r) r (sp.cleared r, RBSIZE + 1 + (sp.textBuf r).toNat, 1) := by
  have hrhead : ¬ sites.IsHead r := fun hh => sites.head_not_node r hh hr
  have hhead : sites.IsHead (RBSIZE + 1 + (sp.textBuf r).toNat) := by
    have := (sp.textBuf r).toNat_lt
    exact ⟨by omega, by omega⟩
  refine ⟨h.congr_links rfl (fun x hx => update_of_ne ?_ _ _) (fun x hx => update_of_ne ?_ _ _),
    rfl, rfl, ⟨Or.inr hhead, ?_⟩, fun _ => by simp, by simp [EncodeState.cleared, UPLIM],
    fun h => by simp [EncodeState.cleared] at h⟩
  · rintro rfl
    exact hout hx
  · rintro rfl
    exact hx.elim hout hrhead
  · rw [treeOf_of_head hhead, treeOf_of_lt hr]
    rfl

/-- **An insertion** ends, keeps the forest, adds the string and finds a true match. -/
theorem insertNode_spec {sp : EncodeState} (h : sp.WellLinked) {r : ℕ} (hr : r < RBSIZE)
    (hout : ¬ sp.Linked r) : ∃ sp', insertNode sp r = some sp' ∧ Inserted sp r sp' := by
  obtain ⟨depth, hf⟩ := h
  obtain ⟨hf₀, hinit⟩ := InsertInv.start hf hr hout
  have hspec := @insertTurn_spec (sp.cleared r) depth r hf₀ hr hout (by simp [EncodeState.cleared])
    (by simp [EncodeState.cleared])
  have hfuel : (Forest.below sites (sp.cleared r).toLinks depth (Finset.range RBSIZE)
      (RBSIZE + 1 + (sp.textBuf r).toNat)).card < RBSIZE + 2 := by
    have := Forest.card_below_le sites (sp.cleared r).toLinks depth (Finset.range RBSIZE)
      (RBSIZE + 1 + (sp.textBuf r).toNat)
    rw [Finset.card_range] at this
    omega
  obtain ⟨sp', hsp', hpost⟩ :=
    loop_spec (insertTurn r) (InsertInv (sp.cleared r) r) (Inserted (sp.cleared r) r)
    (fun st =>
      (Forest.below sites (sp.cleared r).toLinks depth (Finset.range RBSIZE) st.2.1).card)
    (fun s s' hs ht => by
      have := hspec hs
      rw [ht] at this
      have hlt := hf₀.card_below_lt (Finset.range RBSIZE)
        (fun x hx => Finset.mem_range.mpr hx) this.2.1
      rw [this.2.2] at hlt
      exact ⟨this.1, hlt⟩)
    (fun s b hs ht => by
      have := hspec hs
      rw [ht] at this
      exact this)
    hinit hfuel
  refine ⟨sp', hsp', ?_⟩
  exact ⟨hpost.wellLinked, hpost.text, hpost.linked, hpost.length, hpost.found⟩

/-! ## Deletion -/

/-- What a deletion leaves behind. -/
structure Deleted (sp₀ : EncodeState) (p : ℕ) (sp : EncodeState) : Prop where
  wellLinked : sp.WellLinked
  text : sp.textBuf = sp₀.textBuf
  matchLength : sp.matchLength = sp₀.matchLength
  linked : ∀ x, sp.Linked x ↔ sp₀.Linked x ∧ x ≠ p

/-- What the walk to the rightmost node of the left subtree of `p` keeps. -/
structure RightmostInv (sp : EncodeState) (depth : ℕ → ℕ) (p q : ℕ) : Prop where
  linked : sp.Linked q
  linked_parent : sp.Linked (sp.parent q)
  side : sp.rchild (sp.parent q) = q
  depth : depth p < depth (sp.parent q)
  tree : treeOf sp.textBuf q = treeOf sp.textBuf p

theorem RightmostInv.step {sp : EncodeState} {depth : ℕ → ℕ} {p q : ℕ}
    (h : Forest sites sp.toLinks (treeOf sp.textBuf) depth) (hq : RightmostInv sp depth p q)
    (hne : sp.rchild q ≠ NIL) :
    RightmostInv sp depth p (sp.rchild q) ∧ sp.parent (sp.rchild q) = q := by
  obtain ⟨hlink, hpar⟩ := h.right q (Or.inl hq.linked) hne
  refine ⟨⟨hlink, by rw [hpar]; exact hq.linked, by rw [hpar], ?_, ?_⟩, hpar⟩
  · rw [hpar]
    exact hq.depth.trans (h.depth q hq.linked)
  · rw [← h.tree _ hlink, hpar, hq.tree]

/-- The walk starts at the right child of the left child. -/
theorem RightmostInv.start {sp : EncodeState} {depth : ℕ → ℕ} {p : ℕ}
    (h : Forest sites sp.toLinks (treeOf sp.textBuf) depth) (hp : sp.Linked p)
    (hl : sp.lchild p ≠ NIL) (hright : sp.rchild (sp.lchild p) ≠ NIL) :
    RightmostInv sp depth p (sp.rchild (sp.lchild p)) := by
  obtain ⟨ha, hap⟩ := h.left p hp hl
  obtain ⟨hlink, hpar⟩ := h.right _ (Or.inl ha) hright
  refine ⟨hlink, by rw [hpar]; exact ha, by rw [hpar], ?_, ?_⟩
  · rw [hpar]
    have := h.depth _ ha
    rwa [hap] at this
  · rw [← h.tree _ hlink, hpar, ← h.tree _ ha, hap]

theorem RightmostInv.turn {sp : EncodeState} {depth : ℕ → ℕ} {p q q' : ℕ}
    (h : Forest sites sp.toLinks (treeOf sp.textBuf) depth) (hq : RightmostInv sp depth p q)
    (ht : rightmostTurn sp q = .again q') : RightmostInv sp depth p q' ∧ sp.parent q' = q := by
  unfold rightmostTurn at ht
  split_ifs at ht with hne
  obtain rfl := Turn.again.inj ht
  exact hq.step h hne

/-- The walk ends at a node without a right child. -/
theorem rightmost_spec {sp : EncodeState} {depth : ℕ → ℕ} {p q : ℕ}
    (h : Forest sites sp.toLinks (treeOf sp.textBuf) depth) (hq : RightmostInv sp depth p q) :
    ∃ q', loop (rightmostTurn sp) (RBSIZE + 2) q = some q' ∧ RightmostInv sp depth p q' ∧
      sp.rchild q' = NIL := by
  have hfuel : (Forest.below sites sp.toLinks depth (Finset.range RBSIZE) q).card < RBSIZE + 2 := by
    have := Forest.card_below_le sites sp.toLinks depth (Finset.range RBSIZE) q
    rw [Finset.card_range] at this
    omega
  exact loop_spec (rightmostTurn sp) (RightmostInv sp depth p)
    (fun q => RightmostInv sp depth p q ∧ sp.rchild q = NIL)
    (fun q => (Forest.below sites sp.toLinks depth (Finset.range RBSIZE) q).card)
    (fun q q' hq ht => by
      obtain ⟨hq', hpar'⟩ := hq.turn h ht
      have hlt := h.card_below_lt (Finset.range RBSIZE)
        (fun x hx => Finset.mem_range.mpr hx) hq'.linked
      rw [hpar'] at hlt
      exact ⟨hq', hlt⟩)
    (fun q q' hq ht => by
      unfold rightmostTurn at ht
      split_ifs at ht with hne
      obtain rfl := Turn.leave.inj ht
      exact ⟨hq, not_not.mp hne⟩)
    hq hfuel

/-- **A deletion** ends, keeps the forest and unlinks exactly its node. -/
theorem deleteNode_spec {sp : EncodeState} (h : sp.WellLinked) {p : ℕ} (hp : p < RBSIZE) :
    ∃ sp', deleteNode sp p = some sp' ∧ Deleted sp p sp' := by
  obtain ⟨depth, hf⟩ := h
  by_cases hpar : sp.parent p = NIL
  · refine ⟨sp, by simp [deleteNode, hpar], ⟨depth, hf⟩, rfl, rfl, fun x => ?_⟩
    refine ⟨fun hx => ⟨hx, ?_⟩, And.left⟩
    rintro rfl
    exact hx.2 hpar
  have hlink : sp.Linked p := ⟨hp, hpar⟩
  by_cases hr : sp.rchild p = NIL
  · obtain ⟨hf', hx⟩ := hf.bypass hlink (Or.inl ⟨rfl, hr⟩)
    exact ⟨{ sp with toLinks := sp.bypass NIL p (sp.lchild p) },
      by simp only [deleteNode, if_neg hpar, if_pos hr], ⟨_, hf'⟩, rfl, rfl, hx⟩
  by_cases hl : sp.lchild p = NIL
  · obtain ⟨hf', hx⟩ := hf.bypass hlink (Or.inr ⟨rfl, hl⟩)
    exact ⟨{ sp with toLinks := sp.bypass NIL p (sp.rchild p) },
      by simp only [deleteNode, if_neg hpar, if_neg hr, if_pos hl], ⟨_, hf'⟩, rfl, rfl, hx⟩
  by_cases hright : sp.rchild (sp.lchild p) = NIL
  · -- the left child itself moves up
    obtain ⟨hf', hx⟩ := hf.promote_near hlink hl hr hright
    exact ⟨{ sp with toLinks := (sp.adoptRight p (sp.lchild p)).bypass NIL p (sp.lchild p) },
      by simp only [deleteNode, if_neg hpar, if_neg hr, if_neg hl, hright, ne_eq,
        not_true_eq_false, if_false], ⟨_, hf'⟩, rfl, rfl, hx⟩
  · -- the rightmost node of the left subtree moves up
    obtain ⟨q, hq, hend, hqr⟩ := rightmost_spec hf (.start hf hlink hl hright)
    obtain ⟨hf', hx⟩ := hf.promote_far hlink hl hr hend.linked hqr hend.linked_parent
      hend.side hend.depth hend.tree
    exact ⟨{ sp with toLinks := ((sp.adoptLeft p q).adoptRight p q).bypass NIL p q },
      by simp only [deleteNode, if_neg hpar, if_neg hr, if_neg hl, ne_eq, hright,
        not_false_eq_true, if_true, hq, Option.map_some], ⟨_, hf'⟩, rfl, rfl, hx⟩

end Lilu.Compression
