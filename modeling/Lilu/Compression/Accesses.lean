import Lilu.Compression.SearchTrees

/-!
# Array accesses of the search trees

The arrays of the encoder have different lengths: only `rchild` reaches to the heads of the trees,
and the sentinel index is a cell of all three. Here the two operations run with every index checked
against the length of its array, and an access out of it makes the run fail.

## Main definitions

* `Checked.insertNode`, `Checked.deleteNode`: the two operations with checked accesses
* `Hangs`: a node's parent is a node or the head that leads to it

## Main results

* `Checked.insertNode_eq`, `Checked.deleteNode_eq`: on well linked trees no access fails
-/

namespace Lilu.Compression

open Function

namespace Checked

/-- What an access to the cell `i` of an array with `size` cells gives. -/
def access {α : Type*} (size i : ℕ) (a : α) : Option α :=
  if i < size then some a else none

theorem access_of_lt {α : Type*} {size i : ℕ} (h : i < size) (a : α) : access size i a = some a :=
  if_pos h

def lchild (L : Links ℕ) (i : ℕ) : Option ℕ :=
  access (RBSIZE + 1) i (L.lchild i)

def rchild (L : Links ℕ) (i : ℕ) : Option ℕ :=
  access (RBSIZE + 257) i (L.rchild i)

def parent (L : Links ℕ) (i : ℕ) : Option ℕ :=
  access (RBSIZE + 1) i (L.parent i)

def setLchild (L : Links ℕ) (i x : ℕ) : Option (Links ℕ) :=
  access (RBSIZE + 1) i { L with lchild := update L.lchild i x }

def setRchild (L : Links ℕ) (i x : ℕ) : Option (Links ℕ) :=
  access (RBSIZE + 257) i { L with rchild := update L.rchild i x }

def setParent (L : Links ℕ) (i x : ℕ) : Option (Links ℕ) :=
  access (RBSIZE + 1) i { L with parent := update L.parent i x }

def textBuf (text : ℕ → UInt8) (i : ℕ) : Option UInt8 :=
  access (RBSIZE + UPLIM - 1) i (text i)

/-- `Links.redirect`, with the parent read once for each of its uses. -/
def redirect (L : Links ℕ) (p q : ℕ) : Option (Links ℕ) := do
  if (← rchild L (← parent L p)) = p then setRchild L (← parent L p) q
  else setLchild L (← parent L p) q

/-- The end of `insert_node`, where the new string replaces an equal one. -/
def replace (L : Links ℕ) (p r : ℕ) : Option (Links ℕ) := do
  let L ← setParent L r (← parent L p)
  let L ← setLchild L r (← lchild L p)
  let L ← setRchild L r (← rchild L p)
  let L ← setParent L (← lchild L p) r
  let L ← setParent L (← rchild L p) r
  let L ← redirect L p r
  setParent L p NIL

/-- The end of `delete_node`, where `q` takes the place of `p`. -/
def bypass (L : Links ℕ) (p q : ℕ) : Option (Links ℕ) := do
  let L ← setParent L q (← parent L p)
  let L ← redirect L p q
  setParent L p NIL

def adoptRight (L : Links ℕ) (p q : ℕ) : Option (Links ℕ) := do
  let L ← setRchild L q (← rchild L p)
  setParent L (← rchild L p) q

def adoptLeft (L : Links ℕ) (p q : ℕ) : Option (Links ℕ) := do
  let L ← setRchild L (← parent L q) (← lchild L q)
  let L ← setParent L (← lchild L q) (← parent L q)
  let L ← setLchild L q (← lchild L p)
  setParent L (← lchild L p) q

/-- `compareKeys` with the bytes of both strings checked. -/
def compareKeys (text : ℕ → UInt8) (r p : ℕ) : ℕ → ℕ → Option (ℕ × ℤ)
  | 0, i => some (i, 0)
  | n + 1, i => do
    let a ← textBuf text (r + i)
    let b ← textBuf text (p + i)
    let cmp : ℤ := a.toNat - b.toNat
    if cmp ≠ 0 then some (i, cmp) else compareKeys text r p n (i + 1)

/-- Read the link of `p` that the last comparison chose. -/
def follow (L : Links ℕ) (cmp : ℤ) (p : ℕ) : Option ℕ :=
  if 0 ≤ cmp then rchild L p else lchild L p

/-- Write the link of `p` that the last comparison chose. -/
def hang (L : Links ℕ) (cmp : ℤ) (p r : ℕ) : Option (Links ℕ) :=
  if 0 ≤ cmp then setRchild L p r else setLchild L p r

/-- One turn of the descent of `insert_node`. -/
def insertTurn (r : ℕ) (st : EncodeState × ℕ × ℤ) :
    Option (Turn (EncodeState × ℕ × ℤ) EncodeState) := do
  let (sp, p, cmp) := st
  let next ← follow sp.toLinks cmp p
  if next = NIL then do
    let L ← hang sp.toLinks cmp p r
    let L ← setParent L r p
    some (.leave { sp with toLinks := L })
  else do
    let (i, cmp) ← compareKeys sp.textBuf r next (UPLIM - 1) 1
    if i > sp.matchLength then
      if UPLIM ≤ i then do
        let L ← replace sp.toLinks next r
        some (.leave { sp with toLinks := L, matchPosition := next, matchLength := i })
      else some (.again ({ sp with matchPosition := next, matchLength := i }, next, cmp))
    else some (.again (sp, next, cmp))

/-- `insert_node` with checked accesses. -/
def insertNode (sp : EncodeState) (r : ℕ) : Option EncodeState := do
  let c ← textBuf sp.textBuf r
  let L ← setLchild sp.toLinks r NIL
  let L ← setRchild L r NIL
  tryLoop (insertTurn r) (RBSIZE + 2)
    ({ sp with toLinks := L, matchLength := 0 }, RBSIZE + 1 + c.toNat, 1)

/-- One turn of the walk to the rightmost node. -/
def rightmostTurn (L : Links ℕ) (q : ℕ) : Option (Turn ℕ ℕ) := do
  let c ← rchild L q
  if c ≠ NIL then some (.again c) else some (.leave q)

/-- What `delete_node` does to the links of a node `p` that is in a tree. -/
def unlink (L : Links ℕ) (p : ℕ) : Option (Links ℕ) := do
  if (← rchild L p) = NIL then bypass L p (← lchild L p)
  else if (← lchild L p) = NIL then bypass L p (← rchild L p)
  else do
    let q ← lchild L p
    let c ← rchild L q
    if c ≠ NIL then do
      let q ← tryLoop (rightmostTurn L) (RBSIZE + 2) c
      let L ← adoptLeft L p q
      let L ← adoptRight L p q
      bypass L p q
    else do
      let L ← adoptRight L p q
      bypass L p q

/-- `delete_node` with checked accesses. -/
def deleteNode (sp : EncodeState) (p : ℕ) : Option EncodeState := do
  if (← parent sp.toLinks p) = NIL then some sp
  else (unlink sp.toLinks p).map fun L => { sp with toLinks := L }

/-! ## The rewirings -/

/-- The node `p` has a parent that is a node, or the head that leads to `p`. -/
structure Hangs (L : Links ℕ) (p : ℕ) : Prop where
  node : p < RBSIZE
  parent : L.parent p < RBSIZE ∨ sites.IsHead (L.parent p) ∧ L.rchild (L.parent p) = p

variable {L L' : Links ℕ} {depth : ℕ → ℕ} {tree : ℕ → ℕ} {p q r : ℕ}

/-- Writing to the children of nodes and to other parents leaves a node where it hangs. -/
theorem Hangs.congr (h : Hangs L p) (hparent : L'.parent p = L.parent p)
    (hright : ∀ x, ¬ x < RBSIZE → L'.rchild x = L.rchild x) : Hangs L' p := by
  refine ⟨h.node, ?_⟩
  rw [hparent]
  refine h.parent.imp_right fun ⟨hhead, hchild⟩ => ⟨hhead, ?_⟩
  rw [hright _ fun hlt => sites.head_not_node _ hhead hlt, hchild]

theorem Hangs.of_linked (h : Forest sites L tree depth) (hp : L.Linked sites p) : Hangs L p := by
  refine ⟨hp.1, ?_⟩
  rcases h.parent p hp with ⟨hlink, -⟩ | ⟨hlink | hhead, hchild⟩
  · exact .inl hlink.1
  · exact .inl hlink.1
  · exact .inr ⟨hhead, hchild⟩

theorem lchild_lt (h : Forest sites L tree depth) (hp : L.Linked sites p) :
    L.lchild p < RBSIZE + 1 := by
  by_cases hnil : L.lchild p = NIL
  · rw [hnil]
    exact Nat.lt_succ_self RBSIZE
  · exact Nat.lt_add_right _ (h.left p hp hnil).1.1

theorem rchild_lt (h : Forest sites L tree depth) (hp : L.Linked sites p) :
    L.rchild p < RBSIZE + 1 := by
  by_cases hnil : L.rchild p = NIL
  · rw [hnil]
    exact Nat.lt_succ_self RBSIZE
  · exact Nat.lt_add_right _ (h.right p (.inl hp) hnil).1.1

theorem redirect_eq (h : Hangs L p) : redirect L p q = some (L.redirect p q) := by
  have hp : p < RBSIZE + 1 := Nat.lt_add_right _ h.node
  have hg : L.parent p < RBSIZE + 257 := by
    rcases h.parent with hlt | ⟨hhead, -⟩
    · exact Nat.lt_add_right _ hlt
    · have := hhead.2
      simp only [RBSIZE] at this ⊢
      omega
  by_cases hright : L.rchild (L.parent p) = p
  · simp only [redirect, parent, rchild, setRchild, access_of_lt hp, access_of_lt hg, hright,
      Option.bind_eq_bind, Option.bind_some, if_true, Links.redirect]
  · -- the head of a tree has no left child to write to
    have hg' : L.parent p < RBSIZE + 1 :=
      Nat.lt_add_right _ (h.parent.resolve_right fun hh => hright hh.2)
    simp only [redirect, parent, rchild, setLchild, access_of_lt hp, access_of_lt hg,
      access_of_lt hg', hright, Option.bind_eq_bind, Option.bind_some, if_false, Links.redirect]

theorem bypass_eq (h : Hangs L p) (hq : q < RBSIZE + 1) (hne : p ≠ q) :
    bypass L p q = some (L.bypass NIL p q) := by
  have hp : p < RBSIZE + 1 := Nat.lt_add_right _ h.node
  have hhangs : Hangs { L with parent := update L.parent q (L.parent p) } p :=
    h.congr (update_of_ne hne _ _) fun _ _ => rfl
  simp only [bypass, parent, setParent, access_of_lt hp, access_of_lt hq, Option.bind_eq_bind,
    Option.bind_some, redirect_eq hhangs, Links.bypass]

theorem adoptRight_eq (hp : p < RBSIZE) (hq : q < RBSIZE) (hr : L.rchild p < RBSIZE + 1) :
    adoptRight L p q = some (L.adoptRight p q) := by
  have hp' : p < RBSIZE + 257 := Nat.lt_add_right _ hp
  have hq' : q < RBSIZE + 257 := Nat.lt_add_right _ hq
  have hr' : update L.rchild q (L.rchild p) p < RBSIZE + 1 := by
    rw [update_apply]
    split_ifs <;> exact hr
  simp only [adoptRight, rchild, setRchild, setParent, access_of_lt hp', access_of_lt hq',
    access_of_lt hr', Option.bind_eq_bind, Option.bind_some, Links.adoptRight]

theorem Hangs.adoptRight (h : Hangs L p) (hq : q < RBSIZE) (hne : p ≠ L.rchild p) :
    Hangs (L.adoptRight p q) p := by
  apply h.congr
  · have hne' : p ≠ update L.rchild q (L.rchild p) p := by
      rw [update_apply]
      split_ifs <;> exact hne
    exact update_of_ne hne' _ _
  · intro x hx
    apply update_of_ne
    rintro rfl
    exact hx hq

theorem adoptLeft_eq (hp : p < RBSIZE) (hq : q < RBSIZE) (hl : L.lchild p < RBSIZE + 1)
    (hlq : L.lchild q < RBSIZE + 1) (hg : L.parent q < RBSIZE) :
    adoptLeft L p q = some (L.adoptLeft p q) := by
  have hp' : p < RBSIZE + 1 := Nat.lt_add_right _ hp
  have hq' : q < RBSIZE + 1 := Nat.lt_add_right _ hq
  have hg' : L.parent q < RBSIZE + 257 := Nat.lt_add_right _ hg
  have hl' : update L.lchild q (L.lchild p) p < RBSIZE + 1 := by
    rw [update_apply]
    split_ifs <;> exact hl
  simp only [adoptLeft, lchild, parent, setLchild, setRchild, setParent, access_of_lt hp',
    access_of_lt hq', access_of_lt hg', access_of_lt hlq, access_of_lt hl', Option.bind_eq_bind,
    Option.bind_some, Links.adoptLeft]

theorem Hangs.adoptLeft (h : Hangs L p) (hg : L.parent q < RBSIZE)
    (hl : p ≠ L.lchild p) (hlq : p ≠ L.lchild q) : Hangs (L.adoptLeft p q) p := by
  apply h.congr
  · have hl' : p ≠ update L.lchild q (L.lchild p) p := by
      rw [update_apply]
      split_ifs <;> exact hl
    exact (update_of_ne hl' _ _).trans (update_of_ne hlq _ _)
  · intro x hx
    apply update_of_ne
    rintro rfl
    exact hx hg

theorem replace_eq (h : Hangs L p) (hr : r < RBSIZE) (hl : L.lchild p < RBSIZE + 1)
    (hrt : L.rchild p < RBSIZE + 1) (hpr : p ≠ r) (hpl : p ≠ L.lchild p) (hprt : p ≠ L.rchild p) :
    replace L p r = some (L.replace NIL p r) := by
  have hp₁ : p < RBSIZE + 1 := Nat.lt_add_right _ h.node
  have hp₂ : p < RBSIZE + 257 := Nat.lt_add_right _ h.node
  have hr₁ : r < RBSIZE + 1 := Nat.lt_add_right _ hr
  have hr₂ : r < RBSIZE + 257 := Nat.lt_add_right _ hr
  have hhangs : Hangs { lchild := update L.lchild r (L.lchild p)
                        rchild := update L.rchild r (L.rchild p)
                        parent := update (update (update L.parent r (L.parent p)) (L.lchild p) r)
                          (L.rchild p) r } p := by
    apply h.congr
    · simp only
      rw [update_of_ne hprt, update_of_ne hpl, update_of_ne hpr]
    · intro x hx
      apply update_of_ne
      rintro rfl
      exact hx hr
  simp only [replace, lchild, rchild, parent, setLchild, setRchild, setParent, access_of_lt hp₁,
    access_of_lt hp₂, access_of_lt hr₁, access_of_lt hr₂, access_of_lt hl, access_of_lt hrt,
    Option.bind_eq_bind, Option.bind_some, update_of_ne hpr, redirect_eq hhangs, Links.replace]

/-! ## Insertion -/

theorem compareKeys_eq (text : ℕ → UInt8) (hr : r < RBSIZE) (hp : p < RBSIZE) :
    ∀ n i, i + n ≤ UPLIM →
      compareKeys text r p n i = some (Compression.compareKeys text r p n i) := by
  intro n
  induction n with
  | zero => exact fun _ _ => rfl
  | succ n ih =>
    intro i hi
    have hri : r + i < RBSIZE + UPLIM - 1 := by omega
    have hpi : p + i < RBSIZE + UPLIM - 1 := by omega
    simp only [compareKeys, textBuf, access_of_lt hri, access_of_lt hpi, Option.bind_eq_bind,
      Option.bind_some, Compression.compareKeys]
    rw [ih (i + 1) (by omega), apply_ite some]

/-- **The link a descent follows** is in its array: only a head has no left child, and from there
the descent goes right. -/
theorem follow_eq {sp₀ : EncodeState} {st : EncodeState × ℕ × ℤ} (hst : InsertInv sp₀ r st) :
    follow st.1.toLinks st.2.2 st.2.1 =
        some (if 0 ≤ st.2.2 then st.1.rchild st.2.1 else st.1.lchild st.2.1) ∧
      ∀ x, hang st.1.toLinks st.2.2 st.2.1 x =
        some (if 0 ≤ st.2.2 then { st.1.toLinks with rchild := update st.1.rchild st.2.1 x }
          else { st.1.toLinks with lchild := update st.1.lchild st.2.1 x }) := by
  unfold follow hang
  by_cases hc : 0 ≤ st.2.2
  · have hp : st.2.1 < RBSIZE + 257 := by
      rcases hst.place.1 with hlink | hhead
      · exact Nat.lt_add_right _ hlink.1
      · have := hhead.2
        simp only [RBSIZE] at this ⊢
        omega
    simp only [hc, if_true, rchild, setRchild, access_of_lt hp, implies_true, and_self]
  · have hp : st.2.1 < RBSIZE + 1 :=
      Nat.lt_add_right _ (hst.place.1.resolve_right fun hhead => hc (hst.right hhead)).1
    simp only [hc, if_false, lchild, setLchild, access_of_lt hp, implies_true, and_self]

/-- The child that a descent comes to is a linked node. -/
theorem follow_linked {sp₀ : EncodeState} {st : EncodeState × ℕ × ℤ}
    (h : Forest sites sp₀.toLinks tree depth) (hst : InsertInv sp₀ r st)
    (hne : (if 0 ≤ st.2.2 then st.1.rchild st.2.1 else st.1.lchild st.2.1) ≠ NIL) :
    sp₀.Linked (if 0 ≤ st.2.2 then st.1.rchild st.2.1 else st.1.lchild st.2.1) := by
  have hlinks := hst.links
  by_cases hc : 0 ≤ st.2.2
  · simp only [hc, if_true] at hne ⊢
    rw [hlinks] at hne ⊢
    exact (h.right _ hst.place.1 hne).1
  · simp only [hc, if_false] at hne ⊢
    rw [hlinks] at hne ⊢
    exact (h.left _ (hst.place.1.resolve_right fun hhead => hc (hst.right hhead)) hne).1

theorem insertTurn_eq {sp₀ : EncodeState} {st : EncodeState × ℕ × ℤ}
    (h : Forest sites sp₀.toLinks tree depth) (hr : r < RBSIZE) (hout : ¬ sp₀.Linked r)
    (hst : InsertInv sp₀ r st) : insertTurn r st = some (Compression.insertTurn r st) := by
  obtain ⟨hnext, hset⟩ := follow_eq hst
  have hlinked := follow_linked h hst
  have hlinks := hst.links
  obtain ⟨sp, p, cmp⟩ := st
  simp only at hnext hset hlinked hlinks
  have hparent : ∀ L : Links ℕ, setParent L r p = some { L with parent := update L.parent r p } :=
    fun L => access_of_lt (Nat.lt_add_right _ hr) _
  simp only [insertTurn, hnext, hset, hparent, Option.bind_eq_bind, Option.bind_some,
    Compression.insertTurn]
  by_cases hnil : (if 0 ≤ cmp then sp.rchild p else sp.lchild p) = NIL
  · -- the new string becomes a leaf
    rw [if_pos hnil]
    by_cases hc : 0 ≤ cmp
    · simp only [hc, if_true] at hnil
      simp only [hc, hnil, if_true, true_and, Links.attachRight]
    · simp only [hc, if_false] at hnil
      simp only [hc, hnil, if_true, if_false, false_and, not_false_eq_true, true_and,
        Links.attachLeft]
  · have hlink := hlinked hnil
    have h₁ : ¬ (0 ≤ cmp ∧ sp.rchild p = NIL) := by
      rintro ⟨hc, hr⟩
      exact hnil (by rw [if_pos hc, hr])
    have h₂ : ¬ (¬ 0 ≤ cmp ∧ sp.lchild p = NIL) := by
      rintro ⟨hc, hl⟩
      exact hnil (by rw [if_neg hc, hl])
    rw [if_neg hnil, if_neg h₁, if_neg h₂]
    generalize (if 0 ≤ cmp then sp.rchild p else sp.lchild p) = q at hlink
    have hreplace : replace sp.toLinks q r = some (sp.toLinks.replace NIL q r) := by
      rw [hlinks]
      refine replace_eq (.of_linked h hlink) hr (lchild_lt h hlink) (rchild_lt h hlink) ?_
        (h.child_ne hlink (.inl rfl)).symm (h.child_ne hlink (.inr rfl)).symm
      rintro rfl
      exact hout hlink
    rw [compareKeys_eq sp.textBuf hr hlink.1 _ _ le_rfl, Option.bind_some]
    generalize Compression.compareKeys sp.textBuf r q (UPLIM - 1) 1 = found
    obtain ⟨i, cmp'⟩ := found
    simp only [hreplace, Option.bind_some, apply_ite some]

/-- **An insertion** into well linked trees has no access out of the arrays. -/
theorem insertNode_eq {sp : EncodeState} (h : sp.WellLinked) (hr : r < RBSIZE)
    (hout : ¬ sp.Linked r) : insertNode sp r = Compression.insertNode sp r := by
  obtain ⟨depth, hf⟩ := h
  obtain ⟨hf₀, hinit⟩ := InsertInv.start hf hr hout
  have htext : r < RBSIZE + UPLIM - 1 := by
    simp only [UPLIM]
    omega
  have hr₁ : r < RBSIZE + 1 := Nat.lt_add_right _ hr
  have hr₂ : r < RBSIZE + 257 := Nat.lt_add_right _ hr
  simp only [insertNode, textBuf, setLchild, setRchild, access_of_lt htext, access_of_lt hr₁,
    access_of_lt hr₂, Option.bind_eq_bind, Option.bind_some]
  refine tryLoop_eq (InsertInv (sp.cleared r) r)
    (fun st hst => insertTurn_eq hf₀ hr hout hst) (fun st st' hst ht => ?_) hinit
  have hspec := insertTurn_spec hf₀ hr hout (update_self ..) (update_self ..) hst
  rw [ht] at hspec
  exact hspec.1

/-! ## Deletion -/

/-- The walk to the rightmost node stays in `rchild`. -/
theorem rightmost_eq {sp : EncodeState} (h : Forest sites sp.toLinks (treeOf sp.textBuf) depth)
    (hq : RightmostInv sp depth p q) : tryLoop (rightmostTurn sp.toLinks) (RBSIZE + 2) q =
      loop (Compression.rightmostTurn sp) (RBSIZE + 2) q := by
  refine tryLoop_eq (RightmostInv sp depth p) (fun q hq => ?_)
    (fun q q' hq ht => (hq.turn h ht).1) hq
  have hq₂ : q < RBSIZE + 257 := Nat.lt_add_right _ hq.linked.1
  simp only [rightmostTurn, rchild, access_of_lt hq₂, Option.bind_eq_bind, Option.bind_some,
    Compression.rightmostTurn, apply_ite some]

/-- Moving the rightmost node up stays in the arrays: `p` hangs where it did, as only nodes below it
change before it does. -/
theorem promote_eq {sp : EncodeState} (h : Forest sites sp.toLinks (treeOf sp.textBuf) depth)
    (hp : sp.Linked p) (hq : RightmostInv sp depth p q) :
    ((adoptLeft sp.toLinks p q).bind fun L => (adoptRight L p q).bind fun L => bypass L p q) =
      some (((sp.adoptLeft p q).adoptRight p q).bypass NIL p q) := by
  have hpq : depth p < depth q := hq.depth.trans (h.depth q hq.linked)
  have hqp : p ≠ q := by
    rintro rfl
    exact lt_irrefl _ hpq
  have hpl : p ≠ sp.lchild p := (h.child_ne hp (.inl rfl)).symm
  have hpr : p ≠ sp.rchild p := (h.child_ne hp (.inr rfl)).symm
  have hplq : p ≠ sp.lchild q := by
    intro he
    have hpar := (h.left q hq.linked (he ▸ Forest.ne_nil hp)).2
    have hd := h.depth p hp
    rw [← he] at hpar
    rw [hpar] at hd
    exact lt_irrefl _ (hpq.trans hd)
  -- `p` may be the parent whose right child moves
  have hchild : (sp.adoptLeft p q).rchild p = sp.lchild q ∨
      (sp.adoptLeft p q).rchild p = sp.rchild p := by
    simp only [Links.adoptLeft, update_apply]
    split_ifs
    · exact .inl rfl
    · exact .inr rfl
  have hr : (sp.adoptLeft p q).rchild p < RBSIZE + 1 ∧ p ≠ (sp.adoptLeft p q).rchild p := by
    rcases hchild with he | he
    · rw [he]
      exact ⟨lchild_lt h hq.linked, hplq⟩
    · rw [he]
      exact ⟨rchild_lt h hp, hpr⟩
  have hleft := adoptLeft_eq hp.1 hq.linked.1 (lchild_lt h hp) (lchild_lt h hq.linked)
    hq.linked_parent.1
  have hhangs := ((Hangs.of_linked h hp).adoptLeft hq.linked_parent.1 hpl hplq).adoptRight
    hq.linked.1 hr.2
  rw [hleft, Option.bind_some, adoptRight_eq hp.1 hq.linked.1 hr.1, Option.bind_some,
    bypass_eq hhangs (Nat.lt_add_right _ hq.linked.1) hqp]

/-- **A deletion** from well linked trees has no access out of the arrays. -/
theorem deleteNode_eq {sp : EncodeState} (h : sp.WellLinked) (hp : p < RBSIZE) :
    deleteNode sp p = Compression.deleteNode sp p := by
  obtain ⟨depth, hf⟩ := h
  have hp₁ : p < RBSIZE + 1 := Nat.lt_add_right _ hp
  have hp₂ : p < RBSIZE + 257 := Nat.lt_add_right _ hp
  simp only [deleteNode, parent, access_of_lt hp₁, Option.bind_eq_bind, Option.bind_some]
  by_cases hpar : sp.parent p = NIL
  · simp only [hpar, if_true, Compression.deleteNode]
  have hlink : sp.Linked p := ⟨hp, hpar⟩
  have hhangs : Hangs sp.toLinks p := .of_linked hf hlink
  have hl₁ := lchild_lt hf hlink
  have hr₁ := rchild_lt hf hlink
  have hpl : p ≠ sp.lchild p := (hf.child_ne hlink (.inl rfl)).symm
  have hpr : p ≠ sp.rchild p := (hf.child_ne hlink (.inr rfl)).symm
  simp only [unlink, rchild, lchild, access_of_lt hp₁, access_of_lt hp₂, Option.bind_eq_bind,
    Option.bind_some]
  by_cases hr : sp.rchild p = NIL
  · rw [bypass_eq hhangs hl₁ hpl]
    simp only [hpar, hr, if_true, if_false, Option.map_some, Compression.deleteNode]
  by_cases hl : sp.lchild p = NIL
  · rw [bypass_eq hhangs hr₁ hpr]
    simp only [hpar, hr, hl, if_true, if_false, Option.map_some, Compression.deleteNode]
  have ha := (hf.left p hlink hl).1.1
  have ha₂ : sp.lchild p < RBSIZE + 257 := Nat.lt_add_right _ ha
  simp only [hpar, hr, hl, if_false, access_of_lt ha₂, Option.bind_some, Compression.deleteNode]
  by_cases hright : sp.rchild (sp.lchild p) = NIL
  · -- the left child itself moves up
    simp only [hright, ne_eq, not_true_eq_false, if_false, adoptRight_eq hp ha hr₁,
      Option.bind_some, bypass_eq (hhangs.adoptRight ha hpr) hl₁ hpl, Option.map_some]
  · have hstart := RightmostInv.start hf hlink hl hright
    obtain ⟨q, hwalk, hq, -⟩ := rightmost_spec hf hstart
    have hturns := (rightmost_eq hf hstart).trans hwalk
    simp only [ne_eq, hright, not_false_eq_true, if_true, hturns, hwalk, Option.bind_some,
      promote_eq hf hlink hq, Option.map_some]

end Checked

end Lilu.Compression
