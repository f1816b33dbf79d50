import Mathlib.Tactic
import Mathlib.Data.Finset.Card

/-!
# Binary trees linked through arrays

A set of binary search trees kept in three arrays: the left and right children and the parent of
every cell. A cell is a node, the head of a tree, or the sentinel `nil`; a head has only a right
child, and a node is in a tree when its parent is not `nil`. Cells out of the trees keep stale
children, and `nil` itself receives stray writes, so the invariant speaks only of heads and of
nodes in a tree.

## Main definitions

* `Links`: the three arrays
* `Sites`: which cells are nodes, which are heads, and the sentinel
* `Forest`: the invariant, with the tree each cell belongs to and a depth that grows downwards
* `Links.attachLeft`, `Links.attachRight`, `Links.replace`, `Links.bypass`: the rewirings

## Main results

* `Forest.attachLeft`, `Forest.attachRight`, `Forest.replace`, `Forest.bypass`: each rewiring
  keeps the invariant, and what it does to the set of linked nodes
* `Forest.below_ssubset`: a step to a child leaves fewer nodes below, so descents end
-/

namespace Lilu

open Function

variable {α ι : Type*}

/-- Left children, right children and parents, as three arrays over one index type. -/
structure Links (α : Type*) where
  lchild : α → α
  rchild : α → α
  parent : α → α

/-- The kinds of cell the arrays are indexed by. -/
structure Sites (α : Type*) where
  nil : α
  IsNode : α → Prop
  IsHead : α → Prop
  nil_not_node : ¬ IsNode nil
  nil_not_head : ¬ IsHead nil
  head_not_node : ∀ x, IsHead x → ¬ IsNode x

/-- A node is linked when it is in some tree, that is, when it has a parent. -/
def Links.Linked (S : Sites α) (L : Links α) (x : α) : Prop :=
  S.IsNode x ∧ L.parent x ≠ S.nil

/-- **The forest invariant**: child and parent pointers of heads and linked nodes agree, a node and
its parent are in the same tree, and depth grows from a parent to its children. -/
structure Forest (S : Sites α) (L : Links α) (tree : α → ι) (depth : α → ℕ) : Prop where
  left : ∀ y, L.Linked S y → L.lchild y ≠ S.nil →
    L.Linked S (L.lchild y) ∧ L.parent (L.lchild y) = y
  right : ∀ y, L.Linked S y ∨ S.IsHead y → L.rchild y ≠ S.nil →
    L.Linked S (L.rchild y) ∧ L.parent (L.rchild y) = y
  left_ne_right : ∀ y, L.Linked S y → L.lchild y = L.rchild y → L.lchild y = S.nil
  parent : ∀ x, L.Linked S x →
    (L.Linked S (L.parent x) ∧ L.lchild (L.parent x) = x) ∨
      ((L.Linked S (L.parent x) ∨ S.IsHead (L.parent x)) ∧ L.rchild (L.parent x) = x)
  tree : ∀ x, L.Linked S x → tree (L.parent x) = tree x
  depth : ∀ x, L.Linked S x → depth (L.parent x) < depth x

variable [DecidableEq α]

namespace Links

/-- Hang the cell `r` under `p` on the left. -/
def attachLeft (L : Links α) (p r : α) : Links α :=
  { L with lchild := update L.lchild p r, parent := update L.parent r p }

/-- Hang the cell `r` under `p` on the right. -/
def attachRight (L : Links α) (p r : α) : Links α :=
  { L with rchild := update L.rchild p r, parent := update L.parent r p }

/-- Point the link that leads from `p`'s parent to `p` at `q` instead. -/
def redirect (L : Links α) (p q : α) : Links α :=
  if L.rchild (L.parent p) = p then
    { L with rchild := update L.rchild (L.parent p) q }
  else
    { L with lchild := update L.lchild (L.parent p) q }

/-- Put the cell `r` in the place of the node `p` and take `p` out. -/
def replace (nil : α) (L : Links α) (p r : α) : Links α :=
  let L := { L with parent := update L.parent r (L.parent p) }
  let L := { L with lchild := update L.lchild r (L.lchild p) }
  let L := { L with rchild := update L.rchild r (L.rchild p) }
  let L := { L with parent := update L.parent (L.lchild p) r }
  let L := { L with parent := update L.parent (L.rchild p) r }
  let L := L.redirect p r
  { L with parent := update L.parent p nil }

/-- Take the node `p` out by linking its parent to the cell `q`. -/
def bypass (nil : α) (L : Links α) (p q : α) : Links α :=
  let L := { L with parent := update L.parent q (L.parent p) }
  let L := L.redirect p q
  { L with parent := update L.parent p nil }

/-- Hang the right child of `p` under `q` as well. -/
def adoptRight (L : Links α) (p q : α) : Links α :=
  let L := { L with rchild := update L.rchild q (L.rchild p) }
  { L with parent := update L.parent (L.rchild p) q }

/-- Take `q`, a right child without a right child of its own, off its parent, and hang the left
child of `p` under it. -/
def adoptLeft (L : Links α) (p q : α) : Links α :=
  let L := { L with rchild := update L.rchild (L.parent q) (L.lchild q) }
  let L := { L with parent := update L.parent (L.lchild q) (L.parent q) }
  let L := { L with lchild := update L.lchild q (L.lchild p) }
  { L with parent := update L.parent (L.lchild p) q }

end Links

namespace Forest

variable {S : Sites α} {L : Links α} {tree : α → ι} {depth : α → ℕ}

/-- **Hanging a fresh leaf on the left** of a linked node keeps the forest. -/
theorem attachLeft (h : Forest S L tree depth) {p r : α}
    (hp : L.Linked S p) (hnil : L.lchild p = S.nil) (hr : S.IsNode r)
    (hrout : ¬ L.Linked S r) (hrl : L.lchild r = S.nil) (hrr : L.rchild r = S.nil)
    (htree : tree r = tree p) :
    Forest S (L.attachLeft p r) tree (update depth r (depth p + 1)) ∧
      ∀ x, (L.attachLeft p r).Linked S x ↔ L.Linked S x ∨ x = r := by
  obtain ⟨h1, h2, h3, h4, h5, h6⟩ := h
  obtain ⟨nil, IsNode, IsHead, s1, s2, s3⟩ := S
  have hlink : ∀ x, (L.attachLeft p r).Linked ⟨nil, IsNode, IsHead, s1, s2, s3⟩ x ↔
      L.Linked ⟨nil, IsNode, IsHead, s1, s2, s3⟩ x ∨ x = r := by
    intro x
    simp only [Links.Linked, Links.attachLeft, update_apply] at *
    grind
  refine ⟨⟨?_, ?_, ?_, ?_, ?_, ?_⟩, hlink⟩ <;> simp only [hlink] <;>
    simp only [Links.Linked, Links.attachLeft, update_apply] at * <;> grind

/-- **Hanging a fresh leaf on the right** of a head or a linked node keeps the forest. -/
theorem attachRight (h : Forest S L tree depth) {p r : α}
    (hp : L.Linked S p ∨ S.IsHead p) (hnil : L.rchild p = S.nil) (hr : S.IsNode r)
    (hrout : ¬ L.Linked S r) (hrl : L.lchild r = S.nil) (hrr : L.rchild r = S.nil)
    (htree : tree r = tree p) :
    Forest S (L.attachRight p r) tree (update depth r (depth p + 1)) ∧
      ∀ x, (L.attachRight p r).Linked S x ↔ L.Linked S x ∨ x = r := by
  obtain ⟨h1, h2, h3, h4, h5, h6⟩ := h
  obtain ⟨nil, IsNode, IsHead, s1, s2, s3⟩ := S
  have hlink : ∀ x, (L.attachRight p r).Linked ⟨nil, IsNode, IsHead, s1, s2, s3⟩ x ↔
      L.Linked ⟨nil, IsNode, IsHead, s1, s2, s3⟩ x ∨ x = r := by
    intro x
    simp only [Links.Linked, Links.attachRight, update_apply] at *
    grind
  refine ⟨⟨?_, ?_, ?_, ?_, ?_, ?_⟩, hlink⟩ <;> simp only [hlink] <;>
    simp only [Links.Linked, Links.attachRight, update_apply] at * <;> grind

omit [DecidableEq α] in
theorem ne_nil {x : α} (hx : L.Linked S x) : x ≠ S.nil :=
  fun he => S.nil_not_node (he ▸ hx.1)

omit [DecidableEq α] in
theorem not_head {x : α} (hx : L.Linked S x) : ¬ S.IsHead x :=
  fun hh => S.head_not_node x hh hx.1

omit [DecidableEq α] in
theorem parent_ne (h : Forest S L tree depth) {p : α} (hp : L.Linked S p) : L.parent p ≠ p := by
  intro he
  have := h.depth p hp
  rw [he] at this
  exact lt_irrefl _ this

omit [DecidableEq α] in
/-- The cell a node's only link leads to is neither the node nor its parent. -/
theorem only_child (h : Forest S L tree depth) {p q : α} (hp : L.Linked S p)
    (hq : q = L.lchild p ∧ L.rchild p = S.nil ∨ q = L.rchild p ∧ L.lchild p = S.nil) :
    q ≠ p ∧ q ≠ L.parent p ∧ (q ≠ S.nil → L.Linked S q ∧ L.parent q = p) := by
  have hq' : q ≠ S.nil → L.Linked S q ∧ L.parent q = p := by
    intro hne
    rcases hq with ⟨rfl, -⟩ | ⟨rfl, -⟩
    · exact h.left p hp hne
    · exact h.right p (Or.inl hp) hne
  refine ⟨?_, ?_, hq'⟩
  · rintro rfl
    exact h.parent_ne hp (hq' (ne_nil hp)).2
  · intro he
    by_cases hn : q = S.nil
    · rcases h.parent p hp with ⟨hl, -⟩ | ⟨hl | hh, -⟩
      · exact ne_nil hl (he ▸ hn)
      · exact ne_nil hl (he ▸ hn)
      · exact S.nil_not_head (hn ▸ he ▸ hh)
    · obtain ⟨hl, hpar⟩ := hq' hn
      have h1 := h.depth q hl
      have h2 := h.depth p hp
      rw [hpar] at h1
      rw [← he] at h2
      omega

/-- **Taking a node with at most one child out** keeps the forest. -/
theorem bypass (h : Forest S L tree depth) {p q : α} (hp : L.Linked S p)
    (hq : q = L.lchild p ∧ L.rchild p = S.nil ∨ q = L.rchild p ∧ L.lchild p = S.nil) :
    Forest S (L.bypass S.nil p q) tree depth ∧
      ∀ x, (L.bypass S.nil p q).Linked S x ↔ L.Linked S x ∧ x ≠ p := by
  obtain ⟨hqp, hqpp, hq'⟩ := h.only_child hp hq
  have hpp := h.parent_ne hp
  have hpar := h.parent p hp
  have htree := h.tree p hp
  have hdepth := h.depth p hp
  have hne := h.left_ne_right (L.parent p)
  generalize hg : L.parent p = g at *
  have hparent : ∀ x, (L.bypass S.nil p q).parent x =
      if x = p then S.nil else if x = q then g else L.parent x := by
    intro x
    simp only [Links.bypass, Links.redirect, update_apply, hqp.symm, if_false, hg]
    split_ifs <;> simp_all
  have hrchild : ∀ x, (L.bypass S.nil p q).rchild x =
      if x = g ∧ L.rchild g = p then q else L.rchild x := by
    intro x
    simp only [Links.bypass, Links.redirect, update_apply, hqp.symm, if_false, hg]
    split_ifs <;> simp_all
  have hlchild : ∀ x, (L.bypass S.nil p q).lchild x =
      if x = g ∧ L.rchild g ≠ p then q else L.lchild x := by
    intro x
    simp only [Links.bypass, Links.redirect, update_apply, hqp.symm, if_false, hg]
    split_ifs <;> simp_all
  have hlink : ∀ x, (L.bypass S.nil p q).Linked S x ↔ L.Linked S x ∧ x ≠ p := by
    intro x
    have hgnil : g ≠ S.nil := hg ▸ hp.2
    have hnode : S.IsNode x → x ≠ S.nil := fun hx he => S.nil_not_node (he ▸ hx)
    simp only [Links.Linked, hparent] at hp hq' ⊢
    grind
  refine ⟨⟨?_, ?_, ?_, ?_, ?_, ?_⟩, hlink⟩
  · intro y hy hy'
    rw [hlink] at hy
    have := h.left y hy.1
    rw [hlchild] at hy' ⊢
    rw [hlink, hparent]
    grind
  · intro y hy hy'
    rw [hlink] at hy
    have := h.right y (hy.imp_left And.left)
    have : S.IsHead y → y ≠ p := fun hh he => not_head hp (he ▸ hh)
    rw [hrchild] at hy' ⊢
    rw [hlink, hparent]
    grind
  · intro y hy
    rw [hlink] at hy
    have := h.left_ne_right y hy.1
    have := h.left y hy.1
    have := h.right y (Or.inl hy.1)
    rw [hlchild, hrchild]
    grind
  · intro x hx
    rw [hlink] at hx
    have := h.parent x hx.1
    have := ne_nil hx.1
    rw [hlink, hlchild, hrchild, hparent]
    grind
  · intro x hx
    rw [hlink] at hx
    have := h.tree x hx.1
    have := ne_nil hx.1
    rw [hparent]
    grind
  · intro x hx
    rw [hlink] at hx
    have := h.depth x hx.1
    have := ne_nil hx.1
    rw [hparent]
    grind

omit [DecidableEq α] in
theorem child_ne (h : Forest S L tree depth) {p q : α} (hp : L.Linked S p)
    (hq : q = L.lchild p ∨ q = L.rchild p) : q ≠ p := by
  rintro rfl
  have hpar : L.parent q = q := by
    rcases hq with hq | hq
    · have := (h.left q hp (hq ▸ ne_nil hp)).2
      rwa [← hq] at this
    · have := (h.right q (Or.inl hp) (hq ▸ ne_nil hp)).2
      rwa [← hq] at this
  exact h.parent_ne hp hpar

/-- **Putting a fresh node in another's place** keeps the forest. -/
theorem replace (h : Forest S L tree depth) {p r : α} (hp : L.Linked S p)
    (hr : S.IsNode r) (hrout : ¬ L.Linked S r) (htree : tree r = tree p) :
    Forest S (L.replace S.nil p r) tree (update depth r (depth p)) ∧
      ∀ x, (L.replace S.nil p r).Linked S x ↔ L.Linked S x ∧ x ≠ p ∨ x = r := by
  have hrp : r ≠ p := fun he => hrout (he ▸ hp)
  have hrhead : ¬ S.IsHead r := fun hh => S.head_not_node r hh hr
  have hap := h.child_ne hp (Or.inl rfl)
  have hbp := h.child_ne hp (Or.inr rfl)
  have hpp := h.parent_ne hp
  have hpar := h.parent p hp
  have htree' := h.tree p hp
  have hdepth := h.depth p hp
  have hne := h.left_ne_right (L.parent p)
  have hl := h.left p hp
  have hrt := h.right p (Or.inl hp)
  have hlr := h.left_ne_right p hp
  generalize hg : L.parent p = g at *
  generalize ha : L.lchild p = a at *
  generalize hb : L.rchild p = b at *
  have hrnil : r ≠ S.nil := fun he => S.nil_not_node (he ▸ hr)
  have hgr : g ≠ r := by
    rintro rfl
    rcases hpar with ⟨h', -⟩ | ⟨h' | h', -⟩
    · exact hrout h'
    · exact hrout h'
    · exact hrhead h'
  have har : a ≠ r := fun he => hrout (he ▸ (hl (he ▸ hrnil)).1)
  have hbr : b ≠ r := fun he => hrout (he ▸ (hrt (he ▸ hrnil)).1)
  have hrkids : ∀ x, L.Linked S x → L.parent x ≠ r := by
    intro x hx he
    rcases h.parent x hx with ⟨h', -⟩ | ⟨h' | h', -⟩
    · exact hrout (he ▸ h')
    · exact hrout (he ▸ h')
    · exact hrhead (he ▸ h')
  have hparent : ∀ x, (L.replace S.nil p r).parent x = if x = p then S.nil
      else if x = b ∨ x = a then r else if x = r then g else L.parent x := by
    intro x
    simp only [Links.replace, Links.redirect, update_apply, hg, ha, hb, hrp.symm, hap.symm,
      hbp.symm, hgr, if_false]
    by_cases hR : L.rchild g = p <;> simp only [hR, if_true, if_false, update_apply] <;>
      split_ifs <;> simp_all
  have hlchild : ∀ x, (L.replace S.nil p r).lchild x =
      if x = g ∧ L.rchild g ≠ p then r else if x = r then a else L.lchild x := by
    intro x
    simp only [Links.replace, Links.redirect, update_apply, hg, ha, hb, hrp.symm, hap.symm,
      hbp.symm, hgr, if_false]
    split_ifs <;> simp_all
  have hrchild : ∀ x, (L.replace S.nil p r).rchild x =
      if x = g ∧ L.rchild g = p then r else if x = r then b else L.rchild x := by
    intro x
    simp only [Links.replace, Links.redirect, update_apply, hg, ha, hb, hrp.symm, hap.symm,
      hbp.symm, hgr, if_false]
    split_ifs <;> simp_all
  have hlink : ∀ x, (L.replace S.nil p r).Linked S x ↔ L.Linked S x ∧ x ≠ p ∨ x = r := by
    intro x
    have hgnil : g ≠ S.nil := hg ▸ hp.2
    have hnode : S.IsNode x → x ≠ S.nil := fun hx he => S.nil_not_node (he ▸ hx)
    simp only [Links.Linked, hparent] at hp hl hrt ⊢
    grind
  refine ⟨⟨?_, ?_, ?_, ?_, ?_, ?_⟩, hlink⟩
  · intro y hy hy'
    rw [hlink] at hy
    have := h.left y
    rw [hlchild] at hy' ⊢
    rw [hlink, hparent]
    grind
  · intro y hy hy'
    rw [hlink] at hy
    have := h.right y
    have : S.IsHead y → y ≠ p := fun hh he => not_head hp (he ▸ hh)
    rw [hrchild] at hy' ⊢
    rw [hlink, hparent]
    grind
  · intro y hy
    rw [hlink] at hy
    have := h.left_ne_right y
    have := h.left y
    have := h.right y
    rw [hlchild, hrchild]
    grind
  · intro x hx
    rw [hlink] at hx
    have := h.parent x
    have := @ne_nil _ S L x
    rw [hlink, hlchild, hrchild, hparent]
    grind
  · intro x hx
    rw [hlink] at hx
    have := h.tree x
    have := @ne_nil _ S L x
    rw [hparent]
    grind
  · intro x hx
    rw [hlink] at hx
    have := h.depth x
    have := hrkids x
    have := @ne_nil _ S L x
    rw [hparent]
    simp only [update_apply]
    grind

/-- **Taking a node out and its left child up**, where that child has no right child. -/
theorem promote_near (h : Forest S L tree depth) {p : α} (hp : L.Linked S p)
    (ha : L.lchild p ≠ S.nil) (hb : L.rchild p ≠ S.nil)
    (hright : L.rchild (L.lchild p) = S.nil) :
    Forest S ((L.adoptRight p (L.lchild p)).bypass S.nil p (L.lchild p)) tree
        (update depth (L.lchild p) (depth p)) ∧
      ∀ x, ((L.adoptRight p (L.lchild p)).bypass S.nil p (L.lchild p)).Linked S x ↔
        L.Linked S x ∧ x ≠ p := by
  have hap := h.child_ne hp (Or.inl rfl)
  have hbp := h.child_ne hp (Or.inr rfl)
  have hpp := h.parent_ne hp
  have hpar := h.parent p hp
  have htree := h.tree p hp
  have hdepth := h.depth p hp
  have hne := h.left_ne_right (L.parent p)
  have hl := h.left p hp ha
  have hrt := h.right p (Or.inl hp) hb
  have hlr := h.left_ne_right p hp
  have hla := h.left (L.lchild p) hl.1
  have hdl := h.depth _ hl.1
  have htl := h.tree _ hl.1
  generalize hg : L.parent p = g at *
  generalize hqa : L.lchild p = a at *
  generalize hqb : L.rchild p = b at *
  have hgp := hpp.symm
  have hga : g ≠ a := by rintro rfl; rw [hl.2] at hdl; omega
  have hab : a ≠ b := fun he => ha (hlr he)
  have hparent : ∀ x, ((L.adoptRight p a).bypass S.nil p a).parent x = if x = p then S.nil
      else if x = a then g else if x = b then a else L.parent x := by
    intro x
    simp only [Links.adoptRight, Links.bypass, Links.redirect, update_apply, hg, hqb, hap.symm,
      hbp.symm, hga, if_false]
    by_cases hR : L.rchild g = p <;> simp only [hR, if_true, if_false, update_apply]
  have hlchild : ∀ x, ((L.adoptRight p a).bypass S.nil p a).lchild x =
      if x = g ∧ L.rchild g ≠ p then a else L.lchild x := by
    intro x
    simp only [Links.adoptRight, Links.bypass, Links.redirect, update_apply, hg, hqb, hap.symm,
      hbp.symm, hga, if_false]
    by_cases hR : L.rchild g = p <;> simp [hR, update_apply]
  have hrchild : ∀ x, ((L.adoptRight p a).bypass S.nil p a).rchild x =
      if x = g ∧ L.rchild g = p then a else if x = a then b else L.rchild x := by
    intro x
    simp only [Links.adoptRight, Links.bypass, Links.redirect, update_apply, hg, hqb, hap.symm,
      hbp.symm, hga, if_false]
    by_cases hR : L.rchild g = p <;> simp [hR, update_apply]
  have hlink : ∀ x, ((L.adoptRight p a).bypass S.nil p a).Linked S x ↔
      L.Linked S x ∧ x ≠ p := by
    intro x
    have hgnil : g ≠ S.nil := hg ▸ hp.2
    have hnode : S.IsNode x → x ≠ S.nil := fun hx he => S.nil_not_node (he ▸ hx)
    simp only [Links.Linked, hparent] at hp hl hrt ⊢
    grind
  refine ⟨⟨?_, ?_, ?_, ?_, ?_, ?_⟩, hlink⟩
  · intro y hy hy'
    rw [hlink] at hy
    have := h.left y hy.1
    rw [hlchild] at hy' ⊢
    rw [hlink, hparent]
    grind
  · intro y hy hy'
    rw [hlink] at hy
    have := h.right y (hy.imp_left And.left)
    have : S.IsHead y → y ≠ p := fun hh he => not_head hp (he ▸ hh)
    rw [hrchild] at hy' ⊢
    rw [hlink, hparent]
    grind
  · intro y hy
    rw [hlink] at hy
    have := h.left_ne_right y hy.1
    have := h.left y hy.1
    have := h.right y (Or.inl hy.1)
    rw [hlchild, hrchild]
    grind
  · intro x hx
    rw [hlink] at hx
    have := h.parent x hx.1
    have := ne_nil hx.1
    rw [hlink, hlchild, hrchild, hparent]
    grind
  · intro x hx
    rw [hlink] at hx
    have := h.tree x hx.1
    rw [hparent]
    grind
  · intro x hx
    rw [hlink] at hx
    have := h.depth x hx.1
    rw [hparent]
    simp only [update_apply]
    grind

/-- **Taking a node out and a node of its left subtree up**, where that node is a right child and
has no right child itself. -/
theorem promote_far (h : Forest S L tree depth) {p q : α} (hp : L.Linked S p)
    (ha : L.lchild p ≠ S.nil) (hb : L.rchild p ≠ S.nil) (hq : L.Linked S q)
    (hright : L.rchild q = S.nil) (he : L.Linked S (L.parent q))
    (hside : L.rchild (L.parent q) = q) (hpq : depth p < depth (L.parent q))
    (htq : tree q = tree p) :
    Forest S (((L.adoptLeft p q).adoptRight p q).bypass S.nil p q) tree
        (update depth q (depth p)) ∧
      ∀ x, (((L.adoptLeft p q).adoptRight p q).bypass S.nil p q).Linked S x ↔
        L.Linked S x ∧ x ≠ p := by
  have hap := h.child_ne hp (Or.inl rfl)
  have hbp := h.child_ne hp (Or.inr rfl)
  have hpar := h.parent p hp
  have htree := h.tree p hp
  have hdepth := h.depth p hp
  have hne := h.left_ne_right (L.parent p)
  have hl := h.left p hp ha
  have hrt := h.right p (Or.inl hp) hb
  have hlr := h.left_ne_right p hp
  have hlc := h.left q hq
  have hdq := h.depth q hq
  have hde := h.depth _ he
  have hdc := h.depth (L.lchild q)
  have hqnil := ne_nil hq
  generalize hg : L.parent p = g at *
  generalize hqa : L.lchild p = a at *
  generalize hqb : L.rchild p = b at *
  generalize hqc : L.lchild q = c at *
  generalize hqe : L.parent q = e at *
  have hqp : q ≠ p := by rintro rfl; omega
  have hep : e ≠ p := by rintro rfl; omega
  have hgp : g ≠ p := by rintro rfl; omega
  have hge : g ≠ e := by rintro rfl; omega
  have hgq : g ≠ q := by rintro rfl; omega
  have hqe' : q ≠ e := by rintro rfl; omega
  have hqa' : q ≠ a := by rintro rfl; exact hep (hqe ▸ hl.2)
  have hqb' : q ≠ b := by rintro rfl; exact hep (hqe ▸ hrt.2)
  have hab : a ≠ b := fun he => ha (hlr he)
  have hcp : c ≠ p := by
    rintro rfl
    have := (hlc (ne_nil hp)).2
    rw [hg] at this
    exact hgq this
  have hcq : c ≠ q := by
    rintro rfl
    exact hqe' (hqe ▸ (hlc hqnil).2).symm
  have hparent : ∀ x, (((L.adoptLeft p q).adoptRight p q).bypass S.nil p q).parent x =
      if x = p then S.nil else if x = q then g else if x = b ∨ x = a then q
      else if x = c then e else L.parent x := by
    intro x
    simp only [Links.adoptLeft, Links.adoptRight, Links.bypass, Links.redirect, update_apply, hg,
      hqa, hqb, hqc, hqe, hqp.symm, hap.symm, hbp.symm, hcp.symm, hge, hgq, hep.symm, if_false]
    by_cases hR : L.rchild g = p <;> simp only [hR, if_true, if_false, update_apply] <;>
      split_ifs <;> simp_all
  have hlchild : ∀ x, (((L.adoptLeft p q).adoptRight p q).bypass S.nil p q).lchild x =
      if x = g ∧ L.rchild g ≠ p then q else if x = q then a else L.lchild x := by
    intro x
    simp only [Links.adoptLeft, Links.adoptRight, Links.bypass, Links.redirect, update_apply, hg,
      hqa, hqb, hqc, hqe, hqp.symm, hap.symm, hbp.symm, hcp.symm, hge, hgq, hep.symm, if_false]
    by_cases hR : L.rchild g = p <;> simp [hR, update_apply]
  have hrchild : ∀ x, (((L.adoptLeft p q).adoptRight p q).bypass S.nil p q).rchild x =
      if x = g ∧ L.rchild g = p then q else if x = q then b else if x = e then c
      else L.rchild x := by
    intro x
    simp only [Links.adoptLeft, Links.adoptRight, Links.bypass, Links.redirect, update_apply, hg,
      hqa, hqb, hqc, hqe, hqp.symm, hap.symm, hbp.symm, hcp.symm, hge, hgq, hep.symm, if_false]
    by_cases hR : L.rchild g = p <;> simp [hR, update_apply]
  have hlink : ∀ x, (((L.adoptLeft p q).adoptRight p q).bypass S.nil p q).Linked S x ↔
      L.Linked S x ∧ x ≠ p := by
    intro x
    have hgnil : g ≠ S.nil := hg ▸ hp.2
    have henil : e ≠ S.nil := hqe ▸ hq.2
    have hnode : S.IsNode x → x ≠ S.nil := fun hx he => S.nil_not_node (he ▸ hx)
    simp only [Links.Linked, hparent] at hp hq hl hrt hlc ⊢
    grind
  refine ⟨⟨?_, ?_, ?_, ?_, ?_, ?_⟩, hlink⟩
  · intro y hy hy'
    rw [hlink] at hy
    have := h.left y hy.1
    have := h.left_ne_right y hy.1
    rw [hlchild] at hy' ⊢
    rw [hlink, hparent]
    grind
  · intro y hy hy'
    rw [hlink] at hy
    have := h.right y (hy.imp_left And.left)
    have : S.IsHead y → y ≠ p := fun hh he => not_head hp (he ▸ hh)
    rw [hrchild] at hy' ⊢
    rw [hlink, hparent]
    grind
  · intro y hy
    rw [hlink] at hy
    have := h.left_ne_right y hy.1
    have := h.left y hy.1
    have := h.right y (Or.inl hy.1)
    rw [hlchild, hrchild]
    grind
  · intro x hx
    rw [hlink] at hx
    have := h.parent x hx.1
    have := ne_nil hx.1
    rw [hlink, hlchild, hrchild, hparent]
    grind
  · intro x hx
    rw [hlink] at hx
    have := h.tree x hx.1
    have := h.tree q hq
    have := ne_nil hx.1
    rw [hparent]
    grind
  · intro x hx
    rw [hlink] at hx
    have := h.depth x hx.1
    have := ne_nil hx.1
    rw [hparent]
    simp only [update_apply]
    grind

/-! ## Descents -/

section Descent

omit [DecidableEq α]

/-- The linked nodes that lie deeper than `x`, out of the finite set of nodes. -/
noncomputable def below (S : Sites α) (L : Links α) (depth : α → ℕ) (nodes : Finset α) (x : α) :
    Finset α :=
  open Classical in nodes.filter fun y => L.Linked S y ∧ depth x < depth y

/-- A step down to a linked node leaves fewer nodes below. -/
theorem card_below_lt (h : Forest S L tree depth) (nodes : Finset α)
    (hnodes : ∀ x, S.IsNode x → x ∈ nodes) {x : α} (hx : L.Linked S x) :
    (below S L depth nodes x).card < (below S L depth nodes (L.parent x)).card := by
  have hd := h.depth x hx
  refine Finset.card_lt_card (Finset.ssubset_iff_of_subset ?_ |>.mpr ⟨x, ?_, ?_⟩)
  · intro y hy
    simp only [below, Finset.mem_filter] at hy ⊢
    exact ⟨hy.1, hy.2.1, hd.trans hy.2.2⟩
  · simp only [below, Finset.mem_filter]
    exact ⟨hnodes x hx.1, hx, hd⟩
  · simp [below]

theorem card_below_le (S : Sites α) (L : Links α) (depth : α → ℕ) (nodes : Finset α) (x : α) :
    (below S L depth nodes x).card ≤ nodes.card := by
  classical exact Finset.card_filter_le _ _

/-- The invariant reads the children of heads and linked nodes only. -/
theorem congr_links (h : Forest S L tree depth) {L' : Links α} (hparent : L'.parent = L.parent)
    (hleft : ∀ x, L.Linked S x → L'.lchild x = L.lchild x)
    (hright : ∀ x, L.Linked S x ∨ S.IsHead x → L'.rchild x = L.rchild x) :
    Forest S L' tree depth := by
  have hlink : ∀ x, L'.Linked S x ↔ L.Linked S x := fun x => by simp only [Links.Linked, hparent]
  refine ⟨?_, ?_, ?_, ?_, ?_, ?_⟩ <;> simp only [hlink, hparent]
  · intro y hy
    rw [hleft y hy]
    exact h.left y hy
  · intro y hy
    rw [hright y hy]
    exact h.right y hy
  · intro y hy
    rw [hleft y hy, hright y (Or.inl hy)]
    exact h.left_ne_right y hy
  · intro x hx
    rcases h.parent x hx with ⟨hl, he⟩ | ⟨hl, he⟩
    · exact Or.inl ⟨hl, by rw [hleft _ hl, he]⟩
    · exact Or.inr ⟨hl, by rw [hright _ hl, he]⟩
  · exact h.tree
  · exact h.depth

/-- The invariant reads the tree labels of heads and linked nodes only. -/
theorem congr_tree (h : Forest S L tree depth) {tree' : α → ι}
    (hlink : ∀ x, L.Linked S x → tree' x = tree x) (hhead : ∀ x, S.IsHead x → tree' x = tree x) :
    Forest S L tree' depth where
  left := h.left
  right := h.right
  left_ne_right := h.left_ne_right
  parent := h.parent
  depth := h.depth
  tree := by
    intro x hx
    have hpar : tree' (L.parent x) = tree (L.parent x) := by
      rcases h.parent x hx with ⟨hl, -⟩ | ⟨hl | hh, -⟩
      · exact hlink _ hl
      · exact hlink _ hl
      · exact hhead _ hh
    rw [hpar, hlink x hx, h.tree x hx]

end Descent

end Forest

end Lilu
