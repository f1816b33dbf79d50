import Mathlib.Data.Tree.Basic
import Mathlib.Logic.Relation
import Lilu.Prelude.LinkedForest

/-!
# The trees that links spell out

Arrays of links stand for binary trees as values: a link is followed to a node, and the links of the
node are followed in their turn, until they are `nil`. Under the forest invariant every head spells
out such a tree. As the trees are values they are finite and without cycles; no node is in a tree
twice or in two trees, and every linked node is in one.

## Main definitions

* `inorder`: the nodes of a tree
* `Spells`: a link out of a cell leads to a tree, whose nodes point back at their parents
* `StepsUp`: from a linked node to its parent

## Main results

* `Forest.exists_spells`: the links of a forest spell out trees
* `Forest.mem_inorder_iff`: the nodes of such a tree are those from where its root can be reached
* `Forest.nodup_inorder`: none of them comes twice
* `Forest.mem_inorder_head_iff`: under a head are the linked nodes with the label of the head
-/

namespace Lilu

open Relation

variable {α ι : Type*}

/-- The nodes of a tree, from left to right. -/
def inorder : BinaryTree α → List α
  | .nil => []
  | .node x l r => inorder l ++ x :: inorder r

theorem mem_inorder_node {x y : α} {l r : BinaryTree α} :
    x ∈ inorder (.node y l r) ↔ x = y ∨ x ∈ inorder l ∨ x ∈ inorder r := by
  rw [inorder, List.mem_append, List.mem_cons, or_left_comm]

/-- The link to `c` out of the cell `y` spells out a tree: it is `nil`, or `c` has `y` as its
parent and its own links spell out the subtrees. -/
inductive Spells (nil : α) (L : Links α) : α → α → BinaryTree α → Prop
  | nil (y : α) : Spells nil L y nil .nil
  | node {y c : α} {l r : BinaryTree α} (hne : c ≠ nil) (hparent : L.parent c = y)
      (hleft : Spells nil L c (L.lchild c) l) (hright : Spells nil L c (L.rchild c) r) :
      Spells nil L y c (.node c l r)

/-- A step from a linked node up to its parent. -/
def StepsUp (S : Sites α) (L : Links α) (x y : α) : Prop :=
  L.Linked S x ∧ L.parent x = y

/-- A link out of the cell `y` that the forest invariant allows. -/
def LinkFrom (S : Sites α) (L : Links α) (y c : α) : Prop :=
  c ≠ S.nil → L.Linked S c ∧ L.parent c = y

variable {S : Sites α} {L : Links α} {tree : α → ι} {depth : α → ℕ} {x y c : α} {t : BinaryTree α}

theorem Spells.root_mem (h : Spells S.nil L y c t) (hc : c ≠ S.nil) : c ∈ inorder t := by
  cases h with
  | nil => exact absurd rfl hc
  | node => exact mem_inorder_node.mpr (.inl rfl)

namespace Forest

theorem linkFrom_left (h : Forest S L tree depth) (hy : L.Linked S y) :
    LinkFrom S L y (L.lchild y) :=
  h.left y hy

theorem linkFrom_right (h : Forest S L tree depth) (hy : L.Linked S y ∨ S.IsHead y) :
    LinkFrom S L y (L.rchild y) :=
  h.right y hy

theorem depth_le (h : Forest S L tree depth) (hup : ReflTransGen (StepsUp S L) x y) :
    depth y ≤ depth x := by
  induction hup with
  | refl => exact le_rfl
  | tail _ hstep ih =>
    obtain ⟨hlink, rfl⟩ := hstep
    exact (h.depth _ hlink).le.trans ih

theorem tree_eq (h : Forest S L tree depth) (hup : ReflTransGen (StepsUp S L) x y) :
    tree y = tree x := by
  induction hup with
  | refl => rfl
  | tail _ hstep ih =>
    obtain ⟨hlink, rfl⟩ := hstep
    rw [h.tree _ hlink, ih]

/-- **The links of a forest spell out trees**, as there are finitely many nodes. -/
theorem exists_spells (h : Forest S L tree depth) (nodes : Finset α)
    (hnodes : ∀ x, S.IsNode x → x ∈ nodes) (hc : LinkFrom S L y c) :
    ∃ t, Spells S.nil L y c t := by
  generalize hn : (below S L depth nodes c).card = n
  induction n using Nat.strong_induction_on generalizing y c with
  | _ n ih =>
    subst hn
    by_cases hnil : c = S.nil
    · subst hnil
      exact ⟨.nil, .nil y⟩
    · obtain ⟨hlink, hparent⟩ := hc hnil
      -- the links of `c` lead to nodes with fewer nodes below
      have hchild : ∀ {d : α}, LinkFrom S L c d → ∃ t, Spells S.nil L c d t := by
        intro d hd
        by_cases hdnil : d = S.nil
        · subst hdnil
          exact ⟨.nil, .nil c⟩
        · have hlt := h.card_below_lt nodes hnodes (hd hdnil).1
          rw [(hd hdnil).2] at hlt
          exact ih _ hlt hd rfl
      obtain ⟨l, hl⟩ := hchild (h.linkFrom_left hlink)
      obtain ⟨r, hr⟩ := hchild (h.linkFrom_right (.inl hlink))
      exact ⟨.node c l r, .node hnil hparent hl hr⟩

/-- From the nodes of a tree its root can be reached, and they are linked. -/
theorem stepsUp_of_mem (h : Forest S L tree depth) (hs : Spells S.nil L y c t)
    (hc : LinkFrom S L y c) (hx : x ∈ inorder t) :
    L.Linked S x ∧ c ≠ S.nil ∧ ReflTransGen (StepsUp S L) x c := by
  induction hs with
  | nil => exact absurd hx List.not_mem_nil
  | @node y c l r hne _ _ _ ihl ihr =>
    have hlink := (hc hne).1
    rcases mem_inorder_node.mp hx with rfl | hx | hx
    · exact ⟨hlink, hne, .refl⟩
    · obtain ⟨hlinkx, hne', hup⟩ := ihl (h.linkFrom_left hlink) hx
      exact ⟨hlinkx, hne, hup.tail (h.left c hlink hne')⟩
    · obtain ⟨hlinkx, hne', hup⟩ := ihr (h.linkFrom_right (.inl hlink)) hx
      exact ⟨hlinkx, hne, hup.tail (h.right c (.inl hlink) hne')⟩

/-- A node below a node of a tree is in the tree. -/
theorem mem_of_stepsUp (h : Forest S L tree depth) (hs : Spells S.nil L y c t)
    (hc : LinkFrom S L y c) {z : α} (hz : z ∈ inorder t) (hx : StepsUp S L x z) :
    x ∈ inorder t := by
  obtain ⟨hlinkx, hparent⟩ := hx
  induction hs with
  | nil => exact absurd hz List.not_mem_nil
  | @node y c l r hne _ hleft hright ihl ihr =>
    have hlink := (hc hne).1
    apply mem_inorder_node.mpr
    rcases mem_inorder_node.mp hz with rfl | hz | hz
    · -- the node is a child of the root
      rcases h.parent x hlinkx with ⟨-, hchild⟩ | ⟨-, hchild⟩
      · rw [hparent] at hchild
        subst hchild
        exact .inr (.inl (hleft.root_mem (ne_nil hlinkx)))
      · rw [hparent] at hchild
        subst hchild
        exact .inr (.inr (hright.root_mem (ne_nil hlinkx)))
    · exact .inr (.inl (ihl (h.linkFrom_left hlink) hz))
    · exact .inr (.inr (ihr (h.linkFrom_right (.inl hlink)) hz))

/-- **The nodes of a tree** are those from where its root can be reached. -/
theorem mem_inorder_iff (h : Forest S L tree depth) (hs : Spells S.nil L y c t)
    (hc : LinkFrom S L y c) (hne : c ≠ S.nil) :
    x ∈ inorder t ↔ ReflTransGen (StepsUp S L) x c := by
  constructor
  · exact fun hx => (h.stepsUp_of_mem hs hc hx).2.2
  · intro hup
    induction hup using ReflTransGen.head_induction_on with
    | refl => exact hs.root_mem hne
    | head hstep _ ih => exact h.mem_of_stepsUp hs hc ih hstep

/-- What can be reached from one place lies on one way up. -/
theorem stepsUp_total {a b : α} (ha : ReflTransGen (StepsUp S L) x a)
    (hb : ReflTransGen (StepsUp S L) x b) :
    ReflTransGen (StepsUp S L) a b ∨ ReflTransGen (StepsUp S L) b a :=
  ReflTransGen.total_of_right_unique (fun _ _ _ h h' => h.2.symm.trans h'.2) ha hb

/-- Of two nodes with the same parent, none is above the other. -/
theorem eq_of_siblings (h : Forest S L tree depth) {a b : α} (ha : StepsUp S L a y)
    (hb : StepsUp S L b y) (hup : ReflTransGen (StepsUp S L) a b) : a = b := by
  rcases hup.cases_head with rfl | ⟨z, hstep, hup⟩
  · rfl
  · obtain rfl : z = y := hstep.2.symm.trans ha.2
    have hle := h.depth_le hup
    have hlt := h.depth b hb.1
    rw [hb.2] at hlt
    exact absurd hle hlt.not_ge

/-- **No node is in a tree twice.** -/
theorem nodup_inorder (h : Forest S L tree depth) (hs : Spells S.nil L y c t)
    (hc : LinkFrom S L y c) : (inorder t).Nodup := by
  induction hs with
  | nil => exact List.nodup_nil
  | @node y c l r hne _ hleft hright ihl ihr =>
    have hlink := (hc hne).1
    have hl := h.linkFrom_left hlink
    have hr := h.linkFrom_right (.inl hlink)
    -- the root is not below itself
    have hroot : ∀ {d : α}, LinkFrom S L c d → d ≠ S.nil →
        ¬ ReflTransGen (StepsUp S L) c d := by
      intro d hd hdnil hup
      have hlt := h.depth d (hd hdnil).1
      rw [(hd hdnil).2] at hlt
      exact absurd (h.depth_le hup) hlt.not_ge
    apply List.Nodup.append (ihl hl)
    · apply List.nodup_cons.mpr
      refine ⟨fun hmem => ?_, ihr hr⟩
      obtain ⟨-, hdnil, hup⟩ := h.stepsUp_of_mem hright hr hmem
      exact hroot hr hdnil hup
    · intro z hz hz'
      obtain ⟨-, hlnil, hupl⟩ := h.stepsUp_of_mem hleft hl hz
      rcases List.mem_cons.mp hz' with rfl | hz'
      · exact hroot hl hlnil hupl
      · -- a node below both children would put one above the other
        obtain ⟨-, hrnil, hupr⟩ := h.stepsUp_of_mem hright hr hz'
        have hsame : L.lchild c = L.rchild c := by
          rcases stepsUp_total hupl hupr with hup | hup
          · exact h.eq_of_siblings (hl hlnil) (hr hrnil) hup
          · exact (h.eq_of_siblings (hr hrnil) (hl hlnil) hup).symm
        exact hlnil (h.left_ne_right c hlink hsame)

/-- From a linked node the first node under a head can be reached. -/
theorem exists_head (h : Forest S L tree depth) (hx : L.Linked S x) :
    ∃ y, S.IsHead y ∧ L.rchild y ≠ S.nil ∧ tree y = tree x ∧
      ReflTransGen (StepsUp S L) x (L.rchild y) := by
  generalize hn : depth x = n
  induction n using Nat.strong_induction_on generalizing x with
  | _ n ih =>
    subst hn
    have hup : L.Linked S (L.parent x) → ∃ y, S.IsHead y ∧ L.rchild y ≠ S.nil ∧
        tree y = tree x ∧ ReflTransGen (StepsUp S L) x (L.rchild y) := by
      intro hlink
      obtain ⟨y, hy, hne, htree, hup⟩ := ih _ (h.depth x hx) hlink rfl
      exact ⟨y, hy, hne, htree.trans (h.tree x hx), hup.head ⟨hx, rfl⟩⟩
    rcases h.parent x hx with ⟨hlink, -⟩ | ⟨hlink | hhead, hchild⟩
    · exact hup hlink
    · exact hup hlink
    · refine ⟨L.parent x, hhead, ?_, h.tree x hx, ?_⟩
      · rw [hchild]
        exact ne_nil hx
      · rw [hchild]

/-- **The tree under a head** has the linked nodes with the head's label, where no two heads have
the same label. -/
theorem mem_inorder_head_iff (h : Forest S L tree depth)
    (hinj : ∀ y y', S.IsHead y → S.IsHead y' → tree y = tree y' → y = y') (hy : S.IsHead y)
    (hs : Spells S.nil L y (L.rchild y) t) :
    x ∈ inorder t ↔ L.Linked S x ∧ tree x = tree y := by
  have hlink := h.linkFrom_right (.inr hy)
  constructor
  · intro hx
    obtain ⟨hlinkx, hne, hup⟩ := h.stepsUp_of_mem hs hlink hx
    refine ⟨hlinkx, ?_⟩
    rw [← h.tree_eq (hup.tail (hlink hne))]
  · rintro ⟨hlinkx, htree⟩
    obtain ⟨y', hy', hne, htree', hup⟩ := h.exists_head hlinkx
    obtain rfl : y' = y := hinj y' y hy' hy (htree'.trans htree)
    exact (h.mem_inorder_iff hs hlink hne).mpr hup

end Forest

end Lilu
