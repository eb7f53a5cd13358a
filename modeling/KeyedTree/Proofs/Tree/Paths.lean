import KeyedTree.Tree.Basic

/-! # Paths in trees

Laws of the two operations along a path: finding the subtree at its end, and editing it. Edits along
one path compose, an edit is seen where it was made, and a path that leaves the tree edits nothing.
-/

namespace KeyedTree.Tree

/-- What holds of a node whenever it holds of its children holds of every tree. -/
@[elab_as_elim]
theorem induction {motive : Tree → Prop}
    (node : ∀ head children, (∀ child ∈ children, motive child) → motive (.node head children)) :
    ∀ tree, motive tree
  | .node head children => node head children fun child _ => induction node child

@[simp] theorem head_node (head : Head) (children : List Tree) :
    (node head children).head = head := rfl

@[simp] theorem children_node (head : Head) (children : List Tree) :
    (node head children).children = children := rfl

variable {tree : Tree} {edit : Tree → Tree}

@[simp] theorem subtree?_nil (tree : Tree) : tree.subtree? [] = some tree := by
  cases tree
  rfl

theorem subtree?_cons (tree : Tree) (pos : Nat) (path : List Nat) :
    tree.subtree? (pos :: path) = tree.children[pos]?.bind fun child => child.subtree? path := by
  cases tree
  rfl

theorem subtree?_append (tree : Tree) (path below : List Nat) :
    tree.subtree? (path ++ below) = (tree.subtree? path).bind fun sub => sub.subtree? below := by
  induction path generalizing tree with
  | nil => simp
  | cons pos path ih =>
      simp only [List.cons_append, subtree?_cons, Option.bind_assoc]
      exact congrArg _ (funext ih)

@[simp] theorem editAt_nil (edit : Tree → Tree) (tree : Tree) :
    editAt edit [] tree = edit tree := by
  cases tree
  rfl

theorem editAt_cons (edit : Tree → Tree) (pos : Nat) (path : List Nat) (tree : Tree) :
    editAt edit (pos :: path) tree =
      .node tree.head (tree.children.modify pos (editAt edit path)) := by
  cases tree
  rfl

theorem editAt_append (edit : Tree → Tree) (path below : List Nat) (tree : Tree) :
    editAt edit (path ++ below) tree = editAt (editAt edit below) path tree := by
  induction path generalizing tree with
  | nil => simp
  | cons pos path ih =>
      simp only [List.cons_append, editAt_cons]
      rw [funext ih]

/-- An edit is seen at the end of its path. -/
theorem subtree?_editAt (edit : Tree → Tree) (path : List Nat) (tree : Tree) :
    (editAt edit path tree).subtree? path = (tree.subtree? path).map edit := by
  induction path generalizing tree with
  | nil => simp
  | cons pos path ih =>
      simp only [editAt_cons, subtree?_cons, children_node, List.getElem?_modify_eq]
      cases tree.children[pos]? with
      | none => rfl
      | some child => exact ih child

theorem editAt_editAt (second first : Tree → Tree) (path : List Nat) (tree : Tree) :
    editAt second path (editAt first path tree) = editAt (second ∘ first) path tree := by
  induction path generalizing tree with
  | nil => simp
  | cons pos path ih =>
      simp only [editAt_cons, head_node, children_node, List.modify_modify_eq]
      rw [show editAt second path ∘ editAt first path = editAt (second ∘ first) path from
        funext ih]

/-- What an edit does elsewhere than at the end of the path does not matter. -/
theorem editAt_congr {first second : Tree → Tree} {path : List Nat}
    (hsame : ∀ sub, tree.subtree? path = some sub → first sub = second sub) :
    editAt first path tree = editAt second path tree := by
  induction path generalizing tree with
  | nil => simpa using hsame tree
  | cons pos path ih =>
      simp only [editAt_cons]
      refine congrArg _ (List.ext_getElem? fun at_ => ?_)
      simp only [List.getElem?_modify]
      by_cases hat : pos = at_
      · subst hat
        cases hchild : tree.children[pos]? with
        | none => rfl
        | some child =>
            have hbelow : editAt first path child = editAt second path child :=
              ih fun sub hsub => hsame sub (by rw [subtree?_cons, hchild, Option.bind_some, hsub])
            simp [hbelow]
      · simp [hat]

theorem editAt_id (path : List Nat) (tree : Tree) : editAt id path tree = tree := by
  induction path generalizing tree with
  | nil => simp
  | cons pos path ih =>
      rw [editAt_cons, show editAt id path = id from funext ih, List.modify_id, node_head_children]

/-- A path that leaves the tree edits nothing. -/
theorem editAt_of_subtree?_eq_none {path : List Nat} (hnone : tree.subtree? path = none) :
    editAt edit path tree = tree :=
  calc
    editAt edit path tree = editAt id path tree :=
      editAt_congr fun sub hsub => by rw [hnone] at hsub; cases hsub
    _ = tree := editAt_id path tree

end KeyedTree.Tree
