import KeyedTree.Head

/-! # Trees

A tree is a head with an ordered row of subtrees. Trees are plain values: a tree owns all of its
subtrees, and two trees never share one.
-/

namespace KeyedTree

/-- A node with everything below it. -/
inductive Tree
  | node (head : Head) (children : List Tree)

namespace Tree

instance : Inhabited Tree := ⟨.node default []⟩

/-- The head of the root. -/
def head : Tree → Head
  | .node head _ => head

/-- The subtrees of the root, in order. -/
def children : Tree → List Tree
  | .node _ children => children

/-- The key of the root. -/
def key (tree : Tree) : String :=
  tree.head.key

/-- What the root holds, by its kind. -/
def payload (tree : Tree) : Payload :=
  tree.head.payload

/-- The kind of the root. -/
def kind (tree : Tree) : Kind :=
  tree.head.kind

/-- The index of the root. -/
def index (tree : Tree) : KeyIndex :=
  tree.head.index

/-- The children's keys, in order; anonymous children give the empty key. -/
def keys (tree : Tree) : List String :=
  tree.children.map key

/-- What the root shows of itself. -/
def outline (tree : Tree) : Outline :=
  ⟨tree.head, tree.keys⟩

@[simp] theorem node_head_children (tree : Tree) : .node tree.head tree.children = tree := by
  cases tree; rfl

/-- A tree of one node that carries nothing but a payload. -/
def leaf (payload : Payload) : Tree :=
  .node (.holding payload) []

/-- A reserved node to which nothing was assigned yet. -/
def blank : Tree :=
  leaf .uninitialized

/-- The tree with another head. -/
def withHead (tree : Tree) (head : Head) : Tree :=
  .node head tree.children

/-- The tree with another key. -/
def withKey (tree : Tree) (key : String) : Tree :=
  tree.withHead { tree.head with key }

/-- The tree with another autosort flag. -/
def withAutosort (tree : Tree) (autosort : Bool) : Tree :=
  tree.withHead { tree.head with autosort }

/-- The child that the index names for `key`. -/
def childOf? (tree : Tree) (key : String) : Option Tree :=
  (tree.index.get? key).bind fun pos => tree.children[pos]?

/-- The indexed children with their keys, in ascending key order. -/
def indexed (tree : Tree) : List (String × Tree) :=
  tree.index.entries.filterMap fun (key, pos) => tree.children[pos]?.map fun child => (key, child)

/-- The subtree that a path of positions leads to. -/
def subtree? (tree : Tree) : List Nat → Option Tree
  | [] => some tree
  | pos :: path => tree.children[pos]?.bind fun child => child.subtree? path

/-- The tree with `edit` applied to the subtree at a path; a path that leaves the tree edits
nothing. -/
def editAt (edit : Tree → Tree) : List Nat → Tree → Tree
  | [], tree => edit tree
  | pos :: path, tree => .node tree.head (tree.children.modify pos (editAt edit path))

end Tree

end KeyedTree
