import KeyedTree.Outline

/-! # Building and copying trees

The operations by which trees are put together from other trees, and the deep copies.
-/

namespace KeyedTree.Tree

/-- Attaches a child under its own key; answers its position. -/
def attach (tree child : Tree) : Except Fault Nat × Tree :=
  tree.perform (Outline.attach .attach none child child.head)

/-- Attaches a child under another key; answers its position. -/
def attachKeyed (tree : Tree) (key : String) (child : Tree) : Except Fault Nat × Tree :=
  tree.perform (Outline.attach .attachKeyed (some key) child child.head)

/-- Appends an element to an array; answers its position. -/
def append (tree child : Tree) : Except Fault Nat × Tree :=
  tree.perform (Outline.append child child.head)

mutual

/-- A tree of its own with the same content. No node of it is overwritable. -/
def copy : Tree → Tree
  | .node head children => .node { head with overwrite := false } (copyRow children)

/-- Copies of the trees of a row. -/
def copyRow : List Tree → List Tree
  | [] => []
  | child :: rest => child.copy :: copyRow rest

end

/-- Takes in trees one after the other until one is refused. -/
def takeIn (join : Tree → Tree → Except Fault Nat × Tree) :
    Tree → List Tree → Except Fault Unit × Tree
  | tree, [] => (.ok (), tree)
  | tree, child :: rest =>
      match join tree child with
      | (.ok _, joined) => takeIn join joined rest
      | (.error fault, joined) => (.error fault, joined)

/-- Makes the root hold a copy of what `source` holds. The root keeps its flags, and its key if
`source` has none; the copies come in as newly attached children. -/
def copyFrom (tree source : Tree) : Except Fault Unit × Tree :=
  let key := if source.key = "" then tree.key else source.key
  let bare := .node { tree.head.cleared source.kind with key, scalar := source.head.scalar } []
  takeIn (if source.kind = .array then append else attach) bare (copyRow source.children)

end KeyedTree.Tree
