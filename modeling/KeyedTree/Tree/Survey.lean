import KeyedTree.Tree.Basic

/-! # Looking through a tree

Functions that visit the nodes of a tree in pre-order without changing it: the listing of all nodes,
the search for a node, the check of all indexes and the comparison of two trees.
-/

namespace KeyedTree.Tree

mutual

/-- The subtrees in pre-order, each with its depth below the root of the listing. -/
def nodesFrom (depth : Nat) : Tree → List (Nat × Tree)
  | .node head children => (depth, .node head children) :: rowNodesFrom (depth + 1) children

/-- The nodes of a row of trees, one tree after the other. -/
def rowNodesFrom (depth : Nat) : List Tree → List (Nat × Tree)
  | [] => []
  | child :: rest => child.nodesFrom depth ++ rowNodesFrom depth rest

end

/-- The subtrees of a tree in pre-order, each with its depth. -/
def nodes (tree : Tree) : List (Nat × Tree) :=
  tree.nodesFrom 0

/-- The heads of a tree in pre-order, each with its depth. -/
def listing (tree : Tree) : List (Nat × Head) :=
  tree.nodes.map fun (depth, subtree) => (depth, subtree.head)

mutual

/-- Whether some node satisfies a predicate. The nodes are asked in pre-order up to the first that
does; the predicate may keep a state of its own. -/
def search {σ : Type} (asks : Tree → StateM σ Bool) : Tree → StateM σ Bool
  | .node head children => do
      if ← asks (.node head children) then
        return true
      searchRow asks children

/-- Whether some node of a row of trees satisfies a predicate. -/
def searchRow {σ : Type} (asks : Tree → StateM σ Bool) : List Tree → StateM σ Bool
  | [] => return false
  | child :: rest => do
      if ← child.search asks then
        return true
      searchRow asks rest

end

/-- Whether the index of a single node fits its children: that of an object names exactly the keyed
ones, and no other node has index entries. -/
def indexFits (tree : Tree) : Bool :=
  if tree.kind = .object then tree.index.agrees tree.keys else tree.index.size == 0

mutual

/-- Whether every index in the tree fits. -/
def consistent : Tree → Bool
  | .node head children => indexFits (.node head children) && rowConsistent children

/-- Whether every index in a row of trees fits. -/
def rowConsistent : List Tree → Bool
  | [] => true
  | child :: rest => child.consistent && rowConsistent rest

end

mutual

/-- Whether two trees have the same keys, kinds, values and order. Flags and indexes do not
count. -/
def alike : Tree → Tree → Bool
  | .node head children, .node head' children' => head.alike head' && rowAlike children children'

/-- Whether two rows of trees are alike, tree by tree. -/
def rowAlike : List Tree → List Tree → Bool
  | [], [] => true
  | child :: rest, child' :: rest' => child.alike child' && rowAlike rest rest'
  | _, _ => false

end

end KeyedTree.Tree
