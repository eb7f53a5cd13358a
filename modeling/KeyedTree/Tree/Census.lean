import KeyedTree.Tree.Basic

/-! # The census of a tree

The census counts the nodes of a tree by kind and tells how deep the tree is.
-/

namespace KeyedTree

/-- How many nodes there are of each kind, and the greatest depth of a node. -/
structure Census where
  objects : Nat := 0
  arrays : Nat := 0
  strings : Nat := 0
  integers : Nat := 0
  bools : Nat := 0
  nulls : Nat := 0
  uninitialized : Nat := 0
  maxDepth : Nat := 0
  deriving DecidableEq, Repr

namespace Census

/-- The number of all nodes. -/
def total (census : Census) : Nat :=
  census.objects + census.arrays + census.strings + census.integers + census.bools +
    census.nulls + census.uninitialized

/-- The census with one more node of a kind at a depth. -/
def add (census : Census) (kind : Kind) (depth : Nat) : Census :=
  let census := { census with maxDepth := max census.maxDepth depth }
  match kind with
  | .object => { census with objects := census.objects + 1 }
  | .array => { census with arrays := census.arrays + 1 }
  | .string => { census with strings := census.strings + 1 }
  | .integer => { census with integers := census.integers + 1 }
  | .bool => { census with bools := census.bools + 1 }
  | .null => { census with nulls := census.nulls + 1 }
  | .uninitialized => { census with uninitialized := census.uninitialized + 1 }

mutual

/-- The census with all nodes of a tree that stands at a depth. -/
def count (census : Census) (depth : Nat) : Tree → Census
  | .node head children => countRow (census.add head.kind depth) (depth + 1) children

/-- The census with all nodes of a row of trees that stand at a depth. -/
def countRow (census : Census) (depth : Nat) : List Tree → Census
  | [] => census
  | child :: rest => countRow (count census depth child) depth rest

end

end Census

/-- The census of a tree. -/
def Tree.census (tree : Tree) : Census :=
  Census.count {} 0 tree

end KeyedTree
