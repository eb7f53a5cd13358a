import KeyedTree.Fault

/-! # Access to trees

Reading what the root of a tree holds, or one of its children. What is not there is a fault with a
snapshot of the root.
-/

namespace KeyedTree

namespace Tree

/-- The string that the root holds. -/
def readString (tree : Tree) : Except Fault String :=
  match tree.head.kind, tree.head.scalar with
  | .string, .string value => .ok value
  | _, _ => .error (.ofRefusal ⟨.readString, .mismatch (.one .string)⟩ tree)

/-- The integer that the root holds. -/
def readInteger (tree : Tree) : Except Fault Int64 :=
  match tree.head.kind, tree.head.scalar with
  | .integer, .integer value => .ok value
  | _, _ => .error (.ofRefusal ⟨.readInteger, .mismatch (.one .integer)⟩ tree)

/-- The truth value that the root holds. -/
def readBool (tree : Tree) : Except Fault Bool :=
  match tree.head.kind, tree.head.scalar with
  | .bool, .bool value => .ok value
  | _, _ => .error (.ofRefusal ⟨.readBool, .mismatch (.one .bool)⟩ tree)

/-- The child at a position. -/
def child (tree : Tree) (pos : Nat) : Except Fault Tree :=
  match tree.children[pos]? with
  | some child => .ok child
  | none => .error (.ofRefusal ⟨.child, .outOfRange pos tree.children.length⟩ tree)

/-- The child under a key. -/
def childOf (tree : Tree) (key : String) : Except Fault Tree :=
  match tree.childOf? key with
  | some child => .ok child
  | none => .error (.ofRefusal ⟨.childOf, .missing key⟩ tree)

/-- The last child. -/
def lastChild (tree : Tree) : Except Fault Tree :=
  match tree.children.getLast? with
  | some child => .ok child
  | none => .error (.ofRefusal ⟨.lastChild, .outOfRange 0 0⟩ tree)

/-- The compact text of a tree with its key. -/
def summary (tree : Tree) : String :=
  tree.render false true

end Tree

end KeyedTree
