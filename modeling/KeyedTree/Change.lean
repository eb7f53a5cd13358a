import KeyedTree.Fault

/-! # Changes

Operations on a node are decided on its outline alone. The decision is a verdict: what is to be
changed, if anything, and what the operation answers. A change is plain data, so that it can be
carried out on a tree that owns its children and equally on nodes that are shared.
-/

namespace KeyedTree

/-- The key and the autosort flag that a node takes on when it is attached. -/
structure Stamp where
  key : String
  autosort : Bool
  deriving DecidableEq

/-- A node that is about to be attached. A missing stamp means that it comes in as it is. -/
structure Newcomer (ι : Type) where
  node : ι
  stamp : Option Stamp

/-- A change to a row of children; `ι` is what stands for nodes that come in. -/
inductive RowChange (ι : Type)
  | keep
  | insert (pos : Nat) (child : Newcomer ι)
  | replace (pos : Nat) (child : Newcomer ι)
  | remove (pos : Nat)
  /-- the child at `source` is taken out and put back at `target` -/
  | move (source target : Nat)
  /-- the child at `pos` takes this key -/
  | label (pos : Nat) (key : String)
  /-- all children take these keys, in order -/
  | relabel (keys : List String)
  /-- all children give way to others -/
  | refill (children : List ι)

/-- A change to a node: its head afterwards and the change to its row of children. -/
structure Change (ι : Type) where
  head : Head
  row : RowChange ι := .keep

/-- What an operation on a node comes to: the change it makes and the answer it gives. -/
structure Verdict (ι α : Type) where
  change : Option (Change ι)
  answer : Except Refusal α

namespace Verdict

variable {ι α : Type}

/-- The operation is not allowed and changes nothing. -/
def refuse (operation : Operation) (objection : Objection) : Verdict ι α :=
  ⟨none, .error ⟨operation, objection⟩⟩

/-- The operation answers without a change. -/
def answered (value : α) : Verdict ι α :=
  ⟨none, .ok value⟩

/-- The operation makes a change and answers. -/
def changed (change : Change ι) (value : α) : Verdict ι α :=
  ⟨some change, .ok value⟩

end Verdict

/-- A row with a value put in at a position, or at the end if the position lies past it. -/
def insertInto {α : Type} (row : List α) (pos : Nat) (value : α) : List α :=
  row.insertIdx (min pos row.length) value

/-- A row with the value at `source` taken out and put back at `target`, or at the end if `target`
lies past it. -/
def moveWithin {α : Type} (row : List α) (source target : Nat) : List α :=
  match row[source]? with
  | some value => insertInto (row.eraseIdx source) target value
  | none => row

/-- The newcomer with its stamp on. -/
def Newcomer.stamped (child : Newcomer Tree) : Tree :=
  match child.stamp with
  | none => child.node
  | some stamp =>
      child.node.withHead { child.node.head with key := stamp.key, autosort := stamp.autosort }

/-- Gives the trees of a row new keys, as far as there are any. -/
def relabelRow : List Tree → List String → List Tree
  | child :: rest, key :: keys => child.withKey key :: relabelRow rest keys
  | row, _ => row

/-- The row of children after a change. -/
def RowChange.apply : RowChange Tree → List Tree → List Tree
  | .keep, row => row
  | .insert pos child, row => insertInto row pos child.stamped
  | .replace pos child, row => row.set pos child.stamped
  | .remove pos, row => row.eraseIdx pos
  | .move source target, row => moveWithin row source target
  | .label pos key, row => row.modify pos (·.withKey key)
  | .relabel keys, row => relabelRow row keys
  | .refill children, _ => children

namespace Tree

/-- The tree after a change to its root. -/
def apply (tree : Tree) (change : Change Tree) : Tree :=
  .node change.head (change.row.apply tree.children)

/-- Carries out an operation on the root. The answer comes with the tree afterwards; a refusal shows
the root as it then stands. -/
def perform {α : Type} (decide : Outline → Verdict Tree α) (tree : Tree) : Except Fault α × Tree :=
  let verdict := decide tree.outline
  let after := match verdict.change with
    | some change => tree.apply change
    | none => tree
  (verdict.answer.mapError fun refusal => .ofRefusal refusal after, after)

end Tree

end KeyedTree
