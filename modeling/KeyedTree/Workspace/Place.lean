import KeyedTree.Change

/-! # Places

A workspace holds nodes in slots. A place is reached from a slot by a path of child positions, and
it stands for whatever node is there at the time.
-/

namespace KeyedTree

/-- A holder of at most one node: a register with a name, or the argument of the step under way. -/
inductive Slot
  | register (name : String)
  | argument
  deriving DecidableEq

/-- A node of a workspace, addressed by a slot and the positions that lead to it from there. -/
structure Place where
  slot : Slot
  path : List Nat := []
  deriving DecidableEq

/-- The place of the child at a position. -/
def Place.child (place : Place) (pos : Nat) : Place :=
  { place with path := place.path ++ [pos] }

/-- Where a node comes from that is put among the children of another. -/
inductive Origin
  /-- a new node with everything below it -/
  | fresh (tree : Tree)
  /-- the node of a slot, which gives it away -/
  | held (slot : Slot)
  /-- the node at a place, which keeps it too -/
  | shared (place : Place)

/-- What is held in slots. A slot that is listed without a node is empty; a slot that is not listed
was never used. -/
structure Shelf (α : Type) where
  entries : List (Slot × Option α) := []

namespace Shelf

variable {α : Type}

/-- What a slot holds. -/
def get? (shelf : Shelf α) (slot : Slot) : Option α :=
  (shelf.entries.lookup slot).join

/-- The entries with a slot holding something else. -/
def place (slot : Slot) (value : Option α) :
    List (Slot × Option α) → List (Slot × Option α)
  | [] => [(slot, value)]
  | entry :: rest =>
      if entry.1 = slot then (slot, value) :: rest else entry :: place slot value rest

/-- The shelf with a slot holding something else. -/
def set (shelf : Shelf α) (slot : Slot) (value : Option α) : Shelf α :=
  ⟨place slot value shelf.entries⟩

/-- The shelf with a slot listed. -/
def touch (shelf : Shelf α) (slot : Slot) : Shelf α :=
  if (shelf.entries.lookup slot).isSome then shelf else shelf.set slot none

/-- The names of the registers that are listed. -/
def registers (shelf : Shelf α) : List String :=
  shelf.entries.filterMap fun entry =>
    match entry.1 with
    | .register name => some name
    | .argument => none

end Shelf

end KeyedTree
