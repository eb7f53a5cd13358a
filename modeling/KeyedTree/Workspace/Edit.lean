import KeyedTree.Outline
import KeyedTree.Tree.Edit
import KeyedTree.Workspace.Program

/-! # Editing at places

Operations on single nodes become attempts at places. A child is edited under a guard: when the edit
is over, its parent is brought back in step with the key that the child then has. A walk edits a
node and what is below it in pre-order.
-/

namespace KeyedTree

/-- What the node at a place shows of itself. -/
def Place.outline (place : Place) : Program Outline := do
  return (← Program.request (.outline place)).getD default

/-- The tree at a place. -/
def Place.view (place : Place) : Program Tree := do
  return (← Program.request (.view place)).getD default

/-- The key of the node at a place. -/
def Place.key (place : Place) : Program String := do
  return (← place.outline).head.key

/-- Whether there is a node at a place. -/
def Place.occupied (place : Place) : Program Bool := do
  return (← Program.request (.outline place)).isSome

namespace Place

variable {α : Type}

/-- Ends with the fault of a refusal by the node at a place. -/
def refuse (place : Place) (refusal : Refusal) : Attempt α := do
  throw (.ofRefusal refusal (← place.view))

/-- Carries out an operation on the node at a place. -/
def perform (place : Place) (decide : Outline → Verdict Origin α) : Attempt α := do
  let verdict := decide (← place.outline)
  if let some change := verdict.change then
    Attempt.request (.change place change)
  match verdict.answer with
  | .ok value => return value
  | .error refusal => place.refuse refusal

/-- Edits the child at a position under a guard. -/
def guarded (place : Place) (pos : Nat) (edit : Place → Program α) : Program α := do
  let child := place.child pos
  let old ← child.key
  Program.request (.own child)
  let result ← edit child
  let _ ← (place.perform (Outline.settle pos old)).run
  return result

/-- Makes the node at a place hold a copy of what a tree holds. -/
def copyFrom (place : Place) (source : Tree) : Attempt Unit := do
  let (result, copied) := (← place.view).copyFrom source
  Attempt.request (.change place ⟨copied.head, .refill (copied.children.map .fresh)⟩)
  match result with
  | .ok () => return ()
  | .error fault => throw fault

/-- Makes the node at a place a clone of another; the clone holds the same children. -/
def become (place source : Place) : Program Unit := do
  let outline ← source.outline
  let children := (List.range outline.keys.length).map fun pos => .shared (source.child pos)
  Program.request (.change place ⟨outline.head, .refill children⟩)

end Place

/-! ### Walks -/

/-- How a walk goes on behind a node. -/
inductive Traversal
  | goOn
  | skipBelow
  deriving DecidableEq

namespace Walk

variable {σ : Type}

/-- Walks over the children at given positions one after the other, up to the first fault. -/
def row (walkChild : Place → σ → Program (Except Fault Unit × σ)) (place : Place) :
    List Nat → σ → Program (Except Fault Unit × σ)
  | [], state => return (.ok (), state)
  | pos :: rest, state => do
      Program.request (.own (place.child pos))
      match ← walkChild (place.child pos) state with
      | (.ok (), state) => row walkChild place rest state
      | (.error fault, state) => return (.error fault, state)

/-- Walks over the children of a node whose visit is over. An object whose children the visits left
with a key twice gives them all their old keys back, and the walk ends with a fault. -/
def below (walkChild : Place → σ → Program (Except Fault Unit × σ)) (place : Place) (state : σ) :
    Program (Except Fault Unit × σ) := do
  let old := (← place.outline).keys
  let (result, state) ← row walkChild place (List.range old.length) state
  match ← (place.perform (Outline.resettle old)).run with
  | .ok [] => return (result, state)
  | .error fault => return (.error fault, state)
  | .ok repeated =>
      match result with
      | .error fault => return (.error fault, state)
      | .ok () =>
          return (← (place.refuse ⟨.modify, .conflict (.repeated repeated)⟩).run, state)

/-- Visits a node and what is at most `reach` levels below it in pre-order. A node whose key is an
exception is left out with all below it, and a visit may keep the walk out of what is below. -/
def run (visit : Place → σ → Program (Traversal × σ)) (exceptions : List String) :
    Nat → Place → σ → Program (Except Fault Unit × σ)
  | 0, place, state => do
      if exceptions.contains (← place.key) then
        return (.ok (), state)
      let (_, state) ← visit place state
      return (.ok (), state)
  | reach + 1, place, state => do
      if exceptions.contains (← place.key) then
        return (.ok (), state)
      let (traversal, state) ← visit place state
      match traversal with
      | .skipBelow => return (.ok (), state)
      | .goOn => below (run visit exceptions reach) place state

end Walk

end KeyedTree
