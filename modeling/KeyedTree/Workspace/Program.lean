import KeyedTree.Workspace.Place

/-! # Programs

A program works on the nodes of a workspace by asking for things one at a time; what it asks next
may depend on the answers. It does not know how the nodes are kept. Whoever keeps them answers each
request on its own, so whatever holds after every single answer holds after every program.
-/

namespace KeyedTree

/-- The things that a program can ask for, with the type of the answer. -/
inductive Request : Type → Type
  /-- what the node at a place shows of itself -/
  | outline (place : Place) : Request (Option Outline)
  /-- the tree at a place -/
  | view (place : Place) : Request (Option Tree)
  /-- whether there are trees at two places and they are alike -/
  | alike (first second : Place) : Request Bool
  /-- makes the node at a place belong to its holder alone -/
  | own (place : Place) : Request Unit
  /-- changes the node at a place, which then belongs to its holder alone -/
  | change (place : Place) (change : Change Origin) : Request Unit
  /-- puts a new tree into a slot -/
  | hold (slot : Slot) (tree : Tree) : Request Unit
  /-- puts the node at a place into a slot as well -/
  | share (place : Place) (slot : Slot) : Request Unit
  /-- moves what a slot holds into another slot -/
  | take (source target : Slot) : Request Unit
  /-- empties a slot -/
  | release (slot : Slot) : Request Unit
  /-- lists a slot -/
  | touch (slot : Slot) : Request Unit
  /-- the number of holders of a slot's node -/
  | holders (slot : Slot) : Request Nat
  /-- whether two slots hold the very same node -/
  | same (first second : Slot) : Request Bool
  /-- the names of the listed registers -/
  | registers : Request (List String)

/-- A course of requests that ends with a result. -/
inductive Program (α : Type) : Type 1
  | done (result : α)
  | ask {β : Type} (request : Request β) (next : β → Program α)

namespace Program

variable {α β : Type}

/-- Goes on with another program where the first one ends. -/
def bind (program : Program α) (next : α → Program β) : Program β :=
  match program with
  | .done result => next result
  | .ask request rest => .ask request fun answer => (rest answer).bind next

instance : Monad Program where
  pure := .done
  bind := bind

/-- The program that asks for one thing. -/
def request (request : Request α) : Program α :=
  .ask request .done

end Program

/-- A way to keep the nodes of a workspace: it answers every request. -/
class Keeper (σ : Type) where
  answer : {α : Type} → Request α → σ → α × σ

/-- Runs a program on a workspace. -/
def Program.run {σ α : Type} [Keeper σ] : Program α → σ → α × σ
  | .done result, workspace => (result, workspace)
  | .ask request next, workspace =>
      let (answer, workspace) := Keeper.answer request workspace
      (next answer).run workspace

/-- A sequence of programs runs one after the other on the workspace. -/
theorem Program.run_bind {σ α β : Type} [Keeper σ] (program : Program α) (next : α → Program β)
    (workspace : σ) :
    (program >>= next).run workspace =
      (next (program.run workspace).1).run (program.run workspace).2 := by
  change (program.bind next).run workspace = _
  induction program generalizing workspace with
  | done result => rfl
  | ask request rest ih => exact ih _ _

/-- A program that may end with a fault. -/
abbrev Attempt := ExceptT Fault Program

/-- The attempt that asks for one thing. -/
def Attempt.request {α : Type} (request : Request α) : Attempt α :=
  ExceptT.lift (Program.request request)

namespace RowChange

variable {σ ι κ : Type}

/-- What `resolve` makes of incoming nodes, one after the other. -/
def resolveAll (resolve : ι → σ → κ × σ) : List ι → σ → List κ × σ
  | [], state => ([], state)
  | child :: rest, state =>
      let (node, state) := resolve child state
      let (nodes, state) := resolveAll resolve rest state
      (node :: nodes, state)

/-- Carries over what `resolve` makes of the incoming nodes of a change to a row. -/
def resolve (resolve : ι → σ → κ × σ) : RowChange ι → σ → RowChange κ × σ
  | .keep, state => (.keep, state)
  | .insert pos child, state =>
      let (node, state) := resolve child.node state
      (.insert pos ⟨node, child.stamp⟩, state)
  | .replace pos child, state =>
      let (node, state) := resolve child.node state
      (.replace pos ⟨node, child.stamp⟩, state)
  | .remove pos, state => (.remove pos, state)
  | .move source target, state => (.move source target, state)
  | .label pos key, state => (.label pos key, state)
  | .relabel keys, state => (.relabel keys, state)
  | .refill children, state =>
      let (children, state) := resolveAll resolve children state
      (.refill children, state)

end RowChange

end KeyedTree
