import KeyedTree.Tree.Survey
import KeyedTree.Workspace.Program

/-! # Private copies

The simplest way to keep nodes: every slot owns a tree, and nothing is ever shared. A node that is
put into a second slot is copied with everything below it.
-/

namespace KeyedTree

/-- A workspace whose slots own their trees. -/
structure PrivateStore where
  shelf : Shelf Tree := {}

namespace PrivateStore

/-- The tree at a place. -/
def view? (store : PrivateStore) (place : Place) : Option Tree :=
  (store.shelf.get? place.slot).bind fun tree => tree.subtree? place.path

/-- The store with an edit applied to the tree at a place. -/
def editAt (store : PrivateStore) (place : Place) (edit : Tree → Tree) : PrivateStore :=
  match store.shelf.get? place.slot with
  | none => store
  | some tree => ⟨store.shelf.set place.slot (some (tree.editAt edit place.path))⟩

/-- The tree that comes in from an origin. -/
def resolve (origin : Origin) (store : PrivateStore) : Tree × PrivateStore :=
  match origin with
  | .fresh tree => (tree, store)
  | .held slot =>
      match store.shelf.get? slot with
      | some tree => (tree, ⟨store.shelf.set slot none⟩)
      | none => (.blank, store)
  | .shared place => ((store.view? place).getD .blank, store)

/-- Answers a request. -/
def answer {α : Type} (request : Request α) (store : PrivateStore) : α × PrivateStore :=
  match request with
  | .outline place => ((store.view? place).map Tree.outline, store)
  | .view place => (store.view? place, store)
  | .alike first second =>
      (match store.view? first, store.view? second with
        | some tree, some tree' => tree.alike tree'
        | _, _ => false, store)
  | .own _ => ((), store)
  | .change place change =>
      let (row, store) := change.row.resolve resolve store
      ((), store.editAt place fun tree => tree.apply ⟨change.head, row⟩)
  | .hold slot tree => ((), ⟨store.shelf.set slot (some tree)⟩)
  | .share place slot => ((), ⟨store.shelf.set slot (store.view? place)⟩)
  | .take source target =>
      ((), ⟨(store.shelf.set source none).set target (store.shelf.get? source)⟩)
  | .release slot => ((), ⟨store.shelf.set slot none⟩)
  | .touch slot => ((), ⟨store.shelf.touch slot⟩)
  | .holders slot => (if (store.shelf.get? slot).isSome then 1 else 0, store)
  | .same first second => (first = second && (store.shelf.get? first).isSome, store)
  | .registers => (store.shelf.registers, store)

instance : Keeper PrivateStore := ⟨answer⟩

end PrivateStore

end KeyedTree
