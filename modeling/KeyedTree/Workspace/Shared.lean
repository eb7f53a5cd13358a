import KeyedTree.Workspace.Heap
import KeyedTree.Workspace.Program

/-! # Shared nodes

The economical way to keep nodes: slots hold references to counted nodes on a heap, and putting a
node into a second slot only counts another holder. Writes clone what has other holders, so that
nobody else sees them.
-/

namespace KeyedTree

/-- A workspace whose slots share nodes on a heap. -/
structure SharedStore where
  heap : Heap := {}
  shelf : Shelf Ref := {}

namespace SharedStore

/-- The node at a place. -/
def ref? (store : SharedStore) (place : Place) : Option Ref :=
  (store.shelf.get? place.slot).bind fun ref => store.heap.find? ref place.path

/-- The tree at a place. -/
def view? (store : SharedStore) (place : Place) : Option Tree :=
  (store.ref? place).map store.heap.view

/-- Puts something else into a slot and counts a holder less for what was there. -/
def put (store : SharedStore) (slot : Slot) (ref : Option Ref) : SharedStore :=
  ⟨store.heap.release (store.shelf.get? slot).toList, store.shelf.set slot ref⟩

/-- The store with a write at a place. -/
def editAt (store : SharedStore) (place : Place) (edit : Heap → Ref → Heap) : SharedStore :=
  match store.shelf.get? place.slot with
  | none => store
  | some ref =>
      let (ref, heap) := Heap.editAlong edit place.path ref store.heap
      ⟨heap, store.shelf.set place.slot (some ref)⟩

/-- The node that comes in from an origin; it has a holder counted for where it goes. -/
def resolve (origin : Origin) (store : SharedStore) : Ref × SharedStore :=
  let new (tree : Tree) : Ref × SharedStore :=
    let (ref, heap) := store.heap.allocTree tree
    (ref, { store with heap })
  match origin with
  | .fresh tree => new tree
  | .held slot =>
      match store.shelf.get? slot with
      | some ref => (ref, { store with shelf := store.shelf.set slot none })
      | none => new .blank
  | .shared place =>
      match store.ref? place with
      | some ref => (ref, { store with heap := store.heap.retain ref })
      | none => new .blank

/-- The incoming nodes of a change to a row. -/
def incoming : RowChange Ref → List Ref
  | .insert _ child => [child.node]
  | .replace _ child => [child.node]
  | .refill children => children
  | _ => []

/-- Answers a request. -/
def answer {α : Type} (request : Request α) (store : SharedStore) : α × SharedStore :=
  match request with
  | .outline place => ((store.ref? place).map store.heap.outline, store)
  | .view place => (store.view? place, store)
  | .alike first second =>
      (match store.ref? first, store.ref? second with
        | some ref, some ref' => store.heap.alike ref ref'
        | _, _ => false, store)
  | .own place => ((), store.editAt place fun heap _ => heap)
  | .change place change =>
      let (row, store) := change.row.resolve resolve store
      if (store.ref? place).isSome then
        ((), store.editAt place fun heap ref => heap.apply ⟨change.head, row⟩ ref)
      else ((), { store with heap := store.heap.release (incoming row) })
  | .hold slot tree =>
      let (ref, heap) := store.heap.allocTree tree
      ((), { store with heap }.put slot (some ref))
  | .share place slot =>
      match store.ref? place with
      | some ref => ((), { store with heap := store.heap.retain ref }.put slot (some ref))
      | none => ((), store.put slot none)
  | .take source target =>
      let emptied := { store with shelf := store.shelf.set source none }
      ((), emptied.put target (store.shelf.get? source))
  | .release slot => ((), store.put slot none)
  | .touch slot => ((), { store with shelf := store.shelf.touch slot })
  | .holders slot =>
      (((store.shelf.get? slot).map fun ref => (store.heap.cell ref).count).getD 0, store)
  | .same first second =>
      (match store.shelf.get? first, store.shelf.get? second with
        | some ref, some ref' => ref == ref'
        | _, _ => false, store)
  | .registers => (store.shelf.registers, store)

instance : Keeper SharedStore := ⟨answer⟩

end SharedStore

end KeyedTree
