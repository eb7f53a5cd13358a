import KeyedTree.Outline
import KeyedTree.Tree.Access

/-! # Plain containers

A plain container keeps its children in a list and has no index. It finds a key by looking through
the children from left to right. Its operations say what the operations on indexed nodes are meant
to do.
-/

namespace KeyedTree

/-- A node with all that belongs to it, except the index of its children's keys. -/
structure Plain where
  key : String
  kind : Kind
  scalar : Scalar
  autosort : Bool
  overwrite : Bool
  children : List Tree

/-- The root of a tree without its index. -/
def Tree.plain (tree : Tree) : Plain :=
  let head := tree.head
  ⟨head.key, head.kind, head.scalar, head.autosort, head.overwrite, tree.children⟩

namespace Plain

variable {α : Type}

/-- The container as a tree that has nothing in its index. -/
def tree (node : Plain) : Tree :=
  .node ⟨node.key, node.kind, node.scalar, node.autosort, node.overwrite, .empty⟩ node.children

/-- The first child under a key, from left to right. Only objects have children under keys, and no
child stands under the empty key. -/
def find? (node : Plain) (key : String) : Option Nat :=
  if node.kind = .object ∧ key ≠ "" then node.children.findIdx? (·.key = key) else none

/-- The operation is not allowed; the fault shows the container as it stands. -/
def refuse (node : Plain) (operation : Operation) (objection : Objection) :
    Except Fault α × Plain :=
  (.error (.ofRefusal ⟨operation, objection⟩ node.tree), node)

/-- A newcomer takes its key and the container's autosort flag. -/
def adopt (node : Plain) (key : String) (child : Tree) : Tree :=
  child.withHead { child.head with key, autosort := node.autosort }

/-- The child at a position gets another key. -/
def relabel (node : Plain) (pos : Nat) (key : String) : List Tree :=
  node.children.modify pos (·.withKey key)

/-- Where a new key goes: to its sorted place under autosort, and else to the end, as do anonymous
children. -/
def placeFor (node : Plain) (key : String) : Nat :=
  if key ≠ "" ∧ node.autosort then Outline.sortedPlace key (node.children.map Tree.key)
  else node.children.length

/-! ### Attaching -/

/-- Attaches a child to an object, or to a node that becomes one. A present key is replaced where it
stands, if that is allowed. -/
def attachTo (node : Plain) (operation : Operation) (key : String) (child : Tree) :
    Except Fault Nat × Plain :=
  match node.find? key with
  | some pos =>
      if node.overwrite then
        (.ok pos, { node with children := node.children.set pos (node.adopt key child) })
      else
        node.refuse operation (.conflict (.present key))
  | none =>
      (.ok (node.placeFor key), { node with
        kind := .object
        children := node.children.insertIdx (node.placeFor key) (node.adopt key child) })

/-- Attaches a child under a key. Arrays take it at their end. -/
def attach (node : Plain) (operation : Operation) (key : String) (child : Tree) :
    Except Fault Nat × Plain :=
  if node.kind = .array then
    (.ok node.children.length, { node with children := node.children ++ [node.adopt key child] })
  else if node.kind = .uninitialized ∨ node.kind = .object then
    node.attachTo operation key child
  else
    node.refuse operation (.mismatch .container)

/-- Appends an element to an array, or to a node that becomes one. -/
def append (node : Plain) (child : Tree) : Except Fault Nat × Plain :=
  if node.kind = .uninitialized ∨ node.kind = .array then
    (.ok node.children.length,
      { node with kind := .array, children := node.children ++ [node.adopt child.key child] })
  else
    node.refuse .append (.mismatch (.one .array))

/-- The position of the child under a key, after attaching a blank one if there is none. -/
def entry (node : Plain) (key : String) : Except Fault Nat × Plain :=
  if node.kind = .uninitialized ∨ node.kind = .object then
    match node.find? key with
    | some pos => (.ok pos, node)
    | none => node.attach .entry key .blank
  else
    node.refuse .entry (.mismatch (.one .object))

/-- The position of the child under a key. -/
def locate (node : Plain) (operation : Operation) (key : String) : Except Fault Nat × Plain :=
  match node.find? key with
  | some pos => (.ok pos, node)
  | none => node.refuse operation (.missing key)

/-- Attaches a child under a key as if the container were overwritable, and looks the key up again.
An array, and an object for the empty key, has taken the child in when it answers that the key is
missing. -/
def assign (node : Plain) (key : String) (child : Tree) : Except Fault Nat × Plain :=
  match { node with overwrite := true }.attach .attachKeyed key child with
  | (.ok _, after) => { after with overwrite := node.overwrite }.locate .editChildOf key
  | (.error fault, after) => (.error fault, { after with overwrite := node.overwrite })

/-! ### Rearranging -/

/-- Removes the child under a key from an object, if there is one. -/
def remove (node : Plain) (key : String) : Except Fault Unit × Plain :=
  if node.kind = .object then
    match node.find? key with
    | some pos => (.ok (), { node with children := node.children.eraseIdx pos })
    | none => (.ok (), node)
  else
    node.refuse .remove (.mismatch (.one .object))

/-- Gives the child under `old`, and the container itself if it has that key, the key `new`. -/
def rename (node : Plain) (old new : String) : Except Fault Unit × Plain :=
  let key := if node.key = old then new else node.key
  if old = new then
    (.ok (), node)
  else
    match node.find? old with
    | some pos =>
        if (node.find? new).isSome then
          node.refuse .rename (.conflict (.renamed old new))
        else
          (.ok (), { node with key, children := node.relabel pos new })
    | none => (.ok (), { node with key })

/-- Gives the child at a position another key, unless a sibling in an object has it. -/
def rekey (node : Plain) (pos : Nat) (key : String) : Except Fault Unit × Plain :=
  match node.children[pos]? with
  | none => node.refuse .rekey (.outOfRange pos node.children.length)
  | some child =>
      if child.key = key then
        (.ok (), node)
      else if (node.find? key).isSome then
        node.refuse .rekey (.conflict (.present key))
      else
        (.ok (), { node with children := node.relabel pos key })

/-- Moves the child under a key to a position, or to the end if the position lies past it. -/
def relocate (node : Plain) (key : String) (pos : Nat) : Except Fault Unit × Plain :=
  match node.find? key with
  | none => node.refuse .relocate (.missing key)
  | some source =>
      if source = pos then
        (.ok (), node)
      else
        (.ok (), { node with children := moveWithin node.children source pos })

/-! ### Questions -/

/-- The child under a key. -/
def childOf (node : Plain) (key : String) : Except Fault Tree :=
  match (node.find? key).bind fun pos => node.children[pos]? with
  | some child => .ok child
  | none => .error (.ofRefusal ⟨.childOf, .missing key⟩ node.tree)

/-- Whether there is a child under a key. -/
def containsKey (node : Plain) (key : String) : Bool :=
  (node.find? key).isSome

/-- The children of an object that have a key, in ascending key order. -/
def keyIndex (node : Plain) : List (String × Tree) :=
  if node.kind = .object then
    ((node.children.filter (·.key ≠ "")).mergeSort (·.key ≤ ·.key)).map fun child =>
      (child.key, child)
  else []

end Plain

end KeyedTree
