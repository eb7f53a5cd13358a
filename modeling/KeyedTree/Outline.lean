import KeyedTree.Bisection
import KeyedTree.Change

/-! # Decisions on outlines

Each operation on a single node is decided here, from the node's head and its children's keys. The
decisions keep the index in step with the children and refuse whatever would give two children of an
object the same key.
-/

namespace KeyedTree.Outline

variable {ι : Type}

/-! ### Finding children -/

/-- The position of the child at `pos`, if there is one. -/
def child (operation : Operation) (pos : Nat) (node : Outline) : Verdict ι Nat :=
  if pos < node.keys.length then .answered pos
  else .refuse operation (.outOfRange pos node.keys.length)

/-- The position of the child that the index names for `key`. -/
def childOf (operation : Operation) (key : String) (node : Outline) : Verdict ι Nat :=
  match node.head.index.get? key with
  | some pos =>
      if pos < node.keys.length then .answered pos else .refuse operation (.missing key)
  | none => .refuse operation (.missing key)

/-- The position of the last child. -/
def lastChild (operation : Operation) (node : Outline) : Verdict ι Nat :=
  if node.keys.isEmpty then .refuse operation (.outOfRange 0 0)
  else .answered (node.keys.length - 1)

/-! ### The node's own head -/

/-- Gives the node a scalar value. A node that holds another kind must be uninitialized or
overwritable, and it loses its children. -/
def assign (operation : Operation) (value : Payload) (node : Outline) : Verdict ι Unit :=
  let held := node.head.kind
  if held = value.kind then
    .changed { head := { node.head with scalar := value.scalar } } ()
  else if held = .uninitialized ∨ node.head.overwrite then
    .changed
      { head := { node.head with kind := value.kind, index := .empty, scalar := value.scalar }
        row := .refill [] } ()
  else
    .refuse operation (.conflict (.retyped value.kind held))

/-- Lengthens the string that the node holds. -/
def appendText (text : String) (node : Outline) : Verdict ι Unit :=
  match node.head.kind, node.head.scalar with
  | .string, .string value =>
      .changed { head := { node.head with scalar := .string (value ++ text) } } ()
  | _, _ => .refuse .editString (.mismatch (.one .string))

/-- Adds to the integer that the node holds, wrapping around at 64 bits. -/
def addInteger (amount : Int64) (node : Outline) : Verdict ι Unit :=
  match node.head.kind, node.head.scalar with
  | .integer, .integer value =>
      .changed { head := { node.head with scalar := .integer (value + amount) } } ()
  | _, _ => .refuse .readInteger (.mismatch (.one .integer))

/-- Gives the node a new key of its own. -/
def setKey (key : String) (node : Outline) : Verdict ι Unit :=
  .changed { head := { node.head with key } } ()

/-- Lengthens the node's own key. -/
def appendKey (text : String) (node : Outline) : Verdict ι Unit :=
  .changed { head := { node.head with key := node.head.key ++ text } } ()

/-- Sets the flag that orders new keyed children. -/
def setAutosort (autosort : Bool) (node : Outline) : Verdict ι Unit :=
  .changed { head := { node.head with autosort } } ()

/-- Sets the flag that allows retyping and replacing. -/
def setOverwrite (overwrite : Bool) (node : Outline) : Verdict ι Unit :=
  .changed { head := { node.head with overwrite } } ()

/-- Makes the node a bare one of a kind, keeping only its flags. -/
def clear (kind : Kind) (node : Outline) : Verdict ι Unit :=
  .changed { head := node.head.cleared kind, row := .refill [] } ()

/-! ### Attaching -/

/-- The place of a new key in a row, found by halving: behind the keys that are smaller and in front
of the anonymous children. If keys are out of order, it is one of the places that fit. -/
def sortedPlace (key : String) (keys : List String) : Nat :=
  bisect (fun other => other ≠ "" ∧ other < key) keys

/-- The stamp a node needs to come in under `key` with a given autosort flag, if it needs one. -/
def stampFor (child : Head) (key : String) (autosort : Bool) : Option Stamp :=
  if child.key = key ∧ child.autosort = autosort then none else some ⟨key, autosort⟩

/-- Attaches a node whose head is `guest`, under its own key or under `renamed`. An uninitialized
node becomes an object first. An array takes the newcomer at its end. In an object a key that is
present is replaced where it stands, if the object is overwritable; a new key goes to its place in
the order, if the object is autosorted, and else to the end. -/
def attach (operation : Operation) (renamed : Option String) (child : ι) (guest : Head)
    (node : Outline) : Verdict ι Nat :=
  let key := renamed.getD guest.key
  let newcomer : Newcomer ι := ⟨child, stampFor guest key node.head.autosort⟩
  let last := node.keys.length
  match node.head.kind with
  | .array => .changed { head := node.head, row := .insert last newcomer } last
  | .uninitialized | .object =>
      let head := { node.head with kind := .object }
      match head.index.get? key with
      | some pos =>
          if head.overwrite then .changed { head, row := .replace pos newcomer } pos
          else .refuse operation (.conflict (.present key))
      | none =>
          let pos := if key = "" ∨ !head.autosort then last else sortedPlace key node.keys
          .changed
            { head := { head with index := head.index.insertAt key pos }
              row := .insert pos newcomer } pos
  | _ => .refuse operation (.mismatch .container)

/-- Attaches a node under `key` in place of the child that is there, whatever the overwrite flag
says. -/
def attachOver (key : String) (child : ι) (guest : Head) (node : Outline) : Verdict ι Nat :=
  let permissive := { node with head := { node.head with overwrite := true } }
  let verdict := permissive.attach .attachKeyed (some key) child guest
  { verdict with
    change := verdict.change.map fun change =>
      { change with head := { change.head with overwrite := node.head.overwrite } } }

/-- Appends an element to an array; an uninitialized node becomes an array first. -/
def append (child : ι) (guest : Head) (node : Outline) : Verdict ι Nat :=
  match node.head.kind with
  | .uninitialized | .array =>
      let newcomer : Newcomer ι := ⟨child, stampFor guest guest.key node.head.autosort⟩
      let last := node.keys.length
      .changed { head := { node.head with kind := .array }, row := .insert last newcomer } last
  | _ => .refuse .append (.mismatch (.one .array))

/-- The position of the child under `key`, after attaching `blank` there if there is none. -/
def entry (key : String) (blank : ι) (node : Outline) : Verdict ι Nat :=
  match node.head.kind with
  | .uninitialized | .object =>
      match node.head.index.get? key with
      | some pos => .answered pos
      | none => node.attach .entry (some key) blank {}
  | _ => .refuse .entry (.mismatch (.one .object))

/-! ### Rearranging an object -/

/-- Removes the child under `key`, if there is one. -/
def remove (key : String) (node : Outline) : Verdict ι Unit :=
  if node.head.kind = .object then
    match node.head.index.get? key with
    | some pos =>
        .changed
          { head := { node.head with index := node.head.index.removeAt key pos }
            row := .remove pos } ()
    | none => .answered ()
  else
    .refuse .remove (.mismatch (.one .object))

/-- Gives the child under `old`, and the node itself if it has that key, the key `new`. -/
def rename (old new : String) (node : Outline) : Verdict ι Unit :=
  let ownKey := if node.head.key = old then new else node.head.key
  if old = new then
    .answered ()
  else
    match node.head.index.get? old with
    | some pos =>
        if node.head.index.contains new then
          .refuse .rename (.conflict (.renamed old new))
        else
          .changed
            { head := { node.head with key := ownKey, index := node.head.index.rename old new }
              row := .label pos new } ()
    | none => .changed { head := { node.head with key := ownKey } } ()

/-- Gives the child at `pos` the key `key`. -/
def rekey (pos : Nat) (key : String) (node : Outline) : Verdict ι Unit :=
  match node.keys[pos]? with
  | none => .refuse .rekey (.outOfRange pos node.keys.length)
  | some old =>
      if old = key then
        .answered ()
      else if node.head.kind = .object then
        if node.head.index.contains key then
          .refuse .rekey (.conflict (.present key))
        else
          let index :=
            if old = "" then node.head.index.set key pos else node.head.index.rename old key
          .changed { head := { node.head with index }, row := .label pos key } ()
      else
        .changed { head := node.head, row := .label pos key } ()

/-- Moves the child under `key` to position `pos`, or to the end if `pos` lies past it. -/
def relocate (key : String) (pos : Nat) (node : Outline) : Verdict ι Unit :=
  match node.head.index.get? key with
  | none => .refuse .relocate (.missing key)
  | some source =>
      if key = "" then
        .refuse .relocate (.missing key)
      else if source = pos then
        .answered ()
      else
        let target := min pos (node.keys.length - 1)
        let index := (node.head.index.removeAt key source).insertAt key target
        .changed { head := { node.head with index }, row := .move source target } ()

/-! ### After edits of children -/

/-- Brings an object back in step with its child at `pos`, which had the key `old` before it was
edited. A new key that a sibling holds is given up for the old one. -/
def settle (pos : Nat) (old : String) (node : Outline) : Verdict ι Unit :=
  let new := node.keys[pos]?.getD old
  if node.head.kind = .object ∧ new ≠ old then
    if new ≠ "" ∧ node.head.index.contains new then
      .changed { head := node.head, row := .label pos old } ()
    else
      let index := if old = "" then node.head.index.set new pos else node.head.index.rename old new
      .changed { head := { node.head with index } } ()
  else
    .answered ()

/-- Rebuilds the index after a walk over the children, which had the keys `old` before. If the walk
left a key to two of them, all get their old keys back and the repeated keys are answered. -/
def resettle (old : List String) (node : Outline) : Verdict ι (List String) :=
  if node.head.kind = .object then
    match KeyIndex.ofKeys node.keys with
    | (index, []) => .changed { head := { node.head with index } } []
    | (_, repeated) =>
        .changed
          { head := { node.head with index := (KeyIndex.ofKeys old).1 }
            row := .relabel old } repeated
  else
    .changed { head := { node.head with index := .empty } } []

end KeyedTree.Outline
