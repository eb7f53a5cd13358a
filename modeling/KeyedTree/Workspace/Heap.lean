import KeyedTree.Workspace.Place

/-! # Heaps of counted nodes

A heap keeps nodes in cells. The children of a node are references to cells, so that one node can
have many holders. Every cell counts its holders. A node is given up with its last holder, and a
node with other holders is cloned before it is written to. The clone shares the children.
-/

namespace KeyedTree

/-- A reference to a cell of a heap. -/
abbrev Ref := Nat

/-- A node on a heap: its head, its children and the number of its holders. -/
structure Cell where
  head : Head
  children : List Ref
  count : Nat

instance : Inhabited Cell := ⟨⟨default, [], 0⟩⟩

/-- Cells under references. A cell whose count is zero is given up and never used again. -/
structure Heap where
  cells : Array Cell := #[]

namespace Heap

/-- The cell under a reference. -/
def cell (heap : Heap) (ref : Ref) : Cell :=
  heap.cells[ref]?.getD default

/-- The heap with another cell under a reference. -/
def setCell (heap : Heap) (ref : Ref) (cell : Cell) : Heap :=
  ⟨heap.cells.setIfInBounds ref cell⟩

/-- The head of the node under a reference. -/
def head (heap : Heap) (ref : Ref) : Head :=
  (heap.cell ref).head

/-- The children of the node under a reference. -/
def children (heap : Heap) (ref : Ref) : List Ref :=
  (heap.cell ref).children

/-- The node under a reference with another head and other children. -/
def write (heap : Heap) (ref : Ref) (head : Head) (children : List Ref) : Heap :=
  heap.setCell ref { heap.cell ref with head, children }

/-- A new node with one holder. -/
def alloc (heap : Heap) (head : Head) (children : List Ref) : Ref × Heap :=
  (heap.cells.size, ⟨heap.cells.push ⟨head, children, 1⟩⟩)

mutual

/-- New nodes for a whole tree. -/
def allocTree (heap : Heap) : Tree → Ref × Heap
  | .node head children =>
      let (refs, heap) := allocRow heap children
      heap.alloc head refs

/-- New nodes for a row of trees. -/
def allocRow (heap : Heap) : List Tree → List Ref × Heap
  | [] => ([], heap)
  | child :: rest =>
      let (ref, heap) := allocTree heap child
      let (refs, heap) := allocRow heap rest
      (ref :: refs, heap)

end

/-! ### Counting holders -/

/-- One more holder. -/
def retain (heap : Heap) (ref : Ref) : Heap :=
  let cell := heap.cell ref
  heap.setCell ref { cell with count := cell.count + 1 }

/-- One more holder for every reference of a list. -/
def retainAll (heap : Heap) (refs : List Ref) : Heap :=
  refs.foldl retain heap

/-- The sum of the counts of cells. -/
def countSum : List Cell → Nat
  | [] => 0
  | cell :: rest => cell.count + countSum rest

/-- The sum of all counts. -/
def total (heap : Heap) : Nat :=
  countSum heap.cells.toList

theorem countSum_set_lt {cells : List Cell} {ref : Nat} {old new : Cell}
    (hget : cells[ref]? = some old) (hlt : new.count < old.count) :
    countSum (cells.set ref new) < countSum cells := by
  induction cells generalizing ref with
  | nil => simp at hget
  | cons first rest ih =>
      cases ref with
      | zero =>
          obtain rfl : first = old := by simpa using hget
          exact Nat.add_lt_add_right hlt _
      | succ ref => exact Nat.add_lt_add_left (ih (by simpa using hget)) _

/-- Counting a holder less makes the sum of all counts smaller. -/
theorem total_setCell_lt {heap : Heap} {ref : Ref} {new : Cell}
    (hlt : new.count < (heap.cell ref).count) : (heap.setCell ref new).total < heap.total := by
  unfold cell at hlt
  cases hget : heap.cells[ref]? with
  | none =>
      rw [hget] at hlt
      exact absurd hlt (Nat.not_lt_zero _)
  | some old =>
      rw [hget] at hlt
      unfold total setCell
      rw [Array.toList_setIfInBounds]
      exact countSum_set_lt (by simpa using hget) hlt

/-- One holder less for every reference of a list. A node without holders is given up, and so its
children have a holder less, too. -/
def release (heap : Heap) (refs : List Ref) : Heap :=
  match refs with
  | [] => heap
  | ref :: rest =>
      let cell := heap.cell ref
      if hnone : cell.count = 0 then heap.release rest
      else if cell.count = 1 then
        have : (heap.setCell ref { cell with children := [], count := 0 }).total < heap.total :=
          total_setCell_lt (Nat.pos_of_ne_zero hnone)
        (heap.setCell ref { cell with children := [], count := 0 }).release (cell.children ++ rest)
      else
        have : (heap.setCell ref { cell with count := cell.count - 1 }).total < heap.total :=
          total_setCell_lt (Nat.sub_lt (Nat.pos_of_ne_zero hnone) Nat.one_pos)
        (heap.setCell ref { cell with count := cell.count - 1 }).release rest
termination_by (heap.total, refs.length)

/-- The node of a holder that wants to write to it. A node with other holders loses this one, who
gets a clone instead; the clone holds the same children. -/
def unshare (heap : Heap) (ref : Ref) : Ref × Heap :=
  let cell := heap.cell ref
  if cell.count > 1 then
    let heap := (heap.retainAll cell.children).setCell ref { cell with count := cell.count - 1 }
    heap.alloc cell.head cell.children
  else (ref, heap)

/-! ### Finding nodes -/

/-- The node that a path of positions leads to. -/
def find? (heap : Heap) (ref : Ref) : List Nat → Option Ref
  | [] => some ref
  | pos :: path => (heap.children ref)[pos]?.bind fun child => heap.find? child path

/-- The tree below a reference, to a given depth. -/
def viewTo (heap : Heap) : Nat → Ref → Tree
  | 0, _ => default
  | depth + 1, ref => .node (heap.head ref) ((heap.children ref).map (heap.viewTo depth))

/-- The tree below a reference. No chain of children is longer than there are cells. -/
def view (heap : Heap) (ref : Ref) : Tree :=
  heap.viewTo heap.cells.size ref

/-- Whether two rows of references have the same length and a test passes for each pair. Equal
references pass without it. -/
def pairwise (test : Ref → Ref → Bool) : List Ref → List Ref → Bool
  | [], [] => true
  | ref :: rest, ref' :: rest' => (ref == ref' || test ref ref') && pairwise test rest rest'
  | _, _ => false

/-- Whether the trees below two references are alike, to a given depth. A child that both share is
not looked at. -/
def alikeTo (heap : Heap) : Nat → Ref → Ref → Bool
  | 0, _, _ => true
  | depth + 1, ref, ref' =>
      (heap.head ref).alike (heap.head ref') &&
        pairwise (heap.alikeTo depth) (heap.children ref) (heap.children ref')

/-- Whether the trees below two references are alike. -/
def alike (heap : Heap) (ref ref' : Ref) : Bool :=
  heap.alikeTo heap.cells.size ref ref'

/-- What the node under a reference shows of itself. -/
def outline (heap : Heap) (ref : Ref) : Outline :=
  ⟨heap.head ref, (heap.children ref).map fun child => (heap.head child).key⟩

/-! ### Writing -/

/-- The node that comes in with its stamp on. -/
def stamped (heap : Heap) (child : Newcomer Ref) : Ref × Heap :=
  match child.stamp with
  | none => (child.node, heap)
  | some stamp =>
      let (ref, heap) := heap.unshare child.node
      let head := { heap.head ref with key := stamp.key, autosort := stamp.autosort }
      (ref, heap.write ref head (heap.children ref))

/-- The node of a holder that gives it another key. -/
def relabel (heap : Heap) (ref : Ref) (key : String) : Ref × Heap :=
  let (ref, heap) := heap.unshare ref
  (ref, heap.write ref { heap.head ref with key } (heap.children ref))

/-- Gives the nodes of a row new keys, as far as there are any and they differ. -/
def relabelRow (heap : Heap) : List Ref → List String → List Ref × Heap
  | ref :: rest, key :: keys =>
      let (ref, heap) :=
        if (heap.head ref).key = key then (ref, heap) else heap.relabel ref key
      let (refs, heap) := relabelRow heap rest keys
      (ref :: refs, heap)
  | refs, _ => (refs, heap)

/-- Changes the node under a reference, which must have one holder only. -/
def apply (heap : Heap) (change : Change Ref) (ref : Ref) : Heap :=
  let row := heap.children ref
  match change.row with
  | .keep => heap.write ref change.head row
  | .insert pos child =>
      let (child, heap) := heap.stamped child
      heap.write ref change.head (insertInto row pos child)
  | .replace pos child =>
      let (child, heap) := heap.stamped child
      (heap.write ref change.head (row.set pos child)).release [row[pos]?.getD child]
  | .remove pos => (heap.write ref change.head (row.eraseIdx pos)).release row[pos]?.toList
  | .move source target => heap.write ref change.head (moveWithin row source target)
  | .label pos key =>
      match row[pos]? with
      | none => heap.write ref change.head row
      | some child =>
          let (child, heap) := heap.relabel child key
          heap.write ref change.head (row.set pos child)
  | .relabel keys =>
      let (row, heap) := heap.relabelRow row keys
      heap.write ref change.head row
  | .refill children => (heap.write ref change.head children).release row

/-- Applies a write at the end of a path. All nodes on the way are made to belong to their holder
alone, so the holder of the first one may get another node. -/
def editAlong (edit : Heap → Ref → Heap) : List Nat → Ref → Heap → Ref × Heap
  | [], ref, heap =>
      let (ref, heap) := heap.unshare ref
      (ref, edit heap ref)
  | pos :: path, ref, heap =>
      let (ref, heap) := heap.unshare ref
      match (heap.children ref)[pos]? with
      | none => (ref, heap)
      | some child =>
          let (child, heap) := editAlong edit path child heap
          (ref, heap.write ref (heap.head ref) ((heap.children ref).set pos child))

end Heap

end KeyedTree
