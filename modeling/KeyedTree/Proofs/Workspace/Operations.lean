import KeyedTree.Json.Bridge
import KeyedTree.Proofs.Workspace.Course
import KeyedTree.Script.Run

/-! # Programs made of operations

The operations on trees, and the programs that can be made of them. A program that edits a child
under a guard has nothing but the child in its hands for that time: it may not write to what is
above the child, nor look at it as a whole, until the guard is dropped.
-/

namespace KeyedTree

/-- Trees that are new: bare nodes, and what is read from a text, converted or built. -/
inductive Tree.Made : Tree → Prop
  | leaf (payload : Payload) : Made (.leaf payload)
  | keyed {tree : Tree} (key : String) : Made tree → Made (tree.withKey key)
  | read {options : ReadOptions} {text : String} {tree : Tree} :
      decode options text = .ok tree → Made tree
  | converted {json : Json} {tree : Tree} : json.toTree = .ok tree → Made tree
  | built {blueprint : Blueprint} {tree : Tree} : blueprint.build = .ok tree → Made tree

/-- The nodes that are being edited under a guard: in each slot at most one, at the end of a
path. -/
abbrev Guards := Slot → Option (List Nat)

namespace Guards

/-- Nothing is being edited. -/
def free : Guards := fun _ => none

/-- The guards with the node at a place being edited. -/
def guard (guards : Guards) (place : Place) : Guards :=
  fun slot => if slot = place.slot then some place.path else guards slot

/-- The path to the node of a slot that may be written to: the root, unless another one is
guarded. -/
def reach (guards : Guards) (slot : Slot) : List Nat :=
  (guards slot).getD []

/-- The node at a place may be written to. -/
def Writable (guards : Guards) (place : Place) : Prop :=
  place.path = guards.reach place.slot

/-- Nothing at a place or below is half edited. -/
def Readable (guards : Guards) (place : Place) : Prop :=
  guards.reach place.slot <+: place.path

theorem Writable.readable {guards : Guards} {place : Place} (hwrite : guards.Writable place) :
    guards.Readable place := by
  rw [Readable, hwrite]

end Guards

/-- Whether a request only asks, and changes nothing. -/
def Request.Asks {α : Type} : Request α → Prop
  | .outline _ => True
  | .view _ => True
  | .alike .. => True
  | .holders _ => True
  | .same .. => True
  | .registers => True
  | _ => False

namespace Program

/-- Programs made of operations, for a workspace in which some nodes are being edited. -/
inductive Operates : Guards → {α : Type} → Program α → Prop
  /-- ends at once -/
  | done {guards : Guards} {α : Type} (result : α) : Operates guards (.done result)
  /-- one program after another, which may depend on the result of the first -/
  | bind {guards : Guards} {α β : Type} {program : Program α} {next : α → Program β} :
      Operates guards program → (∀ value, Operates guards (next value)) →
        Operates guards (program >>= next)
  /-- asks about the workspace -/
  | look {guards : Guards} {α : Type} {request : Request α} (hasks : request.Asks) :
      Operates guards (.request request)
  /-- asks something about a node that does not need a change -/
  | consult {guards : Guards} {α : Type} {decide : Outline → Verdict Origin α} (place : Place)
      (hasks : ∀ node, (decide node).change = none) : Operates guards (place.perform decide).run
  /-- makes a node belong to its holder alone -/
  | own {guards : Guards} (place : Place) : Operates guards (.request (.own place))
  /-- lists a slot -/
  | touch {guards : Guards} (slot : Slot) : Operates guards (.request (.touch slot))
  /-- puts a new tree into a slot -/
  | hold {guards : Guards} {slot : Slot} {tree : Tree} (hfree : guards slot = none)
      (hmade : tree.Made) : Operates guards (.request (.hold slot tree))
  /-- puts a node into another slot as well -/
  | share {guards : Guards} {place : Place} {slot : Slot} (hread : guards.Readable place)
      (hfree : guards slot = none) : Operates guards (.request (.share place slot))
  /-- moves what a slot holds into another slot -/
  | take {guards : Guards} {source target : Slot} (hsource : guards source = none)
      (htarget : guards target = none) : Operates guards (.request (.take source target))
  /-- empties a slot -/
  | release {guards : Guards} {slot : Slot} (hfree : guards slot = none) :
      Operates guards (.request (.release slot))
  /-- stores a copy of a node and all below it -/
  | copy {guards : Guards} {place : Place} {slot : Slot} (hread : guards.Readable place)
      (hfree : guards slot = none) : Operates guards (Kept.copy.store place slot).run
  /-- changes a single node -/
  | edit {guards : Guards} {place : Place} (hwrite : guards.Writable place) (edit : Edit) :
      Operates guards (place.perform edit.decide).run
  /-- gets hold of a child, which may be new -/
  | opener {guards : Guards} {place : Place} (hwrite : guards.Writable place)
      (hfree : guards .argument = none) (opener : Opener) : Operates guards (opener.run place).run
  /-- makes a node hold a copy of what the argument holds -/
  | copyFrom {guards : Guards} {place : Place} (hwrite : guards.Writable place)
      (hfree : guards .argument = none) :
      Operates guards (do place.copyFrom (← argumentTree) : Attempt Unit).run
  /-- makes a node a clone of another -/
  | become {guards : Guards} {place source : Place} (hwrite : guards.Writable place)
      (hread : guards.Readable source) : Operates guards (place.become source)
  /-- edits a child under a guard -/
  | guarded {guards : Guards} {α : Type} {place : Place} {pos : Nat} {edit : Place → Program α}
      (hwrite : guards.Writable place)
      (hedit : Operates (guards.guard (place.child pos)) (edit (place.child pos))) :
      Operates guards (place.guarded pos edit)
  /-- visits a node and what is below it, having just the visited node in its hands each time -/
  | walk {guards : Guards} {σ : Type} {visit : Place → σ → Program (Traversal × σ)}
      {place : Place} (exceptions : List String) (reach : Nat) (state : σ)
      (hwrite : guards.Writable place)
      (hvisit : ∀ path state, Operates (guards.guard ⟨place.slot, place.path ++ path⟩)
        (visit ⟨place.slot, place.path ++ path⟩ state)) :
      Operates guards (Walk.run visit exceptions reach place state)

end Program

end KeyedTree
