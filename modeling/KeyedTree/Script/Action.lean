import KeyedTree.Blueprint
import KeyedTree.Script.Query
import KeyedTree.Workspace.Place

/-! # Scripts

A script builds nodes in registers and then works on them step by step. This module holds the
language of scripts; what the steps do is said elsewhere.
-/

namespace KeyedTree

/-- A handle that a step is given: an empty one, the node of a register, or a new node. -/
inductive Argument
  | empty
  | register (name : String)
  | new (blueprint : Blueprint)

/-- A change to a single node that replies nothing. -/
inductive Edit
  | setString (value : String)
  | setInteger (value : Int64)
  | setBool (value : Bool)
  | appendText (text : String)
  | addInteger (amount : Int64)
  | setKey (key : String)
  | appendKey (text : String)
  | setAutosort (autosort : Bool)
  | setOverwrite (overwrite : Bool)
  | clear (kind : Kind)
  | remove (key : String)
  | rename (old new : String)
  | rekey (pos : Nat) (key : String)
  | relocate (key : String) (pos : Nat)

/-- A way to get hold of a child in order to edit it. -/
inductive Opener
  | attach (child : Argument)
  | attachKeyed (key : String) (child : Argument)
  | append (child : Argument)
  | entry (key : String)
  | child (pos : Nat)
  | childOf (key : String)
  | lastChild
  | assign (key : String) (child : Argument)

/-- The handle that an opener is given. -/
def Opener.argument : Opener → Argument
  | .attach guest => guest
  | .attachKeyed _ guest => guest
  | .append guest => guest
  | .assign _ guest => guest
  | _ => .empty

/-- A step of the way from the node of a register to the node that is meant. -/
inductive Segment
  | child (pos : Nat)
  | childOf (key : String)
  | lastChild
  | entry (key : String)

/-- A node that is got from another one and can be stored in a register. -/
inductive Kept
  /-- the child at a position itself -/
  | child (pos : Nat)
  /-- the child under a key itself -/
  | childOf (key : String)
  /-- a copy of the node and all below it -/
  | copy
  /-- a clone of the node with the same children -/
  | clone

mutual

/-- Something that is done at a node. -/
inductive Action
  | ask (query : Query)
  | compare (other : Argument)
  /-- gets a node and lets it go again -/
  | obtain (kept : Kept)
  | edit (edit : Edit)
  | copyFrom (source : Argument)
  | become (source : Argument)
  | pointerExists (key : String)
  | pointerGet (key : String)
  /-- gets hold of a child and looks at it -/
  | find (opener : Opener)
  /-- gets hold of a child and does something at it -/
  | visit (opener : Opener) (next : List Action)
  /-- does several things up to the first fault -/
  | verify (actions : List Action)
  /-- walks over the node and, if `recursive`, over all below it -/
  | modify (rules : List Rule) (recursive : Bool) (exceptions : List String)

/-- What a walk does at the nodes for which a condition holds. -/
inductive Rule
  | mk (condition : Condition) (actions : List Action) (skip : Bool)

end

instance : Inhabited Action := ⟨.verify []⟩

instance : Inhabited Rule := ⟨.mk {} [] false⟩

/-- Whether an action only reads the node. -/
def Action.reads : Action → Bool
  | .ask _ => true
  | .compare _ => true
  | .obtain _ => true
  | _ => false

/-- The handle that an action is given. -/
def Action.argument : Action → Argument
  | .compare other => other
  | .copyFrom source => source
  | .become source => source
  | .find opener => opener.argument
  | .visit opener _ => opener.argument
  | _ => .empty

/-- What a step does with the register it is on. -/
inductive StepCommand
  | new (node : Argument)
  | clone (target : String)
  | take (target : String)
  | release
  | info
  | holders
  | own
  | same (other : String)
  | equal (other : String)
  | keep (path : List Segment) (kept : Kept) (target : String)
  | act (path : List Segment) (action : Action)

/-- A step of a script. -/
structure Step where
  register : String
  command : StepCommand

/-- A script: the nodes to build, with the registers they go to, and the steps. A quiet script does
not show its registers after every step. -/
structure Script where
  nodes : List (String × Argument)
  steps : List Step
  quiet : Bool := false

end KeyedTree
