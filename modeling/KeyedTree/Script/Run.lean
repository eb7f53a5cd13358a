import KeyedTree.Script.Action
import KeyedTree.Tree.Census
import KeyedTree.Workspace.Edit

/-! # Running scripts

The steps of a script become programs on a workspace. A handle that a step is given is put into the
argument slot before the step begins and is gone when the step ends.
-/

namespace KeyedTree

/-- The node of the argument slot. -/
def Place.argument : Place := ⟨.argument, []⟩

/-- Puts the handle that a step is given into the argument slot. -/
def Argument.prepare (argument : Argument) : Attempt Unit :=
  match argument with
  | .empty => Attempt.request (.release .argument)
  | .register name => Attempt.request (.share ⟨.register name, []⟩ .argument)
  | .new blueprint =>
      match blueprint.build with
      | .ok tree => Attempt.request (.hold .argument tree)
      | .error fault => throw fault

/-- Makes an attempt with a handle in the argument slot, which is emptied at the end. -/
def Argument.holding {α : Type} (argument : Argument) (attempt : Attempt α) : Attempt α :=
  ExceptT.mk do
    let result ← (do argument.prepare; attempt : Attempt α).run
    Program.request (.release .argument)
    return result

/-- The head of the node in the argument slot, which an operation is about to take in. -/
def argumentHead (operation : Operation) : Attempt Head := do
  match ← Attempt.request (.outline .argument) with
  | some outline => return outline.head
  | none => throw (.emptyHandle operation)

/-- The tree in the argument slot. -/
def argumentTree : Attempt Tree := do
  match ← Attempt.request (.view .argument) with
  | some tree => return tree
  | none => throw (.emptyHandle .look)

/-- The change that an edit makes. -/
def Edit.decide {ι : Type} (edit : Edit) : Outline → Verdict ι Unit :=
  match edit with
  | .setString value => Outline.assign .setString (.string value)
  | .setInteger value => Outline.assign .setInteger (.integer value)
  | .setBool value => Outline.assign .setBool (.bool value)
  | .appendText text => Outline.appendText text
  | .addInteger amount => Outline.addInteger amount
  | .setKey key => Outline.setKey key
  | .appendKey text => Outline.appendKey text
  | .setAutosort autosort => Outline.setAutosort autosort
  | .setOverwrite overwrite => Outline.setOverwrite overwrite
  | .clear kind => Outline.clear kind
  | .remove key => Outline.remove key
  | .rename old new => Outline.rename old new
  | .rekey pos key => Outline.rekey pos key
  | .relocate key pos => Outline.relocate key pos

/-- Gets hold of a child of the node at a place; answers the child's position. -/
def Opener.run (opener : Opener) (place : Place) : Attempt Nat :=
  match opener with
  | .attach _ => do
      let guest ← argumentHead .attach
      place.perform (Outline.attach .attach none (.held .argument) guest)
  | .attachKeyed key _ => do
      let guest ← argumentHead .attachKeyed
      place.perform (Outline.attach .attachKeyed (some key) (.held .argument) guest)
  | .append _ => do
      let guest ← argumentHead .append
      place.perform (Outline.append (.held .argument) guest)
  | .entry key => place.perform (Outline.entry key (.fresh .blank))
  | .child pos => place.perform (Outline.child .editChild pos)
  | .childOf key => place.perform (Outline.childOf .editChildOf key)
  | .lastChild => place.perform (Outline.lastChild .editLastChild)
  | .assign key _ => do
      let guest ← argumentHead .assign
      let _ ← place.perform (Outline.attachOver key (.held .argument) guest)
      place.perform (Outline.childOf .editChildOf key)

/-- Goes one segment further in order to read. -/
def Segment.follow (segment : Segment) (place : Place) : Attempt Place := do
  let pos ← match segment with
    | .child pos => place.perform (Outline.child .child pos)
    | .childOf key => place.perform (Outline.childOf .childOf key)
    | .lastChild => place.perform (Outline.lastChild .lastChild)
    | .entry key => place.perform (Outline.childOf .childOf key)
  return place.child pos

/-- The way to get hold of the child that a segment leads to. -/
def Segment.opener : Segment → Opener
  | .child pos => .child pos
  | .childOf key => .childOf key
  | .lastChild => .lastChild
  | .entry key => .entry key

/-- Stores a node in a slot. -/
def Kept.store (kept : Kept) (place : Place) (target : Slot) : Attempt Unit :=
  match kept with
  | .child pos => do
      let pos ← place.perform (Outline.child .shareChild pos)
      Attempt.request (.share (place.child pos) target)
  | .childOf key => do
      let pos ← place.perform (Outline.childOf .shareChildOf key)
      Attempt.request (.share (place.child pos) target)
  | .copy => do
      Attempt.request (.hold target (← place.view).copy)
  | .clone => do
      Attempt.request (.hold .argument .blank)
      Place.argument.become place
      Attempt.request (.take .argument target)

/-! ### Walks by rules -/

/-- What a walk by rules has met so far, the last first. -/
structure WalkLog where
  visited : List String := []
  replies : List (Except Fault Reply) := []

/-- A rule whose actions have become a program. -/
structure Visitor where
  condition : Condition
  work : Place → Program (List (Except Fault Reply))
  skip : Bool

/-- Visits a node: the first rule whose condition holds does its work. -/
def Visitor.visit (visitors : List Visitor) (place : Place) (log : WalkLog) :
    Program (Traversal × WalkLog) := do
  let tree ← place.view
  let log := { log with visited := tree.key :: log.visited }
  match visitors.find? fun visitor => visitor.condition.holds tree with
  | none => return (.goOn, log)
  | some visitor =>
      let replies ← visitor.work place
      return (if visitor.skip then .skipBelow else .goOn,
        { log with replies := replies.reverse ++ log.replies })

/-- How many levels below a tree a walk may follow its own visits. Each visit may put new nodes
below the visited one, which are visited in their turn; this bounds how far that goes on. -/
def Walk.growth : Nat := 1000000

/-- The reach of a walk over a whole tree: all the levels that it has when the walk begins, and the
ones that the visits add to them. -/
def Walk.everywhere (tree : Tree) : Nat :=
  tree.census.maxDepth + growth

/-! ### Actions -/

mutual

/-- Does an action at a place; the handle that it is given is in the argument slot. -/
def Action.run : Action → Place → Attempt Reply
  | .ask query, place => do
      match query.reply (← place.view) with
      | .ok reply => return reply
      | .error fault => throw fault
  | .compare _, place => do
      let _ ← argumentTree
      return .flag (← Attempt.request (.alike place .argument))
  | .obtain kept, place => do
      kept.store place .argument
      return .nothing
  | .edit edit, place => do
      place.perform edit.decide
      return .nothing
  | .copyFrom _, place => do
      let source ← argumentTree
      place.copyFrom source
      return .nothing
  | .become _, place => do
      let _ ← argumentTree
      place.become .argument
      return .nothing
  | .pointerExists key, place => do
      return .pointer key ((← place.outline).head.index.contains key)
  | .pointerGet key, place => do
      match (← place.view).childOf key with
      | .ok child => return .text child.summary
      | .error fault => throw fault
  | .find opener, place => do
      let pos ← opener.run place
      return .child pos (← (place.child pos).key) none
  | .visit opener next, place => do
      let pos ← opener.run place
      let key ← (place.child pos).key
      let replies ← ExceptT.lift (place.guarded pos fun child => Action.runAll next child)
      return .child pos key (some replies)
  | .verify actions, place => do
      return .replies (← Action.runUntilFault actions place)
  | .modify rules recursive exceptions, place => do
      let visit := Visitor.visit (Rule.visitors rules)
      let tree ← place.view
      let reach := if recursive then Walk.everywhere tree else 0
      let (result, log) ← Walk.run visit exceptions reach place {}
      return .walked log.visited.reverse log.replies.reverse result

/-- Does several actions at a place, whether they fail or not. -/
def Action.runAll : List Action → Place → Program (List (Except Fault Reply))
  | [], _ => return []
  | action :: rest, place => do
      let reply ← (action.argument.holding (action.run place)).run
      let replies ← Action.runAll rest place
      return reply :: replies

/-- Does several actions at a place up to the first fault. -/
def Action.runUntilFault : List Action → Place → Attempt (List Reply)
  | [], _ => return []
  | action :: rest, place => do
      let reply ← action.argument.holding (action.run place)
      let replies ← Action.runUntilFault rest place
      return reply :: replies

/-- The visitors of a list of rules. -/
def Rule.visitors : List Rule → List Visitor
  | [] => []
  | .mk condition actions skip :: rest =>
      ⟨condition, fun place => Action.runAll actions place, skip⟩ :: Rule.visitors rest

end

/-! ### Steps -/

/-- The node of a register. -/
def Place.register (name : String) : Place := ⟨.register name, []⟩

/-- Follows a path in order to read the node at its end. -/
def readAlong (place : Place) (path : List Segment) : Attempt Place := do
  if !(← place.occupied) then
    throw (.emptyHandle .look)
  path.foldlM (fun place segment => segment.follow place) place

/-- Follows a path in order to edit the node at its end. Every node on the way is edited under a
guard. -/
def editAlong {α : Type} (edit : Place → Attempt α) : List Segment → Place → Attempt α
  | [], place => edit place
  | segment :: rest, place => do
      let pos ← segment.opener.run place
      ExceptT.mk (place.guarded pos fun child => (editAlong edit rest child).run)

/-- Whether a command lists its register even if nothing is stored there. -/
def StepCommand.lists : StepCommand → Bool
  | .clone _ => false
  | .same _ => false
  | .equal _ => false
  | .keep .. => false
  | .act _ action => !action.reads
  | _ => true

/-- Carries out a command on a register. -/
def StepCommand.run (command : StepCommand) (name : String) : Attempt Reply := do
  let slot : Slot := .register name
  let place := Place.register name
  if command.lists then
    Attempt.request (.touch slot)
  match command with
  | .new node =>
      node.holding (Attempt.request (.take .argument slot) : Attempt Unit)
      return .nothing
  | .clone target =>
      Attempt.request (.share place (.register target))
      return .nothing
  | .take target =>
      Attempt.request (.take slot (.register target))
      return .nothing
  | .release =>
      Attempt.request (.release slot)
      return .nothing
  | .info =>
      return .handle ((← Attempt.request (.outline place)).map fun outline => outline.head.kind)
  | .holders => return .count (← Attempt.request (.holders slot))
  | .own =>
      Attempt.request (.own place)
      return .flag (← place.occupied)
  | .same other => return .flag (← Attempt.request (.same slot (.register other)))
  | .equal other =>
      let here ← place.occupied
      let there ← (Place.register other).occupied
      if here || there then
        return .flag (← Attempt.request (.alike place (.register other)))
      return .flag true
  | .keep path kept target =>
      kept.store (← readAlong place path) (.register target)
      return .nothing
  | .act path action =>
      if action.reads then
        let found ← readAlong place path
        action.argument.holding (action.run found)
      else
        action.argument.holding do
          if !(← place.occupied) then
            throw (.emptyHandle .edit)
          Attempt.request (.own place)
          editAlong action.run path place

/-- What a step of a script comes to: its reply, and a summary of its register afterwards unless the
register is empty or the script is quiet. -/
structure StepReply where
  result : Except Fault Reply
  summary : Option String

/-- Carries out a step. -/
def Step.run (quiet : Bool) (step : Step) : Program StepReply := do
  let result ← (step.command.run step.register).run
  if quiet then
    return ⟨result, none⟩
  let tree ← Program.request (.view (.register step.register))
  return ⟨result, tree.map Tree.summary⟩

/-- What a script comes to: the replies of its steps and the registers at the end. -/
structure Transcript where
  replies : List StepReply
  registers : List (String × Option Tree)

namespace Script

/-- Builds nodes and puts them into registers. -/
def setUp : List (String × Argument) → Attempt Unit
  | [] => return ()
  | (name, argument) :: rest => do
      argument.holding (Attempt.request (.take .argument (.register name)) : Attempt Unit)
      setUp rest

/-- Carries out steps one after the other. -/
def runSteps (quiet : Bool) : List Step → Program (List StepReply)
  | [] => return []
  | step :: rest => do
      let reply ← step.run quiet
      let replies ← runSteps quiet rest
      return reply :: replies

/-- The registers with what they hold. -/
def inspect : List String → Program (List (String × Option Tree))
  | [] => return []
  | name :: rest => do
      let tree ← Program.request (.view (.register name))
      let others ← inspect rest
      return (name, tree) :: others

/-- Runs a script. A node that cannot be built is the fault of the whole script. -/
def run (script : Script) : Attempt Transcript := do
  setUp script.nodes
  let replies ← runSteps script.quiet script.steps
  let names ← Attempt.request .registers
  return ⟨replies, ← inspect names⟩

end Script

end KeyedTree
