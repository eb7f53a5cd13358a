import KeyedTree.Reader.Basic

/-! # Blueprints

A blueprint describes a tree that is to be built: either by the text of a document or node by node.
The nodes of a blueprint are put together by the ordinary operations, so a blueprint can fail.
-/

namespace KeyedTree

/-- The description of a tree. -/
inductive Blueprint
  | document (text : String)
  | node (payload : Payload) (key : Option String) (autosort overwrite : Bool)
      (children : List Blueprint)

namespace Blueprint

instance : Inhabited Blueprint := ⟨.document ""⟩

mutual

/-- The tree that a blueprint describes. The root gets its key when all children are in place. -/
def build : Blueprint → Except Fault Tree
  | .document text => decode {} text
  | .node payload key autosort overwrite children =>
      let root := .node { Head.holding payload with autosort, overwrite } []
      let built := buildRow (payload == .array) root children
      match key with
      | some key => built.map fun tree => tree.withKey key
      | none => built

/-- A tree with the children that a row of blueprints describes: the elements of an array or else
children under their own keys. -/
def buildRow (elements : Bool) (tree : Tree) : List Blueprint → Except Fault Tree
  | [] => .ok tree
  | blueprint :: rest =>
      match blueprint.build with
      | .error fault => .error fault
      | .ok child =>
          match if elements then tree.append child else tree.attach child with
          | (.ok _, tree) => buildRow elements tree rest
          | (.error fault, _) => .error fault

end

end Blueprint

end KeyedTree
