import KeyedTree.Layout
import KeyedTree.Reader.Cursor
import KeyedTree.Reader.Defect

/-! # Faults

An operation that cannot be carried out ends with a fault. A fault names its cause; where the cause
lies in the shape of a node, it also keeps a snapshot of that node as it stood. The wording of all
faults is here.
-/

namespace KeyedTree

/-- The operations that faults name. -/
inductive Operation
  | readString | editString | readInteger | readBool
  | setString | setInteger | setBool
  | child | editChild | childOf | editChildOf | lastChild | editLastChild
  | shareChild | shareChildOf
  | attach | attachKeyed | append | entry
  | remove | rename | rekey | relocate
  | modify
  | look | edit
  | assign
  deriving DecidableEq, Repr

/-- The name of an operation in diagnostics. -/
def Operation.name : Operation → String
  | .readString => "DataObject::as_string"
  | .editString => "DataObject::as_string_mut"
  | .readInteger => "DataObject::as_int"
  | .readBool => "DataObject::as_bool"
  | .setString => "DataObject::set_string"
  | .setInteger => "DataObject::set_int"
  | .setBool => "DataObject::set_bool"
  | .child => "DataObject::at"
  | .editChild => "DataObject::at_mut"
  | .childOf => "DataObject::at_key"
  | .editChildOf => "DataObject::at_key_mut"
  | .lastChild => "DataObject::last_child"
  | .editLastChild => "DataObject::last_child_mut"
  | .shareChild => "DataObject::at_handle"
  | .shareChildOf => "DataObject::at_key_handle"
  | .attach => "DataObject::add_child"
  | .attachKeyed => "DataObject::add_child_keyed"
  | .append => "DataObject::add_array_element"
  | .entry => "DataObject::entry"
  | .remove => "DataObject::remove_key"
  | .rename => "DataObject::rename_key"
  | .rekey => "DataObject::set_child_key"
  | .relocate => "DataObject::set_key_pos"
  | .modify => "DataObject::perform_modifier"
  | .look => "Handle::content"
  | .edit => "Handle::content_mut"
  | .assign => "KeyPointer::assign"

/-- What an operation needed a node to be. -/
inductive Expectation
  | one (kind : Kind)
  | container
  deriving DecidableEq, Repr

/-- The words for an expectation. -/
def Expectation.name : Expectation → String
  | .one kind => kind.name
  | .container => "object or array"

/-- How an operation would overwrite what a node already holds. -/
inductive Conflict
  | retyped (target held : Kind)
  | present (key : String)
  | renamed (old new : String)
  | repeated (keys : List String)
  deriving DecidableEq, Repr

/-- The wording of a conflict. -/
def Conflict.message : Conflict → String
  | .retyped target held =>
      "cannot assign " ++ target.name ++ " to a node holding " ++ held.name
  | .present key => s!"key '{key}' is already present"
  | .renamed old new => s!"cannot rename '{old}' to '{new}': key is already present"
  | .repeated keys => "modifier left duplicate child keys: " ++ ", ".intercalate keys

/-- Why a node does not allow an operation. -/
inductive Objection
  | mismatch (expected : Expectation)
  | outOfRange (index length : Nat)
  | missing (key : String)
  | conflict (conflict : Conflict)
  deriving DecidableEq, Repr

/-- An operation that a node does not allow. -/
structure Refusal where
  operation : Operation
  objection : Objection
  deriving DecidableEq, Repr

/-- The first line of a refusal's wording. -/
def Refusal.message (refusal : Refusal) : String :=
  let op := refusal.operation.name
  match refusal.objection with
  | .mismatch expected => s!"type mismatch in {op}: expected " ++ expected.name
  | .outOfRange index length => s!"index {index} out of range (len {length}) in {op}"
  | .missing key => s!"key '{key}' not found in {op}"
  | .conflict conflict => s!"overwrite violation in {op}: " ++ conflict.message

/-- A picture of a node: its key, its kind and its text with the key. -/
structure Snapshot where
  key : String
  kind : Kind
  text : String
  deriving DecidableEq, Repr

/-- The picture of a tree's root. -/
def Snapshot.of (tree : Tree) : Snapshot :=
  ⟨tree.key, tree.kind, tree.render true true⟩

/-- The wording of a snapshot. -/
def Snapshot.message (snapshot : Snapshot) : String :=
  "key: '" ++ snapshot.key ++ "' type: '" ++ snapshot.kind.name ++ "'\n" ++ snapshot.text

/-- Why an input cannot be read as text. -/
inductive InputFault
  | notText
  | directory
  deriving DecidableEq, Repr

/-- The wording of an input fault. -/
def InputFault.message : InputFault → String
  | .notText => "stream did not contain valid UTF-8"
  | .directory => "Is a directory (os error 21)"

/-- Why a tree or a foreign value has no counterpart on the other side. -/
inductive Mismatch
  | uninitialized (key : String)
  | number (text : String)
  | emptyKey
  deriving DecidableEq, Repr

/-- The wording of a mismatch. -/
def Mismatch.message : Mismatch → String
  | .uninitialized key => s!"cannot serialize uninitialized node '{key}'"
  | .number text => s!"number {text} is not an i64 integer"
  | .emptyKey => "empty object key"

/-- Why an operation was not carried out. -/
inductive Fault
  /-- the node does not allow it -/
  | refused (refusal : Refusal) (node : Snapshot)
  /-- a handle without a node was used -/
  | emptyHandle (operation : Operation)
  /-- a text is not a document -/
  | malformed (place : Cursor) (defect : Defect)
  /-- an input could not be read -/
  | input (fault : InputFault)
  /-- a value has no counterpart -/
  | unrepresentable (mismatch : Mismatch)
  deriving DecidableEq

namespace Fault

/-- The fault of a refusal by the root of a tree. -/
def ofRefusal (refusal : Refusal) (tree : Tree) : Fault :=
  .refused refusal (.of tree)

/-- The wording of a fault. -/
def message : Fault → String
  | .refused refusal node => refusal.message ++ "\n" ++ node.message
  | .emptyHandle operation => "empty handle used in " ++ operation.name
  | .malformed ⟨line, column⟩ defect =>
      s!"malformed document at line {line}, column {column}: " ++ defect.message
  | .input fault => "I/O error: " ++ fault.message
  | .unrepresentable mismatch => "unrepresentable value: " ++ mismatch.message

end Fault

end KeyedTree
