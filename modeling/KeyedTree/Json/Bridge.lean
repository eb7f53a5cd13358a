import KeyedTree.Json.Writer
import KeyedTree.Tree.Edit

/-! # Between trees and JSON values

A tree becomes a JSON value unless it has an uninitialized node. A JSON value becomes a tree unless
it has a number that is no 64-bit integer or an empty key. A tree can also be written as JSON text
directly; then children that share a key are all written, whereas an object keeps only the last.
-/

namespace KeyedTree

namespace Tree

mutual

/-- The JSON value of a tree, or the key of the first uninitialized node. -/
def toJson : Tree → Except Mismatch Json
  | .node head children =>
      match head.payload with
      | .uninitialized => .error (.uninitialized head.key)
      | .null => .ok .null
      | .bool value => .ok (.bool value)
      | .integer value => .ok (.number (.integer value.toInt))
      | .string value => .ok (.string value)
      | .array => (rowToItems children).map .array
      | .object => (rowToMembers [] children).map .object

/-- The JSON values of the trees of a row. -/
def rowToItems : List Tree → Except Mismatch (List Json)
  | [] => .ok []
  | child :: rest =>
      match child.toJson with
      | .error mismatch => .error mismatch
      | .ok item => (rowToItems rest).map (item :: ·)

/-- The members of an object with the trees of a row added one after the other. -/
def rowToMembers (members : List (String × Json)) :
    List Tree → Except Mismatch (List (String × Json))
  | [] => .ok members
  | child :: rest =>
      match child.toJson with
      | .error mismatch => .error mismatch
      | .ok value => rowToMembers (Json.setMember child.key value members) rest

end

/-- The characters of a value in a container as JSON text, behind its key if `named`. -/
def jsonEntry (named : Bool) (key : String) (value : List Char) : List Char :=
  if named then Json.quote key ++ ':' :: value else value

mutual

/-- The characters of a tree as JSON text, or the key of the first uninitialized node. -/
def jsonChars : Tree → Except Mismatch (List Char)
  | .node head children =>
      match head.payload with
      | .uninitialized => .error (.uninitialized head.key)
      | .null => .ok "null".toList
      | .bool value => .ok (if value then "true" else "false").toList
      | .integer value => .ok (Numeral.ofInt value.toInt)
      | .string value => .ok (Json.quote value)
      | .array => (rowJsonChars false children).map fun row => '[' :: row ++ [']']
      | .object => (rowJsonChars true children).map fun row => '{' :: row ++ ['}']

/-- The characters of the trees of a row as JSON text, with their keys if `named`. -/
def rowJsonChars (named : Bool) : List Tree → Except Mismatch (List Char)
  | [] => .ok []
  | [child] => child.jsonChars.map (jsonEntry named child.key)
  | child :: next :: more =>
      match child.jsonChars with
      | .error mismatch => .error mismatch
      | .ok value =>
          (rowJsonChars named (next :: more)).map fun row =>
            jsonEntry named child.key value ++ ',' :: row

end

/-- A tree as JSON text, or the key of the first uninitialized node. -/
def jsonText (tree : Tree) : Except Mismatch String :=
  tree.jsonChars.map String.ofList

end Tree

/-- A number as the payload of a node. -/
def Number.payload (number : Number) : Except Mismatch Payload :=
  match number with
  | .integer value =>
      if Numeral.fitsInt64 value then .ok (.integer (Int64.ofInt value))
      else .error (.number (String.ofList number.text))
  | .fraction _ => .error (.number (String.ofList number.text))

namespace Json

mutual

/-- The tree of a JSON value. -/
def toTree : Json → Except Fault Tree
  | .null => .ok (.leaf .null)
  | .bool value => .ok (.leaf (.bool value))
  | .number value =>
      match value.payload with
      | .ok payload => .ok (.leaf payload)
      | .error mismatch => .error (.unrepresentable mismatch)
  | .string value => .ok (.leaf (.string value))
  | .array items => itemsToTree (.leaf .array) items
  | .object members => membersToTree (.leaf .object) members

/-- An array with the trees of JSON values appended. -/
def itemsToTree (tree : Tree) : List Json → Except Fault Tree
  | [] => .ok tree
  | item :: rest =>
      match item.toTree with
      | .error fault => .error fault
      | .ok child =>
          match tree.append child with
          | (.error fault, _) => .error fault
          | (.ok _, tree) => itemsToTree tree rest

/-- An object with the trees of JSON values attached under their keys. -/
def membersToTree (tree : Tree) : List (String × Json) → Except Fault Tree
  | [] => .ok tree
  | (key, value) :: rest =>
      if key = "" then .error (.unrepresentable .emptyKey)
      else
        match value.toTree with
        | .error fault => .error fault
        | .ok child =>
            match tree.attachKeyed key child with
            | (.error fault, _) => .error fault
            | (.ok _, tree) => membersToTree tree rest

end

end Json

end KeyedTree
