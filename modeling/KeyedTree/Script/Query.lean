import KeyedTree.Json.Bridge
import KeyedTree.Tree.Access
import KeyedTree.Tree.Survey

/-! # Questions about nodes

The questions that a script asks about a node, and the replies that its steps give.
-/

namespace KeyedTree

/-- A condition on a node; all parts that are present must hold. -/
structure Condition where
  key : Option String := none
  kind : Option Kind := none
  string : Option String := none
  integer : Option Int64 := none
  bool : Option Bool := none
  minLength : Option Nat := none

/-- Whether a condition holds for the root of a tree. -/
def Condition.holds (condition : Condition) (tree : Tree) : Bool :=
  condition.key.all (· == tree.key) &&
    condition.kind.all (· == tree.kind) &&
    condition.string.all (fun value => tree.head.holds .string (.string value)) &&
    condition.integer.all (fun value => tree.head.holds .integer (.integer value)) &&
    condition.bool.all (fun value => tree.head.holds .bool (.bool value)) &&
    condition.minLength.all (· ≤ tree.children.length)

/-- What a step of a script replies. -/
inductive Reply
  | nothing
  | flag (value : Bool)
  | count (value : Nat)
  | integer (value : Int64)
  | text (value : String)
  | texts (values : List String)
  | pairs (values : List (String × String))
  | kind (kind : Kind)
  | flags (autosort overwrite : Bool)
  | length (count : Nat)
  | found (found : Bool) (asked : Nat)
  | listing (nodes : List (Nat × Head))
  | unwritable (mismatch : Mismatch)
  | handle (kind : Option Kind)
  | pointer (key : String) (present : Bool)
  | child (pos : Nat) (key : String) (next : Option (List (Except Fault Reply)))
  | replies (replies : List Reply)
  | walked (visited : List String) (replies : List (Except Fault Reply))
      (result : Except Fault Unit)

instance : Inhabited Reply := ⟨.nothing⟩

/-- A question about a node. -/
inductive Query
  | kind
  | key
  | readString
  | readInteger
  | readBool
  | brief
  | flags
  | length
  | keys
  | children
  | keyIndex
  | containsKey (key : String)
  | child (pos : Nat)
  | childOf (key : String)
  | lastChild
  | consistent
  | render (pretty named : Bool)
  | toJson
  | jsonText
  | search (condition : Condition)
  | listing

/-- The reply to a question about the root of a tree. -/
def Query.reply (query : Query) (tree : Tree) : Except Fault Reply :=
  match query with
  | .kind => .ok (.kind tree.kind)
  | .key => .ok (.text tree.key)
  | .readString => tree.readString.map .text
  | .readInteger => tree.readInteger.map .integer
  | .readBool => tree.readBool.map .flag
  | .brief => .ok (.text tree.head.brief)
  | .flags => .ok (.flags tree.head.autosort tree.head.overwrite)
  | .length => .ok (.length tree.children.length)
  | .keys => .ok (.texts tree.keys)
  | .children => .ok (.texts (tree.children.map fun subtree => subtree.head.brief))
  | .keyIndex => .ok (.pairs (tree.indexed.map fun entry => (entry.1, entry.2.summary)))
  | .containsKey name => .ok (.flag (tree.index.contains name))
  | .child pos => (tree.child pos).map fun found => .text found.summary
  | .childOf name => (tree.childOf name).map fun found => .text found.summary
  | .lastChild => tree.lastChild.map fun found => .text found.summary
  | .consistent => .ok (.flag tree.consistent)
  | .render pretty named => .ok (.text (tree.render pretty named))
  | .toJson =>
      match tree.toJson with
      | .ok json => .ok (.text json.text)
      | .error mismatch => .error (.unrepresentable mismatch)
  | .jsonText =>
      match tree.jsonText with
      | .ok text => .ok (.text text)
      | .error mismatch => .ok (.unwritable mismatch)
  | .search condition =>
      let asks (node : Tree) : StateM Nat Bool := fun asked => (condition.holds node, asked + 1)
      let (found, asked) := (tree.search asks).run 0
      .ok (.found found asked)
  | .listing => .ok (.listing tree.listing)

end KeyedTree
