/-! # Kinds of nodes

Every node of a tree is of one kind. A node that was reserved but never assigned is
`uninitialized`, which is a state of its own and not the same as `null`.
-/

namespace KeyedTree

/-- What a node holds. -/
inductive Kind
  | uninitialized
  | null
  | bool
  | integer
  | string
  | array
  | object
  deriving DecidableEq, Repr, Inhabited

namespace Kind

/-- The short name of a kind, used in diagnostics. -/
def name : Kind → String
  | .uninitialized => "notinit"
  | .null => "null"
  | .bool => "bool"
  | .integer => "int"
  | .string => "string"
  | .array => "array"
  | .object => "object"

/-- All kinds. -/
def all : List Kind :=
  [.uninitialized, .null, .bool, .integer, .string, .array, .object]

/-- The kind with a given short name. -/
def ofName? (name : String) : Option Kind :=
  all.find? (·.name == name)

/-- Kinds whose nodes carry a value of their own. -/
def isScalar : Kind → Bool
  | .bool | .integer | .string => true
  | _ => false

/-- Kinds whose nodes have children. -/
def isContainer : Kind → Bool
  | .array | .object => true
  | _ => false

theorem isContainer_eq_false {kind : Kind} (harray : kind ≠ .array) (hobject : kind ≠ .object) :
    kind.isContainer = false := by
  cases kind with
  | array => exact absurd rfl harray
  | object => exact absurd rfl hobject
  | _ => rfl

end Kind

end KeyedTree
