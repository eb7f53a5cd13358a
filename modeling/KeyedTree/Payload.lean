import KeyedTree.Kind
import KeyedTree.Numeral

/-! # Values and payloads

A node has a kind and, in a slot of its own, a value. The two are written one by one. Whoever goes
by the kind of a node finds its payload: the kind together with the value, if it is one of that
kind. A container carries nothing here: its children are kept by the tree.
-/

namespace KeyedTree

/-- The value of a node, apart from its kind. -/
inductive Scalar
  | nothing
  | bool (value : Bool)
  | integer (value : Int64)
  | string (value : String)
  deriving DecidableEq

namespace Scalar

instance : Inhabited Scalar := ⟨.nothing⟩

/-- The value of a fresh node of a kind: scalar kinds start at their zero value. -/
def zero : Kind → Scalar
  | .bool => .bool false
  | .integer => .integer 0
  | .string => .string ""
  | _ => .nothing

/-- A value suits the kind that it is of; all kinds that have none are suited by the empty one. -/
def Suits (scalar : Scalar) : Kind → Prop
  | .bool => ∃ value, scalar = .bool value
  | .integer => ∃ value, scalar = .integer value
  | .string => ∃ value, scalar = .string value
  | _ => scalar = .nothing

/-- Zero values suit their kinds. -/
theorem zero_suits (kind : Kind) : (zero kind).Suits kind := by
  cases kind with
  | bool => exact ⟨_, rfl⟩
  | integer => exact ⟨_, rfl⟩
  | string => exact ⟨_, rfl⟩
  | _ => rfl

/-- A value suits no kind but its own. -/
theorem suits_string {value : String} {kind : Kind} :
    (string value).Suits kind ↔ kind = .string := by
  cases kind <;> simp [Suits]

theorem suits_integer {value : Int64} {kind : Kind} :
    (integer value).Suits kind ↔ kind = .integer := by
  cases kind <;> simp [Suits]

theorem suits_bool {value : Bool} {kind : Kind} : (bool value).Suits kind ↔ kind = .bool := by
  cases kind <;> simp [Suits]

/-- A value that suits a kind with values suits no other kind. -/
theorem Suits.kind_eq {scalar : Scalar} {kind kind' : Kind} (hsuits : scalar.Suits kind)
    (hkind : kind.isScalar) (hsuits' : scalar.Suits kind') : kind' = kind := by
  cases kind with
  | bool =>
      obtain ⟨value, rfl⟩ := hsuits
      exact suits_bool.mp hsuits'
  | integer =>
      obtain ⟨value, rfl⟩ := hsuits
      exact suits_integer.mp hsuits'
  | string =>
      obtain ⟨value, rfl⟩ := hsuits
      exact suits_string.mp hsuits'
  | _ => cases hkind

/-- The empty value is all that suits a kind without values. -/
theorem Suits.eq_nothing {scalar : Scalar} {kind : Kind} (hsuits : scalar.Suits kind)
    (hkind : kind.isScalar = false) : scalar = .nothing := by
  cases kind with
  | bool => cases hkind
  | integer => cases hkind
  | string => cases hkind
  | _ => exact hsuits

end Scalar

/-- The kind of a node and, for scalar kinds, its value. -/
inductive Payload
  | uninitialized
  | null
  | bool (value : Bool)
  | integer (value : Int64)
  | string (value : String)
  | array
  | object
  deriving DecidableEq

namespace Payload

instance : Inhabited Payload := ⟨.uninitialized⟩

/-- The kind of a payload. -/
def kind : Payload → Kind
  | .uninitialized => .uninitialized
  | .null => .null
  | .bool _ => .bool
  | .integer _ => .integer
  | .string _ => .string
  | .array => .array
  | .object => .object

/-- The value that goes with a payload. -/
def scalar : Payload → Scalar
  | .bool value => .bool value
  | .integer value => .integer value
  | .string value => .string value
  | _ => .nothing

/-- The payload of a fresh node of a kind: scalars start at their zero value. -/
def zero : Kind → Payload
  | .uninitialized => .uninitialized
  | .null => .null
  | .bool => .bool false
  | .integer => .integer 0
  | .string => .string ""
  | .array => .array
  | .object => .object

/-- What a kind and a value come to when they are written. A value of another kind does not count:
in its place stands the zero value. -/
def of : Kind → Scalar → Payload
  | .bool, .bool value => .bool value
  | .integer, .integer value => .integer value
  | .string, .string value => .string value
  | kind, _ => zero kind

@[simp] theorem kind_of (kind : Kind) (scalar : Scalar) : (of kind scalar).kind = kind := by
  cases kind <;> cases scalar <;> rfl

@[simp] theorem of_kind_scalar (payload : Payload) : of payload.kind payload.scalar = payload := by
  cases payload <;> rfl

/-- A value that suits the kind is the value of the payload. -/
theorem scalar_of {kind : Kind} {scalar : Scalar} (hsuits : scalar.Suits kind) :
    (of kind scalar).scalar = scalar := by
  cases kind with
  | bool =>
      obtain ⟨value, rfl⟩ := hsuits
      rfl
  | integer =>
      obtain ⟨value, rfl⟩ := hsuits
      rfl
  | string =>
      obtain ⟨value, rfl⟩ := hsuits
      rfl
  | _ => exact hsuits.symm

/-- The value of a payload suits its kind. -/
theorem suits (payload : Payload) : payload.scalar.Suits payload.kind := by
  cases payload with
  | bool value => exact ⟨value, rfl⟩
  | integer value => exact ⟨value, rfl⟩
  | string value => exact ⟨value, rfl⟩
  | _ => rfl

end Payload

end KeyedTree
