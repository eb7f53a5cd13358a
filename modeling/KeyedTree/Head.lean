import KeyedTree.KeyIndex
import KeyedTree.Payload

/-! # Heads

A node is a head with a row of children. The head holds all that belongs to the node itself: the key
that names its slot in the parent, its kind, its value, two flags and the index of its children's
keys.
-/

namespace KeyedTree

/-- All of a node except its children. With `autosort` new keyed children are placed in key order;
with `overwrite` the node may be retyped and its keyed children replaced. -/
structure Head where
  key : String := ""
  kind : Kind := .uninitialized
  scalar : Scalar := .nothing
  autosort : Bool := false
  overwrite : Bool := false
  index : KeyIndex := .empty
  deriving DecidableEq

instance : Inhabited Head := ⟨{}⟩

namespace Head

/-- What the node holds, by its kind. -/
def payload (head : Head) : Payload :=
  .of head.kind head.scalar

@[simp] theorem kind_payload (head : Head) : head.payload.kind = head.kind :=
  Payload.kind_of _ _

theorem kind_of_payload {head : Head} {payload : Payload} (hpayload : head.payload = payload) :
    head.kind = payload.kind :=
  hpayload ▸ head.kind_payload.symm

theorem payload_of_object {head : Head} (hkind : head.kind = .object) : head.payload = .object := by
  rw [payload, hkind]
  rfl

theorem payload_of_array {head : Head} (hkind : head.kind = .array) : head.payload = .array := by
  rw [payload, hkind]
  rfl

/-- The head of a node that holds a payload and nothing else. -/
def holding (payload : Payload) : Head :=
  { kind := payload.kind, scalar := payload.scalar }

@[simp] theorem payload_holding (payload : Payload) : (holding payload).payload = payload :=
  Payload.of_kind_scalar payload

/-- The head of a bare node of a kind: no key and no indexed children, but the flags stay. -/
def cleared (head : Head) (kind : Kind) : Head :=
  { head with kind, key := "", scalar := .zero kind, index := .empty }

/-- Whether the node is of a kind and has a certain value. -/
def holds (head : Head) (kind : Kind) (scalar : Scalar) : Bool :=
  head.kind == kind && head.scalar == scalar

/-- A short text for any node, for diagnostics. -/
def brief (head : Head) : String :=
  match head.kind, head.scalar with
  | .string, .string value => value
  | .integer, .integer value => decimalText value
  | .bool, .bool value => if value then "true" else "false"
  | .array, _ => "Array"
  | .object, _ => "Object"
  | .null, _ => "Null"
  | .uninitialized, _ => "Not initialized"
  | _, _ => "N/A"

/-- Whether two heads have the same kind, the same key and, if the kind has values, the same
value. -/
def alike (head head' : Head) : Bool :=
  head.kind == head'.kind && head.key == head'.key &&
    (!head.kind.isScalar || head.scalar == head'.scalar)

theorem alike_of_eq {head head' : Head} (hkind : head.kind = head'.kind)
    (hkey : head.key = head'.key) (hscalar : head.scalar = head'.scalar) :
    head.alike head' = true := by
  simp [alike, hkind, hkey, hscalar]

/-- Nodes of a kind without values are alike whatever they hold. -/
theorem alike_of_isScalar_eq_false {head head' : Head} {kind : Kind} (hkind : head.kind = kind)
    (hkind' : head'.kind = kind) (hkey : head.key = head'.key) (hempty : kind.isScalar = false) :
    head.alike head' = true := by
  simp [alike, hkind, hkind', hkey, hempty]

theorem key_eq_of_alike {head head' : Head} (halike : head.alike head' = true) :
    head.key = head'.key := by
  simp only [alike, Bool.and_eq_true, beq_iff_eq] at halike
  exact halike.1.2

@[simp] theorem alike_self (head : Head) : head.alike head = true := by
  simp [alike]

end Head

/-- What a node shows of itself to an operation on it: its head and its children's keys in order. -/
structure Outline where
  head : Head
  keys : List String

instance : Inhabited Outline := ⟨⟨default, []⟩⟩

end KeyedTree
