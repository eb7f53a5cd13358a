import KeyedTree.Json.Bridge
import KeyedTree.Proofs.WellFormed.Outline
import KeyedTree.Script.Run

/-! # Kind, value and children

A node keeps its kind, its value and its children each in a field of its own, and operations write
them one by one. The fields agree when the value is one of the kind, and when only containers have
children. A single field is written just where the others go with it, so that they agree again; and
whoever looks at a node by its kind then finds the value that belongs to it.
-/

namespace KeyedTree

variable {ι α β : Type}

theorem Head.isContainer_of {head : Head} (hkind : head.kind = .array ∨ head.kind = .object) :
    head.kind.isContainer := by
  rcases hkind with harray | hobject
  · rw [harray]
    rfl
  · rw [hobject]
    rfl

/-- The kind of a node, its value and the number of its children, each for itself. -/
structure Fields where
  kind : Kind
  scalar : Scalar
  children : Nat
  deriving DecidableEq

/-- What stands in the fields of a node. -/
def Outline.fields (node : Outline) : Fields :=
  ⟨node.head.kind, node.head.scalar, node.keys.length⟩

namespace Fields

/-- The fields of a node agree. -/
structure Agree (fields : Fields) : Prop where
  suits : fields.scalar.Suits fields.kind
  childless : fields.kind.isContainer = false → fields.children = 0

/-- A node is of a scalar kind if and only if it has a value of that kind. -/
theorem Agree.kind_eq_iff {fields : Fields} (hagree : fields.Agree) (kind : Kind)
    (hkind : kind.isScalar) : fields.kind = kind ↔ fields.scalar.Suits kind := by
  constructor
  · rintro rfl
    exact hagree.suits
  · intro hsuits
    exact hsuits.kind_eq hkind hagree.suits

/-- The ways in which the fields of a node are written. -/
inductive Step : Fields → Fields → Prop
  /-- only the children of a container come and go -/
  | arrange {fields : Fields} (count : Nat)
      (hroom : fields.kind.isContainer ∨ count = fields.children) :
      Step fields { fields with children := count }
  /-- the value gives way to another one of its kind, and nothing else changes -/
  | fill {fields : Fields} (value : Scalar) (hsuits : value.Suits fields.kind) :
      Step fields { fields with scalar := value }
  /-- the children are dropped, and kind and value are both written -/
  | retype {fields : Fields} (kind : Kind) (value : Scalar) (hsuits : value.Suits kind) :
      Step fields { fields with children := 0, kind, scalar := value }
  /-- a node that holds nothing becomes a container: its kind is written and its value is left -/
  | promote {fields : Fields} (kind : Kind) (count : Nat) (hblank : fields.kind = .uninitialized)
      (hkind : kind.isContainer) : Step fields { fields with kind, children := count }

/-- However the fields of a node are written, they agree if they did before. -/
theorem Step.agree {before after : Fields} (hstep : before.Step after) (hagree : before.Agree) :
    after.Agree := by
  cases hstep with
  | arrange count hroom =>
      refine ⟨hagree.suits, fun hleaf => ?_⟩
      rcases hroom with hcontainer | rfl
      · exact absurd hcontainer (Bool.eq_false_iff.mp hleaf)
      · exact hagree.childless hleaf
  | fill value hsuits => exact ⟨hsuits, hagree.childless⟩
  | retype kind value hsuits => exact ⟨hsuits, fun _ => rfl⟩
  | promote kind count hblank hkind =>
      refine ⟨?_, fun hleaf => absurd hkind (Bool.eq_false_iff.mp hleaf)⟩
      -- the value is the empty one already, which suits any container
      have hempty := hagree.suits
      rw [hblank] at hempty
      cases kind with
      | array => exact hempty
      | object => exact hempty
      | _ => cases hkind

end Fields

/-! ## Decisions -/

namespace Outline

variable {node : Outline} {change : Change ι}

/-- A change writes the fields of a node in one of the known ways, or it makes another node of it,
whose fields agree. -/
def Writes (node : Outline) (change : Change ι) : Prop :=
  ∀ keyOf : ι → String, node.fields.Step (node.after keyOf change).fields ∨
    (∃ children, change.row = .refill children) ∧ (node.after keyOf change).fields.Agree

theorem WellFormed.agree (hnode : node.WellFormed) : node.fields.Agree where
  suits := hnode.suits
  childless hleaf := by
    change node.keys.length = 0
    rw [hnode.childless hleaf]
    rfl

/-- A change of the key, the flags, the index or the children. -/
theorem writes_of_same (hkind : change.head.kind = node.head.kind)
    (hscalar : change.head.scalar = node.head.scalar)
    (hrow : node.head.kind.isContainer ∨
      ∀ keyOf : ι → String, (change.row.keys keyOf node.keys).length = node.keys.length) :
    node.Writes change := by
  intro keyOf
  have hfields : (node.after keyOf change).fields =
      { node.fields with children := (change.row.keys keyOf node.keys).length } := by
    simp only [fields, after, hkind, hscalar]
  rw [hfields]
  exact .inl (.arrange _ (hrow.imp id fun hlength => hlength keyOf))

/-- A change of nothing but the value, to another one of the kind. -/
theorem writes_of_suits {head : Head} (hkind : head.kind = node.head.kind)
    (hsuits : head.scalar.Suits node.head.kind) :
    node.Writes (⟨head, .keep⟩ : Change ι) := by
  intro keyOf
  have hfields : (node.after keyOf ⟨head, .keep⟩).fields =
      { node.fields with scalar := head.scalar } := by
    simp only [fields, after, hkind, RowChange.keys]
  rw [hfields]
  exact .inl (.fill _ hsuits)

/-- A change that drops all children and writes a kind with a value of it. -/
theorem writes_refill_nil {head : Head} (hsuits : head.scalar.Suits head.kind) (node : Outline) :
    node.Writes (⟨head, .refill []⟩ : Change ι) := by
  intro keyOf
  exact .inl (.retype head.kind head.scalar hsuits)

/-- A change that makes a container of an uninitialized node and leaves the value as it is. -/
theorem writes_of_blank (hblank : node.head.kind = .uninitialized)
    (hcontainer : change.head.kind.isContainer) (hscalar : change.head.scalar = node.head.scalar) :
    node.Writes change := by
  intro keyOf
  have hfields : (node.after keyOf change).fields =
      { node.fields with
        kind := change.head.kind, children := (change.row.keys keyOf node.keys).length } := by
    simp only [fields, after, hscalar]
  rw [hfields]
  exact .inl (.promote _ _ hblank hcontainer)

/-- New keys for the children change neither the kind nor the value, nor the number of the
children. -/
theorem writes_relabel {head : Head} (hkind : head.kind = node.head.kind)
    (hscalar : head.scalar = node.head.scalar) {row : RowChange ι}
    (hlength : ∀ keyOf : ι → String, (row.keys keyOf node.keys).length = node.keys.length) :
    node.Writes (⟨head, row⟩ : Change ι) :=
  writes_of_same hkind hscalar (.inr hlength)

theorem writes_label {head : Head} (hkind : head.kind = node.head.kind)
    (hscalar : head.scalar = node.head.scalar) (pos : Nat) (key : String) :
    node.Writes (⟨head, .label pos key⟩ : Change ι) :=
  writes_relabel hkind hscalar fun _ => List.length_set

theorem writes_keep {head : Head} (hkind : head.kind = node.head.kind)
    (hscalar : head.scalar = node.head.scalar) : node.Writes (⟨head, .keep⟩ : Change ι) :=
  writes_relabel hkind hscalar fun _ => rfl

theorem writes_attach (operation : Operation) (renamed : Option String) (child : ι) (guest : Head)
    (node : Outline) : (node.attach operation renamed child guest).Makes node.Writes := by
  unfold attach
  simp only
  split
  next harray =>
    exact (Verdict.makes_changed _).mpr
      (writes_of_same rfl rfl (.inl (Head.isContainer_of (.inl harray))))
  next hblank =>
    split
    next =>
      split
      next => exact (Verdict.makes_changed _).mpr (writes_of_blank hblank rfl rfl)
      next => exact Verdict.makes_refuse _ _
    next => exact (Verdict.makes_changed _).mpr (writes_of_blank hblank rfl rfl)
  next hobject =>
    have hcontainer := Head.isContainer_of (.inr hobject)
    split
    next =>
      split
      next =>
        exact (Verdict.makes_changed _).mpr (writes_of_same hobject.symm rfl (.inl hcontainer))
      next => exact Verdict.makes_refuse _ _
    next => exact (Verdict.makes_changed _).mpr (writes_of_same hobject.symm rfl (.inl hcontainer))
  next => exact Verdict.makes_refuse _ _

theorem writes_attachOver (key : String) (child : ι) (guest : Head) (node : Outline) :
    (node.attachOver key child guest).Makes node.Writes := by
  intro change hchange
  obtain ⟨attached, hattached, rfl⟩ := Option.map_eq_some_iff.mp hchange
  exact writes_attach _ _ child guest { node with head := { node.head with overwrite := true } }
    attached hattached

theorem writes_append (child : ι) (guest : Head) (node : Outline) :
    (node.append child guest).Makes node.Writes := by
  unfold append
  split
  next hblank => exact (Verdict.makes_changed _).mpr (writes_of_blank hblank rfl rfl)
  next harray =>
    have hcontainer := Head.isContainer_of (.inl harray)
    exact (Verdict.makes_changed _).mpr (writes_of_same harray.symm rfl (.inl hcontainer))
  next => exact Verdict.makes_refuse _ _

theorem writes_entry (key : String) (blank : ι) (node : Outline) :
    (node.entry key blank).Makes node.Writes := by
  unfold entry
  repeat' split
  all_goals first
    | exact Verdict.makes_answered _
    | exact Verdict.makes_refuse _ _
    | exact writes_attach _ _ blank _ node

theorem writes_assign (operation : Operation) (value : Payload) (node : Outline) :
    (node.assign operation value : Verdict ι Unit).Makes node.Writes := by
  unfold assign
  simp only
  split
  next hkind => exact (Verdict.makes_changed _).mpr (writes_of_suits rfl (hkind ▸ value.suits))
  next =>
    split
    next => exact (Verdict.makes_changed _).mpr (writes_refill_nil value.suits node)
    next => exact Verdict.makes_refuse _ _

theorem writes_remove (key : String) (node : Outline) :
    (node.remove key : Verdict ι Unit).Makes node.Writes := by
  unfold remove
  split
  next hobject =>
    have hcontainer := Head.isContainer_of (.inr hobject)
    split
    next => exact (Verdict.makes_changed _).mpr (writes_of_same rfl rfl (.inl hcontainer))
    next => exact Verdict.makes_answered _
  next => exact Verdict.makes_refuse _ _

theorem writes_rename (old new : String) (node : Outline) :
    (node.rename old new : Verdict ι Unit).Makes node.Writes := by
  unfold rename
  simp only
  repeat' split
  all_goals first
    | exact Verdict.makes_answered _
    | exact Verdict.makes_refuse _ _
    | exact (Verdict.makes_changed _).mpr (writes_label rfl rfl _ _)
    | exact (Verdict.makes_changed _).mpr (writes_keep rfl rfl)

theorem writes_rekey (pos : Nat) (key : String) (node : Outline) :
    (node.rekey pos key : Verdict ι Unit).Makes node.Writes := by
  unfold rekey
  repeat' split
  all_goals first
    | exact Verdict.makes_answered _
    | exact Verdict.makes_refuse _ _
    | exact (Verdict.makes_changed _).mpr (writes_label rfl rfl _ _)

theorem writes_relocate (key : String) (pos : Nat) (node : Outline) :
    (node.relocate key pos : Verdict ι Unit).Makes node.Writes := by
  unfold relocate
  repeat' split
  all_goals first
    | exact Verdict.makes_answered _
    | exact Verdict.makes_refuse _ _
    | exact (Verdict.makes_changed _).mpr
        (writes_of_same rfl rfl (.inr fun _ => length_moveWithin _ _ _))

theorem writes_edit (edit : Edit) (node : Outline) :
    (edit.decide node : Verdict ι Unit).Makes node.Writes := by
  cases edit with
  | setString value => exact writes_assign _ _ node
  | setInteger value => exact writes_assign _ _ node
  | setBool value => exact writes_assign _ _ node
  | appendText text =>
      simp only [Edit.decide, appendText]
      split
      next value hkind hvalue =>
        exact (Verdict.makes_changed _).mpr (writes_of_suits rfl (Scalar.suits_string.mpr hkind))
      next => exact Verdict.makes_refuse _ _
  | addInteger amount =>
      simp only [Edit.decide, addInteger]
      split
      next value hkind hvalue =>
        exact (Verdict.makes_changed _).mpr (writes_of_suits rfl (Scalar.suits_integer.mpr hkind))
      next => exact Verdict.makes_refuse _ _
  | setKey key => exact (Verdict.makes_changed _).mpr (writes_keep rfl rfl)
  | appendKey text => exact (Verdict.makes_changed _).mpr (writes_keep rfl rfl)
  | setAutosort autosort => exact (Verdict.makes_changed _).mpr (writes_keep rfl rfl)
  | setOverwrite overwrite => exact (Verdict.makes_changed _).mpr (writes_keep rfl rfl)
  | clear kind =>
      exact (Verdict.makes_changed _).mpr (writes_refill_nil (Scalar.zero_suits kind) node)
  | remove key => exact writes_remove key node
  | rename old new => exact writes_rename old new node
  | rekey pos key => exact writes_rekey pos key node
  | relocate key pos => exact writes_relocate key pos node

theorem writes_settle (pos : Nat) (old : String) (node : Outline) :
    (node.settle pos old : Verdict ι Unit).Makes node.Writes := by
  unfold settle
  simp only
  repeat' split
  all_goals first
    | exact Verdict.makes_answered _
    | exact (Verdict.makes_changed _).mpr (writes_label rfl rfl _ _)
    | exact (Verdict.makes_changed _).mpr (writes_keep rfl rfl)

theorem writes_resettle {old : List String} (hlength : old.length = node.keys.length) :
    (node.resettle old : Verdict ι (List String)).Makes node.Writes := by
  unfold resettle
  repeat' split
  all_goals first
    | exact (Verdict.makes_changed _).mpr
        (writes_relabel rfl rfl fun _ => by rw [keys_relabel hlength, hlength])
    | exact (Verdict.makes_changed _).mpr (writes_keep rfl rfl)

/-- A node that takes over the head of another, and as many children, has its fields. -/
theorem writes_refill {other : Outline} (hother : other.fields.Agree) {children : List ι}
    (hlength : children.length = other.keys.length) (node : Outline) :
    node.Writes ⟨other.head, .refill children⟩ := by
  intro keyOf
  refine .inr ⟨⟨children, rfl⟩, ?_⟩
  have hfields : (node.after keyOf ⟨other.head, .refill children⟩).fields = other.fields := by
    simp only [fields, after, RowChange.keys, List.length_map, hlength]
  rw [hfields]
  exact hother

end Outline

/-! ## Reading -/

/-- What is made of a node: of the value, where the kind has one, and else of the kind alone. -/
structure Reading (β : Type) where
  uninitialized : β
  null : β
  bool : Bool → β
  integer : Int64 → β
  string : String → β
  array : β
  object : β

namespace Reading

/-- Reads a kind and a value. There is a way out for each kind whose value is not of that kind. -/
def read (reading : Reading β) (wayOut : Kind → β) (fields : Fields) : β :=
  match fields.kind, fields.scalar with
  | .uninitialized, _ => reading.uninitialized
  | .null, _ => reading.null
  | .bool, .bool value => reading.bool value
  | .integer, .integer value => reading.integer value
  | .string, .string value => reading.string value
  | .array, _ => reading.array
  | .object, _ => reading.object
  | kind, _ => wayOut kind

/-- What is made of a node of a kind with its zero value. -/
def zero (reading : Reading β) : Kind → β
  | .uninitialized => reading.uninitialized
  | .null => reading.null
  | .bool => reading.bool false
  | .integer => reading.integer 0
  | .string => reading.string ""
  | .array => reading.array
  | .object => reading.object

/-- Where the fields agree, no way out is ever taken. -/
theorem read_eq_of_agree {fields : Fields} (hagree : fields.Agree) (reading : Reading β)
    (wayOut wayOut' : Kind → β) : reading.read wayOut fields = reading.read wayOut' fields := by
  obtain ⟨kind, scalar, children⟩ := fields
  have hsuits := hagree.suits
  cases kind with
  | bool =>
      obtain ⟨value, rfl⟩ := hsuits
      rfl
  | integer =>
      obtain ⟨value, rfl⟩ := hsuits
      rfl
  | string =>
      obtain ⟨value, rfl⟩ := hsuits
      rfl
  | _ => rfl

/-- What is made of a payload. -/
def ofPayload (reading : Reading β) : Payload → β
  | .uninitialized => reading.uninitialized
  | .null => reading.null
  | .bool value => reading.bool value
  | .integer value => reading.integer value
  | .string value => reading.string value
  | .array => reading.array
  | .object => reading.object

/-- To go by the payload of a node is to read its kind and its value with zero values as the way
out. -/
theorem read_zero (reading : Reading β) (node : Outline) :
    reading.read reading.zero node.fields = reading.ofPayload node.head.payload := by
  obtain ⟨⟨key, kind, scalar, autosort, overwrite, index⟩, keys⟩ := node
  cases kind <;> cases scalar <;> rfl

/-- The short text of a node. -/
def brief : Reading String where
  uninitialized := "Not initialized"
  null := "Null"
  bool value := if value then "true" else "false"
  integer value := decimalText value
  string value := value
  array := "Array"
  object := "Object"

/-- The text of a node in the fixture layout, in front of `rest`. -/
def layout (pretty : Bool) (depth : Nat) (children : List Tree) (rest : List Char) :
    Reading (List Char) where
  uninitialized := "notinit".toList ++ rest
  null := "null".toList ++ rest
  bool value := (if value then "true" else "false").toList ++ rest
  integer value := Numeral.ofInt value.toInt ++ rest
  string value := Layout.quote value rest
  array := '[' :: Layout.lineBreak pretty (Layout.writeRow pretty (depth + 1) children
    (Layout.indent pretty depth (']' :: rest)))
  object := '{' :: Layout.lineBreak pretty (Layout.writeRow pretty (depth + 1) children
    (Layout.indent pretty depth ('}' :: rest)))

/-- The JSON value of a node. -/
def json (key : String) (children : List Tree) : Reading (Except Mismatch Json) where
  uninitialized := .error (.uninitialized key)
  null := .ok .null
  bool value := .ok (.bool value)
  integer value := .ok (.number (.integer value.toInt))
  string value := .ok (.string value)
  array := (Tree.rowToItems children).map .array
  object := (Tree.rowToMembers [] children).map .object

/-- The JSON text of a node. -/
def jsonChars (key : String) (children : List Tree) : Reading (Except Mismatch (List Char)) where
  uninitialized := .error (.uninitialized key)
  null := .ok "null".toList
  bool value := .ok (if value then "true" else "false").toList
  integer value := .ok (Numeral.ofInt value.toInt)
  string value := .ok (Json.quote value)
  array := (Tree.rowJsonChars false children).map fun row => '[' :: row ++ [']']
  object := (Tree.rowJsonChars true children).map fun row => '{' :: row ++ ['}']

end Reading

end KeyedTree
