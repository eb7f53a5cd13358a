import KeyedTree.Proofs.Script.Operations
import KeyedTree.Proofs.WellFormed.Fields
import KeyedTree.Proofs.Workspace.Discipline
import KeyedTree.Tree.Access

/-! # Kind, value and children agree

At every moment of every run the kind of a node, its value and its children agree, and every change
of a node writes them so that they go on to agree. So a node is read, shown and written by its kind,
and what is kept for a value of another kind is never shown.
-/

namespace KeyedTree

variable {α : Type}

/-- In every node the fields agree, and every change writes them in one of the known ways. -/
theorem Outline.disciplined_agree : Discipline (fun node => node.fields.Agree) Outline.Writes where
  of_wellFormed hnode := hnode.agree
  congr hnode hhead hlength := by
    rw [Outline.fields, hhead, hlength]
    exact hnode
  attach _ operation renamed child guest := writes_attach operation renamed child guest _
  attachOver _ key child guest := writes_attachOver key child guest _
  append _ child guest := writes_append child guest _
  entry _ key blank := writes_entry key blank _
  edit _ edit := writes_edit edit _
  settle _ pos old := writes_settle pos old _
  resettle _ _ hlength := writes_resettle hlength
  refill hother _ hlength := writes_refill hother hlength _

/-- The fields of a node agree, and whoever looks at the node finds the value that belongs to its
kind. -/
structure Tree.Coherent (tree : Tree) : Prop where
  agree : tree.outline.fields.Agree
  /-- A value is read if and only if the node is of its kind. -/
  readString : (∃ text, tree.readString = .ok text) ↔ tree.kind = .string
  readInteger : (∃ value, tree.readInteger = .ok value) ↔ tree.kind = .integer
  readBool : (∃ value, tree.readBool = .ok value) ↔ tree.kind = .bool
  /-- What is read is the value of the node. -/
  string_eq : ∀ text, tree.readString = .ok text ↔ tree.outline.fields.scalar = .string text
  integer_eq : ∀ value, tree.readInteger = .ok value ↔ tree.outline.fields.scalar = .integer value
  bool_eq : ∀ value, tree.readBool = .ok value ↔ tree.outline.fields.scalar = .bool value
  /-- The texts of the node are readings of its kind and its value, each with a way out of its
  own. -/
  brief : tree.head.brief = Reading.brief.read (fun _ => "N/A") tree.outline.fields
  layout : ∀ pretty depth named rest,
    let reading := Reading.layout pretty depth tree.children rest
    Layout.write pretty depth named tree rest = Layout.indent pretty depth
      (Layout.label pretty (if named then tree.key else "")
        (reading.read reading.zero tree.outline.fields))
  toJson :
    let reading := Reading.json tree.key tree.children
    tree.toJson = reading.read reading.zero tree.outline.fields
  jsonChars :
    let reading := Reading.jsonChars tree.key tree.children
    tree.jsonChars = reading.read reading.zero tree.outline.fields
  /-- No way out is ever taken. -/
  unreached : ∀ {β : Type} (reading : Reading β) (wayOut wayOut' : Kind → β),
    reading.read wayOut tree.outline.fields = reading.read wayOut' tree.outline.fields

namespace Tree

variable {tree : Tree}

/-- A value is read where both the kind and the value are right. -/
theorem readString_eq_ok_iff (text : String) :
    tree.readString = .ok text ↔
      tree.outline.fields.kind = .string ∧ tree.outline.fields.scalar = .string text := by
  change _ ↔ tree.head.kind = .string ∧ tree.head.scalar = .string text
  unfold readString
  cases tree.head.kind <;> cases tree.head.scalar <;> simp

theorem readInteger_eq_ok_iff (value : Int64) :
    tree.readInteger = .ok value ↔
      tree.outline.fields.kind = .integer ∧ tree.outline.fields.scalar = .integer value := by
  change _ ↔ tree.head.kind = .integer ∧ tree.head.scalar = .integer value
  unfold readInteger
  cases tree.head.kind <;> cases tree.head.scalar <;> simp

theorem readBool_eq_ok_iff (value : Bool) :
    tree.readBool = .ok value ↔
      tree.outline.fields.kind = .bool ∧ tree.outline.fields.scalar = .bool value := by
  change _ ↔ tree.head.kind = .bool ∧ tree.head.scalar = .bool value
  unfold readBool
  cases tree.head.kind <;> cases tree.head.scalar <;> simp

/-- A node whose fields agree is read, shown and written as what it is. -/
theorem coherent_of_agree (hagree : tree.outline.fields.Agree) : tree.Coherent where
  agree := hagree
  readString := by
    simp only [readString_eq_ok_iff, exists_and_left]
    exact and_iff_left_of_imp (hagree.kind_eq_iff .string rfl).mp
  readInteger := by
    simp only [readInteger_eq_ok_iff, exists_and_left]
    exact and_iff_left_of_imp (hagree.kind_eq_iff .integer rfl).mp
  readBool := by
    simp only [readBool_eq_ok_iff, exists_and_left]
    exact and_iff_left_of_imp (hagree.kind_eq_iff .bool rfl).mp
  string_eq text := by
    rw [readString_eq_ok_iff]
    exact and_iff_right_of_imp fun hvalue => (hagree.kind_eq_iff .string rfl).mpr ⟨text, hvalue⟩
  integer_eq value := by
    rw [readInteger_eq_ok_iff]
    exact and_iff_right_of_imp fun hvalue => (hagree.kind_eq_iff .integer rfl).mpr ⟨value, hvalue⟩
  bool_eq value := by
    rw [readBool_eq_ok_iff]
    exact and_iff_right_of_imp fun hvalue => (hagree.kind_eq_iff .bool rfl).mpr ⟨value, hvalue⟩
  brief := by
    obtain ⟨⟨key, kind, scalar, autosort, overwrite, index⟩, children⟩ := tree
    cases kind <;> cases scalar <;> rfl
  layout pretty depth named rest := by
    intro reading
    obtain ⟨head, children⟩ := tree
    simp only [Layout.write, Reading.read_zero, Tree.outline, Tree.head]
    cases head.payload <;> rfl
  toJson := by
    intro reading
    rw [Reading.read_zero]
    cases tree
    rfl
  jsonChars := by
    intro reading
    rw [Reading.read_zero]
    cases tree
    rfl
  unreached := Reading.read_eq_of_agree hagree

end Tree

/-- In every node that is reached the fields agree, so it is read, shown and written as what it
is. -/
def SharedStore.Coherent (store : SharedStore) : Prop :=
  ∀ place node, store.view? place = some node → node.Coherent

/-- At every moment of a run and where it ends, kind, value and children of every node agree, and
the changes that are asked for write them in ways that keep them so. -/
theorem fields_agree_throughout {program : Program α} (hprogram : program.Operates .free) :
    (program.Always (fun request store => store.Coherent ∧ request.Meets Outline.Writes store.view?)
        ({} : SharedStore) ∧
      (program.run ({} : SharedStore)).2.Coherent) ∧
      ∀ before after : Fields, before.Step after → before.Agree → after.Agree := by
  refine ⟨Outline.disciplined_agree.always hprogram ?_, fun _ _ hstep hagree => hstep.agree hagree⟩
  intro store plain hmirrors hall place node hnode
  rw [hmirrors.view?_eq] at hnode
  exact Tree.coherent_of_agree (hall place node hnode)

/-- A script that gives nodes other kinds. An uninitialized node becomes an object, and its child a
truth value that refuses to be an integer; a string is made an empty array, a new node takes a copy
of the object, and the object itself gives way to an integer. -/
def retypingScript : Script :=
  { nodes :=
    [("a", .new (.node .object none true true [.node (.string "s") (some "b") true false []])),
      ("c", .new (.node .uninitialized none false false []))]
    steps :=
      [⟨"c", .act [] (.visit (.entry "k") [.edit (.setBool true), .edit (.setInteger 7)])⟩,
        ⟨"a", .act [] (.visit (.childOf "b") [.edit (.clear .array)])⟩,
        ⟨"a", .act [.entry "n"] (.copyFrom (.register "c"))⟩,
        ⟨"c", .act [] (.edit (.setOverwrite true))⟩,
        ⟨"c", .act [] (.edit (.setInteger 7))⟩]
    quiet := true }

theorem retyped_nodes_coherent :
    retypingScript.run.run.Operates .free ∧
      let ended := (retypingScript.run.run.run ({} : SharedStore)).2
      (∃ copy, ended.view? ⟨.register "a", [0]⟩ = some copy ∧
        copy.outline.fields = ⟨.object, .nothing, 1⟩ ∧ copy.Coherent) ∧
      ∃ retyped, ended.view? ⟨.register "c", []⟩ = some retyped ∧
        retyped.outline.fields = ⟨.integer, .integer 7, 0⟩ ∧ retyped.Coherent := by
  have hoperates : retypingScript.run.run.Operates .free :=
    Script.operates_run (by decide)
  have hcoherent := (fields_agree_throughout hoperates).1.2
  have hcopy : ((retypingScript.run.run.run ({} : SharedStore)).2.view? ⟨.register "a", [0]⟩).map
      (·.outline.fields) = some ⟨.object, .nothing, 1⟩ := by
    cbv
  have hretyped : ((retypingScript.run.run.run ({} : SharedStore)).2.view? ⟨.register "c", []⟩).map
      (·.outline.fields) = some ⟨.integer, .integer 7, 0⟩ := by
    cbv
  obtain ⟨copy, hcopied, hfields⟩ := Option.map_eq_some_iff.mp hcopy
  obtain ⟨retyped, hwritten, hfields'⟩ := Option.map_eq_some_iff.mp hretyped
  exact ⟨hoperates, ⟨copy, hcopied, hfields, hcoherent _ copy hcopied⟩, retyped, hwritten, hfields',
    hcoherent _ retyped hwritten⟩

end KeyedTree
