import KeyedTree.Proofs.Json.Bridge
import KeyedTree.Proofs.Json.Exports
import KeyedTree.Proofs.Tree.Preorder

/-! # The first offender

A tree with an uninitialized node has no counterpart among the JSON values, and a value with an
empty key or with a number that is no 64-bit integer has none among the trees. Whoever converts such
a thing learns of the first offender: of the first node in pre-order, or of the first part of the
value as it stands in a document. Nothing else makes a conversion fail.
-/

namespace KeyedTree

open Grammar

/-! ## Errors -/

section Errors

variable {ε α β : Type}

/-- The error that a computation ends with, if it does. -/
def errorOf? : Except ε α → Option ε
  | .error error => some error
  | .ok _ => none

@[simp] theorem errorOf?_error (error : ε) :
    errorOf? (.error error : Except ε α) = some error := rfl

@[simp] theorem errorOf?_ok (value : α) : errorOf? (.ok value : Except ε α) = none := rfl

theorem errorOf?_eq_some_iff {result : Except ε α} {error : ε} :
    errorOf? result = some error ↔ result = .error error := by
  cases result <;> simp [errorOf?]

@[simp] theorem errorOf?_map (f : α → β) (result : Except ε α) :
    errorOf? (result.map f) = errorOf? result := by
  cases result <;> rfl

/-- What is found first in what every element of a list brings along is found with the first element
that brings it. -/
theorem findSome?_eq_flatMap {γ : Type} {find : β → Option γ} {bring : α → List β}
    {first : α → Option γ} {list : List α}
    (hfirst : ∀ element ∈ list, first element = (bring element).findSome? find) :
    list.findSome? first = (list.flatMap bring).findSome? find := by
  induction list with
  | nil => rfl
  | cons element rest ih =>
      obtain ⟨helement, hrest⟩ := List.forall_mem_cons.mp hfirst
      rw [List.flatMap_cons, List.findSome?_append, List.findSome?_cons, helement, ih hrest]
      cases (bring element).findSome? find <;> rfl

end Errors

/-! ## Offenders -/

/-- A node keeps its tree from becoming a value as long as nothing was assigned to it. -/
inductive Tree.Offends : Tree → Mismatch → Prop
  | uninitialized {node : Tree} : node.kind = .uninitialized →
      Offends node (.uninitialized node.key)

namespace Json

/-- A part of a value as it stands in a document: a value, or the key in front of a member's
value. -/
inductive Part
  | value (json : Json)
  | key (text : String)

mutual

/-- The parts of a value in the order of a document. -/
def parts : Json → List Part
  | .array items => .value (.array items) :: itemParts items
  | .object members => .value (.object members) :: memberParts members
  | json => [.value json]

/-- The parts of the items of an array. -/
def itemParts : List Json → List Part
  | [] => []
  | item :: rest => item.parts ++ itemParts rest

/-- The parts of the members of an object. -/
def memberParts : List (String × Json) → List Part
  | [] => []
  | (key, value) :: rest => .key key :: value.parts ++ memberParts rest

end

/-- A part keeps its value from becoming a tree if it is a number that is no 64-bit integer, or an
empty key. -/
inductive Part.Offends : Part → Mismatch → Prop
  | number {value : Number} : (∀ n : Int64, value ≠ .integer n.toInt) →
      Offends (.value (.number value)) (.number (String.ofList value.text))
  | key : Offends (.key "") .emptyKey

end Json

/-- An element is the first of a list that offends, and this is what is said of it. -/
structure FirstOffence {α : Type} (offends : α → Mismatch → Prop) (list : List α) (offender : α)
    (mismatch : Mismatch) : Prop where
  offence : offends offender mismatch
  first : ∃ before after, list = before ++ offender :: after ∧
    ∀ other ∈ before, ∀ mismatch, ¬ offends other mismatch

/-- If offences can be computed, the first one is found by a search. -/
theorem exists_firstOffence_iff {α : Type} {offends : α → Mismatch → Prop}
    {offence? : α → Option Mismatch}
    (hoffence : ∀ {element mismatch}, offence? element = some mismatch ↔ offends element mismatch)
    {list : List α} {mismatch : Mismatch} :
    (∃ offender, FirstOffence offends list offender mismatch) ↔
      list.findSome? offence? = some mismatch := by
  have hnone : ∀ element, offence? element = none ↔ ∀ mismatch, ¬ offends element mismatch := by
    intro element
    simp only [← hoffence, Option.eq_none_iff_forall_ne_some, ne_eq]
  simp only [List.findSome?_eq_some_iff, hoffence, hnone]
  constructor
  · rintro ⟨offender, hoffends, before, after, hsplit, hbefore⟩
    exact ⟨before, offender, after, hsplit, hoffends, hbefore⟩
  · rintro ⟨before, offender, after, hsplit, hoffends, hbefore⟩
    exact ⟨offender, hoffends, before, after, hsplit, hbefore⟩

/-! ## From trees -/

namespace Tree

variable {head : Head} {children row : List Tree} {tree : Tree} {mismatch : Mismatch}

/-- What is said of a node to which nothing was assigned. -/
def offence? (node : Tree) : Option Mismatch :=
  if node.kind = .uninitialized then some (.uninitialized node.key) else none

theorem offence?_eq_some_iff : tree.offence? = some mismatch ↔ tree.Offends mismatch := by
  unfold offence?
  constructor
  · intro hoffence
    split at hoffence
    next hblank =>
      cases hoffence
      exact .uninitialized hblank
    next => cases hoffence
  · rintro ⟨hblank⟩
    rw [if_pos hblank]

theorem errorOf?_rowToItems (row : List Tree) :
    errorOf? (rowToItems row) = row.findSome? fun child => errorOf? child.toJson := by
  induction row with
  | nil => rfl
  | cons child rest ih =>
      rw [rowToItems, List.findSome?_cons]
      cases child.toJson with
      | error mismatch => rfl
      | ok value =>
          rw [errorOf?_map, ih]
          rfl

theorem errorOf?_rowToMembers (members : List (String × Json)) (row : List Tree) :
    errorOf? (rowToMembers members row) = row.findSome? fun child => errorOf? child.toJson := by
  rw [rowToMembers_eq_collect, errorOf?_map, errorOf?_rowToItems]

theorem errorOf?_rowJsonChars (named : Bool) (row : List Tree) :
    errorOf? (rowJsonChars named row) = row.findSome? fun child => errorOf? child.jsonChars := by
  induction row with
  | nil => rfl
  | cons child rest ih =>
      rw [List.findSome?_cons]
      cases rest with
      | nil =>
          rw [rowJsonChars, errorOf?_map]
          cases child.jsonChars <;> rfl
      | cons next more =>
          rw [rowJsonChars]
          cases child.jsonChars with
          | error mismatch => rfl
          | ok chars =>
              simp only [errorOf?_map, ih]
              rfl

/-- A conversion that fails for a node to which nothing was assigned, and for a container whose
children it cannot convert, fails for the first offender. -/
theorem errorOf?_eq_findSome? {α : Type} {convert : Tree → Except Mismatch α}
    (hnode : ∀ node : Tree, errorOf? (convert node) = node.offence?.or
      (if node.kind.isContainer then node.children.findSome? fun child => errorOf? (convert child)
        else none))
    (htree : tree.Throughout Furnished) :
    errorOf? (convert tree) = tree.preorder.findSome? offence? := by
  induction htree with
  | @node head children hroot _ ih =>
      have hbelow : children.findSome? (fun child => errorOf? (convert child)) =
          (children.flatMap preorder).findSome? offence? := findSome?_eq_flatMap ih
      rw [hnode, preorder_node, List.findSome?_cons, children_node, hbelow]
      cases (node head children).offence? with
      | some mismatch => rfl
      | none =>
          rw [Option.none_or]
          split
          next => rfl
          next hscalar =>
            have hnone : children = [] := hroot (eq_false_of_ne_true hscalar)
            rw [hnone]
            rfl

theorem errorOf?_toJson (htree : tree.Throughout Furnished) :
    errorOf? tree.toJson = tree.preorder.findSome? offence? := by
  refine errorOf?_eq_findSome? (fun node => ?_) htree
  obtain ⟨head, children⟩ := node
  rw [toJson]
  cases hpayload : head.payload <;>
    simp [offence?, kind, key, Head.kind_of_payload hpayload, Payload.kind, Kind.isContainer,
      errorOf?_rowToItems, errorOf?_rowToMembers]

theorem errorOf?_jsonText (htree : tree.Throughout Furnished) :
    errorOf? tree.jsonText = tree.preorder.findSome? offence? := by
  rw [jsonText, errorOf?_map]
  refine errorOf?_eq_findSome? (fun node => ?_) htree
  obtain ⟨head, children⟩ := node
  rw [jsonChars]
  cases hpayload : head.payload <;>
    simp [offence?, kind, key, Head.kind_of_payload hpayload, Payload.kind, Kind.isContainer,
      errorOf?_rowJsonChars]

/-- Whoever fails for the first offender of a tree fails if there is one. -/
theorem exists_error_iff {α : Type} {result : Except Mismatch α}
    (hresult : errorOf? result = tree.preorder.findSome? offence?) :
    (∃ mismatch, result = .error mismatch) ↔
      ∃ node ∈ tree.preorder, node.kind = .uninitialized := by
  have hblank : ∀ node : Tree, node.offence?.isSome ↔ node.kind = .uninitialized := by
    intro node
    unfold offence?
    split <;> simp_all
  simp only [← errorOf?_eq_some_iff, hresult, ← Option.isSome_iff_exists,
    List.findSome?_isSome_iff, hblank]

/-- Whoever fails for the first offender of a tree names its key. -/
theorem exists_firstOffence {α : Type} {result : Except Mismatch α}
    (hresult : errorOf? result = tree.preorder.findSome? offence?)
    (herror : result = .error mismatch) :
    ∃ node, FirstOffence Offends tree.preorder node mismatch :=
  (exists_firstOffence_iff offence?_eq_some_iff).mpr (hresult ▸ errorOf?_eq_some_iff.mpr herror)

theorem Offends.message (hoffends : tree.Offends mismatch) :
    mismatch.message = "cannot serialize uninitialized node '" ++ tree.key ++ "'" := by
  obtain ⟨_⟩ := hoffends
  rfl

end Tree

/-! ## From values -/

namespace Json

variable {json : Json} {items : List Json} {members : List (String × Json)} {row : List Tree}
  {part : Part} {mismatch : Mismatch}

theorem itemParts_eq_flatMap (items : List Json) : itemParts items = items.flatMap parts := by
  induction items with
  | nil => rfl
  | cons item rest ih => rw [itemParts, ih, List.flatMap_cons]

theorem memberParts_eq_flatMap (members : List (String × Json)) :
    memberParts members = members.flatMap fun member => .key member.1 :: member.2.parts := by
  induction members with
  | nil => rfl
  | cons member rest ih => rw [memberParts, ih, List.flatMap_cons]

/-- What is said of a part of a value. -/
def Part.offence? : Part → Option Mismatch
  | .value (.number n) => errorOf? n.payload
  | .value _ => none
  | .key text => if text = "" then some .emptyKey else none

/-- A number is refused as a payload unless it is an integer of 64 bits. -/
theorem errorOf?_payload {value : Number} :
    errorOf? value.payload = some mismatch ↔
      (∀ n : Int64, value ≠ .integer n.toInt) ∧ mismatch = .number (String.ofList value.text) := by
  cases hpayload : value.payload with
  | ok payload =>
      obtain ⟨n, hn, _⟩ := payload_integer_of_ok hpayload
      exact iff_of_false nofun fun hother => hother.1 n hn
  | error other =>
      have hunfit : ∀ n : Int64, value ≠ .integer n.toInt := by
        rintro n rfl
        rw [payload_integer] at hpayload
        cases hpayload
      have hother : other = .number (String.ofList value.text) := by
        unfold Number.payload at hpayload
        split at hpayload
        next =>
          split at hpayload
          next => cases hpayload
          next => exact (Except.error.inj hpayload).symm
        next => exact (Except.error.inj hpayload).symm
      rw [errorOf?_error, Option.some.injEq, hother, and_iff_right hunfit, eq_comm]

theorem Part.offence?_eq_some_iff : part.offence? = some mismatch ↔ part.Offends mismatch := by
  constructor
  · intro hoffence
    unfold offence? at hoffence
    split at hoffence
    next =>
      obtain ⟨hunfit, rfl⟩ := errorOf?_payload.mp hoffence
      exact .number hunfit
    next => cases hoffence
    next =>
      split at hoffence
      next hempty =>
        cases hoffence
        exact hempty ▸ .key
      next => cases hoffence
  · rintro (hunfit | _)
    · exact errorOf?_payload.mpr ⟨hunfit, rfl⟩
    · rfl

/-- An array is refused for the first of its items that is. -/
theorem errorOf?_itemsToTree (hkeys : ∀ item ∈ items, item.NoRepeats) (row : List Tree) :
    errorOf? (itemsToTree (arrayOf row) items) = items.findSome? fun item =>
      errorOf? item.toTree := by
  induction items generalizing row with
  | nil => rfl
  | cons item rest ih =>
      obtain ⟨hitem, hrest⟩ := List.forall_mem_cons.mp hkeys
      rw [List.findSome?_cons]
      cases hchild : item.toTree with
      | error fault =>
          simp only [itemsToTree, hchild]
          rfl
      | ok child =>
          have hvalue := (written_chars item).value hitem hchild
          rw [itemsToTree_cons hchild hvalue.autosort_eq_false, ih hrest]
          rfl

/-- An object is refused for the first of its members that has an empty key or a value that is
refused. -/
theorem errorOf?_membersToTree (hkeys : ∀ member ∈ members, member.2.NoRepeats)
    (hnodup : (row.map Tree.key ++ members.map Prod.fst).Nodup) :
    errorOf? (membersToTree (objectOf row) members) = members.findSome? fun member =>
      if member.1 = "" then some (.unrepresentable .emptyKey) else errorOf? member.2.toTree := by
  induction members generalizing row with
  | nil => rfl
  | cons member rest ih =>
      obtain ⟨hmember, hrest⟩ := List.forall_mem_cons.mp hkeys
      rw [List.findSome?_cons]
      by_cases hkey : member.1 = ""
      · rw [if_pos hkey, membersToTree, if_pos hkey]
        rfl
      · rw [if_neg hkey]
        cases hchild : member.2.toTree with
        | error fault =>
            rw [membersToTree, if_neg hkey]
            simp only [hchild]
            rfl
        | ok child =>
            have hvalue := (written_chars member.2).value hmember hchild
            obtain ⟨hrow, hnew, hnext⟩ := nodup_withKey child hnodup
            rw [membersToTree_cons hkey hchild hvalue.autosort_eq_false hrow hnew, ih hrest hnext]
            rfl

/-- A value is refused for the first offender among its parts. -/
theorem errorOf?_toTree (hkeys : json.NoRepeats) :
    errorOf? json.toTree = json.parts.findSome? fun part => part.offence?.map .unrepresentable := by
  induction json using Json.induction_parts with
  | null => simp [toTree, parts, Part.offence?]
  | bool value => simp [toTree, parts, Part.offence?]
  | string value => simp [toTree, parts, Part.offence?]
  | number value =>
      cases hpayload : value.payload <;> simp [toTree, parts, Part.offence?, hpayload]
  | array items ih =>
      have hitems := noRepeats_array_iff.mp hkeys
      rw [toTree, parts, itemParts_eq_flatMap, List.findSome?_cons]
      calc
        _ = items.findSome? fun item => errorOf? item.toTree := errorOf?_itemsToTree hitems []
        _ = _ := findSome?_eq_flatMap fun item hitem => ih item hitem (hitems item hitem)
  | object members ih =>
      obtain ⟨hnodup, hmembers⟩ := noRepeats_object_iff.mp hkeys
      have hempty : (([] : List Tree).map Tree.key ++ members.map Prod.fst).Nodup := hnodup
      rw [toTree, parts, memberParts_eq_flatMap, List.findSome?_cons]
      refine (errorOf?_membersToTree hmembers hempty).trans
        (findSome?_eq_flatMap fun member hmember => ?_)
      rw [List.findSome?_cons, ← ih member hmember (hmembers member hmember), Part.offence?]
      split <;> rfl

end Json

/-- A tree whose scalars have no children fails to become a value, and to become text, exactly if
some node of it is uninitialized; the message then names the key of the first such node in
pre-order. A value fails to become a tree exactly if it has a number that is no 64-bit integer or an
empty key. The fault is of no other kind then, and it tells about the first such part of the value
in the order of a document, where the key of a member comes before its value. -/
theorem conversions_name_first_offender :
    (∀ tree : Tree, tree.Throughout Tree.Furnished →
      ((∃ mismatch, tree.toJson = .error mismatch) ↔
        ∃ node ∈ tree.preorder, node.kind = .uninitialized) ∧
        ((∃ mismatch, tree.jsonText = .error mismatch) ↔
          ∃ node ∈ tree.preorder, node.kind = .uninitialized) ∧
          ∀ mismatch, tree.toJson = .error mismatch ∨ tree.jsonText = .error mismatch →
            ∃ node, FirstOffence Tree.Offends tree.preorder node mismatch ∧
              mismatch.message = "cannot serialize uninitialized node '" ++ node.key ++ "'") ∧
      ∀ json : Json, json.NoRepeats →
        ((∃ mismatch, json.toTree = .error (.unrepresentable mismatch)) ↔ json.Unfit) ∧
          ∀ fault, json.toTree = .error fault → ∃ part mismatch, fault = .unrepresentable mismatch ∧
            FirstOffence Json.Part.Offends json.parts part mismatch := by
  refine ⟨fun tree htree => ?_, fun json hkeys => ?_⟩
  · have hvalue := Tree.errorOf?_toJson htree
    have htext := Tree.errorOf?_jsonText htree
    refine ⟨Tree.exists_error_iff hvalue, Tree.exists_error_iff htext, fun mismatch herror => ?_⟩
    obtain ⟨node, hfirst⟩ : ∃ node, FirstOffence Tree.Offends tree.preorder node mismatch :=
      herror.elim (Tree.exists_firstOffence hvalue) (Tree.exists_firstOffence htext)
    exact ⟨node, hfirst, hfirst.offence.message⟩
  · have hfirst : ∀ fault, json.toTree = .error fault →
        ∃ part mismatch, fault = .unrepresentable mismatch ∧
        FirstOffence Json.Part.Offends json.parts part mismatch := by
      intro fault hfault
      have hfound :
          (json.parts.findSome? Json.Part.offence?).map Fault.unrepresentable = some fault := by
        rw [List.map_findSome?]
        exact (Json.errorOf?_toTree hkeys).symm.trans (errorOf?_eq_some_iff.mpr hfault)
      obtain ⟨mismatch, hmismatch, rfl⟩ := Option.map_eq_some_iff.mp hfound
      obtain ⟨part, hpart⟩ := (exists_firstOffence_iff Json.Part.offence?_eq_some_iff).mpr hmismatch
      exact ⟨part, mismatch, rfl, hpart⟩
    refine ⟨⟨fun ⟨mismatch, hfault⟩ => ?_, fun hunfit => ?_⟩, hfirst⟩
    · by_contra hfit
      obtain ⟨tree, hbecomes, _⟩ := Json.becomes_and_returns hkeys hfit
      rw [hbecomes.converted] at hfault
      cases hfault
    · cases htree : json.toTree with
      | ok tree => exact absurd htree hunfit.toTree_ne_ok
      | error fault =>
          obtain ⟨_, mismatch, rfl, _⟩ := hfirst fault htree
          exact ⟨mismatch, rfl⟩

/-- A tree with two uninitialized nodes, the first of them below an anonymous array. -/
def gappedTree : Tree :=
  objectOf [arrayOf [.leaf .null, (Tree.leaf .uninitialized).withKey "b"],
    (Tree.leaf .uninitialized).withKey "c"]

/-- A value in which a member with an empty key and a fraction for its value stands before a number
out of range. -/
def unfitValue : Json :=
  .array [.object [("a", .number (.integer 1)), ("", .number (.fraction ⟨false, 5, -1⟩))],
    .number (.integer 9223372036854775808)]

theorem gappedTree_and_unfitValue_named :
    gappedTree.Throughout Tree.Furnished ∧ gappedTree.toJson = .error (.uninitialized "b") ∧
      gappedTree.jsonText = .error (.uninitialized "b") ∧
        (∃ node, FirstOffence Tree.Offends gappedTree.preorder node (.uninitialized "b")) ∧
          unfitValue.NoRepeats ∧ unfitValue.toTree = .error (.unrepresentable .emptyKey) ∧
            ∃ part, FirstOffence Json.Part.Offends unfitValue.parts part .emptyKey := by
  obtain ⟨hfromTree, hfromValue⟩ := conversions_name_first_offender
  have hinner :
      (arrayOf [.leaf .null, (Tree.leaf .uninitialized).withKey "b"]).Throughout Tree.Furnished :=
    .node nofun (List.forall_mem_cons.mpr
      ⟨.childless (fun _ => rfl) rfl,
        List.forall_mem_singleton.mpr (.childless (fun _ => rfl) rfl)⟩)
  have hgapped : gappedTree.Throughout Tree.Furnished :=
    .node nofun (List.forall_mem_cons.mpr
      ⟨hinner, List.forall_mem_singleton.mpr (.childless (fun _ => rfl) rfl)⟩)
  have hkeys : unfitValue.NoRepeats :=
    Json.noRepeats_array_iff.mpr (List.forall_mem_cons.mpr ⟨Json.noRepeats_object_iff.mpr
      ⟨by decide, List.forall_mem_cons.mpr ⟨nofun, List.forall_mem_singleton.mpr nofun⟩⟩,
        List.forall_mem_singleton.mpr nofun⟩)
  have hvalue : gappedTree.toJson = .error (.uninitialized "b") := by rfl
  have htext : gappedTree.jsonText = .error (.uninitialized "b") := by rfl
  have htree : unfitValue.toTree = .error (.unrepresentable .emptyKey) := by rfl
  obtain ⟨node, hnode, _⟩ := (hfromTree gappedTree hgapped).2.2 _ (.inl hvalue)
  obtain ⟨part, mismatch, hmismatch, hpart⟩ := (hfromValue unfitValue hkeys).2 _ htree
  cases hmismatch
  exact ⟨hgapped, hvalue, htext, ⟨node, hnode⟩, hkeys, htree, part, hpart⟩

end KeyedTree
