import Mathlib.Algebra.Order.BigOperators.Group.List
import KeyedTree.Proofs.Json.Bridge
import KeyedTree.Proofs.Tree.Ordered
import KeyedTree.Proofs.Tree.Paths
import KeyedTree.Proofs.WellFormed.Lookup

/-! # Children that an export keeps

A tree becomes a value with one part for each of its nodes, in the order of the children, as long as
no object has two children without a key. Such children share the empty key, and of members with the
same key an object keeps one: it stands where the first of them stood and has the value of the last.
All else is kept.
-/

namespace KeyedTree

open Grammar

/-! ## The values in a value -/

namespace Json

mutual

/-- The number of values in a value, with the value itself. -/
def size : Json → Nat
  | .array items => 1 + itemsSize items
  | .object members => 1 + membersSize members
  | _ => 1

/-- The number of values in the items of an array. -/
def itemsSize : List Json → Nat
  | [] => 0
  | item :: rest => item.size + itemsSize rest

/-- The number of values in the members of an object. -/
def membersSize : List (String × Json) → Nat
  | [] => 0
  | (_, value) :: rest => value.size + membersSize rest

end

/-- Members with others set one after the other. -/
def collect (members added : List (String × Json)) : List (String × Json) :=
  added.foldl (fun members member => setMember member.1 member.2 members) members

@[simp] theorem collect_nil (members : List (String × Json)) : collect members [] = members := by
  simp [collect]

@[simp] theorem collect_cons (members : List (String × Json)) (key : String) (value : Json)
    (added : List (String × Json)) :
    collect members ((key, value) :: added) = collect (setMember key value members) added := by
  simp [collect]

/-- A member that is there takes another value and keeps its place. -/
theorem setMember_of_present {key : String} {front : List (String × Json)}
    (hfront : key ∉ front.map Prod.fst) (old new : Json) (back : List (String × Json)) :
    setMember key new (front ++ (key, old) :: back) = front ++ (key, new) :: back := by
  induction front with
  | nil => simp [setMember]
  | cons member rest ih =>
      obtain ⟨hne, hrest⟩ := List.ne_and_not_mem_of_not_mem_cons hfront
      rw [List.cons_append, setMember, if_neg (Ne.symm hne), ih hrest, List.cons_append]

end Json

namespace Tree

variable {row : List Tree} {members : List (String × Json)}

/-! ## The value with a part for every node -/

mutual

/-- The value that lists the values of all children of every node in their order. There is none for
an uninitialized node; `null` stands in for it. -/
def value : Tree → Json
  | .node head children =>
      match head.payload with
      | .uninitialized => .null
      | .null => .null
      | .bool value => .bool value
      | .integer value => .number (.integer value.toInt)
      | .string value => .string value
      | .array => .array (rowValues children)
      | .object => .object (rowMembers children)

/-- The values of the trees of a row. -/
def rowValues : List Tree → List Json
  | [] => []
  | child :: rest => child.value :: rowValues rest

/-- The values of the trees of a row with their keys. -/
def rowMembers : List Tree → List (String × Json)
  | [] => []
  | child :: rest => (child.key, child.value) :: rowMembers rest

end

@[simp] theorem rowMembers_append (first second : List Tree) :
    rowMembers (first ++ second) = rowMembers first ++ rowMembers second := by
  induction first with
  | nil => simp [rowMembers]
  | cons child rest ih => simp [rowMembers, ih]

/-- The number of nodes of the trees of a row. -/
def rowCount (row : List Tree) : Nat :=
  (row.map fun child => child.nodes.length).sum

@[simp] theorem rowCount_nil : rowCount [] = 0 := by
  simp [rowCount]

@[simp] theorem rowCount_cons (child : Tree) (rest : List Tree) :
    rowCount (child :: rest) = child.nodes.length + rowCount rest := by
  simp [rowCount]

@[simp] theorem rowCount_append (first second : List Tree) :
    rowCount (first ++ second) = rowCount first + rowCount second := by
  simp [rowCount]

theorem rowCount_perm {other : List Tree} (hperm : row.Perm other) :
    rowCount row = rowCount other :=
  (hperm.map _).sum_eq

theorem length_nodesFrom (depth : Nat) (tree : Tree) :
    (tree.nodesFrom depth).length = 1 + rowCount tree.children := by
  induction tree using Tree.induction generalizing depth with
  | node head children ih =>
      have hrow : ∀ row, (∀ child ∈ row, child ∈ children) →
          (rowNodesFrom (depth + 1) row).length = rowCount row := by
        intro row hmem
        induction row with
        | nil => simp [rowNodesFrom]
        | cons child rest ihrest =>
            have hchild := ih child (hmem child List.mem_cons_self)
            rw [rowNodesFrom, List.length_append, rowCount_cons, nodes, hchild, hchild,
              ihrest fun other hother => hmem other (List.mem_cons_of_mem _ hother)]
      rw [nodesFrom, List.length_cons, hrow children fun _ hmem => hmem, Nat.add_comm,
        children_node]

theorem length_nodes (tree : Tree) : tree.nodes.length = 1 + rowCount tree.children :=
  length_nodesFrom 0 tree

/-- Every tree of a row has a node at least. -/
theorem eq_nil_of_rowCount_eq_zero (hzero : rowCount row = 0) : row = [] := by
  cases row with
  | nil => simp
  | cons child rest =>
      rw [rowCount_cons, length_nodes] at hzero
      omega

/-- A node that has no children unless it is a container. -/
def Furnished (node : Tree) : Prop :=
  node.kind.isContainer = false → node.children = []

theorem WellFormed.furnished {tree : Tree} (htree : tree.WellFormed) :
    tree.Throughout Furnished := by
  induction htree with
  | node root _ ih =>
      exact .node (fun hscalar => List.map_eq_nil_iff.mp (root.childless hscalar)) ih

theorem itemsSize_rowValues (hrow : ∀ child ∈ row, child.value.size = child.nodes.length) :
    Json.itemsSize (rowValues row) = rowCount row := by
  induction row with
  | nil => simp [rowValues, Json.itemsSize]
  | cons child rest ih =>
      obtain ⟨hchild, hrest⟩ := List.forall_mem_cons.mp hrow
      rw [rowValues, Json.itemsSize, hchild, ih hrest, rowCount_cons]

theorem membersSize_rowMembers (hrow : ∀ child ∈ row, child.value.size = child.nodes.length) :
    Json.membersSize (rowMembers row) = rowCount row := by
  induction row with
  | nil => simp [rowMembers, Json.membersSize]
  | cons child rest ih =>
      obtain ⟨hchild, hrest⟩ := List.forall_mem_cons.mp hrow
      rw [rowMembers, Json.membersSize, hchild, ih hrest, rowCount_cons]

/-- The value that lists all children has as many values as there are nodes. -/
theorem size_value {tree : Tree} (htree : tree.Throughout Furnished) :
    tree.value.size = tree.nodes.length := by
  induction htree with
  | @node head children hroot _ ih =>
      have hscalar (hleaf : head.kind.isContainer = false) : rowCount children = 0 := by
        have hnone : children = [] := hroot hleaf
        simp [hnone]
      rw [length_nodes, children_node, value]
      cases hpayload : head.payload with
      | array => rw [Json.size, itemsSize_rowValues ih]
      | object => rw [Json.size, membersSize_rowMembers ih]
      | _ =>
          simp [Json.size, hscalar, Head.kind_of_payload hpayload, Payload.kind, Kind.isContainer]

/-! ## Children without a key -/

/-- The children of a row that have no key. -/
def anonymousOf (row : List Tree) : List Tree :=
  row.filter (·.key = "")

/-- The children of a row that have a key. -/
def keyedOf (row : List Tree) : List Tree :=
  row.filter (·.key ≠ "")

/-- A node that is no object with two children without a key. -/
def Uncrowded (node : Tree) : Prop :=
  node.kind = .object → (anonymousOf node.children).length ≤ 1

/-- What an object keeps of a row: all children that have a key, and of the others the last one,
where the first one stood. -/
def survivors : List Tree → List Tree
  | [] => []
  | child :: rest =>
      if child.key = "" then (anonymousOf rest).getLastD child :: keyedOf rest
        else child :: survivors rest

theorem anonymousOf_cons_of_empty {child : Tree} (hkey : child.key = "") (rest : List Tree) :
    anonymousOf (child :: rest) = child :: anonymousOf rest := by
  simp [anonymousOf, hkey]

theorem anonymousOf_cons_of_ne {child : Tree} (hkey : child.key ≠ "") (rest : List Tree) :
    anonymousOf (child :: rest) = anonymousOf rest := by
  simp [anonymousOf, hkey]

theorem keyedOf_cons_of_empty {child : Tree} (hkey : child.key = "") (rest : List Tree) :
    keyedOf (child :: rest) = keyedOf rest := by
  simp [keyedOf, hkey]

theorem keyedOf_cons_of_ne {child : Tree} (hkey : child.key ≠ "") (rest : List Tree) :
    keyedOf (child :: rest) = child :: keyedOf rest := by
  simp [keyedOf, hkey]

theorem anonymousOf_append_keyedOf_perm (row : List Tree) :
    (anonymousOf row ++ keyedOf row).Perm row := by
  have hperm := List.filter_append_perm (fun child : Tree => decide (child.key = "")) row
  simpa [anonymousOf, keyedOf] using hperm

/-- What an object keeps of a row and what it does not: all children without a key but for the
last. -/
theorem survivors_perm (row : List Tree) :
    (survivors row ++ (anonymousOf row).dropLast).Perm row := by
  induction row with
  | nil => simp [survivors, anonymousOf]
  | cons child rest ih =>
      by_cases hkey : child.key = ""
      · have hlast : (child :: anonymousOf rest).dropLast ++ [(anonymousOf rest).getLastD child] =
            child :: anonymousOf rest := by
          have hjoin := List.dropLast_append_getLast (List.cons_ne_nil child (anonymousOf rest))
          rwa [List.getLast_eq_getLastD] at hjoin
        rw [survivors, if_pos hkey, anonymousOf_cons_of_empty hkey]
        calc
          _ = [(anonymousOf rest).getLastD child] ++
            (keyedOf rest ++ (child :: anonymousOf rest).dropLast) := by
            simp
          List.Perm _ ((keyedOf rest ++ (child :: anonymousOf rest).dropLast) ++
              [(anonymousOf rest).getLastD child]) := List.perm_append_comm
          _ = keyedOf rest ++ (child :: anonymousOf rest) := by rw [List.append_assoc, hlast]
          List.Perm _ ((child :: anonymousOf rest) ++ keyedOf rest) := List.perm_append_comm
          List.Perm _ (child :: rest) := (anonymousOf_append_keyedOf_perm rest).cons child
      · rw [survivors, if_neg hkey, anonymousOf_cons_of_ne hkey, List.cons_append]
        exact ih.cons child

theorem keyedOf_eq_self (hnone : anonymousOf row = []) : keyedOf row = row := by
  refine List.filter_eq_self.mpr fun child hchild => ?_
  have hkey := List.filter_eq_nil_iff.mp hnone child hchild
  simpa using hkey

/-- An object keeps a row in which one child at most has no key. -/
theorem survivors_eq_self (hrow : (anonymousOf row).length ≤ 1) : survivors row = row := by
  induction row with
  | nil => simp [survivors]
  | cons child rest ih =>
      by_cases hkey : child.key = ""
      · have hnone : anonymousOf rest = [] := by
          rw [anonymousOf_cons_of_empty hkey, List.length_cons] at hrow
          exact List.eq_nil_of_length_eq_zero (by omega)
        simp [survivors, hkey, hnone, keyedOf_eq_self hnone]
      · rw [anonymousOf_cons_of_ne hkey] at hrow
        rw [survivors, if_neg hkey, ih hrow]

/-- Setting the members of a row one after the other, when a member without a key is there
already. -/
theorem collect_of_anonymous {front back : List (String × Json)} (hfront : "" ∉ front.map Prod.fst)
    (held : Tree) (hkeys : Distinct ((front ++ back).map Prod.fst ++ row.map key)) :
    Json.collect (front ++ ("", held.value) :: back) (rowMembers row) =
      front ++ ("", ((anonymousOf row).getLastD held).value) ::
        (back ++ rowMembers (keyedOf row)) := by
  induction row generalizing held back with
  | nil => simp [rowMembers, anonymousOf, keyedOf]
  | cons child rest ih =>
      rw [rowMembers, Json.collect_cons]
      by_cases hkey : child.key = ""
      · -- the member takes the value of this child
        have hrest : Distinct ((front ++ back).map Prod.fst ++ rest.map key) :=
          hkeys.sublist (List.Sublist.append_left (List.sublist_cons_self _ _) _)
        rw [hkey, Json.setMember_of_present hfront, ih child hrest, anonymousOf_cons_of_empty hkey,
          keyedOf_cons_of_empty hkey, List.getLastD_cons]
      · have hnew : child.key ∉ (front ++ ("", held.value) :: back).map Prod.fst := by
          have hother := hkeys.not_mem hkey
          simp only [List.map_append, List.map_cons, List.mem_append, List.mem_cons] at hother ⊢
          tauto
        have hrest : Distinct
            ((front ++ (back ++ [(child.key, child.value)])).map Prod.fst ++ rest.map key) := by
          simpa using hkeys
        rw [Json.setMember_of_new hnew, List.append_assoc, List.cons_append, ih held hrest,
          anonymousOf_cons_of_ne hkey, keyedOf_cons_of_ne hkey, rowMembers, List.append_assoc,
          List.singleton_append]

/-- Setting the members of a row one after the other leaves what an object keeps of it. -/
theorem collect_eq_survivors (hmembers : "" ∉ members.map Prod.fst)
    (hkeys : Distinct (members.map Prod.fst ++ row.map key)) :
    Json.collect members (rowMembers row) = members ++ rowMembers (survivors row) := by
  induction row generalizing members with
  | nil => simp [rowMembers, survivors]
  | cons child rest ih =>
      rw [rowMembers, Json.collect_cons, survivors]
      by_cases hkey : child.key = ""
      · have hrest : Distinct ((members ++ []).map Prod.fst ++ rest.map key) := by
          rw [List.append_nil]
          exact hkeys.sublist (List.Sublist.append_left (List.sublist_cons_self _ _) _)
        have hlast : ((anonymousOf rest).getLastD child).key = "" := by
          rcases List.eq_nil_or_concat (anonymousOf rest) with hnone | ⟨front, last, hsplit⟩
          · simp [hnone, hkey]
          · have hmem : last ∈ anonymousOf rest := by simp [hsplit]
            have hempty := (List.mem_filter.mp hmem).2
            simpa [hsplit] using hempty
        rw [hkey, Json.setMember_of_new hmembers, collect_of_anonymous hmembers child hrest,
          if_pos rfl, rowMembers, hlast, List.nil_append]
      · have hnext : "" ∉ (members ++ [(child.key, child.value)]).map Prod.fst := by
          simpa [Ne.symm hkey] using hmembers
        rw [Json.setMember_of_new (hkeys.not_mem hkey), ih hnext (by simpa using hkeys),
          if_neg hkey, rowMembers, List.append_assoc, List.singleton_append]

/-! ## Trees as they are exported -/

mutual

/-- The tree with what the objects in it keep of their children. -/
def exported : Tree → Tree
  | .node head children =>
      .node head
        (if head.kind = .object then survivors (rowExported children) else rowExported children)

/-- The trees of a row with what the objects in them keep of their children. -/
def rowExported : List Tree → List Tree
  | [] => []
  | child :: rest => child.exported :: rowExported rest

end

theorem rowExported_eq_map (row : List Tree) : rowExported row = row.map exported := by
  induction row with
  | nil => simp [rowExported]
  | cons child rest ih => rw [rowExported, ih, List.map_cons]

@[simp] theorem head_exported (tree : Tree) : tree.exported.head = tree.head := by
  cases tree
  simp [exported]

@[simp] theorem key_exported (tree : Tree) : tree.exported.key = tree.key := by
  simp [key]

theorem children_exported (tree : Tree) :
    tree.exported.children =
      if tree.kind = .object then survivors (tree.children.map exported)
      else tree.children.map exported := by
  obtain ⟨head, children⟩ := tree
  rw [exported, rowExported_eq_map]
  rfl

theorem anonymousOf_map_exported (row : List Tree) :
    anonymousOf (row.map exported) = (anonymousOf row).map exported := by
  simp [anonymousOf, List.filter_map, Function.comp_def]

/-- A tree in which no object has two children without a key is exported whole. -/
theorem exported_eq_self {tree : Tree} (htree : tree.Throughout Uncrowded) :
    tree.exported = tree := by
  induction htree with
  | @node head children hroot _ ih =>
      have hrow : children.map exported = children :=
        (List.map_congr_left ih).trans (List.map_id children)
      rw [exported, rowExported_eq_map, hrow]
      split
      next hobject =>
        have hkept : survivors children = children := survivors_eq_self (hroot hobject)
        rw [hkept]
      next => rfl

/-- The nodes of the children of an object that an export loses. -/
theorem rowCount_survivors (row : List Tree) :
    rowCount (survivors row) + rowCount (anonymousOf row).dropLast = rowCount row := by
  rw [← rowCount_append, rowCount_perm (survivors_perm row)]

theorem rowCount_map_exported_le
    (hrow : ∀ child ∈ row, child.exported.nodes.length ≤ child.nodes.length) :
    rowCount (row.map exported) ≤ rowCount row := by
  rw [rowCount, rowCount, List.map_map]
  exact List.sum_le_sum hrow

/-- An export has as many nodes as the tree at most. -/
theorem length_exported_le (tree : Tree) : tree.exported.nodes.length ≤ tree.nodes.length := by
  induction tree using Tree.induction with
  | node head children ih =>
      have hchildren := rowCount_map_exported_le ih
      have hkept := rowCount_survivors (children.map exported)
      rw [length_nodes, length_nodes, children_exported]
      split <;> simp only [children_node] <;> omega

/-- An export that has as many nodes as the tree has lost none. -/
theorem uncrowded_of_length {tree : Tree} (hsame : tree.exported.nodes.length = tree.nodes.length) :
    tree.Throughout Uncrowded := by
  induction tree using Tree.induction with
  | node head children ih =>
      have hle : ∀ row : List Tree, rowCount (row.map exported) ≤ rowCount row := fun row =>
        rowCount_map_exported_le fun child _ => child.length_exported_le
      have hkept := rowCount_survivors (children.map exported)
      rw [length_nodes, length_nodes, children_exported] at hsame
      have hrow : rowCount (children.map exported) = rowCount children := by
        have hchildren := hle children
        split at hsame <;> simp only [children_node] at hsame <;> omega
      refine .node (fun hobject => ?_) fun child hchild => ih child hchild ?_
      · rw [if_pos hobject, children_node] at hsame
        have hlost : (anonymousOf (children.map exported)).dropLast = [] :=
          eq_nil_of_rowCount_eq_zero (by omega)
        have hlength := congrArg List.length hlost
        rw [List.length_dropLast, anonymousOf_map_exported, List.length_map,
          List.length_nil] at hlength
        simp only [children_node]
        omega
      · -- the other children cannot make up for what this one loses
        obtain ⟨before, after, rfl⟩ := List.append_of_mem hchild
        have hbefore := hle before
        have hafter := hle after
        have hown := child.length_exported_le
        simp only [List.map_append, List.map_cons, rowCount_append, rowCount_cons] at hrow
        omega

theorem furnished_exported {tree : Tree} (htree : tree.Throughout Furnished) :
    tree.exported.Throughout Furnished := by
  induction htree with
  | @node head children hroot _ ih =>
      have hrow : ∀ child ∈ children.map exported, child.Throughout Furnished :=
        List.forall_mem_map.mpr ih
      refine throughout_iff.mpr ⟨fun hscalar => ?_, fun child hchild => hrow child ?_⟩
      · have hnone : children = [] := hroot (by simpa [kind] using hscalar)
        simp [children_exported, hnone, survivors]
      · rw [children_exported] at hchild
        split at hchild
        next =>
          exact (survivors_perm _).mem_iff.mp (List.mem_append_left _ hchild)
        next => exact hchild

/-! ## The value of an export -/

theorem rowToMembers_eq_collect (members : List (String × Json)) (row : List Tree) :
    rowToMembers members row =
      (rowToItems row).map fun items => Json.collect members ((row.map key).zip items) := by
  induction row generalizing members with
  | nil => simp [rowToMembers, rowToItems, Except.map]
  | cons child rest ih =>
      rw [rowToMembers, rowToItems]
      cases child.toJson with
      | error mismatch => rfl
      | ok value =>
          simp only [ih]
          cases rowToItems rest <;> simp [Except.map]

theorem rowToItems_eq_ok {items : List Json} (hitems : rowToItems row = .ok items)
    (hrow : ∀ child ∈ row, ∀ json, child.toJson = .ok json → json = child.exported.value) :
    items = (row.map exported).map value := by
  induction row generalizing items with
  | nil =>
      rw [rowToItems] at hitems
      cases hitems
      simp
  | cons child rest ih =>
      rw [rowToItems] at hitems
      cases hchild : child.toJson with
      | error mismatch => simp [hchild] at hitems
      | ok json =>
          cases hrest : rowToItems rest with
          | error mismatch => simp [hchild, hrest, Except.map] at hitems
          | ok others =>
              simp only [hchild, hrest, Except.map, Except.ok.injEq] at hitems
              rw [← hitems, hrow child List.mem_cons_self json hchild,
                ih hrest fun other hother => hrow other (List.mem_cons_of_mem _ hother)]
              simp

theorem rowValues_eq_map (row : List Tree) : rowValues row = row.map value := by
  induction row with
  | nil => simp [rowValues]
  | cons child rest ih => rw [rowValues, ih, List.map_cons]

theorem rowMembers_eq_zip (row : List Tree) :
    rowMembers row = (row.map key).zip (row.map value) := by
  induction row with
  | nil => simp [rowMembers]
  | cons child rest ih => simp [rowMembers, ih]

/-- A well-formed tree becomes the value with a part for every node of it as it is exported. -/
theorem toJson_eq_value {tree : Tree} (htree : tree.WellFormed) {json : Json}
    (hjson : tree.toJson = .ok json) : json = tree.exported.value := by
  induction htree generalizing json with
  | @node head children root _ ih =>
      rw [toJson] at hjson
      rw [exported, value, rowExported_eq_map]
      cases hpayload : head.payload with
      | array =>
          cases hitems : rowToItems children with
          | error mismatch => simp [hpayload, hitems, Except.map] at hjson
          | ok items =>
              simp only [hpayload, hitems, Except.map, Except.ok.injEq] at hjson
              simp [← hjson, Head.kind_of_payload hpayload, Payload.kind,
                rowToItems_eq_ok hitems fun child hchild _ => ih child hchild, rowValues_eq_map]
      | object =>
          have hobject : head.kind = .object := Head.kind_of_payload hpayload
          have hnames : head.index.Names (children.map key) := root.names hobject
          have hkeys : Distinct ([] ++ (children.map exported).map key) := by
            simpa [Function.comp_def] using hnames.distinct
          have hcollect : Json.collect [] (rowMembers (children.map exported)) =
              [] ++ rowMembers (survivors (children.map exported)) :=
                collect_eq_survivors (by simp) hkeys
          rw [rowMembers_eq_zip (children.map exported)] at hcollect
          cases hitems : rowToItems children with
          | error mismatch => simp [hpayload, rowToMembers_eq_collect, hitems, Except.map] at hjson
          | ok items =>
              have hvalues := rowToItems_eq_ok hitems fun child hchild _ => ih child hchild
              simp only [hpayload, rowToMembers_eq_collect, hitems, Except.map,
                Except.ok.injEq] at hjson
              rw [← hjson, hvalues, if_pos hobject]
              simpa [Function.comp_def] using hcollect
      | _ => simp_all

end Tree

/-- The value that a well-formed tree is exported to has a part for every node, with the values of
the children in their order, exactly if no object in the tree has two children without a key. Of
such children only the last one is kept, at the place of the first. Nothing else is lost: this is
all the difference there is. -/
theorem export_keeps_uncrowded {tree : Tree} {json : Json} (htree : tree.WellFormed)
    (hjson : tree.toJson = .ok json) :
    json = tree.exported.value ∧
      (json = tree.value ↔ tree.Throughout Tree.Uncrowded) ∧
      (json.size = tree.nodes.length ↔ tree.Throughout Tree.Uncrowded) := by
  have hvalue := Tree.toJson_eq_value htree hjson
  have hsize : json.size = tree.exported.nodes.length := by
    rw [hvalue, Tree.size_value (Tree.furnished_exported htree.furnished)]
  refine ⟨hvalue, ⟨fun hsame => ?_, fun huncrowded => ?_⟩, ⟨fun hsame => ?_, fun huncrowded => ?_⟩⟩
  · apply Tree.uncrowded_of_length
    rw [← hsize, hsame, Tree.size_value htree.furnished]
  · rw [hvalue, Tree.exported_eq_self huncrowded]
  · apply Tree.uncrowded_of_length
    rw [← hsize, hsame]
  · rw [hsize, Tree.exported_eq_self huncrowded]

/-- An object with well-formed members is well-formed as long as no key is repeated. Some may have
no key. -/
theorem objectOf_wellFormed {members : List Tree}
    (hkeys : (KeyIndex.ofKeys (members.map Tree.key)).2 = [])
    (hmembers : ∀ member ∈ members, member.WellFormed) : (objectOf members).WellFormed :=
  .node ⟨fun _ => KeyIndex.names_ofKeys hkeys, fun hother => absurd rfl hother, nofun, rfl⟩ hmembers

/-- An array with an object that has two members without a key, on both sides of one that has a
key. -/
def crowdedTree : Tree :=
  arrayOf [objectOf [.leaf (.integer 1), (Tree.leaf .null).withKey "k", .leaf (.integer 2)]]

/-- What an export makes of it. -/
def crowdedValue : Json :=
  .array [.object [("", .number (.integer 2)), ("k", .null)]]

theorem crowdedTree_export :
    crowdedTree.WellFormed ∧ crowdedTree.toJson = .ok crowdedValue ∧
      crowdedValue = crowdedTree.exported.value ∧
        (crowdedValue = crowdedTree.value ↔ crowdedTree.Throughout Tree.Uncrowded) ∧
          (crowdedValue.size = crowdedTree.nodes.length ↔
            crowdedTree.Throughout Tree.Uncrowded) := by
  have hmembers :
      ∀ member ∈ [Tree.leaf (.integer 1), (Tree.leaf .null).withKey "k", .leaf (.integer 2)],
        member.WellFormed :=
    List.forall_mem_cons.mpr ⟨.leaf _, List.forall_mem_cons.mpr
      ⟨(Tree.WellFormed.leaf _).with_key "k", List.forall_mem_singleton.mpr (.leaf _)⟩⟩
  have hwell : crowdedTree.WellFormed :=
    .node ⟨nofun, fun _ => rfl, nofun, rfl⟩
      (List.forall_mem_singleton.mpr (objectOf_wellFormed (by decide) hmembers))
  have hjson : crowdedTree.toJson = .ok crowdedValue := by rfl
  exact ⟨hwell, hjson, export_keeps_uncrowded hwell hjson⟩

/-- An object whose two members have no key loses one of them. -/
theorem export_loses_member :
    ∃ tree json, tree = objectOf [.leaf (.integer 1), .leaf (.integer 2)] ∧ tree.WellFormed ∧
      tree.toJson = .ok json ∧ json.size = 2 ∧ tree.nodes.length = 3 := by
  refine ⟨_, .object [("", .number (.integer 2))], rfl, ?_, by rfl, by rfl, by rfl⟩
  apply objectOf_wellFormed (by decide)
  exact List.forall_mem_cons.mpr ⟨.leaf _, List.forall_mem_singleton.mpr (.leaf _)⟩

end KeyedTree
