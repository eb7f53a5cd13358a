import KeyedTree.Proofs.Grammar.Rendering
import KeyedTree.Proofs.Json.Reading

/-! # Values and trees are converted back

A value that can be converted comes back from its tree, with the members of every object in their
order. A tree in the shape of a document comes back alike from its value. Both rest on what the
conversions make of rows whose parts they convert.
-/

namespace KeyedTree

open Grammar

variable {row trees children : List Tree} {items : List Json} {members : List (String × Json)}

/-! ## Rows -/

namespace Json

/-- A value has what its parts make it have. -/
@[elab_as_elim]
theorem induction_parts {motive : Json → Prop} (null : motive .null)
    (bool : ∀ value, motive (.bool value)) (number : ∀ value, motive (.number value))
    (string : ∀ value, motive (.string value))
    (array : ∀ items, (∀ item ∈ items, motive item) → motive (.array items))
    (object : ∀ members, (∀ member ∈ members, motive member.2) → motive (.object members)) :
    ∀ json, motive json
  | .null => null
  | .bool value => bool value
  | .number value => number value
  | .string value => string value
  | .array items =>
      array items fun item _ => induction_parts null bool number string array object item
  | .object members =>
      object members fun member _ => induction_parts null bool number string array object member.2
termination_by json => sizeOf json
decreasing_by
  · have hitem := List.sizeOf_lt_of_mem ‹item ∈ items›
    simp only [Json.array.sizeOf_spec]
    omega
  · have hmember := List.sizeOf_lt_of_mem ‹member ∈ members›
    have hvalue : sizeOf member.2 < sizeOf member := by
      obtain ⟨key, value⟩ := member
      simp only [Prod.mk.sizeOf_spec]
      omega
    simp only [Json.object.sizeOf_spec]
    omega

theorem setMember_of_new {key : String} (hnew : key ∉ members.map Prod.fst) (value : Json) :
    setMember key value members = members ++ [(key, value)] := by
  induction members with
  | nil => rfl
  | cons member rest ih =>
      obtain ⟨hne, hnew⟩ := List.ne_and_not_mem_of_not_mem_cons hnew
      rw [setMember, if_neg (Ne.symm hne), ih hnew, List.cons_append]

/-- A value is converted to a tree, which is not autosorted and has no key. -/
structure Becomes (json : Json) (tree : Tree) : Prop where
  converted : json.toTree = .ok tree
  unsorted : tree.head.autosort = false
  keyless : tree.key = ""

/-- A member is converted to the tree of its value, under its key. -/
def MemberBecomes (member : String × Json) (tree : Tree) : Prop :=
  member.1 ≠ "" ∧ ∃ child, member.2.Becomes child ∧ tree = child.withKey member.1

theorem itemsToTree_of_becomes (hitems : List.Forall₂ Becomes items trees) (row : List Tree) :
    itemsToTree (arrayOf row) items = .ok (arrayOf (row ++ trees)) := by
  induction hitems generalizing row with
  | nil => rw [itemsToTree, List.append_nil]
  | cons hitem _ ih =>
      rw [itemsToTree_cons hitem.converted hitem.unsorted, ih, List.append_assoc,
        List.singleton_append]

theorem membersToTree_of_becomes (row : List Tree)
    (hmembers : List.Forall₂ MemberBecomes members trees)
    (hnodup : (row.map Tree.key ++ members.map Prod.fst).Nodup) :
    membersToTree (objectOf row) members = .ok (objectOf (row ++ trees)) := by
  induction hmembers generalizing row with
  | nil => rw [membersToTree, List.append_nil]
  | @cons member tree members trees hmember _ ih =>
      obtain ⟨hkey, child, hchild, rfl⟩ := hmember
      obtain ⟨hrow, hnew, hnext⟩ := nodup_withKey child hnodup
      rw [membersToTree_cons hkey hchild.converted hchild.unsorted hrow hnew, ih _ hnext,
        List.append_assoc, List.singleton_append]

theorem becomes_array (hitems : List.Forall₂ Becomes items trees) :
    (array items).Becomes (arrayOf trees) :=
  ⟨itemsToTree_of_becomes hitems [], rfl, rfl⟩

theorem becomes_object (hmembers : List.Forall₂ MemberBecomes members trees)
    (hnodup : (members.map Prod.fst).Nodup) : (object members).Becomes (objectOf trees) :=
  ⟨membersToTree_of_becomes [] hmembers hnodup, rfl, rfl⟩

theorem payload_integer (n : Int64) : (Number.integer n.toInt).payload = .ok (.integer n) := by
  rw [Number.payload, if_pos (Numeral.fitsInt64_iff.mpr ⟨n.le_toInt, n.toInt_lt⟩),
    Int64.ofInt_toInt]

theorem becomes_integer (n : Int64) : (number (.integer n.toInt)).Becomes (.leaf (.integer n)) := by
  refine ⟨?_, rfl, rfl⟩
  simp only [toTree, payload_integer]

end Json

namespace Tree

/-- A tree of a row is converted to the value of a member, which has its key. -/
def BecomesMember (tree : Tree) (member : String × Json) : Prop :=
  tree.key = member.1 ∧ tree.toJson = .ok member.2

variable {head : Head}

theorem rowToItems_of_toJson
    (hitems : List.Forall₂ (fun child item => child.toJson = .ok item) children items) :
    rowToItems children = .ok items := by
  induction hitems with
  | nil => rfl
  | cons hitem _ ih =>
      simp only [rowToItems, hitem, ih]
      rfl

theorem rowToMembers_of_becomes (before : List (String × Json))
    (hmembers : List.Forall₂ BecomesMember children members)
    (hnodup : (before.map Prod.fst ++ members.map Prod.fst).Nodup) :
    rowToMembers before children = .ok (before ++ members) := by
  induction hmembers generalizing before with
  | nil => rw [rowToMembers, List.append_nil]
  | @cons child member children members hmember _ ih =>
      obtain ⟨hkey, hvalue⟩ := hmember
      have hnew : member.1 ∉ before.map Prod.fst := by
        intro hmem
        exact (List.nodup_append.mp hnodup).2.2 _ hmem _ List.mem_cons_self rfl
      have hnext : ((before ++ [member]).map Prod.fst ++ members.map Prod.fst).Nodup := by
        rw [List.map_append, List.append_assoc]
        exact hnodup
      simp only [rowToMembers, hvalue, hkey]
      rw [Json.setMember_of_new hnew, ih _ hnext, List.append_assoc, List.singleton_append]

theorem toJson_array (hkind : head.kind = .array)
    (hitems : List.Forall₂ (fun child item => child.toJson = .ok item) children items) :
    (node head children).toJson = .ok (.array items) := by
  simp only [toJson, Head.payload_of_array hkind, rowToItems_of_toJson hitems]
  rfl

theorem toJson_object (hkind : head.kind = .object)
    (hmembers : List.Forall₂ BecomesMember children members)
    (hnodup : (members.map Prod.fst).Nodup) :
    (node head children).toJson = .ok (.object members) := by
  simp only [toJson, Head.payload_of_object hkind, rowToMembers_of_becomes [] hmembers hnodup]
  rfl

/-- The key of a tree does not show in its value. -/
theorem toJson_withKey {tree : Tree} {json : Json} (hjson : tree.toJson = .ok json) (key : String) :
    (tree.withKey key).toJson = .ok json := by
  obtain ⟨head, children⟩ := tree
  have hsame : { head with key }.payload = head.payload := rfl
  rw [withKey, withHead, toJson]
  rw [toJson] at hjson
  cases hpayload : head.payload <;> simp_all [Tree.head, Tree.children]

theorem rowAlike_of_alike
    (halike : List.Forall₂ (fun tree tree' => tree.alike tree' = true) row trees) :
    rowAlike row trees = true := by
  induction halike with
  | nil => rfl
  | cons hfirst _ ih => rw [rowAlike, hfirst, ih, Bool.and_self]

end Tree

/-! ## Back and forth -/

namespace Json

variable {json : Json}

theorem Unfit.of_item {item : Json} (hitem : item ∈ items) (hunfit : item.Unfit) :
    (array items).Unfit := by
  rcases hunfit with ⟨value, hinside, hvalue⟩ | ⟨members, hinside, hempty⟩
  · exact .inl ⟨value, .item hitem hinside, hvalue⟩
  · exact .inr ⟨members, .item hitem hinside, hempty⟩

theorem Unfit.of_member {member : String × Json} (hmember : member ∈ members)
    (hunfit : member.2.Unfit) :
    (object members).Unfit := by
  rcases hunfit with ⟨value, hinside, hvalue⟩ | ⟨inner, hinside, hempty⟩
  · exact .inl ⟨value, .member hmember hinside, hvalue⟩
  · exact .inr ⟨inner, .member hmember hinside, hempty⟩

/-- A value that can be converted comes back from its tree. -/
theorem becomes_and_returns (hkeys : json.NoRepeats) (hfit : ¬ json.Unfit) :
    ∃ tree, json.Becomes tree ∧ tree.toJson = .ok json := by
  induction json using induction_parts with
  | null => exact ⟨.leaf .null, ⟨rfl, rfl, rfl⟩, rfl⟩
  | bool value => exact ⟨.leaf (.bool value), ⟨rfl, rfl, rfl⟩, rfl⟩
  | string value => exact ⟨.leaf (.string value), ⟨rfl, rfl, rfl⟩, rfl⟩
  | number value =>
      obtain ⟨n, rfl⟩ : ∃ n : Int64, value = .integer n.toInt := by
        by_contra hnone
        exact hfit (.inl ⟨value, .refl _, not_exists.mp hnone⟩)
      exact ⟨.leaf (.integer n), becomes_integer n, rfl⟩
  | array items ih =>
      have hparts : ∀ item ∈ items, ∃ tree, item.Becomes tree ∧ tree.toJson = .ok item :=
        fun item hitem => ih item hitem (noRepeats_array_iff.mp hkeys item hitem)
          fun hunfit => hfit (hunfit.of_item hitem)
      choose! tree hbecomes hreturns using hparts
      refine ⟨arrayOf (items.map tree), becomes_array ?_, Tree.toJson_array rfl ?_⟩
      · exact List.forall₂_map_right_iff.mpr (List.forall₂_same.mpr hbecomes)
      · exact List.forall₂_map_left_iff.mpr (List.forall₂_same.mpr hreturns)
  | object members ih =>
      obtain ⟨hnodup, hdeep⟩ := noRepeats_object_iff.mp hkeys
      have hparts : ∀ member ∈ members, ∃ tree, MemberBecomes member tree ∧
          tree.BecomesMember member := by
        intro member hmember
        obtain ⟨child, hbecomes, hreturns⟩ := ih member hmember (hdeep member hmember)
          fun hunfit => hfit (hunfit.of_member hmember)
        have hkey : member.1 ≠ "" := fun hempty =>
          hfit (.inr ⟨members, .refl _, List.mem_map.mpr ⟨member, hmember, hempty⟩⟩)
        exact ⟨child.withKey member.1, ⟨hkey, child, hbecomes, rfl⟩, rfl,
          Tree.toJson_withKey hreturns member.1⟩
      choose! tree hbecomes hreturns using hparts
      refine ⟨objectOf (members.map tree), becomes_object ?_ hnodup,
        Tree.toJson_object rfl ?_ hnodup⟩
      · exact List.forall₂_map_right_iff.mpr (List.forall₂_same.mpr hbecomes)
      · exact List.forall₂_map_left_iff.mpr (List.forall₂_same.mpr hreturns)

end Json

namespace Tree

variable {head : Head}

theorem scalar_returns (hscalar : head.kind.isContainer = false)
    (hinitialized : head.kind ≠ .uninitialized) :
    ∃ json, (node head []).toJson = .ok json ∧ json.Becomes (.leaf head.payload) := by
  rw [toJson]
  cases hpayload : head.payload with
  | uninitialized => exact absurd (Head.kind_of_payload hpayload) hinitialized
  | null => exact ⟨.null, rfl, rfl, rfl, rfl⟩
  | bool value => exact ⟨.bool value, rfl, rfl, rfl, rfl⟩
  | integer value => exact ⟨.number (.integer value.toInt), rfl, Json.becomes_integer value⟩
  | string value => exact ⟨.string value, rfl, rfl, rfl, rfl⟩
  | array => simp [Head.kind_of_payload hpayload, Payload.kind, Kind.isContainer] at hscalar
  | object => simp [Head.kind_of_payload hpayload, Payload.kind, Kind.isContainer] at hscalar

/-- Neither the index nor the flags of a tree count when it is compared. -/
theorem alike_withKey {image : Tree} (hkind : image.kind = head.kind)
    (hscalar : image.head.scalar = head.scalar) (hrow : rowAlike image.children children = true) :
    (image.withKey head.key).alike (node head children) = true :=
  Bool.and_eq_true_iff.mpr ⟨Head.alike_of_eq hkind rfl hscalar, hrow⟩

/-- A tree in the shape of a document comes back alike from its value, once it has its key again. -/
theorem returns_alike {tree : Tree} (hwell : tree.WellFormed)
    (hdocumentary : tree.Throughout Documentary) :
    ∃ json image, tree.toJson = .ok json ∧ json.Becomes image ∧
      (image.withKey tree.key).alike tree = true := by
  induction hwell with
  | @node head children root below ih =>
      obtain ⟨hnode, hnodes⟩ := hdocumentary
      have hparts : ∀ child ∈ children, ∃ json image, child.toJson = .ok json ∧ json.Becomes image ∧
          (image.withKey child.key).alike child = true :=
        fun child hmem => ih child hmem (hnodes child hmem)
      choose! json image hjson himage halike using hparts
      by_cases hobject : head.kind = .object
      · let members := children.map fun child => (child.key, json child)
        let images := children.map fun child => (image child).withKey child.key
        have hkeys : (members.map Prod.fst).Nodup := by
          rw [List.map_map]
          exact hnode.distinct hobject
        have hvalues : List.Forall₂ BecomesMember children members :=
          List.forall₂_map_right_iff.mpr
            (List.forall₂_same.mpr fun child hmem => ⟨rfl, hjson child hmem⟩)
        have himages : List.Forall₂ Json.MemberBecomes members images := by
          refine List.forall₂_map_left_iff.mpr
            (List.forall₂_map_right_iff.mpr (List.forall₂_same.mpr ?_))
          exact fun child hmem =>
            ⟨hnode.named hobject child hmem, image child, himage child hmem, rfl⟩
        have hrow : rowAlike images children = true :=
          rowAlike_of_alike (List.forall₂_map_left_iff.mpr (List.forall₂_same.mpr halike))
        exact ⟨.object members, objectOf images, toJson_object hobject hvalues hkeys,
          Json.becomes_object himages hkeys,
          alike_withKey hobject.symm (root.scalar_eq_nothing hobject rfl).symm hrow⟩
      · by_cases harray : head.kind = .array
        · let items := children.map json
          let images := children.map image
          have hvalues : List.Forall₂ (fun child item => child.toJson = .ok item) children items :=
            List.forall₂_map_right_iff.mpr (List.forall₂_same.mpr hjson)
          have himages : List.Forall₂ Json.Becomes items images :=
            List.forall₂_map_left_iff.mpr
              (List.forall₂_map_right_iff.mpr (List.forall₂_same.mpr himage))
          have hrow : rowAlike images children = true := by
            refine rowAlike_of_alike (List.forall₂_map_left_iff.mpr (List.forall₂_same.mpr ?_))
            intro child hmem
            have hsame := halike child hmem
            rwa [hnode.anonymous harray child hmem, ← (himage child hmem).keyless,
              withKey_self] at hsame
          exact ⟨.array items, arrayOf images, toJson_array harray hvalues,
            Json.becomes_array himages,
            alike_withKey harray.symm (root.scalar_eq_nothing harray rfl).symm hrow⟩
        · have hscalar : head.kind.isContainer = false := Kind.isContainer_eq_false harray hobject
          obtain rfl : children = [] := List.map_eq_nil_iff.mp (root.childless hscalar)
          obtain ⟨json, hjson, himage⟩ := scalar_returns hscalar hnode.initialized
          exact ⟨json, .leaf head.payload, hjson, himage,
            alike_withKey head.kind_payload (Payload.scalar_of root.suits) rfl⟩

end Tree

/-- A value of any depth without fractions, with integers of 64 bits and with keys that are neither
empty nor repeated in an object is converted to a tree, and the tree to the same value, its members
in the same order. A well-formed tree in the shape of a document is converted to a value, and the
value to a tree that is alike. -/
theorem values_and_trees_return :
    (∀ json : Json, json.NoRepeats → ¬ json.Unfit →
      ∃ tree, json.toTree = .ok tree ∧ tree.toJson = .ok json) ∧
      ∀ tree : Tree, tree.WellFormed → tree.JsonShaped →
        ∃ json returned, tree.toJson = .ok json ∧ json.toTree = .ok returned ∧
          returned.alike tree = true := by
  refine ⟨?_, ?_⟩
  · intro json hkeys hfit
    obtain ⟨tree, hbecomes, hreturns⟩ := Json.becomes_and_returns hkeys hfit
    exact ⟨tree, hbecomes.converted, hreturns⟩
  · intro tree hwell hshape
    obtain ⟨json, image, hjson, himage, halike⟩ := Tree.returns_alike hwell hshape.documentary
    rw [hshape.keyless, ← himage.keyless, Tree.withKey_self] at halike
    exact ⟨json, image, hjson, himage.converted, halike⟩

/-- An object with its members out of key order. -/
def unsortedValue : Json :=
  .array [.object [("b", .number (.integer (-1))), ("a", .array [])]]

/-- The same as a tree. -/
def unsortedTree : Tree :=
  arrayOf [objectOf [(Tree.leaf (.integer (-1))).withKey "b", (arrayOf []).withKey "a"]]

theorem unsortedValue_returns :
    (unsortedValue.NoRepeats ∧ ¬ unsortedValue.Unfit ∧
      ∃ tree, unsortedValue.toTree = .ok tree ∧ tree.toJson = .ok unsortedValue) ∧
      unsortedTree.WellFormed ∧ unsortedTree.JsonShaped ∧
        ∃ json returned, unsortedTree.toJson = .ok json ∧ json.toTree = .ok returned ∧
          returned.alike unsortedTree = true := by
  have hempty : (Json.array []).NoRepeats := Json.noRepeats_array_iff.mpr nofun
  have hkeys : unsortedValue.NoRepeats :=
    Json.noRepeats_array_iff.mpr (List.forall_mem_singleton.mpr (Json.noRepeats_object_iff.mpr
      ⟨by decide, List.forall_mem_cons.mpr ⟨nofun, List.forall_mem_singleton.mpr hempty⟩⟩))
  have hfit : ¬ unsortedValue.Unfit := fun hunfit => hunfit.toTree_ne_ok rfl
  have harray : ∀ row, (∀ child ∈ row, child.WellFormed) → (arrayOf row).WellFormed :=
    fun row hrow => .node ⟨nofun, fun _ => rfl, nofun, rfl⟩ hrow
  have hmembers : ∀ child ∈ [(Tree.leaf (.integer (-1))).withKey "b", (arrayOf []).withKey "a"],
      child.WellFormed ∧ child.Throughout Tree.Documentary :=
    List.forall_mem_cons.mpr
      ⟨⟨(Tree.WellFormed.leaf _).with_key "b", .childless ⟨nofun, nofun, nofun, nofun⟩ rfl⟩,
        List.forall_mem_singleton.mpr
          ⟨(harray [] nofun).with_key "a", .childless ⟨nofun, nofun, nofun, nofun⟩ rfl⟩⟩
  have hwell : unsortedTree.WellFormed :=
    harray _ (List.forall_mem_singleton.mpr (.node ⟨fun _ => names_object (by decide),
      fun hother => absurd rfl hother, nofun, rfl⟩ fun child hmem => (hmembers child hmem).1))
  have hshape : unsortedTree.JsonShaped :=
    ⟨rfl, .node ⟨nofun, fun _ => by decide, nofun, nofun⟩ (List.forall_mem_singleton.mpr
      (.node ⟨nofun, nofun, fun _ => by decide, fun _ => by decide⟩
        fun child hmem => (hmembers child hmem).2))⟩
  obtain ⟨hvalue, htree⟩ := values_and_trees_return
  exact ⟨⟨hkeys, hfit, hvalue _ hkeys hfit⟩, hwell, hshape, htree _ hwell hshape⟩

end KeyedTree
