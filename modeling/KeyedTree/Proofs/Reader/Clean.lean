import KeyedTree.Proofs.Json.Bridge
import KeyedTree.Proofs.Reader.Autosort
import KeyedTree.Proofs.Tree.Ordered
import KeyedTree.Proofs.WellFormed.Consistency

/-! # Trees that are read are clean

Whatever text a tree is read from, nothing of the way it was put together is left in it: no node is
uninitialized or overwritable, keys stand at the members of objects and nowhere else, every index
fits, and the flag of the options is on every node below the root. This holds of the tree that the
text denotes, and putting objects in key order keeps it.
-/

namespace KeyedTree

open Grammar

/-! ## What a text denotes -/

/-- A node as a text denotes it: it has the shape of a document and none of its flags is set. -/
structure Tree.Pristine (node : Tree) : Prop where
  documentary : node.Documentary
  locked : node.head.overwrite = false
  unsorted : node.head.autosort = false

namespace Grammar

variable {row : List Tree}

/-- A tree below which, its root included, every node is as a text denotes it, and which has no
key. -/
def Untouched (tree : Tree) : Prop :=
  tree.key = "" ∧ tree.Throughout Tree.Pristine

theorem untouched_leaf {payload : Payload} (hinitialized : payload.kind ≠ .uninitialized) :
    Untouched (.leaf payload) :=
  ⟨rfl, .childless ⟨⟨hinitialized, nofun, nofun, fun _ => .nil⟩, rfl, rfl⟩ rfl⟩

theorem untouched_object (hrow : ∀ member ∈ row, member.key ≠ "" ∧ member.Throughout Tree.Pristine)
    (hkeys : (row.map Tree.key).Nodup) : Untouched (objectOf row) :=
  ⟨rfl, .node
    ⟨⟨nofun, nofun, fun _ member hmember => (hrow member hmember).1, fun _ => hkeys⟩, rfl, rfl⟩
    fun member hmember => (hrow member hmember).2⟩

theorem untouched_array (hrow : ∀ element ∈ row, Untouched element) : Untouched (arrayOf row) :=
  ⟨rfl, .node ⟨⟨nofun, fun _ element helement => (hrow element helement).1, nofun, nofun⟩, rfl, rfl⟩
    fun element helement => (hrow element helement).2⟩

theorem Literal.initialized {token : List Char} {payload : Payload}
    (hliteral : Literal token payload) :
    payload.kind ≠ .uninitialized := by
  cases hliteral <;> nofun

/-- A value takes a key as a member, and no more. -/
theorem Untouched.withKey {value : Tree} (hvalue : Untouched value) (key : String) :
    (value.withKey key).Throughout Tree.Pristine := by
  obtain ⟨⟨hdocumentary, hlocked, hunsorted⟩, hbelow⟩ := Tree.throughout_iff.mp hvalue.2
  refine Tree.throughout_iff.mpr ⟨⟨?_, hlocked, hunsorted⟩, hbelow⟩
  exact ⟨hdocumentary.initialized, hdocumentary.anonymous, hdocumentary.named,
    hdocumentary.distinct⟩

-- the cases are those of the derivation: values are made of the values that their texts are made of
mutual

theorem Value.untouched {text : List Char} {value : Tree} : Value text value → Untouched value
  | .string _ => untouched_leaf nofun
  | .literal hliteral => untouched_leaf hliteral.initialized
  | .emptyObject _ => untouched_object nofun .nil
  | .object hmembers hkeys => untouched_object hmembers.untouched hkeys
  | .emptyArray _ => untouched_array nofun
  | .array helements => untouched_array helements.untouched

theorem Member.untouched {text : List Char} {member : Tree} :
    Member text member → member.key ≠ "" ∧ member.Throughout Tree.Pristine
  | .mk _ _ hkey _ _ hvalue _ => ⟨hkey, hvalue.untouched.withKey _⟩

theorem Members.untouched {body : List Char} {members : List Tree} :
    Members body members → ∀ member ∈ members, member.key ≠ "" ∧ member.Throughout Tree.Pristine
  | .one hmember => List.forall_mem_singleton.mpr hmember.untouched
  | .more hmembers hmember =>
      List.forall_mem_append.mpr
        ⟨hmembers.untouched, List.forall_mem_singleton.mpr hmember.untouched⟩

theorem Element.untouched {text : List Char} {element : Tree} :
    Element text element → Untouched element
  | .mk _ hvalue _ => hvalue.untouched

theorem Elements.untouched {body : List Char} {elements : List Tree} :
    Elements body elements → ∀ element ∈ elements, Untouched element
  | .one helement => List.forall_mem_singleton.mpr helement.untouched
  | .more helements helement =>
      List.forall_mem_append.mpr
        ⟨helements.untouched, List.forall_mem_singleton.mpr helement.untouched⟩

end

theorem Document.wellFormed {text : List Char} {tree : Tree} (hdocument : Document text tree) :
    tree.WellFormed := by
  rw [← String.toList_ofList (l := text)] at hdocument
  exact wellFormed_of_decode (decode_of_document hdocument)

end Grammar

/-! ## What is read -/

/-- Reading with either option is reading without sorting and arranging what is read. -/
theorem decode_arranged (stoppers : List Char) (autosort : Bool) (text : String) :
    decode ⟨stoppers, autosort⟩ text =
      (decode ⟨stoppers, false⟩ text).map fun tree => tree.arranged autosort := by
  cases autosort with
  | false => cases decode ⟨stoppers, false⟩ text <;> rfl
  | true => exact @Reader.outcome_sorting (.new ⟨stoppers, false⟩) rfl ⟨[], .fresh .nil⟩ text.toList

/-- What is read is the tree of some document, in key order if the option says so. -/
theorem exists_document_of_decode {options : ReadOptions} {text : String} {tree : Tree}
    (hdecode : decode options text = .ok tree) :
    ∃ part value, Document part value ∧ tree = value.arranged options.autosort := by
  obtain ⟨stoppers, autosort⟩ := options
  rw [decode_arranged] at hdecode
  obtain ⟨value, hvalue, rfl⟩ := map_eq_ok_iff.mp hdecode
  obtain ⟨part, hpart⟩ := (Reader.Underway.new stoppers).outcome hvalue
  exact ⟨part, value, hpart, rfl⟩

/-- A tree is clean for an option: it has the shape of a document, its indexes fit, no node is
overwritable, and the nodes have the flag of the option, but not a root without children. -/
structure Tree.Clean (autosort : Bool) (tree : Tree) : Prop where
  shaped : tree.JsonShaped
  wellFormed : tree.WellFormed
  consistent : tree.consistent = true
  locked : tree.Throughout fun node => node.head.overwrite = false
  root : tree.head.autosort = (autosort && tree.kind.isContainer)
  below : ∀ child ∈ tree.children, child.Throughout fun node => node.head.autosort = autosort

/-- What a text denotes is clean, in key order or as it is. -/
theorem Grammar.Document.clean {text : List Char} {value : Tree} (hdocument : Document text value)
    (autosort : Bool) : (value.arranged autosort).Clean autosort := by
  obtain ⟨hkeyless, hpristine⟩ := Element.untouched hdocument
  have hwell := hdocument.wellFormed
  have hdocumentary : value.Throughout Tree.Documentary :=
    hpristine.imp fun _ hnode => hnode.documentary
  have hshaped : value.JsonShaped := ⟨hkeyless, hdocumentary⟩
  cases autosort with
  | false =>
      have hunsorted := hpristine.imp fun _ hnode => hnode.unsorted
      exact
        { shaped := hshaped
          wellFormed := hwell
          consistent := hwell.consistent
          locked := hpristine.imp fun _ hnode => hnode.locked
          root := hunsorted.root
          below := (Tree.throughout_iff.mp hunsorted).2 }
  | true =>
      have hsorted := hwell.sorted hdocumentary
      have hkind : value.sorted.kind = value.kind := Tree.kind_ordered value
      refine
        { shaped := hshaped.sorted
          wellFormed := hsorted
          consistent := hsorted.consistent
          locked := hpristine.sorted (fun tree hnode => ?_) fun _ _ hnode => hnode
          root := hkind ▸ rfl
          below := (Tree.throughout_iff.mp (Tree.throughout_autosort_ordered value)).2 }
      obtain ⟨index, hhead⟩ := Tree.head_ordered tree
      rw [hhead]
      exact hnode.locked

/-- Every tree that is read is clean, whatever the text and the options are. It is converted to a
value, and the value to a tree that is alike. -/
theorem decode_clean {options : ReadOptions} {text : String} {tree : Tree}
    (hdecode : decode options text = .ok tree) :
    tree.Clean options.autosort ∧
      ∃ json returned, tree.toJson = .ok json ∧ json.toTree = .ok returned ∧
        returned.alike tree = true := by
  obtain ⟨part, value, hdocument, rfl⟩ := exists_document_of_decode hdecode
  have hclean := hdocument.clean options.autosort
  obtain ⟨json, image, hjson, himage, halike⟩ :=
    Tree.returns_alike hclean.wellFormed hclean.shaped.documentary
  rw [hclean.shaped.keyless, ← himage.keyless, Tree.withKey_self] at halike
  exact ⟨hclean, json, image, hjson, himage.converted, halike⟩

/-- An object with its members out of key order, and more text behind a stopper. -/
def stoppedText : String :=
  "\x7b\"b\":[null,[]],\"a\":\"x\"\x7d#rest"

theorem stoppedText_clean :
    ∃ tree, decode ⟨['#'], true⟩ stoppedText = .ok tree ∧ tree.Clean true ∧
      ∃ json returned, tree.toJson = .ok json ∧ json.toTree = .ok returned ∧
        returned.alike tree = true :=
  ⟨_, rfl, @decode_clean ⟨['#'], true⟩ stoppedText _ rfl⟩

end KeyedTree
