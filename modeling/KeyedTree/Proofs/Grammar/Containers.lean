import KeyedTree.Proofs.Grammar.Basic
import KeyedTree.Proofs.WellFormed.Lookup
import KeyedTree.Proofs.WellFormed.Origins

/-! # Containers that are being read

A container that is being read holds the members or elements that were complete so far. Taking in
one more is the same as having read one more, unless a key is repeated.
-/

namespace KeyedTree

namespace KeyIndex

theorem names_ofKeys_of_nodup {keys : List String} (hkeys : keys.Nodup) :
    (ofKeys keys).1.Names keys :=
  names_ofKeys (repeated_eq_nil_iff.mpr (.of_nodup hkeys))

end KeyIndex

namespace Grammar

variable {row : List Tree} {value : Tree} {key : String}

/-- The index of an object names its members, if no key is repeated. -/
theorem names_object (hkeys : (row.map Tree.key).Nodup) :
    (objectOf row).outline.head.index.Names (objectOf row).outline.keys :=
  KeyIndex.names_ofKeys_of_nodup hkeys

/-- A newcomer comes in behind the others and takes its key, since the container is not
autosorted. -/
theorem insert_stamped (hvalue : value.head.autosort = false) :
    (RowChange.insert row.length ⟨value, Outline.stampFor value.head key false⟩).apply row =
      row ++ [value.withKey key] := by
  rw [RowChange.apply, Tree.stamped_stampFor, Tree.insertInto_length, Tree.withKey, ← hvalue]

/-- An object takes a member under a new key in behind the others. -/
theorem attachKeyed_object (hkeys : (row.map Tree.key).Nodup) (hnew : key ∉ row.map Tree.key)
    (hvalue : value.head.autosort = false) :
    (objectOf row).attachKeyed key value =
      (.ok row.length, objectOf (row ++ [value.withKey key])) := by
  have hnames := names_object hkeys
  have hmissing : (objectOf row).outline.head.index.get? key = none :=
    (hnames.get?_eq_none_iff key).mpr (.inr hnew)
  have hdecide := Outline.attach_of_blank_or_object .attachKeyed (some key) value value.head
    (.inr rfl : (objectOf row).outline.head.kind = .uninitialized ∨
      (objectOf row).outline.head.kind = .object)
  simp only [Option.getD_some] at hdecide
  rw [hmissing] at hdecide
  have hlength : (objectOf row).outline.keys.length = row.length := List.length_map _
  -- objects that are read are not autosorted, so the new member comes last
  have hplace : (if key = "" ∨ !(objectOf row).outline.head.autosort then
      (objectOf row).outline.keys.length else
      Outline.sortedPlace key (objectOf row).outline.keys) = row.length :=
    (if_pos (.inr rfl)).trans hlength
  have hnamed := hnames.insertAt (Nat.le_refl _) (.inr hnew)
  rw [List.insertIdx_length_self, hlength] at hnamed
  have hindex : (KeyIndex.ofKeys ((row ++ [value.withKey key]).map Tree.key)).1 =
      (objectOf row).outline.head.index.insertAt key row.length := by
    rw [List.map_append]
    exact congrArg Prod.fst hnamed.ofKeys_eq
  simp only [hplace] at hdecide
  have hperform := Tree.perform_changed hdecide
  rw [Tree.attachKeyed, hperform]
  refine congrArg (Prod.mk _) ?_
  change Tree.node _ _ = Tree.node { kind := .object, index := (KeyIndex.ofKeys _).1 } _
  rw [hindex]
  exact congrArg (Tree.node _) (insert_stamped hvalue)

/-- An array takes an element in behind the others. -/
theorem append_array (hvalue : value.head.autosort = false) :
    (arrayOf row).append value = (.ok row.length, arrayOf (row ++ [value])) := by
  have hlength : (arrayOf row).outline.keys.length = row.length := List.length_map _
  have hdecide : Outline.append value value.head (arrayOf row).outline =
      .changed ⟨(arrayOf row).head, .insert row.length
        ⟨value, Outline.stampFor value.head value.key false⟩⟩ row.length := by
    rw [← hlength]
    rfl
  rw [Tree.append, Tree.perform_changed hdecide]
  refine congrArg (Prod.mk _) (congrArg (Tree.node _) ((insert_stamped hvalue).trans ?_))
  obtain ⟨head, children⟩ := value
  rfl

/-! ## Holes -/

/-- An object takes a member in, unless its key is repeated. -/
theorem fill_member (hkeys : (row.map Tree.key).Nodup) (hkey : key ≠ "")
    (hvalue : value.head.autosort = false) (place : Cursor) :
    (Hole.member (objectOf row) key).fill value place =
      if key ∈ row.map Tree.key then .error (.malformed place (.duplicateKey key))
      else .ok (.object (objectOf (row ++ [value.withKey key])) .commaOrClose) := by
  have hcontains := (names_object hkeys).contains_iff key
  unfold Hole.fill
  by_cases hmem : key ∈ row.map Tree.key
  · rw [if_pos hmem]
    exact if_pos (hcontains.mpr ⟨hkey, hmem⟩)
  · rw [if_neg hmem]
    simp only
    rw [attachKeyed_object hkeys hmem hvalue]
    apply if_neg
    intro hrepeated
    exact hmem (hcontains.mp hrepeated).2

theorem fill_element (hvalue : value.head.autosort = false) (place : Cursor) :
    (Hole.element (arrayOf row)).fill value place =
      .ok (.array (arrayOf (row ++ [value])) .commaOrClose) := by
  unfold Hole.fill
  simp only
  rw [append_array hvalue]

/-- No value that a text denotes is autosorted. -/
theorem Value.autosort_eq_false {text : List Char} (hvalue : Value text value) :
    value.head.autosort = false := by
  cases hvalue <;> rfl

end Grammar

end KeyedTree
