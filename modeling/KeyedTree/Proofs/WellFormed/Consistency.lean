import Mathlib.Data.Nat.Basic
import KeyedTree.Proofs.Tree.Preorder
import KeyedTree.Proofs.WellFormed.Lookup

/-! # The check of all indexes

The check of all indexes compares the number of entries of an index with the number of keyed
children, and looks for a child under each entry's key at the entry's position. It does not look for
the entry of a child. Yet no entry can be missing, as long as the empty key is not entered: the
entries have distinct keys, all of these are keys of children, and there are as many of them as
keyed children. So the check answers yes exactly if every index of the tree is accurate, and in
particular for every well-formed tree.
-/

namespace KeyedTree

/-- No key is entered twice. -/
theorem KeyIndex.nodup_entered (index : KeyIndex) : (index.entries.map Prod.fst).Nodup := by
  refine List.pairwise_map.mpr (index.ascending.imp fun {first second} hlt heq => ?_)
  exact String.lt_irrefl _ (heq ▸ hlt)

/-- Keys are distinct if the non-empty ones occur once. -/
theorem Tree.distinct_iff_nodup {keys : List String} :
    Tree.Distinct keys ↔ (keys.filter (· ≠ "")).Nodup := by
  refine Iff.trans ?_ List.pairwise_filter.symm
  refine List.Pairwise.iff fun first second => ?_
  constructor
  · exact fun hne hfirst _ => hne (of_decide_eq_true hfirst)
  · exact fun hne hfirst heq => hne (decide_eq_true hfirst) (decide_eq_true (heq ▸ hfirst)) heq

/-- An index that names a row enters each of its non-empty keys once. -/
theorem KeyIndex.Names.perm_keys {index : KeyIndex} {keys : List String}
    (hnames : index.Names keys) :
    (index.entries.map Prod.fst).Perm (keys.filter (· ≠ "")) := by
  have hkeys : (keys.filter (· ≠ "")).Nodup := Tree.distinct_iff_nodup.mp hnames.distinct
  refine (List.perm_ext_iff_of_nodup index.nodup_entered hkeys).mpr fun key => ?_
  have hcontains := hnames.contains_iff key
  rw [contains, Option.isSome_iff_exists] at hcontains
  simp only [List.mem_map, Prod.exists, exists_and_right, exists_eq_right, mem_entries_iff,
    hcontains, List.mem_filter, decide_eq_true_eq]
  exact and_comm

theorem KeyIndex.Names.agrees {index : KeyIndex} {keys : List String} (hnames : index.Names keys) :
    index.agrees keys = true := by
  have hlength := hnames.perm_keys.length_eq
  rw [List.length_map] at hlength
  refine Bool.and_eq_true_iff.mpr ⟨beq_iff_eq.mpr hlength.symm, List.all_eq_true.mpr ?_⟩
  rintro ⟨key, pos⟩ hentry
  exact beq_iff_eq.mpr (hnames.getElem?_eq ((mem_entries_iff index).mp hentry))

/-! ## Comparing an index with a row -/

namespace KeyIndex

variable {index : KeyIndex} {keys : List String}

theorem size_eq_zero_iff : index.size = 0 ↔ index = .empty := by
  obtain ⟨entries, hasc⟩ := index
  simp [size, empty]

/-- Whatever is looked up has a key, unless the empty key is entered. -/
theorem ne_empty_of_get? (hunentered : index.contains "" = false) {key : String} {pos : Nat}
    (hget : index.get? key = some pos) : key ≠ "" := by
  rintro rfl
  rw [contains, hget] at hunentered
  cases hunentered

theorem getElem?_of_agrees (hagrees : index.agrees keys = true) {key : String} {pos : Nat}
    (hget : index.get? key = some pos) : keys[pos]? = some key :=
  beq_iff_eq.mp
    (List.all_eq_true.mp (Bool.and_eq_true_iff.mp hagrees).2 _ ((mem_entries_iff index).mpr hget))

/-- An index that passes the comparison with a row enters each of its non-empty keys once. -/
theorem perm_keys_of_agrees (hunentered : index.contains "" = false)
    (hagrees : index.agrees keys = true) :
    (index.entries.map Prod.fst).Perm (keys.filter (· ≠ "")) := by
  have hincluded : index.entries.map Prod.fst ⊆ keys.filter (· ≠ "") := by
    intro key hkey
    obtain ⟨⟨entered, pos⟩, hentry, rfl⟩ := List.mem_map.mp hkey
    have hget := (mem_entries_iff index).mp hentry
    exact List.mem_filter.mpr ⟨List.mem_of_getElem? (getElem?_of_agrees hagrees hget),
      decide_eq_true (ne_empty_of_get? hunentered hget)⟩
  have hcount : (keys.filter (· ≠ "")).length = index.size :=
    beq_iff_eq.mp (Bool.and_eq_true_iff.mp hagrees).1
  -- so many distinct keys leave none of as many out
  refine (List.subperm_of_subset index.nodup_entered hincluded).perm_of_length_le ?_
  rw [hcount, List.length_map, size]

theorem distinct_of_agrees (hunentered : index.contains "" = false)
    (hagrees : index.agrees keys = true) :
    Tree.Distinct keys :=
  Tree.distinct_iff_nodup.mpr
    ((perm_keys_of_agrees hunentered hagrees).nodup_iff.mp index.nodup_entered)

/-- The comparison of an index with a row is exact, unless the empty key is entered. -/
theorem agrees_eq_true_iff (hunentered : index.contains "" = false) :
    index.agrees keys = true ↔ index.Names keys := by
  refine ⟨fun hagrees key pos => ⟨fun hget => ?_, fun ⟨hkey, hpos⟩ => ?_⟩, Names.agrees⟩
  · exact ⟨ne_empty_of_get? hunentered hget, getElem?_of_agrees hagrees hget⟩
  · have hentered : key ∈ index.entries.map Prod.fst := by
      rw [(perm_keys_of_agrees hunentered hagrees).mem_iff, List.mem_filter]
      exact ⟨List.mem_of_getElem? hpos, decide_eq_true hkey⟩
    obtain ⟨⟨_, found⟩, hentry, rfl⟩ := List.mem_map.mp hentered
    have hget := (mem_entries_iff index).mp hentry
    obtain ⟨_, hnamed⟩ := exists_names (distinct_of_agrees hunentered hagrees)
    rwa [hnamed.pos_unique hkey (getElem?_of_agrees hagrees hget) hpos] at hget

/-- If the empty key is entered, the numbers can agree although a child is missing. -/
example : (⟨[("", 0)], by simp⟩ : KeyIndex).agrees ["", "a"] = true := by
  decide

end KeyIndex

/-! ## The check of a tree -/

namespace Tree

variable {tree node : Tree}

theorem indexFits_of_wellFormed (hroot : tree.outline.WellFormed) : tree.indexFits = true := by
  unfold indexFits
  split
  next hobject => exact (hroot.names hobject).agrees
  next hother =>
    have hindex : tree.index = .empty := hroot.unindexed hother
    rw [hindex]
    rfl

theorem rowConsistent_eq_true_iff {row : List Tree} :
    rowConsistent row = true ↔ ∀ child ∈ row, child.consistent = true := by
  induction row with
  | nil => simp [rowConsistent]
  | cons child rest ih => rw [rowConsistent, Bool.and_eq_true, ih, List.forall_mem_cons]

/-- The check of all indexes of a well-formed tree answers yes. -/
theorem WellFormed.consistent (htree : tree.WellFormed) : tree.consistent = true := by
  induction htree with
  | node hroot _ ih =>
      rw [Tree.consistent, Bool.and_eq_true]
      exact ⟨indexFits_of_wellFormed hroot, rowConsistent_eq_true_iff.mpr ih⟩

/-- The check of all indexes asks every node. -/
theorem consistent_eq_true_iff :
    tree.consistent = true ↔ ∀ node ∈ tree.preorder, node.indexFits = true := by
  induction tree using Tree.induction with
  | node head children ih =>
      rw [consistent, Bool.and_eq_true, rowConsistent_eq_true_iff, preorder_node,
        List.forall_mem_cons, List.forall_mem_flatMap]
      exact and_congr_right fun _ => forall₂_congr ih

/-- What holds of a node whose index tells the truth about its children. -/
structure Accurate (node : Tree) : Prop where
  /-- the index of an object tells where each keyed child stands, and nothing else -/
  positions : node.kind = .object → ∀ key pos,
    node.index.get? key = some pos ↔
      key ≠ "" ∧ ∃ child, node.children[pos]? = some child ∧ child.key = key
  /-- the index of every other node is empty -/
  unindexed : node.kind ≠ .object → node.index = .empty

/-- What can be wrong with the index of a node. -/
inductive Misindexed (node : Tree) : Prop
  /-- a child of an object is not entered under its key -/
  | missing {pos : Nat} {child : Tree} (hobject : node.kind = .object)
      (hchild : node.children[pos]? = some child) (hkey : child.key ≠ "")
      (hnone : node.index.get? child.key = none)
  /-- a key is entered that no child has -/
  | stale {key : String} {pos : Nat} (hobject : node.kind = .object)
      (hentry : node.index.get? key = some pos) (hgone : ∀ child ∈ node.children, child.key ≠ key)
  /-- a child is entered at another position than its own -/
  | shifted {pos entered : Nat} {child : Tree} (hobject : node.kind = .object)
      (hchild : node.children[pos]? = some child)
      (hentry : node.index.get? child.key = some entered) (helsewhere : entered ≠ pos)
  /-- two children of an object have the same key -/
  | duplicated {first second : Nat} {child other : Tree} (hobject : node.kind = .object)
      (hchild : node.children[first]? = some child) (hother : node.children[second]? = some other)
      (hapart : first ≠ second) (hkey : child.key ≠ "") (hsame : other.key = child.key)
  /-- a key is entered in the index of a node that is no object -/
  | foreign {key : String} {pos : Nat} (hkind : node.kind ≠ .object)
      (hentry : node.index.get? key = some pos)

theorem accurate_iff :
    node.Accurate ↔
      (node.kind = .object → node.index.Names node.keys) ∧
        (node.kind ≠ .object → node.index = .empty) := by
  have hplace (key : String) (pos : Nat) :
      (∃ child, node.children[pos]? = some child ∧ child.key = key) ↔
        node.keys[pos]? = some key := by
    rw [keys, List.getElem?_map, Option.map_eq_some_iff]
  constructor
  · rintro ⟨hpositions, hunindexed⟩
    refine ⟨fun hobject key pos => ?_, hunindexed⟩
    rw [hpositions hobject, hplace]
  · rintro ⟨hnames, hunindexed⟩
    refine ⟨fun hobject key pos => ?_, hunindexed⟩
    rw [hnames hobject key pos, hplace]

theorem indexFits_eq_true_iff (hunentered : node.index.contains "" = false) :
    node.indexFits = true ↔ node.Accurate := by
  rw [accurate_iff, indexFits]
  by_cases hobject : node.kind = .object
  · simp [hobject, KeyIndex.agrees_eq_true_iff hunentered]
  · simp [hobject, KeyIndex.size_eq_zero_iff]

theorem Misindexed.not_accurate (hdefect : node.Misindexed)
    (hunentered : node.index.contains "" = false) :
    ¬node.Accurate := by
  rintro ⟨hpositions, hunindexed⟩
  have hentered {pos : Nat} {child : Tree} (hobject : node.kind = .object)
      (hchild : node.children[pos]? = some child) (hkey : child.key ≠ "") :
      node.index.get? child.key = some pos :=
    (hpositions hobject child.key pos).mpr ⟨hkey, child, hchild, rfl⟩
  cases hdefect with
  | missing hobject hchild hkey hnone =>
      rw [hentered hobject hchild hkey] at hnone
      cases hnone
  | stale hobject hentry hgone =>
      obtain ⟨_, child, hchild, hkey⟩ := (hpositions hobject _ _).mp hentry
      exact hgone child (List.mem_of_getElem? hchild) hkey
  | shifted hobject hchild hentry helsewhere =>
      rw [hentered hobject hchild (KeyIndex.ne_empty_of_get? hunentered hentry)] at hentry
      exact helsewhere (Option.some.inj hentry).symm
  | duplicated hobject hchild hother hapart hkey hsame =>
      -- both children would have to be entered under the one key
      have hsecond := hentered hobject hother (hsame ▸ hkey)
      rw [hsame, hentered hobject hchild hkey] at hsecond
      exact hapart (Option.some.inj hsecond)
  | foreign hkind hentry =>
      rw [hunindexed hkind] at hentry
      cases hentry

/-- There are no other defects than these. -/
theorem accurate_of_not_misindexed (hsound : ¬node.Misindexed)
    (hunentered : node.index.contains "" = false) :
    node.Accurate := by
  have hplace {pos entered : Nat} {child : Tree} (hobject : node.kind = .object)
      (hchild : node.children[pos]? = some child)
      (hentry : node.index.get? child.key = some entered) :
      entered = pos :=
    not_not.mp fun helsewhere => hsound (.shifted hobject hchild hentry helsewhere)
  refine ⟨fun hobject key pos => ⟨fun hentry => ?_, ?_⟩, fun hkind => ?_⟩
  · refine ⟨KeyIndex.ne_empty_of_get? hunentered hentry, ?_⟩
    by_contra hnowhere
    -- a child with the key would stand where it is entered
    refine hsound (.stale hobject hentry fun child hmem hkey => ?_)
    obtain ⟨at_, hchild⟩ := List.mem_iff_getElem?.mp hmem
    have hsame := hplace hobject hchild (hkey ▸ hentry)
    exact hnowhere ⟨child, hsame ▸ hchild, hkey⟩
  · rintro ⟨hkey, child, hchild, rfl⟩
    cases hentry : node.index.get? child.key with
    | none => exact absurd (.missing hobject hchild hkey hentry) hsound
    | some entered => rw [hplace hobject hchild hentry]
  · refine KeyIndex.ext_get? fun key => ?_
    cases hentry : node.index.get? key with
    | none => rfl
    | some pos => exact absurd (.foreign hkind hentry) hsound

theorem not_accurate_iff (hunentered : node.index.contains "" = false) :
    ¬node.Accurate ↔ node.Misindexed := by
  constructor
  · intro hwrong
    by_contra hsound
    exact hwrong (accurate_of_not_misindexed hsound hunentered)
  · exact fun hdefect => hdefect.not_accurate hunentered

/-- The check of all indexes is exact for every tree in which the empty key is entered nowhere. It
answers yes if and only if the index of every node, at any depth, is accurate, and no if and only if
some node has one of the defects: an entry that is missing, stale, shifted or in a node that is no
object, or a key that two children have. -/
theorem consistency_check_exact
    (hunentered : ∀ node ∈ tree.preorder, node.index.contains "" = false) :
    (tree.consistent = true ↔ ∀ node ∈ tree.preorder, node.Accurate) ∧
      (tree.consistent = false ↔ ∃ node ∈ tree.preorder, node.Misindexed) := by
  have hchecked : tree.consistent = true ↔ ∀ node ∈ tree.preorder, node.Accurate := by
    rw [consistent_eq_true_iff]
    exact forall₂_congr fun node hnode => indexFits_eq_true_iff (hunentered node hnode)
  refine ⟨hchecked, ?_⟩
  rw [← Bool.not_eq_true, hchecked]
  push Not
  exact exists_congr fun node => and_congr_right fun hnode =>
    not_accurate_iff (hunentered node hnode)

/-- A box whose index says of each of two children that it stands where the other one does. -/
def swappedBox : Tree :=
  let index := (KeyIndex.empty.set "a" 1).set "b" 0
  .node { kind := .array }
    [.node { kind := .object, index }
      [(leaf (.integer 1)).withKey "a", (leaf .null).withKey "b"]]

theorem swappedBox_found_wrong :
    (∀ node ∈ swappedBox.preorder, node.index.contains "" = false) ∧ swappedBox.consistent = false ∧
      ∃ node ∈ swappedBox.preorder, node.Misindexed := by
  have hunentered : ∀ node ∈ swappedBox.preorder, node.index.contains "" = false := by
    decide
  have hfails : swappedBox.consistent = false := by
    decide
  exact ⟨hunentered, hfails, (consistency_check_exact hunentered).2.mp hfails⟩

end Tree

end KeyedTree
