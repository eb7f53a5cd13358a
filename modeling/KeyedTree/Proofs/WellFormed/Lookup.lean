import Mathlib.Data.List.Induction
import Mathlib.Data.List.Perm.Basic
import KeyedTree.Proofs.WellFormed.Tree
import KeyedTree.Tree.Survey

/-! # Lookup in well-formed trees

In a well-formed tree the index of a node answers as a scan of the children does: it finds a child
of an object under a non-empty key, and nothing else. Listing the index gives the keyed children of
an object in ascending key order.
-/

namespace KeyedTree

/-! ## Distinct keys -/

namespace Tree

/-- Keys that no two children have, but for the empty one. -/
def Distinct (keys : List String) : Prop :=
  keys.Pairwise fun first second => first ≠ "" → first ≠ second

theorem Distinct.perm {keys others : List String} (hkeys : Distinct keys)
    (hperm : keys.Perm others) :
    Distinct others := by
  refine (hperm.pairwise_iff fun {first second} hne hsecond heq => ?_).mp hkeys
  exact hne (heq ▸ hsecond) heq.symm

theorem Distinct.of_nodup {keys : List String} (hkeys : keys.Nodup) : Distinct keys := by
  refine List.Pairwise.imp ?_ hkeys
  intro first second hne _
  exact hne

theorem Distinct.not_mem {before after : List String} {key : String}
    (hkeys : Distinct (before ++ key :: after)) (hkey : key ≠ "") : key ∉ before := by
  intro hmem
  exact (List.pairwise_append.mp hkeys).2.2 key hmem key List.mem_cons_self hkey rfl

end Tree

/-! ## Entries of an index -/

namespace KeyIndex

/-- The entries of an index are the positions that it looks up. -/
theorem mem_entries_iff (index : KeyIndex) {key : String} {pos : Nat} :
    (key, pos) ∈ index.entries ↔ index.get? key = some pos := by
  obtain ⟨entries, hasc⟩ := index
  unfold get?
  induction entries with
  | nil => simp
  | cons entry rest ih =>
      obtain ⟨hbelow, hrest⟩ := List.pairwise_cons.mp hasc
      rw [List.mem_cons, ih hrest, List.lookup_cons]
      by_cases hkey : key = entry.1
      · have hnone : rest.lookup key = none := lookup_eq_none_of_lt fun other hother =>
          hkey ▸ hbelow other hother
        rw [hnone, beq_iff_eq.mpr hkey]
        simp [Prod.ext_iff, hkey, eq_comm]
      · rw [beq_eq_false_iff_ne.mpr hkey]
        simp [Prod.ext_iff, hkey]

/-- No two positions of a row that is named have the same non-empty key. -/
theorem Names.distinct {index : KeyIndex} {keys : List String} (hnames : index.Names keys) :
    Tree.Distinct keys := by
  refine List.pairwise_iff_getElem.mpr fun first second hfirst hsecond hlt hkey heq => ?_
  have hsame := hnames.pos_unique hkey (List.getElem?_eq_getElem hfirst)
    (heq ▸ List.getElem?_eq_getElem hsecond)
  exact absurd hsame (Nat.ne_of_lt hlt)

/-- Every row of distinct keys is named by some index. -/
theorem exists_names {keys : List String} (hkeys : Tree.Distinct keys) :
    ∃ index : KeyIndex, index.Names keys := by
  induction keys using List.reverseRecOn with
  | nil => exact ⟨.empty, .nil⟩
  | append_singleton keys key ih =>
      obtain ⟨index, hnames⟩ := ih (hkeys.sublist (List.sublist_append_left keys [key]))
      have hnew : key = "" ∨ key ∉ keys := or_iff_not_imp_left.mpr fun hkey => hkeys.not_mem hkey
      have hnamed := hnames.insertAt (Nat.le_refl _) hnew
      rw [List.insertIdx_length_self] at hnamed
      exact ⟨_, hnamed⟩

/-- Building an index lists no key as repeated exactly if the keys are distinct. -/
theorem repeated_eq_nil_iff {keys : List String} : (ofKeys keys).2 = [] ↔ Tree.Distinct keys := by
  constructor
  · exact fun hnone => (names_ofKeys hnone).distinct
  · intro hkeys
    obtain ⟨index, hnames⟩ := exists_names hkeys
    rw [hnames.ofKeys_eq]

end KeyIndex

namespace Tree

/-- The children that have a key. -/
def keyedChildren (tree : Tree) : List Tree :=
  tree.children.filter (·.key ≠ "")

/-- The child under a key as a scan from left to right finds it. Only objects have children under
keys, and no child stands under the empty key. -/
def scan? (tree : Tree) (key : String) : Option Tree :=
  if tree.kind = .object ∧ key ≠ "" then tree.children.find? (·.key = key) else none

/-- What holds of a node whose index agrees with its children. -/
structure Indexed (node : Tree) : Prop where
  /-- no two children of an object share a non-empty key -/
  distinct : node.kind = .object → (node.keyedChildren.map key).Nodup
  /-- the index of an object tells where each keyed child stands, and nothing else -/
  positions : node.kind = .object → ∀ key pos,
    node.index.get? key = some pos ↔
      key ≠ "" ∧ ∃ child, node.children[pos]? = some child ∧ child.key = key
  /-- the empty key is never entered -/
  unentered : node.index.contains "" = false
  /-- the index of every other node is empty -/
  unindexed : node.kind ≠ .object → node.index = .empty
  /-- lookup agrees with a scan of the children -/
  lookup : ∀ key, node.childOf? key = node.scan? key
  /-- and so does the question whether there is a key -/
  presence : ∀ key, node.index.contains key = (node.scan? key).isSome
  /-- the index is listed in ascending key order -/
  ascending : node.indexed.Pairwise fun first second => first.1 < second.1
  /-- the listing holds exactly the keyed children of an object, and nothing for other nodes -/
  listing : node.indexed.Perm
    (if node.kind = .object then node.keyedChildren.map fun child => (child.key, child) else [])

variable {tree : Tree}

/-- The children of an object whose index names their keys stand under distinct keys. -/
theorem keyedChildren_pairwise (hnames : tree.index.Names tree.keys) :
    tree.keyedChildren.Pairwise fun first second => first.key ≠ second.key := by
  have hdistinct : tree.children.Pairwise fun first second => first.key ≠ "" →
      first.key ≠ second.key :=
    List.pairwise_map.mp hnames.distinct
  refine (hdistinct.filter (·.key ≠ "")).imp_of_mem fun hfirst _ hne => hne ?_
  simpa using (List.mem_filter.mp hfirst).2

/-- Looking up in an index that names the children's keys is scanning the children. -/
theorem childOf?_eq_find? (hnames : tree.index.Names tree.keys) {key : String} (hkey : key ≠ "") :
    tree.childOf? key = tree.children.find? (·.key = key) := by
  unfold childOf?
  rcases hnames.get?_cases key with ⟨pos, hget, _, hfound⟩ | ⟨hget, hnone⟩
  · obtain ⟨child, hchild, hname⟩ : ∃ child, tree.children[pos]? = some child ∧
      child.key = key := by
      simpa [keys, List.getElem?_map, Option.map_eq_some_iff] using (hfound pos).mpr rfl
    rw [hget, Option.bind_some, hchild]
    refine Eq.symm ((List.find?_eq_some_iff_getElem).mpr ?_)
    obtain ⟨hlt, hat⟩ := List.getElem?_eq_some_iff.mp hchild
    refine ⟨by simpa using hname, pos, hlt, hat, fun earlier hearlier => ?_⟩
    have hother := mt (hfound earlier).mp (Nat.ne_of_lt hearlier)
    rw [keys, List.getElem?_map, List.getElem?_eq_getElem (Nat.lt_trans hearlier hlt)] at hother
    simpa using hother
  · rw [hget, Option.bind_none]
    refine Eq.symm (List.find?_eq_none.mpr fun child hchild => ?_)
    obtain ⟨pos, hpos⟩ := List.mem_iff_getElem?.mp hchild
    have hother := hnone hkey pos
    rw [keys, List.getElem?_map, hpos] at hother
    simpa using hother

/-- In a well-formed node lookup is a scan of the children. -/
theorem childOf?_eq_scan? (hroot : tree.outline.WellFormed) (key : String) :
    tree.childOf? key = tree.scan? key := by
  unfold scan?
  by_cases hobject : tree.kind = .object
  · have hnames : tree.index.Names tree.keys := hroot.names hobject
    by_cases hkey : key = ""
    · have hnone : tree.index.get? key = none := (hnames.get?_eq_none_iff key).mpr (.inl hkey)
      rw [childOf?, hnone, if_neg fun h => h.2 hkey]
      rfl
    · rw [if_pos ⟨hobject, hkey⟩, childOf?_eq_find? hnames hkey]
  · have hempty : tree.index = .empty := hroot.unindexed hobject
    simp [childOf?, hempty, hobject]

/-- Whatever the index names is there. -/
theorem isSome_childOf? (hroot : tree.outline.WellFormed) (key : String) :
    (tree.childOf? key).isSome = tree.index.contains key := by
  unfold childOf? KeyIndex.contains
  cases hget : tree.index.get? key with
  | none => rfl
  | some pos =>
      have hlt := (hroot.names (hroot.kind_eq_object hget)).lt_length hget
      have hpos : pos < tree.children.length := by simpa [outline, keys] using hlt
      simp [hpos]

theorem indexed_ascending (tree : Tree) :
    tree.indexed.Pairwise fun first second => first.1 < second.1 := by
  unfold indexed
  refine List.Pairwise.filterMap _ (fun entry entry' hlt item hitem item' hitem' => ?_)
    tree.index.ascending
  simp only [Option.map_eq_some_iff] at hitem hitem'
  obtain ⟨_, _, rfl⟩ := hitem
  obtain ⟨_, _, rfl⟩ := hitem'
  exact hlt

theorem mem_indexed_iff (hnames : tree.index.Names tree.keys) {key : String} {child : Tree} :
    (key, child) ∈ tree.indexed ↔ child ∈ tree.keyedChildren ∧ child.key = key := by
  simp only [indexed, List.mem_filterMap, Prod.exists, KeyIndex.mem_entries_iff,
    Option.map_eq_some_iff, Prod.mk.injEq, keyedChildren, List.mem_filter, decide_eq_true_eq]
  constructor
  · rintro ⟨entered, pos, hget, found, hfound, rfl, rfl⟩
    have hkey := hnames.getElem?_eq hget
    rw [keys, List.getElem?_map, hfound, Option.map_some, Option.some.injEq] at hkey
    exact ⟨⟨List.mem_of_getElem? hfound, hkey ▸ hnames.ne_empty hget⟩, hkey⟩
  · rintro ⟨⟨hmem, hkeyed⟩, rfl⟩
    obtain ⟨pos, hpos⟩ := List.mem_iff_getElem?.mp hmem
    refine ⟨child.key, pos, (hnames child.key pos).mpr ⟨hkeyed, ?_⟩, child, hpos, rfl, rfl⟩
    rw [keys, List.getElem?_map, hpos]
    rfl

theorem indexed_perm (hnames : tree.index.Names tree.keys) :
    tree.indexed.Perm (tree.keyedChildren.map fun child => (child.key, child)) := by
  refine (List.perm_ext_iff_of_nodup ?_ ?_).mpr ?_
  · refine tree.indexed_ascending.imp fun {first second} hlt heq => ?_
    rw [heq] at hlt
    exact String.lt_irrefl _ hlt
  · refine List.pairwise_map.mpr ((keyedChildren_pairwise hnames).imp ?_)
    exact fun hne heq => hne (congrArg Prod.fst heq)
  · rintro ⟨key, child⟩
    rw [mem_indexed_iff hnames, List.mem_map]
    constructor
    · rintro ⟨hmem, rfl⟩
      exact ⟨child, hmem, rfl⟩
    · rintro ⟨_, hmem, heq⟩
      cases heq
      exact ⟨hmem, rfl⟩

/-- A well-formed node is indexed. -/
theorem indexed_of_outline (hroot : tree.outline.WellFormed) : tree.Indexed := by
  have hnames (hobject : tree.kind = .object) : tree.index.Names tree.keys :=
    hroot.names hobject
  have hempty (hobject : tree.kind ≠ .object) : tree.index = .empty :=
    hroot.unindexed hobject
  refine ⟨fun hobject => ?_, fun hobject key pos => ?_, ?_, hempty, childOf?_eq_scan? hroot,
    fun key => ?_, tree.indexed_ascending, ?_⟩
  · exact List.pairwise_map.mpr (keyedChildren_pairwise (hnames hobject))
  · rw [hnames hobject key pos, keys, List.getElem?_map, Option.map_eq_some_iff]
  · by_cases hobject : tree.kind = .object
    · exact ((hnames hobject).contains_eq_false_iff "").mpr (.inl rfl)
    · rw [hempty hobject]
      rfl
  · rw [← isSome_childOf? hroot, childOf?_eq_scan? hroot]
  · split
    next hobject => exact indexed_perm (hnames hobject)
    next hobject => simp [indexed, hempty hobject, KeyIndex.empty]

/-! ## All nodes of a tree -/

/-- Every node of a well-formed tree is the root of a well-formed tree. -/
theorem WellFormed.of_mem_nodes (htree : tree.WellFormed) {depth : Nat} {node : Tree}
    (hnode : (depth, node) ∈ tree.nodes) : node.WellFormed := by
  have hfrom : ∀ {start : Nat}, (depth, node) ∈ tree.nodesFrom start → node.WellFormed := by
    clear hnode
    induction htree with
    | @node head children root below ih =>
        intro start hnode
        rcases List.mem_cons.mp hnode with heq | hbelow
        · cases heq
          exact .node root below
        · clear root below hnode
          induction children with
          | nil => cases hbelow
          | cons child rest ihrest =>
              rcases List.mem_append.mp hbelow with hchild | hrest
              · exact ih child List.mem_cons_self hchild
              · exact ihrest (fun other hother => ih other (List.mem_cons_of_mem _ hother)) hrest
  exact hfrom hnode

end Tree

end KeyedTree
