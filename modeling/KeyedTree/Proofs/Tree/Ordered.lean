import KeyedTree.Proofs.Grammar.Rendering
import KeyedTree.Proofs.Reader.KeyOrder
import KeyedTree.Proofs.Tree.Content

/-! # Trees in key order

Putting the members of all objects in key order keeps every node with its payload and key and, below
the root, every child with its siblings. A tree in the shape of a document keeps this shape, and
doing it twice is doing it once.
-/

namespace KeyedTree.Tree

variable {tree other : Tree}

/-! ## Nodes in key order -/

@[simp] theorem payload_ordered (tree : Tree) : tree.ordered.payload = tree.payload := by
  obtain ⟨index, hhead⟩ := head_ordered tree
  rw [payload, hhead]
  rfl

@[simp] theorem kind_ordered (tree : Tree) : tree.ordered.kind = tree.kind := by
  obtain ⟨index, hhead⟩ := head_ordered tree
  rw [kind, hhead]
  rfl

/-- The children of a node in key order. Only members of an object change their places. -/
theorem children_ordered (tree : Tree) :
    tree.ordered.children =
      if tree.kind = .object then inKeyOrder (tree.children.map ordered)
      else tree.children.map ordered := by
  obtain ⟨head, children⟩ := tree
  have hsame : (node head children).kind = head.kind := rfl
  rw [ordered, hsame, orderedRow_eq_map]
  split <;> rfl

theorem children_ordered_perm (tree : Tree) :
    tree.ordered.children.Perm (tree.children.map ordered) := by
  rw [children_ordered]
  split
  next => exact inKeyOrder_perm _
  next => exact .refl _

theorem keys_ordered_perm (tree : Tree) : tree.ordered.keys.Perm tree.keys := by
  have hperm := (children_ordered_perm tree).map key
  rwa [map_key_ordered] at hperm

theorem exists_of_mem_ordered {child : Tree} (hchild : child ∈ tree.ordered.children) :
    ∃ original ∈ tree.children, original.ordered = child :=
  List.mem_map.mp ((children_ordered_perm tree).mem_iff.mp hchild)

/-- A property holds throughout a tree when it holds of the root and below it. -/
theorem throughout_iff {holds : Tree → Prop} :
    tree.Throughout holds ↔ holds tree ∧ ∀ child ∈ tree.children, child.Throughout holds := by
  constructor
  · rintro ⟨hroot, hbelow⟩
    exact ⟨hroot, hbelow⟩
  · obtain ⟨head, children⟩ := tree
    exact fun ⟨hroot, hbelow⟩ => .node hroot hbelow

theorem Throughout.imp {before after : Tree → Prop} (himp : ∀ tree, before tree → after tree)
    (htree : tree.Throughout before) : tree.Throughout after := by
  induction htree with
  | node hroot _ ih => exact .node (himp _ hroot) ih

/-- A property of all trees holds throughout a tree. -/
theorem throughout_of_forall {holds : Tree → Prop} (hall : ∀ tree, holds tree) (tree : Tree) :
    tree.Throughout holds := by
  induction tree using Tree.induction with
  | node head children ih => exact .node (hall _) ih

/-- What holds of the nodes of a tree and is kept when they are put in key order. -/
theorem Throughout.ordered {before after : Tree → Prop}
    (hkept : ∀ tree, before tree → after tree.ordered) (htree : tree.Throughout before) :
    tree.ordered.Throughout after := by
  induction htree with
  | @node head children hroot _ ih =>
      refine throughout_iff.mpr ⟨hkept _ hroot, fun child hchild => ?_⟩
      obtain ⟨original, horiginal, rfl⟩ := exists_of_mem_ordered hchild
      exact ih original horiginal

/-- What holds of the nodes of a tree in key order and held before. -/
theorem Throughout.of_ordered {before after : Tree → Prop}
    (hheld : ∀ tree, after tree.ordered → before tree) (htree : tree.ordered.Throughout after) :
    tree.Throughout before := by
  induction tree using Tree.induction with
  | node head children ih =>
      obtain ⟨hroot, hbelow⟩ := throughout_iff.mp htree
      refine .node (hheld _ hroot) fun child hchild => ih child hchild (hbelow _ ?_)
      exact (children_ordered_perm _).mem_iff.mpr (List.mem_map_of_mem hchild)

/-- What holds of the nodes of a document and is kept when it is sorted. -/
theorem Throughout.sorted {before after : Tree → Prop}
    (hkept : ∀ tree, before tree → after tree.ordered)
    (hflag : ∀ tree autosort, after tree → after (tree.withAutosort autosort))
    (htree : tree.Throughout before) : tree.sorted.Throughout after := by
  obtain ⟨hroot, hbelow⟩ := throughout_iff.mp (htree.ordered hkept)
  exact throughout_iff.mpr ⟨hflag _ _ hroot, hbelow⟩

/-- A tree in key order is autosorted throughout. -/
theorem throughout_autosort_ordered (tree : Tree) :
    tree.ordered.Throughout fun node => node.head.autosort = true :=
  (throughout_of_forall (fun _ => trivial) tree).ordered fun tree _ => autosort_ordered tree

/-! ## The shape of a document -/

theorem Documentary.ordered (htree : tree.Documentary) : tree.ordered.Documentary := by
  have hchild :
      ∀ child ∈ tree.ordered.children, ∃ original ∈ tree.children, original.key = child.key := by
    intro child hchild
    obtain ⟨original, horiginal, rfl⟩ := exists_of_mem_ordered hchild
    exact ⟨original, horiginal, (key_ordered original).symm⟩
  refine ⟨?_, ?_, ?_, ?_⟩
  · rw [kind_ordered]
    exact htree.initialized
  · intro harray child hmem
    obtain ⟨original, horiginal, hkey⟩ := hchild child hmem
    rw [← hkey]
    exact htree.anonymous (kind_ordered tree ▸ harray) original horiginal
  · intro hobject child hmem
    obtain ⟨original, horiginal, hkey⟩ := hchild child hmem
    rw [← hkey]
    exact htree.named (kind_ordered tree ▸ hobject) original horiginal
  · intro hobject
    exact (keys_ordered_perm tree).nodup_iff.mpr (htree.distinct (kind_ordered tree ▸ hobject))

theorem Documentary.withAutosort (htree : tree.Documentary) (autosort : Bool) :
    (tree.withAutosort autosort).Documentary :=
  ⟨htree.initialized, htree.anonymous, htree.named, htree.distinct⟩

theorem JsonShaped.sorted (htree : tree.JsonShaped) : tree.sorted.JsonShaped := by
  refine ⟨?_, htree.documentary.sorted (fun _ => Documentary.ordered) fun _ autosort hnode =>
    hnode.withAutosort autosort⟩
  rw [key_sorted]
  exact htree.keyless

theorem legible_ordered_iff : tree.ordered.Legible ↔ tree.Legible := by
  have hpayload := payload_ordered tree
  have hkey := key_ordered tree
  constructor
  · rintro ⟨hvalue, hchars⟩
    exact ⟨hpayload ▸ hvalue, hkey ▸ hchars⟩
  · rintro ⟨hvalue, hchars⟩
    exact ⟨hpayload.symm ▸ hvalue, hkey.symm ▸ hchars⟩

/-- The texts of a sorted document are those of the document. -/
theorem throughout_legible_sorted_iff :
    tree.sorted.Throughout Legible ↔ tree.Throughout Legible := by
  constructor
  · intro htree
    obtain ⟨⟨hvalue, hchars⟩, hbelow⟩ := throughout_iff.mp htree
    have hordered : tree.ordered.Throughout Legible := throughout_iff.mpr ⟨⟨hvalue, hchars⟩, hbelow⟩
    exact hordered.of_ordered fun _ => legible_ordered_iff.mp
  · intro htree
    exact htree.sorted (fun _ => legible_ordered_iff.mpr) fun _ _ hnode => ⟨hnode.value, hnode.key⟩

/-- The index of an object in key order names the members where they stand now. -/
theorem WellFormed.ordered (htree : tree.WellFormed) (hdocumentary : tree.Throughout Documentary) :
    tree.ordered.WellFormed := by
  induction htree with
  | @node head children hroot _ ih =>
      obtain ⟨hnode, hnodes⟩ := hdocumentary
      have hbelow : ∀ child ∈ children.map Tree.ordered, child.WellFormed :=
        List.forall_mem_map.mpr fun child hchild => ih child hchild (hnodes child hchild)
      have hkeys : (children.map Tree.ordered).map key = children.map key :=
        map_key_ordered children
      rw [Tree.ordered, orderedRow_eq_map]
      split
      next hobject =>
        have hperm := inKeyOrder_perm (children.map Tree.ordered)
        have hnodup : ((inKeyOrder (children.map Tree.ordered)).map key).Nodup := by
          rw [(hperm.map key).nodup_iff, hkeys]
          exact hnode.distinct hobject
        exact .node (.of_names hobject (hroot.scalar_eq_nothing hobject rfl)
            (KeyIndex.names_ofKeys_of_nodup hnodup))
          fun child hchild => hbelow child (hperm.mem_iff.mp hchild)
      next hother =>
        refine .node ⟨fun hobject => absurd hobject hother, fun _ => hroot.unindexed hother, ?_,
          hroot.suits⟩ hbelow
        rw [hkeys]
        exact hroot.childless

theorem WellFormed.sorted (htree : tree.WellFormed) (hdocumentary : tree.Throughout Documentary) :
    tree.sorted.WellFormed :=
  (htree.ordered hdocumentary).with_head rfl rfl rfl

/-! ## Sorting twice -/

theorem inKeyOrder_inKeyOrder (row : List Tree) : inKeyOrder (inKeyOrder row) = inKeyOrder row := by
  refine List.mergeSort_of_pairwise (List.pairwise_mergeSort ?_ ?_ row)
  · simpa using fun _ _ _ => List.le_trans
  · simpa using fun _ _ => List.le_total ..

/-- The order depends on the keys alone. -/
theorem map_inKeyOrder {f : Tree → Tree} (hkey : ∀ tree, (f tree).key = tree.key)
    (row : List Tree) :
    (inKeyOrder row).map f = inKeyOrder (row.map f) := by
  refine List.map_mergeSort fun first _ second _ => ?_
  rw [hkey, hkey]

/-- A tree in key order is in key order already. -/
theorem ordered_ordered (tree : Tree) : tree.ordered.ordered = tree.ordered := by
  induction tree using Tree.induction with
  | node head children ih =>
      have hrow : (children.map ordered).map ordered = children.map ordered := by
        rw [List.map_map]
        exact List.map_congr_left ih
      rw [ordered, orderedRow_eq_map]
      split
      next hobject =>
        simp only [ordered, hobject, if_true, orderedRow_eq_map]
        rw [map_inKeyOrder key_ordered, hrow, inKeyOrder_inKeyOrder]
      next hother =>
        simp only [ordered, hother, if_false, orderedRow_eq_map, hrow]

theorem ordered_withAutosort (tree : Tree) (autosort : Bool) :
    (tree.withAutosort autosort).ordered = tree.ordered := by
  obtain ⟨head, children⟩ := tree
  rfl

/-- Sorting a sorted document changes nothing. -/
theorem sorted_sorted (tree : Tree) : tree.sorted.sorted = tree.sorted := by
  have hkind : tree.sorted.kind = tree.kind := kind_ordered tree
  rw [sorted, hkind, sorted, ordered_withAutosort, ordered_ordered]

/-! ## The content of sorted trees -/

theorem content_ordered (tree : Tree) : tree.content.ordered.content = tree.ordered.content := by
  induction tree using Tree.induction with
  | node head children ih =>
      have hrow : ((children.map content).map ordered).map content =
          (children.map ordered).map content := by
        simp only [List.map_map]
        exact List.map_congr_left ih
      by_cases hobject : head.kind = .object
      · simp only [content, ordered, Head.kind_content, hobject, if_true, orderedRow_eq_map,
          rowContent_eq_map, map_inKeyOrder key_content, hrow]
        rfl
      · simp only [content, ordered, Head.kind_content, hobject, if_false, orderedRow_eq_map,
          rowContent_eq_map, hrow]
        exact congrArg (node · _) head.content_content

theorem content_sorted (tree : Tree) : tree.sorted.content = tree.ordered.content := by
  rw [sorted, withAutosort, withHead, content]
  conv_rhs => rw [← node_head_children tree.ordered, content]
  rfl

/-- Trees that are alike are so in key order. -/
theorem alike_sorted (halike : tree.alike other = true) :
    tree.sorted.alike other.sorted = true := by
  rw [alike_iff, content_sorted, content_sorted, ← content_ordered, alike_iff.mp halike,
    content_ordered]

/-! ## Sorted or not -/

/-- The document in key order, if it is wanted so. -/
def arranged (tree : Tree) (autosort : Bool) : Tree :=
  if autosort then tree.sorted else tree

/-- Once a document is in key order, it stays so. -/
theorem arranged_arranged (tree : Tree) (first second : Bool) :
    (tree.arranged first).arranged second = tree.arranged (first || second) := by
  cases first with
  | false => rfl
  | true =>
      cases second with
      | false => rfl
      | true => exact sorted_sorted tree

theorem alike_arranged (halike : tree.alike other = true) (autosort : Bool) :
    (tree.arranged autosort).alike (other.arranged autosort) = true := by
  cases autosort with
  | false => exact halike
  | true => exact alike_sorted halike

end KeyedTree.Tree
