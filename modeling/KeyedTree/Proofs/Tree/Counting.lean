import Mathlib.Data.Set.Card
import Mathlib.Order.Bounds.Basic
import KeyedTree.Proofs.Tree.Preorder
import KeyedTree.Tree.Census

/-! # What a census counts

Taking the census of a tree is entering its nodes one after the other, as they are listed in
pre-order. So the census tells how many paths of the tree lead to a node of each kind and how long
the longest path is, and it does not matter in which order the children of a node stand.
-/

namespace KeyedTree

/-! ## Entering nodes -/

namespace Census

variable {census : Census} {kind : Kind} {depth : Nat}

/-- The number of nodes of a kind. -/
def ofKind (census : Census) : Kind → Nat
  | .object => census.objects
  | .array => census.arrays
  | .string => census.strings
  | .integer => census.integers
  | .bool => census.bools
  | .null => census.nulls
  | .uninitialized => census.uninitialized

theorem ofKind_empty (kind : Kind) : ofKind {} kind = 0 := by
  cases kind <;> rfl

theorem ofKind_add (census : Census) (added kind : Kind) (depth : Nat) :
    (census.add added depth).ofKind kind = census.ofKind kind + if added = kind then 1 else 0 := by
  cases added <;> cases kind <;> rfl

theorem total_add (census : Census) (added : Kind) (depth : Nat) :
    (census.add added depth).total = census.total + 1 := by
  cases added <;> simp only [total, add] <;> omega

@[simp] theorem maxDepth_add (census : Census) (added : Kind) (depth : Nat) :
    (census.add added depth).maxDepth = max census.maxDepth depth := by
  cases added <;> rfl

theorem ext_ofKind {first second : Census} (hkinds : ∀ kind, first.ofKind kind = second.ofKind kind)
    (hdepth : first.maxDepth = second.maxDepth) : first = second := by
  cases first
  cases second
  simp only [mk.injEq]
  exact ⟨hkinds .object, hkinds .array, hkinds .string, hkinds .integer, hkinds .bool, hkinds .null,
    hkinds .uninitialized, hdepth⟩

/-- It does not matter which of two nodes is entered first. -/
theorem add_right_comm (census : Census) (first second : Kind) (depth depth' : Nat) :
    (census.add first depth).add second depth' = (census.add second depth').add first depth := by
  refine ext_ofKind (fun kind => ?_) ?_
  · simp only [ofKind_add, Nat.add_right_comm]
  · simp only [maxDepth_add, max_right_comm]

/-- The census with a node of a listing entered. -/
def enter (census : Census) (entry : Nat × Tree) : Census :=
  census.add entry.2.kind entry.1

instance : RightCommutative enter where
  right_comm census first second :=
    add_right_comm census first.2.kind second.2.kind first.1 second.1

/-! ## Entering a listing -/

/-- Taking the census of a tree is entering the nodes of its listing. -/
theorem count_eq_foldl (census : Census) (depth : Nat) (tree : Tree) :
    count census depth tree = (tree.nodesFrom depth).foldl enter census := by
  induction tree using Tree.induction generalizing census depth with
  | node head children ih =>
      have hrow : ∀ (row : List Tree), row ⊆ children → ∀ (census : Census),
          countRow census (depth + 1) row = (row.flatMap (Tree.nodesFrom (depth + 1))).foldl enter
            census := by
        intro row hrow
        induction row with
        | nil => exact fun census => rfl
        | cons child rest ihrest =>
            intro census
            obtain ⟨hchild, hrest⟩ := List.cons_subset.mp hrow
            rw [countRow, ih child hchild, ihrest hrest, List.flatMap_cons, List.foldl_append]
      rw [count, hrow children (List.Subset.refl _), Tree.nodesFrom_node, List.foldl_cons]
      rfl

variable (entries : List (Nat × Tree))

theorem ofKind_foldl (census : Census) (kind : Kind) :
    (entries.foldl enter census).ofKind kind = census.ofKind kind +
      entries.countP (·.2.kind = kind) := by
  induction entries generalizing census with
  | nil => rfl
  | cons entry rest ih =>
      rw [List.foldl_cons, ih, enter, ofKind_add, List.countP_cons, Nat.add_assoc]
      simp only [decide_eq_true_eq, Nat.add_comm]

theorem total_foldl (census : Census) :
    (entries.foldl enter census).total = census.total + entries.length := by
  induction entries generalizing census with
  | nil => rfl
  | cons entry rest ih =>
      rw [List.foldl_cons, ih, enter, total_add, List.length_cons]
      omega

/-- The greatest depth is one that was entered or the one before. -/
theorem isGreatest_maxDepth_foldl (census : Census) :
    IsGreatest {depth | depth = census.maxDepth ∨ depth ∈ entries.map Prod.fst}
      (entries.foldl enter census).maxDepth := by
  induction entries generalizing census with
  | nil => exact ⟨.inl rfl, fun depth hdepth => (hdepth.resolve_right List.not_mem_nil).le⟩
  | cons entry rest ih =>
      obtain ⟨hreached, hbound⟩ := ih (census.enter entry)
      have hentered : (census.enter entry).maxDepth = max census.maxDepth entry.1 := maxDepth_add ..
      rw [List.foldl_cons]
      refine ⟨?_, fun depth hdepth => ?_⟩
      · rcases hreached with hfirst | hrest
        · rw [Set.mem_ofPred_eq, hfirst, hentered, List.map_cons, List.mem_cons]
          rcases le_total census.maxDepth entry.1 with hle | hle
          · exact .inr (.inl (max_eq_right hle))
          · exact .inl (max_eq_left hle)
        · exact .inr (List.mem_cons_of_mem _ hrest)
      · have hfirst :
            max census.maxDepth entry.1 ≤ (rest.foldl enter (census.enter entry)).maxDepth :=
          hentered ▸ hbound (.inl rfl)
        rw [Set.mem_ofPred_eq, List.map_cons, List.mem_cons] at hdepth
        rcases hdepth with rfl | rfl | hrest
        · exact le_trans (le_max_left ..) hfirst
        · exact le_trans (le_max_right ..) hfirst
        · exact hbound (.inr hrest)

end Census

/-! ## The paths of a tree -/

namespace Tree

variable {tree : Tree} {kind : Kind}

/-- The depth at which a node is listed is the length of the path that leads to it. -/
theorem map_fst_nodesFrom (depth : Nat) (tree : Tree) :
    (tree.nodesFrom depth).map Prod.fst = tree.paths.map fun path => depth + path.length := by
  induction tree using Tree.induction generalizing depth with
  | node head children ih =>
      have hrow : ∀ (row : List Tree), row ⊆ children → ∀ (start : Nat),
          (row.flatMap (nodesFrom (depth + 1))).map Prod.fst =
            (rowPaths start row).map fun path => depth + path.length := by
        intro row hrow
        induction row with
        | nil => exact fun start => rfl
        | cons child rest ihrest =>
            intro start
            obtain ⟨hchild, hrest⟩ := List.cons_subset.mp hrow
            rw [List.flatMap_cons, List.map_append, ih child hchild, ihrest hrest (start + 1),
              rowPaths, List.map_append, List.map_map]
            simp only [Function.comp_def, List.length_cons, Nat.add_assoc, Nat.add_comm 1]
      rw [nodesFrom_node, List.map_cons, hrow children (List.Subset.refl _) 0, paths, List.map_cons]
      rfl

theorem paths_nodup (tree : Tree) : tree.paths.Nodup :=
  tree.paths_ascending.imp ne_of_lt

/-- As many nodes of a tree satisfy a predicate as there are paths that lead to such nodes. -/
theorem countP_preorder_eq_ncard (tree : Tree) (holds : Tree → Bool) :
    tree.preorder.countP holds =
      {path | ∃ node, tree.subtree? path = some node ∧ holds node = true}.ncard := by
  have hset : {path | ∃ node, tree.subtree? path = some node ∧ holds node = true} =
      ((tree.paths.filter fun path => (tree.subtree? path).any holds).toFinset : Set
        (List Nat)) := by
    ext path
    rw [Set.mem_ofPred_eq, Finset.mem_coe, List.mem_toFinset, List.mem_filter, mem_paths_iff,
      ← Option.any_eq_true]
    exact ⟨fun hholds => ⟨Option.isSome_of_any hholds, hholds⟩, And.right⟩
  calc
    tree.preorder.countP holds = (tree.preorder.map some).countP (Option.any holds) := by
      rw [List.countP_map]
      rfl
    _ = tree.paths.countP fun path => (tree.subtree? path).any holds := by
      rw [← map_subtree?_paths, List.countP_map]
      rfl
    _ = {path | ∃ node, tree.subtree? path = some node ∧ holds node = true}.ncard := by
      rw [hset, Set.ncard_coe_finset, List.toFinset_card_of_nodup (tree.paths_nodup.filter _),
        List.countP_eq_length_filter]

/-! ## The census of a tree -/

theorem census_eq_foldl (tree : Tree) : tree.census = tree.nodes.foldl Census.enter {} :=
  Census.count_eq_foldl {} 0 tree

theorem ofKind_census (tree : Tree) (kind : Kind) :
    tree.census.ofKind kind = tree.preorder.countP (·.kind = kind) := by
  rw [census_eq_foldl, Census.ofKind_foldl, Census.ofKind_empty, Nat.zero_add, preorder,
    List.countP_map]
  rfl

theorem total_census (tree : Tree) : tree.census.total = tree.preorder.length := by
  rw [census_eq_foldl, Census.total_foldl, preorder, List.length_map]
  exact Nat.zero_add _

/-- The nodes of a kind are the root, if it is of that kind, and those below the children. -/
theorem ofKind_census_node (head : Head) (row : List Tree) (kind : Kind) :
    (node head row).census.ofKind kind =
      (if head.kind = kind then 1 else 0) +
        (row.map fun child => child.census.ofKind kind).sum := by
  simp only [ofKind_census, preorder_node, List.countP_cons, List.countP_flatMap, decide_eq_true_eq,
    Function.comp_def]
  exact Nat.add_comm _ _

theorem total_census_node (head : Head) (row : List Tree) :
    (node head row).census.total = 1 + (row.map fun child => child.census.total).sum := by
  simp only [total_census, preorder_node, List.length_cons, List.length_flatMap]
  exact Nat.add_comm _ _

/-- The order of the children does not matter, not even to the greatest depth. -/
theorem census_node_perm (head : Head) {row row' : List Tree} (hperm : row.Perm row') :
    (node head row).census = (node head row').census := by
  simp only [census_eq_foldl, nodes, nodesFrom_node, List.foldl_cons]
  exact (hperm.flatMap_right _).foldl_eq _

end Tree

/-- The greatest depth of a census is the length of the longest path to a node. -/
theorem Tree.isGreatest_maxDepth_census (tree : Tree) :
    IsGreatest {depth | ∃ path node, tree.subtree? path = some node ∧ path.length = depth}
      tree.census.maxDepth := by
  have hlengths : {depth | ∃ path node, tree.subtree? path = some node ∧ path.length = depth} =
      {depth | depth = 0 ∨ depth ∈ tree.nodes.map Prod.fst} := by
    ext depth
    rw [nodes, map_fst_nodesFrom]
    simp only [Set.mem_ofPred_eq, List.mem_map, mem_paths_iff, Option.isSome_iff_exists,
      Nat.zero_add, ← exists_and_right]
    refine ⟨.inr, ?_⟩
    rintro (rfl | hpath)
    · exact ⟨[], tree, tree.subtree?_nil, rfl⟩
    · exact hpath
  rw [hlengths, census_eq_foldl]
  exact Census.isGreatest_maxDepth_foldl tree.nodes {}

/-- The census of a tree is exact. For each kind it gives the number of paths that lead to a node of
this kind, in total the number of all paths that lead to a node, and as the greatest depth the
length of the longest of these paths. The counts of a node are those of the node itself and the sums
over its children, and a node with the same children in another order has the same census. -/
theorem census_exact (tree : Tree) :
    (∀ kind, tree.census.ofKind kind =
        {path | ∃ node, tree.subtree? path = some node ∧ node.kind = kind}.ncard) ∧
      tree.census.total = {path | ∃ node, tree.subtree? path = some node}.ncard ∧
      IsGreatest {depth | ∃ path node, tree.subtree? path = some node ∧ path.length = depth}
        tree.census.maxDepth ∧
      (∀ kind, tree.census.ofKind kind =
        (if tree.kind = kind then 1 else 0) +
          (tree.children.map fun child => child.census.ofKind kind).sum) ∧
      tree.census.total = 1 + (tree.children.map fun child => child.census.total).sum ∧
      ∀ row, row.Perm tree.children → (Tree.node tree.head row).census = tree.census := by
  refine ⟨fun kind => ?_, ?_, tree.isGreatest_maxDepth_census, ?_⟩
  · simpa using (tree.ofKind_census kind).trans (tree.countP_preorder_eq_ncard (·.kind = kind))
  · have hall := tree.countP_preorder_eq_ncard fun _ => true
    simpa [tree.total_census] using hall
  · obtain ⟨head, children⟩ := tree
    exact ⟨Tree.ofKind_census_node head children, Tree.total_census_node head children,
      fun row hperm => Tree.census_node_perm head hperm⟩

end KeyedTree
