import Mathlib.Data.List.Basic
import KeyedTree.Proofs.Tree.Paths
import KeyedTree.Tree.Survey

/-! # The nodes of a tree in pre-order

The listing of a tree puts every node in front of the nodes below it, and a child with all that is
below it in front of the next child. The paths to the nodes, listed in the same way, ascend. So
every node is listed once, and a node comes before another one if its path is the smaller of the
two.
-/

namespace KeyedTree.Tree

variable {tree : Tree} {row : List Tree} {path : List Nat}

/-! ## Nodes -/

/-- The subtrees of a tree in pre-order. -/
def preorder (tree : Tree) : List Tree :=
  tree.nodes.map Prod.snd

theorem rowNodesFrom_eq_flatMap (depth : Nat) (row : List Tree) :
    rowNodesFrom depth row = row.flatMap (nodesFrom depth) := by
  induction row with
  | nil => rfl
  | cons child rest ih => rw [rowNodesFrom, ih, List.flatMap_cons]

theorem nodesFrom_node (depth : Nat) (head : Head) (children : List Tree) :
    (node head children).nodesFrom depth =
      (depth, node head children) :: children.flatMap (nodesFrom (depth + 1)) := by
  rw [nodesFrom, rowNodesFrom_eq_flatMap]

/-- The depth at which a listing starts does not matter to the nodes. -/
theorem map_snd_nodesFrom (depth : Nat) (tree : Tree) :
    (tree.nodesFrom depth).map Prod.snd = tree.preorder := by
  suffices hsame : ∀ depth depth', (tree.nodesFrom depth).map Prod.snd =
      (tree.nodesFrom depth').map Prod.snd from
    hsame depth 0
  induction tree using Tree.induction with
  | node head children ih =>
      intro depth depth'
      rw [nodesFrom_node, nodesFrom_node, List.map_cons, List.map_cons, List.map_flatMap,
        List.map_flatMap]
      rw [List.flatMap_congr fun child hchild => ih child hchild (depth + 1) (depth' + 1)]

/-- A node stands in front of what is below its children. -/
@[simp] theorem preorder_node (head : Head) (children : List Tree) :
    (node head children).preorder = node head children :: children.flatMap preorder := by
  rw [preorder, nodes, nodesFrom_node, List.map_cons, List.map_flatMap]
  exact congrArg _ (List.flatMap_congr fun child _ => map_snd_nodesFrom 1 child)

/-! ## Paths -/

mutual

/-- The paths to the nodes of a tree, in pre-order. -/
def paths : Tree → List (List Nat)
  | .node _ children => [] :: rowPaths 0 children

/-- The paths to the nodes of a row of children, the first of which is at position `pos`. -/
def rowPaths (pos : Nat) : List Tree → List (List Nat)
  | [] => []
  | child :: rest => child.paths.map (pos :: ·) ++ rowPaths (pos + 1) rest

end

theorem mem_rowPaths_iff {start : Nat} :
    path ∈ rowPaths start row ↔
      ∃ pos child below, row[pos]? = some child ∧ below ∈ child.paths ∧
        path = (start + pos) :: below := by
  induction row generalizing start with
  | nil => simp [rowPaths]
  | cons first rest ih =>
      rw [rowPaths, List.mem_append, List.mem_map, ih]
      constructor
      · rintro (⟨below, hbelow, rfl⟩ | ⟨pos, child, below, hchild, hbelow, rfl⟩)
        · exact ⟨0, first, below, rfl, hbelow, rfl⟩
        · exact ⟨pos + 1, child, below, hchild, hbelow, by rw [Nat.add_right_comm, Nat.add_assoc]⟩
      · rintro ⟨_ | pos, child, below, hchild, hbelow, rfl⟩
        · obtain rfl : first = child := Option.some.inj hchild
          exact .inl ⟨below, hbelow, rfl⟩
        · exact .inr ⟨pos, child, below, hchild, hbelow, by rw [Nat.add_right_comm, Nat.add_assoc]⟩

/-- The paths of a tree are those that lead somewhere. -/
theorem mem_paths_iff : path ∈ tree.paths ↔ (tree.subtree? path).isSome := by
  induction tree using Tree.induction generalizing path with
  | node head children ih =>
      rw [paths, List.mem_cons]
      cases path with
      | nil => simp
      | cons pos below =>
          rw [subtree?_cons, children_node, mem_rowPaths_iff]
          constructor
          · rintro (heq | ⟨pos', child, below', hchild, hbelow, heq⟩)
            · cases heq
            · obtain ⟨rfl, rfl⟩ := List.cons.inj heq
              rw [Nat.zero_add, hchild, Option.bind_some]
              exact (ih child (List.mem_of_getElem? hchild)).mp hbelow
          · intro hthere
            obtain ⟨child, hchild⟩ :=
              Option.isSome_iff_exists.mp (Option.isSome_of_isSome_bind hthere)
            rw [hchild, Option.bind_some] at hthere
            have hbelow := (ih child (List.mem_of_getElem? hchild)).mpr hthere
            exact .inr ⟨pos, child, below, hchild, hbelow, by rw [Nat.zero_add]⟩

theorem rowPaths_ascending (hrow : ∀ child ∈ row, child.paths.Pairwise (· < ·)) (start : Nat) :
    (rowPaths start row).Pairwise (· < ·) := by
  induction row generalizing start with
  | nil => exact .nil
  | cons child rest ih =>
      obtain ⟨hchild, hrest⟩ := List.forall_mem_cons.mp hrow
      rw [rowPaths]
      refine List.pairwise_append.mpr
        ⟨?_, ih hrest (start + 1), fun first hfirst second hsecond => ?_⟩
      · exact List.pairwise_map.mpr (hchild.imp fun hlt => List.cons_lt_cons_self.mpr hlt)
      · -- a path through this child is smaller than one through a later child
        obtain ⟨below, _, rfl⟩ := List.mem_map.mp hfirst
        obtain ⟨pos, _, below', _, _, rfl⟩ := mem_rowPaths_iff.mp hsecond
        exact List.Lex.rel (by omega)

/-- The paths of a tree ascend: none of them is listed twice. -/
theorem paths_ascending (tree : Tree) : tree.paths.Pairwise (· < ·) := by
  induction tree using Tree.induction with
  | node head children ih =>
      rw [paths]
      refine List.pairwise_cons.mpr ⟨fun path hpath => ?_, rowPaths_ascending ih 0⟩
      obtain ⟨pos, _, below, _, _, rfl⟩ := mem_rowPaths_iff.mp hpath
      exact List.nil_lt_cons _ _

/-- The nodes are listed in the order of their paths. -/
theorem map_subtree?_paths (tree : Tree) :
    tree.paths.map tree.subtree? = tree.preorder.map some := by
  induction tree using Tree.induction with
  | node head children ih =>
      have hrow : ∀ before row, before ++ row = children →
          (rowPaths before.length row).map (node head children).subtree? =
            (row.flatMap preorder).map some := by
        intro before row hsplit
        induction row generalizing before with
        | nil => rfl
        | cons child rest ihrest =>
            have hat : children[before.length]? = some child := by simp [← hsplit]
            have hchild := ih child (List.mem_of_getElem? hat)
            have hrest := ihrest (before ++ [child]) (by simpa using hsplit)
            rw [List.length_append, List.length_singleton] at hrest
            rw [rowPaths, List.map_append, hrest, List.flatMap_cons, List.map_append, ← hchild,
              List.map_map]
            congr 1
            refine List.map_congr_left fun path _ => ?_
            rw [Function.comp_apply, subtree?_cons, children_node, hat, Option.bind_some]
      rw [paths, preorder_node, List.map_cons, List.map_cons, subtree?_nil]
      exact congrArg _ (hrow [] children rfl)

end KeyedTree.Tree
