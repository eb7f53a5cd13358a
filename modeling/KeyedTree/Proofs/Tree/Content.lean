import Mathlib.Tactic.TypeStar
import KeyedTree.Layout
import KeyedTree.Proofs.Tree.Paths
import KeyedTree.Tree.Survey

/-! # The content of a tree

Two trees are alike when they differ at most in flags and indexes, that is, when their contents are
equal. Whoever reads nothing but content finds no difference between them. The layout writes nothing
else, so trees that are alike have the same text.
-/

namespace KeyedTree

namespace Head

/-- The head without its flags and its index. A value that the kind has no use for does not
count. -/
def content (head : Head) : Head where
  key := head.key
  kind := head.kind
  scalar := if head.kind.isScalar then head.scalar else .nothing

theorem alike_iff {head head' : Head} : head.alike head' = true ↔ head.content = head'.content := by
  simp only [alike, content, Bool.and_eq_true, Bool.or_eq_true, Bool.not_eq_true', beq_iff_eq,
    Head.mk.injEq, and_true]
  constructor
  · rintro ⟨⟨hkind, hkey⟩, hvalue⟩
    refine ⟨hkey, hkind, ?_⟩
    rw [← hkind]
    rcases hvalue with hempty | hsame
    · rw [hempty]
      rfl
    · rw [hsame]
  · rintro ⟨hkey, hkind, hvalue⟩
    refine ⟨⟨hkind, hkey⟩, ?_⟩
    rw [← hkind] at hvalue
    cases hscalar : head.kind.isScalar with
    | false => exact .inl rfl
    | true =>
        rw [hscalar] at hvalue
        exact .inr hvalue

@[simp] theorem kind_content (head : Head) : head.content.kind = head.kind := rfl

@[simp] theorem content_content (head : Head) : head.content.content = head.content := by
  unfold content
  split <;> rfl

/-- The payload is content. -/
@[simp] theorem payload_content (head : Head) : head.content.payload = head.payload := by
  obtain ⟨key, kind, scalar, autosort, overwrite, index⟩ := head
  cases kind <;> rfl

end Head

namespace Tree

mutual

/-- The tree without its flags and indexes. -/
def content : Tree → Tree
  | .node head children => .node head.content (rowContent children)

/-- The trees of a row without their flags and indexes. -/
def rowContent : List Tree → List Tree
  | [] => []
  | child :: rest => child.content :: rowContent rest

end

theorem rowContent_eq_map (row : List Tree) : rowContent row = row.map content := by
  induction row with
  | nil => rfl
  | cons child rest ih => rw [rowContent, ih, List.map_cons]

@[simp] theorem key_content (tree : Tree) : tree.content.key = tree.key := by
  cases tree
  rfl

@[simp] theorem kind_content (tree : Tree) : tree.content.kind = tree.kind := by
  cases tree
  rfl

@[simp] theorem children_content (tree : Tree) :
    tree.content.children = tree.children.map content := by
  obtain ⟨head, children⟩ := tree
  exact rowContent_eq_map children

/-- Trees are alike when their contents are equal. -/
theorem alike_iff {tree other : Tree} : tree.alike other = true ↔ tree.content = other.content := by
  induction tree using Tree.induction generalizing other with
  | node head children ih =>
      obtain ⟨head', children'⟩ := other
      have hrow : rowAlike children children' = true ↔
          rowContent children = rowContent children' := by
        induction children generalizing children' with
        | nil => cases children' <;> simp [rowAlike, rowContent]
        | cons child rest ihrest =>
            cases children' with
            | nil => simp [rowAlike, rowContent]
            | cons child' rest' =>
                rw [rowAlike, Bool.and_eq_true, ih child List.mem_cons_self,
                  ihrest fun tree htree => ih tree (List.mem_cons_of_mem _ htree)]
                simp [rowContent]
      simp only [alike, content, Bool.and_eq_true, hrow, node.injEq, Head.alike_iff]

/-- What is read off a tree depends on nothing but the keys, kinds and values in it and on the order
of the children. -/
def ReadsContent {α : Sort*} (read : Tree → α) : Prop :=
  ∀ tree, read tree.content = read tree

theorem ReadsContent.eq_of_alike {α : Sort*} {read : Tree → α} (hread : ReadsContent read)
    {tree other : Tree} (halike : tree.alike other = true) : read tree = read other := by
  rw [← hread tree, alike_iff.mp halike, hread]

end Tree

/-! ## What is written -/

namespace Layout

variable {pretty : Bool}

theorem writeRow_content {row : List Tree} {depth : Nat}
    (hrow : ∀ child ∈ row, ∀ rest, write pretty depth true child.content rest =
      write pretty depth true child rest)
    (rest : List Char) :
    writeRow pretty depth (row.map Tree.content) rest = writeRow pretty depth row rest := by
  induction row with
  | nil => rfl
  | cons child more ih =>
      obtain ⟨hchild, hmore⟩ := List.forall_mem_cons.mp hrow
      cases more with
      | nil => simp only [List.map_cons, List.map_nil, writeRow, hchild]
      | cons next others =>
          have hothers := ih hmore
          simp only [List.map_cons] at hothers
          simp only [List.map_cons, writeRow, hchild, hothers]

/-- Only the content of a tree is written. -/
theorem write_content (pretty : Bool) (depth : Nat) (named : Bool) (tree : Tree)
    (rest : List Char) :
    write pretty depth named tree.content rest = write pretty depth named tree rest := by
  induction tree using Tree.induction generalizing depth named rest with
  | node head children ih =>
      have hrow :=
        fun rest => writeRow_content (fun child hchild => ih child hchild (depth + 1) true) rest
      simp only [Tree.content, Tree.rowContent_eq_map, write, hrow, Head.payload_content]
      rfl

end Layout

namespace Tree

theorem readsContent_render (pretty named : Bool) :
    ReadsContent fun tree => tree.render pretty named := by
  intro tree
  simp only [render, Layout.write_content]

/-- Trees that are alike have the same text. -/
theorem render_eq_of_alike {tree other : Tree} (halike : tree.alike other = true)
    (pretty named : Bool) :
    tree.render pretty named = other.render pretty named :=
  (readsContent_render pretty named).eq_of_alike halike

end Tree

end KeyedTree
