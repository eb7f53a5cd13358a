import Mathlib
import KeyedTree.Proofs.Tree.Paths
import KeyedTree.Tree.Survey
import KeyedTree.Workspace.Heap

/-! # Trees on a heap

A reference shows a tree when the tree can be read off the cells below it. It shows at most one
tree, and then that tree is what looking at the reference gives: no chain of children is longer than
there are cells, since a node below itself would show a tree inside itself.

Later modules evaluate whole runs over a heap, with equations of core functions that are stated all
over Mathlib; so this module, below all of them, imports the whole of it.
-/

namespace KeyedTree.Heap

/-! ## Cells after a change -/

variable {heap : Heap}

/-- There is a cell under the reference. -/
def InBounds (heap : Heap) (ref : Ref) : Prop := ref < heap.cells.size

theorem cell_setCell (heap : Heap) (ref other : Ref) (cell : Cell) :
    (heap.setCell ref cell).cell other =
      if other = ref ∧ ref < heap.cells.size then cell else heap.cell other := by
  simp only [setCell, Heap.cell, Array.getElem?_setIfInBounds]
  grind

theorem cell_setCell_of_ne (heap : Heap) {ref other : Ref} (hne : other ≠ ref) (cell : Cell) :
    (heap.setCell ref cell).cell other = heap.cell other := by
  rw [cell_setCell, if_neg (not_and_of_not_left _ hne)]

@[simp] theorem size_setCell (heap : Heap) (ref : Ref) (cell : Cell) :
    (heap.setCell ref cell).cells.size = heap.cells.size := by
  simp [setCell]

theorem same_of_cell_eq {after : Heap} {ref : Ref} (hcell : after.cell ref = heap.cell ref) :
    after.head ref = heap.head ref ∧ after.children ref = heap.children ref :=
  ⟨congrArg Cell.head hcell, congrArg Cell.children hcell⟩

theorem cell_of_not_inBounds {ref : Ref} (hout : ¬heap.InBounds ref) :
    heap.cell ref = default := by
  simp [Heap.cell, Array.getElem?_eq_none (Nat.not_lt.mp hout)]

theorem inBounds_of_count_pos {ref : Ref} (hpos : 0 < (heap.cell ref).count) :
    heap.InBounds ref := by
  by_contra hout
  rw [cell_of_not_inBounds hout] at hpos
  exact absurd hpos (Nat.lt_irrefl 0)

@[simp] theorem alloc_ref (heap : Heap) (head : Head) (children : List Ref) :
    (heap.alloc head children).1 = heap.cells.size := rfl

@[simp] theorem size_alloc (heap : Heap) (head : Head) (children : List Ref) :
    (heap.alloc head children).2.cells.size = heap.cells.size + 1 := by
  simp [alloc]

theorem cell_alloc (heap : Heap) (head : Head) (children : List Ref) (other : Ref) :
    (heap.alloc head children).2.cell other =
      if other = heap.cells.size then ⟨head, children, 1⟩ else heap.cell other := by
  simp only [alloc, Heap.cell, Array.getElem?_push]
  split <;> simp

/-! ## Showing a tree -/

mutual

/-- The tree below a reference is the given one. -/
def Shows (heap : Heap) (ref : Ref) : Tree → Prop
  | .node head trees =>
      heap.InBounds ref ∧ heap.head ref = head ∧ ShowsRow heap (heap.children ref) trees

/-- The trees below the references of a row are the given ones. -/
def ShowsRow (heap : Heap) : List Ref → List Tree → Prop
  | [], [] => True
  | ref :: refs, tree :: trees => heap.Shows ref tree ∧ ShowsRow heap refs trees
  | _, _ => False

end

theorem showsRow_iff {refs : List Ref} {trees : List Tree} :
    heap.ShowsRow refs trees ↔ List.Forall₂ heap.Shows refs trees := by
  induction refs generalizing trees with
  | nil =>
      cases trees with
      | nil => simp [ShowsRow]
      | cons tree trees => simp [ShowsRow]
  | cons ref refs ih =>
      cases trees with
      | nil => simp [ShowsRow]
      | cons tree trees => simp [ShowsRow, ih]

theorem shows_node_iff {ref : Ref} {head : Head} {trees : List Tree} :
    heap.Shows ref (.node head trees) ↔
      heap.InBounds ref ∧ heap.head ref = head ∧
        List.Forall₂ heap.Shows (heap.children ref) trees := by
  rw [Shows, showsRow_iff]

theorem forall₂_getElem? {α β : Type} {R : α → β → Prop} {row : List α} {row' : List β}
    (hrow : List.Forall₂ R row row') (pos : Nat) :
    (∃ value value', row[pos]? = some value ∧ row'[pos]? = some value' ∧ R value value') ∨
      (row[pos]? = none ∧ row'[pos]? = none) := by
  induction hrow generalizing pos with
  | nil => exact .inr ⟨rfl, rfl⟩
  | @cons value value' _ _ hfirst _ ih =>
      cases pos with
      | zero => exact .inl ⟨value, value', rfl, rfl, hfirst⟩
      | succ pos => simpa using ih pos

namespace Shows

variable {ref : Ref} {tree : Tree}

theorem inBounds (hshows : heap.Shows ref tree) : heap.InBounds ref := by
  cases tree
  exact (shows_node_iff.mp hshows).1

theorem head_eq (hshows : heap.Shows ref tree) : heap.head ref = tree.head := by
  cases tree
  exact (shows_node_iff.mp hshows).2.1

theorem forall₂ (hshows : heap.Shows ref tree) :
    List.Forall₂ heap.Shows (heap.children ref) tree.children := by
  cases tree
  exact (shows_node_iff.mp hshows).2.2

/-- A reference shows at most one tree. -/
theorem unique (hshows : heap.Shows ref tree) {other : Tree} (hother : heap.Shows ref other) :
    tree = other := by
  induction tree using Tree.induction generalizing ref other with
  | node head children ih =>
      obtain ⟨_, hhead, hchildren⟩ := shows_node_iff.mp hshows
      have hrows : children = other.children := by
        have hforall := hother.forall₂
        generalize heap.children ref = refs at hchildren hforall
        generalize other.children = others at hforall
        clear hshows hother hhead
        induction hchildren generalizing others with
        | nil => cases hforall; rfl
        | @cons child first _ _ hfirst _ ihrest =>
            cases hforall with
            | cons hchild hrest =>
                rw [ih first List.mem_cons_self hfirst hchild,
                  ihrest (fun tree htree => ih tree (List.mem_cons_of_mem _ htree)) _ hrest]
      rw [← hhead, hother.head_eq, hrows, Tree.node_head_children]

/-- A tree is shown as before as long as the cells below the reference keep head and children. -/
theorem congr {after : Heap} (live : Ref → Prop)
    (hclosed : ∀ ref, live ref → ∀ child ∈ heap.children ref, live child)
    (hsame : ∀ ref, live ref → heap.InBounds ref → after.InBounds ref ∧
      after.head ref = heap.head ref ∧ after.children ref = heap.children ref)
    (hlive : live ref) (hshows : heap.Shows ref tree) : after.Shows ref tree := by
  induction tree using Tree.induction generalizing ref with
  | node head children ih =>
      obtain ⟨hbounds, hhead, hchildren⟩ := shows_node_iff.mp hshows
      obtain ⟨hbounds', hhead', hchildren'⟩ := hsame ref hlive hbounds
      refine shows_node_iff.mpr ⟨hbounds', hhead'.trans hhead, ?_⟩
      rw [hchildren']
      have hall := hclosed ref hlive
      generalize heap.children ref = refs at hchildren hall
      clear hshows hhead hchildren'
      induction hchildren with
      | nil => exact .nil
      | @cons child first _ _ hfirst _ ihrest =>
          exact .cons (ih first List.mem_cons_self (hall child List.mem_cons_self) hfirst)
            (ihrest (fun tree htree _ => ih tree (List.mem_cons_of_mem _ htree))
              fun other hother => hall other (List.mem_cons_of_mem _ hother))

/-- The reference at a position shows the subtree at that position. -/
theorem child (hshows : heap.Shows ref tree) (pos : Nat) :
    (∃ child sub, (heap.children ref)[pos]? = some child ∧ tree.children[pos]? = some sub ∧
        heap.Shows child sub) ∨
      ((heap.children ref)[pos]? = none ∧ tree.children[pos]? = none) :=
  forall₂_getElem? hshows.forall₂ pos

/-- The reference at the end of a path shows the subtree there. -/
theorem find? (hshows : heap.Shows ref tree) (path : List Nat) :
    (∃ found sub, heap.find? ref path = some found ∧ tree.subtree? path = some sub ∧
        heap.Shows found sub) ∨
      (heap.find? ref path = none ∧ tree.subtree? path = none) := by
  induction path generalizing ref tree with
  | nil => exact .inl ⟨ref, tree, rfl, Tree.subtree?_nil tree, hshows⟩
  | cons pos path ih =>
      rw [Heap.find?, Tree.subtree?_cons]
      rcases hshows.child pos with ⟨child, sub, hchild, hsub, hshown⟩ | ⟨hchild, hsub⟩
      · rw [hchild, hsub]
        exact ih hshown
      · rw [hchild, hsub]
        exact .inr ⟨rfl, rfl⟩

end Shows

/-! ## What is below a reference -/

/-- A path leads from a reference to another one. -/
def Below (heap : Heap) (ref other : Ref) : Prop :=
  ∃ path, heap.find? ref path = some other

theorem find?_concat (heap : Heap) (ref : Ref) (path : List Nat) (pos : Nat) :
    heap.find? ref (path ++ [pos]) =
      (heap.find? ref path).bind fun found => (heap.children found)[pos]? := by
  induction path generalizing ref with
  | nil =>
      rw [List.nil_append, Heap.find?, Heap.find?, Option.bind_some]
      cases (heap.children ref)[pos]? <;> rfl
  | cons first rest ih =>
      rw [List.cons_append, Heap.find?, Heap.find?]
      cases (heap.children ref)[first]? with
      | none => rfl
      | some child => exact ih child

namespace Below

variable {ref other : Ref}

theorem refl (heap : Heap) (ref : Ref) : heap.Below ref ref :=
  ⟨[], rfl⟩

theorem child (hbelow : heap.Below ref other) {child : Ref} (hchild : child ∈ heap.children other) :
    heap.Below ref child := by
  obtain ⟨path, hpath⟩ := hbelow
  obtain ⟨pos, hpos⟩ := List.getElem?_of_mem hchild
  exact ⟨path ++ [pos], by rw [find?_concat, hpath, Option.bind_some, hpos]⟩

/-- Whatever goes over from nodes to their children holds at all that is below a reference. -/
theorem live {live : Ref → Prop}
    (hclosed : ∀ ref, live ref → ∀ child ∈ heap.children ref, live child) (hlive : live ref)
    (hbelow : heap.Below ref other) : live other := by
  obtain ⟨path, hpath⟩ := hbelow
  induction path generalizing ref with
  | nil =>
      cases hpath
      exact hlive
  | cons pos path ih =>
      rw [Heap.find?] at hpath
      obtain ⟨child, hchild, hpath⟩ := Option.bind_eq_some_iff.mp hpath
      exact ih (hclosed ref hlive child (List.mem_of_getElem? hchild)) hpath

end Below

/-- Whatever is below a reference that shows a tree shows a tree. -/
theorem Shows.below {ref other : Ref} {tree : Tree} (hshows : heap.Shows ref tree)
    (hbelow : heap.Below ref other) : ∃ sub, heap.Shows other sub := by
  obtain ⟨path, hpath⟩ := hbelow
  rcases hshows.find? path with ⟨_, sub, hfound, _, hshown⟩ | ⟨hnone, _⟩
  · rw [hpath] at hfound
    cases hfound
    exact ⟨sub, hshown⟩
  · rw [hpath] at hnone
    cases hnone

/-- Paths lead where they led as long as the nodes on them keep their children. -/
theorem find?_congr {after : Heap} {ref : Ref}
    (hsame : ∀ other, heap.Below ref other → after.children other = heap.children other)
    (path : List Nat) :
    after.find? ref path = heap.find? ref path := by
  induction path using List.reverseRecOn with
  | nil => rfl
  | append_singleton path pos ih =>
      rw [find?_concat, find?_concat, ih]
      cases hfound : heap.find? ref path with
      | none => rfl
      | some found => rw [Option.bind_some, Option.bind_some, hsame found ⟨path, hfound⟩]

/-! ## How deep a tree on a heap can be -/

mutual

/-- The greatest number of nodes on a way down a tree. -/
def height : Tree → Nat
  | .node _ children => rowHeight children + 1

/-- The greatest height in a row of trees. -/
def rowHeight : List Tree → Nat
  | [] => 0
  | child :: rest => max (height child) (rowHeight rest)

end

theorem height_le_rowHeight {row : List Tree} {child : Tree} (hchild : child ∈ row) :
    height child ≤ rowHeight row := by
  induction row with
  | nil => cases hchild
  | cons first rest ih =>
      rw [rowHeight]
      rcases List.mem_cons.mp hchild with rfl | hrest
      · exact Nat.le_max_left _ _
      · exact Nat.le_trans (ih hrest) (Nat.le_max_right _ _)

theorem exists_height_ge {row : List Tree} {bound : Nat} (hpos : 0 < bound)
    (hbound : bound ≤ rowHeight row) : ∃ child ∈ row, bound ≤ height child := by
  induction row with
  | nil => exact absurd (Nat.lt_of_lt_of_le hpos hbound) (Nat.lt_irrefl 0)
  | cons first rest ih =>
      rw [rowHeight] at hbound
      rcases le_max_iff.mp hbound with hfirst | hrest
      · exact ⟨first, List.mem_cons_self, hfirst⟩
      · obtain ⟨child, hchild, hheight⟩ := ih hrest
        exact ⟨child, List.mem_cons_of_mem _ hchild, hheight⟩

theorem exists_shows_of_mem {refs : List Ref} {trees : List Tree}
    (hforall : List.Forall₂ heap.Shows refs trees) {tree : Tree} (htree : tree ∈ trees) :
    ∃ ref ∈ refs, heap.Shows ref tree := by
  induction hforall with
  | nil => cases htree
  | @cons ref first refs _ hfirst _ ih =>
      rcases List.mem_cons.mp htree with rfl | hrest
      · exact ⟨ref, List.mem_cons_self, hfirst⟩
      · obtain ⟨found, hfound, hshows⟩ := ih hrest
        exact ⟨found, List.mem_cons_of_mem _ hfound, hshows⟩

theorem exists_shows_of_mem_left {refs : List Ref} {trees : List Tree}
    (hforall : List.Forall₂ heap.Shows refs trees) {ref : Ref} (href : ref ∈ refs) :
    ∃ tree ∈ trees, heap.Shows ref tree := by
  induction hforall with
  | nil => cases href
  | @cons first tree _ trees hfirst _ ih =>
      rcases List.mem_cons.mp href with rfl | hrest
      · exact ⟨tree, List.mem_cons_self, hfirst⟩
      · obtain ⟨found, hfound, hshows⟩ := ih hrest
        exact ⟨found, List.mem_cons_of_mem _ hfound, hshows⟩

/-- Below a tree on a heap there are trees of all smaller heights. -/
theorem Shows.exists_of_height {ref : Ref} {tree : Tree} (hshows : heap.Shows ref tree) {k : Nat}
    (hpos : 0 < k) (hk : k ≤ height tree) : ∃ found sub, heap.Shows found sub ∧ height sub = k := by
  induction tree using Tree.induction generalizing ref with
  | node head children ih =>
      rw [height] at hk
      rcases Nat.lt_or_eq_of_le hk with hlt | rfl
      · obtain ⟨child, hchild, hheight⟩ := exists_height_ge hpos (Nat.le_of_lt_succ hlt)
        obtain ⟨below, _, hbelow⟩ := exists_shows_of_mem hshows.forall₂ hchild
        exact ih child hchild hbelow hheight
      · exact ⟨ref, _, hshows, rfl⟩

/-- A tree on a heap is no higher than there are cells: trees of different heights are under
different references. -/
theorem Shows.height_le_size {ref : Ref} {tree : Tree} (hshows : heap.Shows ref tree) :
    height tree ≤ heap.cells.size := by
  have hexists : ∀ k ∈ Finset.Icc 1 (height tree),
      ∃ found, ∃ sub, heap.Shows found sub ∧ height sub = k := by
    intro k hk
    obtain ⟨hpos, hle⟩ := Finset.mem_Icc.mp hk
    exact hshows.exists_of_height hpos hle
  choose! found hfound using hexists
  have hmaps : Set.MapsTo found (Finset.Icc 1 (height tree)) (Finset.range heap.cells.size) := by
    intro k hk
    obtain ⟨sub, hsub, _⟩ := hfound k hk
    exact Finset.mem_coe.mpr (Finset.mem_range.mpr hsub.inBounds)
  have hinj : Set.InjOn found (Finset.Icc 1 (height tree)) := by
    intro first hfirst second hsecond heq
    obtain ⟨sub, hsub, hheight⟩ := hfound first hfirst
    obtain ⟨sub', hsub', hheight'⟩ := hfound second hsecond
    rw [← heq] at hsub'
    rw [← hheight, ← hheight', hsub.unique hsub']
  simpa using Finset.card_le_card_of_injOn found hmaps hinj

/-! ## Looking at what is shown -/

theorem Shows.viewTo_eq {ref : Ref} {tree : Tree} (hshows : heap.Shows ref tree) {depth : Nat}
    (hdepth : height tree ≤ depth) : heap.viewTo depth ref = tree := by
  induction tree using Tree.induction generalizing ref depth with
  | node head children ih =>
      cases depth with
      | zero => exact absurd hdepth (by rw [height]; omega)
      | succ depth =>
          rw [height] at hdepth
          obtain ⟨_, hhead, hchildren⟩ := shows_node_iff.mp hshows
          rw [viewTo, hhead]
          have hsmall : ∀ child ∈ children, height child ≤ depth := fun child hchild =>
            Nat.le_trans (height_le_rowHeight hchild) (Nat.le_of_succ_le_succ hdepth)
          congr 1
          generalize heap.children ref = refs at hchildren
          clear hshows hdepth
          induction hchildren with
          | nil => rfl
          | @cons child first _ _ hfirst _ ihrest =>
              rw [List.map_cons,
                ih first List.mem_cons_self hfirst (hsmall first List.mem_cons_self),
                ihrest (fun tree htree => ih tree (List.mem_cons_of_mem _ htree))
                  fun tree htree => hsmall tree (List.mem_cons_of_mem _ htree)]

/-- Looking at a reference gives the tree that it shows. -/
theorem Shows.view_eq {ref : Ref} {tree : Tree} (hshows : heap.Shows ref tree) :
    heap.view ref = tree :=
  hshows.viewTo_eq hshows.height_le_size

theorem forall₂_keys {refs : List Ref} {trees : List Tree}
    (hforall : List.Forall₂ heap.Shows refs trees) :
    refs.map (fun child => (heap.head child).key) = trees.map Tree.key := by
  induction hforall with
  | nil => rfl
  | cons hfirst _ ih => rw [List.map_cons, List.map_cons, ih, hfirst.head_eq, Tree.key]

theorem Shows.outline_eq {ref : Ref} {tree : Tree} (hshows : heap.Shows ref tree) :
    heap.outline ref = tree.outline := by
  rw [outline, Tree.outline, hshows.head_eq, forall₂_keys hshows.forall₂, Tree.keys]

end KeyedTree.Heap

/-! ## Comparing what is shown -/

namespace KeyedTree

theorem Tree.alike_refl (tree : Tree) : tree.alike tree = true := by
  induction tree using Tree.induction with
  | node head children ih =>
      have hrow : rowAlike children children = true := by
        induction children with
        | nil => rfl
        | cons child rest ihrest =>
            rw [rowAlike, ih child List.mem_cons_self,
              ihrest fun other hother => ih other (List.mem_cons_of_mem _ hother), Bool.and_self]
      simp [alike, hrow]

/-- Comparing references is comparing the trees that they show; skipping a child that both share
does not change the answer. -/
theorem Heap.Shows.alikeTo_eq {heap : Heap} {ref ref' : Ref} {tree tree' : Tree}
    (hshows : heap.Shows ref tree) (hshows' : heap.Shows ref' tree') {depth : Nat}
    (hdepth : height tree ≤ depth) : heap.alikeTo depth ref ref' = tree.alike tree' := by
  induction tree using Tree.induction generalizing ref ref' tree' depth with
  | node head children ih =>
      cases depth with
      | zero => exact absurd hdepth (by rw [height]; omega)
      | succ depth =>
          rw [height] at hdepth
          obtain ⟨head', children'⟩ := tree'
          obtain ⟨_, hhead, hchildren⟩ := shows_node_iff.mp hshows
          obtain ⟨_, hhead', hchildren'⟩ := shows_node_iff.mp hshows'
          rw [alikeTo, Tree.alike, hhead, hhead']
          congr 1
          have hsmall : ∀ child ∈ children, height child ≤ depth := fun child hchild =>
            Nat.le_trans (height_le_rowHeight hchild) (Nat.le_of_succ_le_succ hdepth)
          generalize heap.children ref = refs at hchildren
          generalize heap.children ref' = refs' at hchildren'
          clear hshows hshows' hdepth
          induction hchildren generalizing refs' children' with
          | nil => cases hchildren' <;> rfl
          | @cons child first _ _ hfirst _ ihrest =>
              cases hchildren' with
              | nil => rfl
              | @cons child' first' _ _ hfirst' hrest' =>
                  rw [pairwise, Tree.rowAlike, ihrest
                    (fun tree htree => ih tree (List.mem_cons_of_mem _ htree)) _
                    (fun tree htree => hsmall tree (List.mem_cons_of_mem _ htree)) _ hrest',
                    ih first List.mem_cons_self hfirst hfirst' (hsmall first List.mem_cons_self)]
                  congr 1
                  -- a child that both share shows the same tree on both sides
                  by_cases hsame : child = child'
                  · subst hsame
                    rw [hfirst.unique hfirst', Tree.alike_refl, Bool.or_true]
                  · rw [beq_eq_false_iff_ne.mpr hsame, Bool.false_or]

theorem Heap.Shows.alike_eq {heap : Heap} {ref ref' : Ref} {tree tree' : Tree}
    (hshows : heap.Shows ref tree) (hshows' : heap.Shows ref' tree') :
    heap.alike ref ref' = tree.alike tree' :=
  hshows.alikeTo_eq hshows' hshows.height_le_size

end KeyedTree
