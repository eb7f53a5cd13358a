import KeyedTree.Proofs.Heap.Shows

/-! # Counting every holder

A heap is counted for a list of holders when every count is the number of holders and of children
that refer to the cell. Writing to a cell begins with opening it: its children become holders of
their own until the write closes it again. Only cells with one holder are opened, so nothing that
somebody else holds is ever seen half written.
-/

namespace KeyedTree.Heap

variable {heap after : Heap} {opened holders : List Ref} {ref : Ref}

/-- How many children refer to a cell, those of opened cells left out. -/
def references (heap : Heap) (opened : List Ref) (ref : Ref) : Nat :=
  ∑ parent ∈ (Finset.range heap.cells.size).filter (· ∉ opened), (heap.children parent).count ref

/-- Every count is right, and opened cells have no further holder. All other cells show trees, and a
cell that is given up keeps no children. -/
structure Counted (heap : Heap) (opened holders : List Ref) : Prop where
  count_eq : ∀ ref, (heap.cell ref).count =
    (opened ++ holders).count ref + heap.references opened ref
  sole : ∀ ref ∈ opened, (heap.cell ref).count = 1
  shown : ∀ ref ∉ opened, heap.InBounds ref → ∃ tree, heap.Shows ref tree
  spent : ∀ ref, (heap.cell ref).count = 0 → heap.children ref = []

/-- Opened cells stay as they are, and holders keep the very same nodes, which show what they
showed. -/
structure Spares (heap after : Heap) (opened holders : List Ref) : Prop where
  cell_eq : ∀ ref ∈ opened, after.cell ref = heap.cell ref
  size_le : heap.cells.size ≤ after.cells.size
  below : ∀ ref ∈ holders, ∀ other, heap.Below ref other →
    after.head other = heap.head other ∧ after.children other = heap.children other

/-- Holders see the trees that they saw. -/
theorem Spares.shows (hspares : heap.Spares after opened holders) :
    ∀ ref ∈ holders, ∀ tree, heap.Shows ref tree → after.Shows ref tree := by
  intro ref href tree hshows
  refine hshows.congr (heap.Below ref) (fun parent hparent child => hparent.child) ?_
    (.refl heap ref)
  intro other hbelow hbounds
  exact ⟨Nat.lt_of_lt_of_le hbounds hspares.size_le, hspares.below ref href other hbelow⟩

theorem Spares.find?_eq (hspares : heap.Spares after opened holders) (hmem : ref ∈ holders)
    (path : List Nat) : after.find? ref path = heap.find? ref path :=
  find?_congr (fun other hbelow => (hspares.below ref hmem other hbelow).2) path

theorem Spares.refl (heap : Heap) (opened holders : List Ref) : heap.Spares heap opened holders :=
  ⟨fun _ _ => rfl, Nat.le_refl _, fun _ _ _ _ => ⟨rfl, rfl⟩⟩

theorem Spares.trans {last : Heap} (hfirst : heap.Spares after opened holders)
    (hsecond : after.Spares last opened holders) : heap.Spares last opened holders where
  cell_eq ref href := (hsecond.cell_eq ref href).trans (hfirst.cell_eq ref href)
  size_le := Nat.le_trans hfirst.size_le hsecond.size_le
  below ref href other hbelow := by
    obtain ⟨path, hpath⟩ := hbelow
    obtain ⟨hhead, hchildren⟩ := hfirst.below ref href other ⟨path, hpath⟩
    obtain ⟨hhead', hchildren'⟩ :=
      hsecond.below ref href other ⟨path, (hfirst.find?_eq href path).trans hpath⟩
    exact ⟨hhead'.trans hhead, hchildren'.trans hchildren⟩

theorem Spares.of_subset {fewer fewerOpened : List Ref} (hspares : heap.Spares after opened holders)
    (hopened : fewerOpened ⊆ opened) (hholders : fewer ⊆ holders) :
    heap.Spares after fewerOpened fewer where
  cell_eq ref href := hspares.cell_eq ref (hopened href)
  size_le := hspares.size_le
  below ref href := hspares.below ref (hholders href)

/-- Holders are spared where all cells that they can reach keep head and children. -/
theorem Spares.of_live (live : Ref → Prop) (hsize : heap.cells.size ≤ after.cells.size)
    (hcell : ∀ ref ∈ opened, after.cell ref = heap.cell ref)
    (hclosed : ∀ ref, live ref → ∀ child ∈ heap.children ref, live child)
    (hsame : ∀ ref, live ref → after.head ref = heap.head ref ∧
      after.children ref = heap.children ref)
    (hlive : ∀ ref ∈ holders, live ref) : heap.Spares after opened holders where
  cell_eq := hcell
  size_le := hsize
  below ref href other hbelow := hsame other (hbelow.live hclosed (hlive ref href))

theorem Spares.forall₂ {refs : List Ref} {trees : List Tree}
    (hspares : heap.Spares after opened holders) (hsub : refs ⊆ holders)
    (hforall : List.Forall₂ heap.Shows refs trees) : List.Forall₂ after.Shows refs trees := by
  induction hforall with
  | nil => exact .nil
  | @cons ref tree _ _ hfirst _ ih =>
      exact .cons (hspares.shows ref (hsub List.mem_cons_self) tree hfirst)
        (ih fun other hother => hsub (List.mem_cons_of_mem _ hother))

theorem children_of_not_inBounds (hout : ¬heap.InBounds ref) : heap.children ref = [] := by
  rw [children, cell_of_not_inBounds hout]
  rfl

theorem references_congr (hsize : after.cells.size = heap.cells.size)
    (hsame : ∀ parent, parent ∉ opened → after.children parent = heap.children parent) :
    after.references opened ref = heap.references opened ref := by
  rw [references, references, hsize]
  apply Finset.sum_congr rfl
  intro parent hparent
  rw [hsame parent (Finset.mem_filter.mp hparent).2]

/-- Opening a cell takes its children out of the count. -/
theorem references_open (hclosed : ref ∉ opened) (other : Ref) :
    heap.references opened other =
      (heap.children ref).count other + heap.references (ref :: opened) other := by
  have hfilter : (Finset.range heap.cells.size).filter (· ∉ ref :: opened) =
      ((Finset.range heap.cells.size).filter (· ∉ opened)).erase ref := by
    ext parent
    simp only [Finset.mem_filter, Finset.mem_erase, List.mem_cons]
    tauto
  rw [references, references, hfilter]
  by_cases hbounds : heap.InBounds ref
  · exact (Finset.add_sum_erase _ _
      (Finset.mem_filter.mpr ⟨Finset.mem_range.mpr hbounds, hclosed⟩)).symm
  · rw [children_of_not_inBounds hbounds, Finset.erase_eq_of_notMem]
    · simp
    · intro hmem
      exact hbounds (Finset.mem_range.mp (Finset.mem_filter.mp hmem).1)

theorem count_le_references {parent : Ref} (hclosed : parent ∉ opened) (other : Ref) :
    (heap.children parent).count other ≤ heap.references opened other := by
  rw [references_open hclosed other]
  exact Nat.le_add_right _ _

namespace Counted

theorem perm {others : List Ref} (hcounted : heap.Counted opened holders)
    (hperm : holders.Perm others) : heap.Counted opened others where
  count_eq ref := by rw [hcounted.count_eq, (hperm.append_left opened).count_eq]
  sole := hcounted.sole
  shown := hcounted.shown
  spent := hcounted.spent

theorem count_pos (hcounted : heap.Counted opened holders) (hmem : ref ∈ holders) :
    0 < (heap.cell ref).count := by
  rw [hcounted.count_eq, List.count_append]
  have := List.count_pos_iff.mpr hmem
  omega

theorem inBounds (hcounted : heap.Counted opened holders) (hmem : ref ∈ holders) :
    heap.InBounds ref :=
  inBounds_of_count_pos (hcounted.count_pos hmem)

/-- A holder holds no opened cell. -/
theorem not_mem_opened (hcounted : heap.Counted opened holders) (hmem : ref ∈ holders) :
    ref ∉ opened := by
  intro hopened
  have hcount := hcounted.count_eq ref
  rw [hcounted.sole ref hopened, List.count_append] at hcount
  have hholder := List.count_pos_iff.mpr hmem
  have hopen := List.count_pos_iff.mpr hopened
  omega

/-- No child of a cell that is not opened is opened. -/
theorem child_not_mem_opened (hcounted : heap.Counted opened holders) {parent : Ref}
    (hclosed : parent ∉ opened) (hchild : ref ∈ heap.children parent) : ref ∉ opened := by
  intro hopened
  have hcount := hcounted.count_eq ref
  rw [hcounted.sole ref hopened, List.count_append] at hcount
  have hrefers : (heap.children parent).count ref ≤ _ := count_le_references hclosed ref
  have hparent := List.count_pos_iff.mpr hchild
  have hopen := List.count_pos_iff.mpr hopened
  omega

/-- A holder that is the only one holds the cell once, and nothing else refers to it. -/
theorem alone (hcounted : heap.Counted opened (ref :: holders))
    (hone : (heap.cell ref).count = 1) :
    ref ∉ holders ∧ heap.references opened ref = 0 := by
  have hcount := hcounted.count_eq ref
  rw [hone, List.count_append, List.count_cons_self] at hcount
  refine ⟨fun hmem => ?_, by omega⟩
  have hholder := List.count_pos_iff.mpr hmem
  omega

theorem child_ne (hcounted : heap.Counted opened (ref :: holders))
    (hone : (heap.cell ref).count = 1) {parent child : Ref} (hclosed : parent ∉ opened)
    (hchild : child ∈ heap.children parent) : child ≠ ref := by
  rintro rfl
  have hrefers : (heap.children parent).count child ≤ _ := count_le_references hclosed child
  have hparent := List.count_pos_iff.mpr hchild
  have hnone := (hcounted.alone hone).2
  omega

/-! ## Opening and closing -/

/-- A cell with one holder can be opened. -/
theorem opening (hcounted : heap.Counted opened (ref :: holders))
    (hone : (heap.cell ref).count = 1) :
    heap.Counted (ref :: opened) (heap.children ref ++ holders) where
  count_eq other := by
    have hclosed := hcounted.not_mem_opened List.mem_cons_self
    rw [hcounted.count_eq, references_open hclosed]
    simp only [List.cons_append, List.count_append, List.count_cons]
    omega
  sole other hother := by
    rcases List.mem_cons.mp hother with rfl | hother
    · exact hone
    · exact hcounted.sole other hother
  shown other hother := hcounted.shown other fun hmem => hother (List.mem_cons_of_mem _ hmem)
  spent := hcounted.spent

/-- Holders hold nodes that show trees. -/
theorem exists_forall₂_shows (hcounted : heap.Counted opened holders) {refs : List Ref}
    (hsub : refs ⊆ holders) : ∃ trees, List.Forall₂ heap.Shows refs trees := by
  induction refs with
  | nil => exact ⟨[], .nil⟩
  | cons ref rest ih =>
      have hmem := hsub List.mem_cons_self
      obtain ⟨tree, hshows⟩ :=
        hcounted.shown ref (hcounted.not_mem_opened hmem) (hcounted.inBounds hmem)
      obtain ⟨trees, hrest⟩ := ih (List.subset_of_cons_subset hsub)
      exact ⟨tree :: trees, .cons hshows hrest⟩

theorem mem_opened_iff_of_cons (hcounted : heap.Counted (ref :: opened) holders) :
    ref ∉ opened := by
  intro hmem
  have hcount := hcounted.count_eq ref
  rw [hcounted.sole ref List.mem_cons_self, List.cons_append, List.count_cons_self,
    List.count_append] at hcount
  have hopen := List.count_pos_iff.mpr hmem
  omega

end Counted

theorem cell_write (heap : Heap) (ref other : Ref) (head : Head) (row : List Ref) :
    (heap.write ref head row).cell other =
      if other = ref ∧ ref < heap.cells.size then ⟨head, row, (heap.cell ref).count⟩
      else heap.cell other :=
  cell_setCell heap ref other _

@[simp] theorem size_write (heap : Heap) (ref : Ref) (head : Head) (row : List Ref) :
    (heap.write ref head row).cells.size = heap.cells.size :=
  size_setCell heap ref _

theorem cell_write_of_ne {other : Ref} (hne : other ≠ ref) (head : Head) (row : List Ref) :
    (heap.write ref head row).cell other = heap.cell other := by
  rw [cell_write, if_neg fun h => hne h.1]

theorem Counted.inBounds_of_opened (hcounted : heap.Counted opened holders) (hmem : ref ∈ opened) :
    heap.InBounds ref :=
  inBounds_of_count_pos (by rw [hcounted.sole ref hmem]; exact Nat.one_pos)

/-- Nobody who holds no opened cell sees what is written to one. -/
theorem Counted.spares_closing (hcounted : heap.Counted (ref :: opened) holders) (head : Head)
    (row : List Ref) {others : List Ref} (hothers : ∀ other ∈ others, other ∉ ref :: opened) :
    heap.Spares (heap.write ref head row) opened others := by
  have hclosed : ref ∉ opened := hcounted.mem_opened_iff_of_cons
  refine .of_live (fun cell => cell ∉ ref :: opened)
    (Nat.le_of_eq (size_write heap ref head row).symm)
    (fun other hother => cell_write_of_ne (ne_of_mem_of_not_mem hother hclosed) head row)
    (fun parent hparent child hchild => hcounted.child_not_mem_opened hparent hchild)
    (fun cell hlive => ?_) hothers
  have hsame : (heap.write ref head row).cell cell = heap.cell cell :=
    cell_write_of_ne (List.ne_of_not_mem_cons hlive) head row
  exact same_of_cell_eq hsame

/-- A closed cell shows what was written to it. -/
theorem Counted.shows_closing {row : List Ref} {trees : List Tree}
    (hcounted : heap.Counted (ref :: opened) (row ++ holders)) (head : Head)
    (hrow : List.Forall₂ heap.Shows row trees) :
    (heap.write ref head row).Shows ref (.node head trees) := by
  have hbounds : heap.InBounds ref := hcounted.inBounds_of_opened List.mem_cons_self
  have hcell : (heap.write ref head row).cell ref = ⟨head, row, (heap.cell ref).count⟩ := by
    rw [cell_write, if_pos ⟨rfl, hbounds⟩]
  refine shows_node_iff.mpr ⟨by rw [InBounds, size_write]; exact hbounds, ?_, ?_⟩
  · rw [Heap.head, hcell]
  · rw [children, hcell]
    exact (hcounted.spares_closing head row fun _ => hcounted.not_mem_opened).forall₂
      (List.subset_append_left row holders) hrow

/-- Writing to an opened cell closes it: the written row takes the place of its holders. -/
theorem Counted.closing {row : List Ref} (hcounted : heap.Counted (ref :: opened) (row ++ holders))
    (head : Head) :
    (heap.write ref head row).Counted opened (ref :: holders) ∧
      ((heap.write ref head row).cell ref).count = 1 ∧
      heap.Spares (heap.write ref head row) opened (row ++ holders) := by
  have hclosed : ref ∉ opened := hcounted.mem_opened_iff_of_cons
  have hbounds : heap.InBounds ref := hcounted.inBounds_of_opened List.mem_cons_self
  have hcell : (heap.write ref head row).cell ref = ⟨head, row, (heap.cell ref).count⟩ := by
    rw [cell_write, if_pos ⟨rfl, hbounds⟩]
  have hone : ((heap.write ref head row).cell ref).count = 1 := by
    rw [hcell]
    exact hcounted.sole ref List.mem_cons_self
  have hcount :
      ∀ other, ((heap.write ref head row).cell other).count = (heap.cell other).count := by
    intro other
    by_cases hother : other = ref
    · rw [hother, hcell]
    · rw [cell_write_of_ne hother]
  -- the row is now counted among the references of the cell, no longer among the holders
  refine ⟨⟨fun other => ?_, fun other hother => ?_, fun other hother hin => ?_,
    fun other hzero => ?_⟩, hone, hcounted.spares_closing head row fun _ => hcounted.not_mem_opened⟩
  · have hrefs : (heap.write ref head row).references (ref :: opened) other =
        heap.references (ref :: opened) other :=
      references_congr (size_write heap ref head row) fun parent hparent => by
        rw [children, cell_write_of_ne (List.ne_of_not_mem_cons hparent), ← children]
    rw [hcount, hcounted.count_eq, references_open hclosed, hrefs, children, hcell]
    simp only [List.cons_append, List.count_append, List.count_cons]
    omega
  · rw [hcount]
    exact hcounted.sole other (List.mem_cons_of_mem _ hother)
  · by_cases hself : other = ref
    · subst hself
      obtain ⟨trees, hrow⟩ := hcounted.exists_forall₂_shows (List.subset_append_left row holders)
      exact ⟨_, hcounted.shows_closing head hrow⟩
    · have hlive : other ∉ ref :: opened := List.not_mem_cons_of_ne_of_not_mem hself hother
      rw [InBounds, size_write] at hin
      obtain ⟨tree, hshows⟩ := hcounted.shown other hlive hin
      have hspares := hcounted.spares_closing head row (List.forall_mem_singleton.mpr hlive)
      exact ⟨tree, hspares.shows other List.mem_cons_self tree hshows⟩
  · have hself : other ≠ ref := by
      rintro rfl
      rw [hone] at hzero
      cases hzero
    rw [children, cell_write_of_ne hself]
    exact hcounted.spent other (hcount other ▸ hzero)

/-! ## Counting and forgetting holders -/

/-- Another count changes neither heads nor children. -/
theorem same_setCell_count (heap : Heap) (ref other : Ref) (count : Nat) :
    (heap.setCell ref { heap.cell ref with count }).head other = heap.head other ∧
      (heap.setCell ref { heap.cell ref with count }).children other = heap.children other := by
  rw [Heap.head, children, cell_setCell]
  split
  next heq => simp [heq.1, Heap.head, children]
  next => exact ⟨rfl, rfl⟩

theorem spares_setCell_count (heap : Heap) {opened : List Ref} (hclosed : ref ∉ opened)
    (count : Nat) (holders : List Ref) :
    heap.Spares (heap.setCell ref { heap.cell ref with count }) opened holders :=
  .of_live (fun _ => True) (Nat.le_of_eq (size_setCell heap ref _).symm)
    (fun other hother => by
      rw [cell_setCell_of_ne _ (ne_of_mem_of_not_mem hother hclosed)])
    (fun _ _ _ _ => trivial) (fun other _ => same_setCell_count heap ref other count)
      fun _ _ => trivial

/-- Another count changes nothing that is shown. -/
theorem Shows.setCell_count {tree : Tree} (hshows : heap.Shows ref tree) (other : Ref)
    (count : Nat) :
    (heap.setCell other { heap.cell other with count }).Shows ref tree :=
  (heap.spares_setCell_count (List.not_mem_nil (a := other)) count [ref]).shows ref
    List.mem_cons_self tree hshows

theorem references_setCell_count (other : Ref) (count : Nat) :
    (heap.setCell other { heap.cell other with count }).references opened ref =
      heap.references opened ref :=
  references_congr (size_setCell heap other _) fun parent _ =>
    (same_setCell_count heap other parent count).2

/-- A cell that is not given up gets another count and nothing else changes. -/
theorem Counted.setCell_count {others : List Ref} (hcounted : heap.Counted opened holders)
    (hclosed : ref ∉ opened) (hbounds : heap.InBounds ref) {count : Nat} (hkept : 0 < count)
    (hcount : count + holders.count ref = (heap.cell ref).count + others.count ref)
    (hothers : ∀ other, other ≠ ref → holders.count other = others.count other) :
    (heap.setCell ref { heap.cell ref with count }).Counted opened others ∧
      heap.Spares (heap.setCell ref { heap.cell ref with count }) opened holders := by
  have hcell := fun other => cell_setCell heap ref other { heap.cell ref with count }
  refine ⟨⟨fun other => ?_, fun other hother => ?_, fun other hother hin => ?_,
    fun other hzero => ?_⟩, heap.spares_setCell_count hclosed count holders⟩
  · rw [references_setCell_count, hcell, List.count_append]
    have heq := hcounted.count_eq other
    rw [List.count_append] at heq
    by_cases hother : other = ref
    · subst hother
      rw [if_pos ⟨rfl, hbounds⟩]
      simp only
      omega
    · rw [if_neg fun h => hother h.1, heq, hothers other hother]
  · rw [hcell, if_neg (not_and_of_not_left _ (ne_of_mem_of_not_mem hother hclosed))]
    exact hcounted.sole other hother
  · rw [InBounds, size_setCell] at hin
    exact (hcounted.shown other hother hin).imp fun tree hshows => hshows.setCell_count ref count
  · rw [(same_setCell_count heap ref other count).2]
    refine hcounted.spent other ?_
    rw [hcell] at hzero
    split at hzero
    next => exact absurd hzero (Nat.ne_of_gt hkept)
    next => exact hzero

theorem Counted.retain (hcounted : heap.Counted opened holders) (hclosed : ref ∉ opened)
    (hbounds : heap.InBounds ref) :
    (heap.retain ref).Counted opened (ref :: holders) ∧
      heap.Spares (heap.retain ref) opened holders := by
  refine hcounted.setCell_count hclosed hbounds (Nat.succ_pos _) ?_ fun other hother => ?_
  · rw [List.count_cons_self]
    omega
  · rw [List.count_cons_of_ne hother.symm]

/-- A holder of a cell that has further holders lets it go. -/
theorem Counted.letGo (hcounted : heap.Counted opened (ref :: holders))
    (hmany : 1 < (heap.cell ref).count) :
    (heap.setCell ref { heap.cell ref with count := (heap.cell ref).count - 1 }).Counted
        opened holders ∧
      heap.Spares (heap.setCell ref { heap.cell ref with count := (heap.cell ref).count - 1 })
        opened (ref :: holders) := by
  refine hcounted.setCell_count (hcounted.not_mem_opened List.mem_cons_self)
    (hcounted.inBounds List.mem_cons_self) (Nat.sub_pos_of_lt hmany) ?_ fun other hother => ?_
  · rw [List.count_cons_self]
    omega
  · rw [List.count_cons_of_ne hother.symm]

/-- Nobody else refers to a cell with one holder, so nobody else sees that it is given up. -/
theorem Counted.spares_giveUp (hcounted : heap.Counted opened (ref :: holders))
    (hone : (heap.cell ref).count = 1) {others : List Ref}
    (hothers : ∀ other ∈ others, other ∉ opened ∧ other ≠ ref) :
    heap.Spares (heap.setCell ref { heap.cell ref with children := [], count := 0 }) opened
      others := by
  have hclosed : ref ∉ opened := hcounted.not_mem_opened List.mem_cons_self
  refine .of_live (fun cell => cell ∉ opened ∧ cell ≠ ref)
    (Nat.le_of_eq (size_setCell heap ref _).symm)
    (fun other hother => heap.cell_setCell_of_ne (ne_of_mem_of_not_mem hother hclosed) _) ?_
    (fun cell hlive => ?_) hothers
  · intro parent hparent child hchild
    exact ⟨hcounted.child_not_mem_opened hparent.1 hchild, hcounted.child_ne hone hparent.1 hchild⟩
  · have hsame := heap.cell_setCell_of_ne hlive.2 { heap.cell ref with children := [], count := 0 }
    exact same_of_cell_eq hsame

/-- The last holder of a cell gives it up and holds its children instead. -/
theorem Counted.giveUp (hcounted : heap.Counted opened (ref :: holders))
    (hone : (heap.cell ref).count = 1) :
    (heap.setCell ref { heap.cell ref with children := [], count := 0 }).Counted opened
        (heap.children ref ++ holders) ∧
      heap.Spares (heap.setCell ref { heap.cell ref with children := [], count := 0 }) opened
        holders := by
  have hclosed : ref ∉ opened := hcounted.not_mem_opened List.mem_cons_self
  have hbounds : heap.InBounds ref := hcounted.inBounds List.mem_cons_self
  have hopen := hcounted.opening hone
  obtain ⟨hnot, hnone⟩ := hcounted.alone hone
  have hspares : ∀ others : List Ref, (∀ other ∈ others, other ∉ opened ∧ other ≠ ref) →
      heap.Spares (heap.setCell ref { heap.cell ref with children := [], count := 0 }) opened
        others :=
    fun others hothers => hcounted.spares_giveUp hone hothers
  generalize hafter : heap.setCell ref { heap.cell ref with children := [], count := 0 } = after
    at hspares ⊢
  have hsize : after.cells.size = heap.cells.size := by rw [← hafter, size_setCell]
  have hcell : ∀ other, other ≠ ref → after.cell other = heap.cell other := by
    intro other hother
    rw [← hafter, cell_setCell_of_ne heap hother]
  have hself : after.cell ref = ⟨heap.head ref, [], 0⟩ := by
    rw [← hafter, cell_setCell, if_pos ⟨rfl, hbounds⟩, Heap.head]
  have hempty : after.children ref = [] := by rw [children, hself]
  refine ⟨⟨fun other => ?_, fun other hother => ?_, fun other hother hin => ?_,
    fun other hzero => ?_⟩, hspares holders fun other hother =>
      ⟨hcounted.not_mem_opened (List.mem_cons_of_mem _ hother), ne_of_mem_of_not_mem hother hnot⟩⟩
  · have hrefs : after.references (ref :: opened) other = heap.references (ref :: opened) other :=
      references_congr hsize fun parent hparent => by
        rw [children, hcell parent (List.ne_of_not_mem_cons hparent), children]
    rw [references_open hclosed, hrefs, hempty, List.count_nil, Nat.zero_add]
    by_cases hother : other = ref
    · subst hother
      rw [references_open hclosed] at hnone
      have hzero : (after.cell other).count = 0 := by rw [hself]
      rw [hzero, List.count_append, List.count_append, List.count_eq_zero.mpr hclosed,
        List.count_eq_zero.mpr hnot]
      omega
    · rw [hcell other hother, hopen.count_eq, List.cons_append,
        List.count_cons_of_ne (Ne.symm hother)]
  · rw [hcell other (ne_of_mem_of_not_mem hother hclosed)]
    exact hcounted.sole other hother
  · by_cases hsame : other = ref
    · subst hsame
      exact ⟨.node (heap.head other) [], shows_node_iff.mpr
        ⟨hin, by rw [Heap.head, hself], by rw [hempty]; exact .nil⟩⟩
    · rw [InBounds, hsize] at hin
      obtain ⟨tree, hshows⟩ := hcounted.shown other hother hin
      exact ⟨tree, (hspares [other] (List.forall_mem_singleton.mpr ⟨hother, hsame⟩)).shows other
        List.mem_cons_self tree hshows⟩
  · by_cases hsame : other = ref
    · rw [hsame, hempty]
    · rw [hcell other hsame] at hzero
      rw [children, hcell other hsame]
      exact hcounted.spent other hzero

/-- Letting go of holders leaves the other holders what they see. -/
theorem Counted.release {refs : List Ref} (hcounted : heap.Counted opened (refs ++ holders)) :
    (heap.release refs).Counted opened holders ∧
      heap.Spares (heap.release refs) opened holders := by
  fun_induction Heap.release heap refs with
  | case1 heap => exact ⟨hcounted, Spares.refl heap opened holders⟩
  | case2 heap ref rest cell hzero ih =>
      exact absurd hzero (Nat.ne_of_gt (hcounted.count_pos List.mem_cons_self))
  | case3 heap ref rest cell hzero hone _ ih =>
      obtain ⟨hafter, hspares⟩ := hcounted.giveUp hone
      obtain ⟨hlast, hspares'⟩ := ih (by rwa [List.append_assoc])
      exact ⟨hlast, (hspares.of_subset (List.Subset.refl _) (List.subset_append_right _ _)).trans
        hspares'⟩
  | case4 heap ref rest cell hzero hone _ ih =>
      have hmany : 1 < cell.count := by omega
      have hholder : heap.Counted opened (ref :: (rest ++ holders)) := hcounted
      obtain ⟨hafter, hspares⟩ := hholder.letGo hmany
      obtain ⟨hlast, hspares'⟩ := ih hafter
      exact ⟨hlast, (hspares.of_subset (List.Subset.refl _)
        (List.Subset.trans (List.subset_append_right _ _) (List.subset_cons_self _ _))).trans
        hspares'⟩

/-- One more holder for every reference of a list. -/
theorem Counted.retainAll {refs : List Ref} (hcounted : heap.Counted opened holders)
    (hclosed : ∀ ref ∈ refs, ref ∉ opened) (hbounds : ∀ ref ∈ refs, heap.InBounds ref) :
    (heap.retainAll refs).Counted opened (refs ++ holders) ∧
      heap.Spares (heap.retainAll refs) opened holders := by
  induction refs generalizing heap holders with
  | nil => exact ⟨hcounted, Spares.refl heap opened holders⟩
  | cons ref rest ih =>
      obtain ⟨hafter, hspares⟩ :=
        hcounted.retain (hclosed ref List.mem_cons_self) (hbounds ref List.mem_cons_self)
      obtain ⟨hlast, hspares'⟩ := ih hafter
        (fun other hother => hclosed other (List.mem_cons_of_mem _ hother))
        (fun other hother => by
          rw [InBounds, Heap.retain, size_setCell]
          exact hbounds other (List.mem_cons_of_mem _ hother))
      exact ⟨hlast.perm List.perm_middle, hspares.trans
        (hspares'.of_subset (List.Subset.refl _) (List.subset_cons_self _ _))⟩

/-! ## New cells -/

theorem Counted.not_inBounds_size (hcounted : heap.Counted opened holders) :
    heap.cells.size ∉ opened ∧ heap.cells.size ∉ holders ∧
      heap.references opened heap.cells.size = 0 := by
  have hcount := hcounted.count_eq heap.cells.size
  rw [cell_of_not_inBounds (Nat.lt_irrefl _), List.count_append] at hcount
  have hzero : (default : Cell).count = 0 := rfl
  exact ⟨List.count_eq_zero.mp (by omega), List.count_eq_zero.mp (by omega), by omega⟩

theorem cell_alloc_of_ne {other : Ref} (hne : other ≠ heap.cells.size) (head : Head)
    (row : List Ref) :
    (heap.alloc head row).2.cell other = heap.cell other := by
  rw [cell_alloc, if_neg hne]

/-- Nobody sees a new cell who sees none but old ones. -/
theorem Counted.spares_alloc (hcounted : heap.Counted opened holders) (head : Head) (row : List Ref)
    {others : List Ref} (hothers : ∀ other ∈ others, ∃ tree, heap.Shows other tree) :
    heap.Spares (heap.alloc head row).2 opened others := by
  have hclosed : heap.cells.size ∉ opened := hcounted.not_inBounds_size.1
  refine .of_live (fun cell => ∃ tree, heap.Shows cell tree)
    (by rw [size_alloc]; exact Nat.le_succ _)
    (fun other hother => cell_alloc_of_ne (ne_of_mem_of_not_mem hother hclosed) head row) ?_
      ?_ hothers
  · rintro parent ⟨tree, hshows⟩ child hchild
    obtain ⟨sub, _, hsub⟩ := exists_shows_of_mem_left hshows.forall₂ hchild
    exact ⟨sub, hsub⟩
  · rintro cell ⟨tree, hshows⟩
    have hold : (heap.alloc head row).2.cell cell = heap.cell cell :=
      cell_alloc_of_ne (Nat.ne_of_lt hshows.inBounds) head row
    exact same_of_cell_eq hold

theorem Counted.shows_alloc {row : List Ref} {trees : List Tree}
    (hcounted : heap.Counted opened (row ++ holders)) (head : Head)
    (hrow : List.Forall₂ heap.Shows row trees) :
    (heap.alloc head row).2.Shows (heap.alloc head row).1 (.node head trees) := by
  have hcell := cell_alloc heap head row heap.cells.size
  rw [if_pos rfl] at hcell
  refine shows_node_iff.mpr ⟨by simp [InBounds], by rw [Heap.head, alloc_ref, hcell], ?_⟩
  rw [children, alloc_ref, hcell]
  refine (hcounted.spares_alloc head row fun other hother => ?_).forall₂ (List.Subset.refl row) hrow
  obtain ⟨tree, _, hshows⟩ := exists_shows_of_mem_left hrow hother
  exact ⟨tree, hshows⟩

/-- The row of a new cell is counted besides. -/
theorem references_alloc (hclosed : heap.cells.size ∉ opened) (head : Head) (row : List Ref)
    (other : Ref) :
    (heap.alloc head row).2.references opened other = row.count other +
      heap.references opened other := by
  rw [references, size_alloc, Finset.range_add_one, Finset.filter_insert, if_pos hclosed,
    Finset.sum_insert (by simp), references]
  congr 1
  · rw [children, cell_alloc, if_pos rfl]
  · apply Finset.sum_congr rfl
    intro parent hparent
    have hlt := Finset.mem_range.mp (Finset.mem_filter.mp hparent).1
    rw [children, cell_alloc_of_ne (Nat.ne_of_lt hlt), children]

/-- A new cell holds what its maker held. -/
theorem Counted.alloc {row : List Ref} (hcounted : heap.Counted opened (row ++ holders))
    (head : Head) :
    (heap.alloc head row).2.Counted opened ((heap.alloc head row).1 :: holders) ∧
      heap.Spares (heap.alloc head row).2 opened (row ++ holders) := by
  obtain ⟨hclosed, hnew, hnone⟩ := hcounted.not_inBounds_size
  have hcell := fun other => cell_alloc heap head row other
  have hold : ∀ other, other ≠ heap.cells.size →
      (heap.alloc head row).2.cell other = heap.cell other :=
    fun other hother => cell_alloc_of_ne hother head row
  have hshown : ∀ other ∈ row ++ holders, ∃ tree, heap.Shows other tree := fun other hother =>
    hcounted.shown other (hcounted.not_mem_opened hother) (hcounted.inBounds hother)
  refine ⟨⟨fun other => ?_, fun other hother => ?_, fun other hother hin => ?_,
    fun other hzero => ?_⟩, hcounted.spares_alloc head row hshown⟩
  · have hrefs := references_alloc hclosed head row other
    rw [hrefs, alloc_ref, List.count_append, List.count_cons]
    have heq := hcounted.count_eq other
    simp only [List.count_append] at heq
    by_cases hother : other = heap.cells.size
    · subst hother
      rw [List.mem_append, not_or] at hnew
      rw [hcell, if_pos rfl, hnone, List.count_eq_zero.mpr hclosed, List.count_eq_zero.mpr hnew.1,
        List.count_eq_zero.mpr hnew.2]
      simp
    · rw [hold other hother, heq, if_neg (by simpa using Ne.symm hother)]
      omega
  · rw [hold other (ne_of_mem_of_not_mem hother hclosed)]
    exact hcounted.sole other hother
  · by_cases hself : other = heap.cells.size
    · subst hself
      obtain ⟨trees, hrow⟩ := hcounted.exists_forall₂_shows (List.subset_append_left row holders)
      exact ⟨_, hcounted.shows_alloc head hrow⟩
    · rw [InBounds, size_alloc] at hin
      obtain ⟨tree, hshows⟩ :=
        hcounted.shown other hother (Nat.lt_of_le_of_ne (Nat.le_of_lt_succ hin) hself)
      have hspares := hcounted.spares_alloc head row (List.forall_mem_singleton.mpr ⟨tree, hshows⟩)
      exact ⟨tree, hspares.shows other List.mem_cons_self tree hshows⟩
  · by_cases hself : other = heap.cells.size
    · rw [hself, hcell, if_pos rfl] at hzero
      cases hzero
    · rw [hold other hself] at hzero
      rw [children, hold other hself]
      exact hcounted.spent other hzero

theorem count_alloc (heap : Heap) (head : Head) (row : List Ref) :
    ((heap.alloc head row).2.cell (heap.alloc head row).1).count = 1 := by
  rw [cell_alloc, alloc_ref, if_pos rfl]

end KeyedTree.Heap
