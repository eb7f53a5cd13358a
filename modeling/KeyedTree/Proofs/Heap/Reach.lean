import KeyedTree.Proofs.Heap.Writing

/-! # What holders reach

Nothing is left over on a counted heap. Whatever has a holder is below one of the holders from
outside, so every count is the number of those and of the child slots in what they reach. Making a
node one's own gives a new cell for it if it has further holders, and is nothing at all if it has
none.
-/

namespace KeyedTree.Heap

variable {heap : Heap} {opened holders : List Ref} {ref : Ref} {tree : Tree}

/-! ## Nothing is left over -/

/-- A cell is one of some cells or below one of them. -/
def Reaches (heap : Heap) (holders : List Ref) (ref : Ref) : Prop :=
  ∃ holder ∈ holders, heap.Below holder ref

theorem Shows.height_child_lt (hshows : heap.Shows ref tree) {child : Ref} {sub : Tree}
    (hchild : child ∈ heap.children ref) (hsub : heap.Shows child sub) :
    height sub < height tree := by
  obtain ⟨found, hfound, hshown⟩ := hshows.exists_of_mem_children hchild
  rw [hsub.unique hshown]
  cases tree
  exact Nat.lt_succ_of_le (height_le_rowHeight hfound)

/-- A cell with a positive count that nobody holds from outside is a child. -/
theorem Counted.exists_parent (hcounted : heap.Counted [] holders)
    (hpos : 0 < (heap.cell ref).count) (hnot : ref ∉ holders) :
    ∃ parent, ref ∈ heap.children parent := by
  have hcount := hcounted.count_eq ref
  rw [List.nil_append, List.count_eq_zero.mpr hnot, Nat.zero_add] at hcount
  obtain ⟨parent, _, hparent⟩ := Finset.exists_ne_zero_of_sum_ne_zero (Nat.ne_of_gt (hcount ▸ hpos))
  exact ⟨parent, List.count_pos_iff.mp (Nat.pos_of_ne_zero hparent)⟩

/-- Whatever has a positive count is reached: parents are higher than their children, so the way up
ends with a holder. -/
theorem Counted.reaches (hcounted : heap.Counted [] holders) (hpos : 0 < (heap.cell ref).count) :
    heap.Reaches holders ref := by
  obtain ⟨tree, hshows⟩ := hcounted.shown ref List.not_mem_nil (inBounds_of_count_pos hpos)
  induction hroom : heap.cells.size - height tree
    using Nat.strong_induction_on generalizing ref tree with
  | _ room ih =>
      by_cases hholder : ref ∈ holders
      · exact ⟨ref, hholder, .refl heap ref⟩
      · obtain ⟨parent, hparent⟩ := hcounted.exists_parent hpos hholder
        have hkept : 0 < (heap.cell parent).count := by
          refine Nat.pos_of_ne_zero fun hzero => ?_
          rw [hcounted.spent parent hzero] at hparent
          cases hparent
        obtain ⟨above, habove⟩ :=
          hcounted.shown parent List.not_mem_nil (inBounds_of_count_pos hkept)
        have hlower := habove.height_child_lt hparent hshows
        have hsize := habove.height_le_size
        obtain ⟨holder, hmem, hbelow⟩ := ih _ (by omega) hkept above habove rfl
        exact ⟨holder, hmem, hbelow.child hparent⟩

/-- Every count is the number of holders from outside and of child slots in what they reach. -/
theorem Counted.count_eq_reached (hcounted : heap.Counted [] holders) {reached : Finset Ref}
    (hreached : ∀ parent, parent ∈ reached ↔ heap.Reaches holders parent) (ref : Ref) :
    (heap.cell ref).count =
      holders.count ref + ∑ parent ∈ reached, (heap.children parent).count ref := by
  rw [hcounted.count_eq, List.nil_append, references]
  congr 1
  have hempty : ∀ parent, parent ∉ reached → (heap.children parent).count ref = 0 := by
    intro parent hparent
    have hzero : (heap.cell parent).count = 0 :=
      Nat.eq_zero_of_not_pos fun hpos => hparent ((hreached parent).mpr (hcounted.reaches hpos))
    rw [hcounted.spent parent hzero, List.count_nil]
  have hnone : ∀ parent, parent ∉ (Finset.range heap.cells.size).filter (· ∉ ([] : List Ref)) →
      (heap.children parent).count ref = 0 := by
    intro parent hparent
    have hout : ¬heap.InBounds parent := fun hin =>
      hparent (Finset.mem_filter.mpr ⟨Finset.mem_range.mpr hin, List.not_mem_nil⟩)
    rw [children_of_not_inBounds hout, List.count_nil]
  -- both sums leave out nothing but cells without children
  generalize (Finset.range heap.cells.size).filter (· ∉ ([] : List Ref)) = all at hnone ⊢
  calc
    ∑ parent ∈ all, (heap.children parent).count ref
        = ∑ parent ∈ all ∪ reached, (heap.children parent).count ref :=
      Finset.sum_subset Finset.subset_union_left fun parent _ hparent => hnone parent hparent
    _ = ∑ parent ∈ reached, (heap.children parent).count ref :=
      (Finset.sum_subset Finset.subset_union_right fun parent _ hparent =>
        hempty parent hparent).symm

/-! ## Nodes of one's own already -/

theorem setCell_cell (heap : Heap) (ref : Ref) : heap.setCell ref (heap.cell ref) = heap := by
  obtain ⟨cells⟩ := heap
  simp only [setCell, cell, mk.injEq]
  apply Array.ext_getElem?
  intro other
  rw [Array.getElem?_setIfInBounds]
  grind

theorem unshare_of_sole (hone : (heap.cell ref).count = 1) : heap.unshare ref = (ref, heap) := by
  rw [unshare, if_neg (by omega)]

/-- Nothing happens along a path where every node has one holder. -/
theorem editAlong_of_sole {path : List Nat}
    (hsole : ∀ front found, front <+: path → heap.find? ref front = some found →
      (heap.cell found).count = 1) :
    editAlong (fun heap _ => heap) path ref heap = (ref, heap) := by
  induction path generalizing ref with
  | nil => rw [editAlong, unshare_of_sole (hsole [] ref (List.prefix_refl _) rfl)]
  | cons pos path ih =>
      rw [editAlong, unshare_of_sole (hsole [] ref List.nil_prefix rfl)]
      simp only
      cases hchild : (heap.children ref)[pos]? with
      | none => rfl
      | some child =>
          have hbelow : editAlong (fun heap _ => heap) path child heap = (child, heap) :=
            ih fun front found hfront hfound =>
              hsole (pos :: front) found ((List.prefix_cons_inj pos).mpr hfront)
                (by rw [find?, hchild, Option.bind_some, hfound])
          obtain ⟨hpos, hget⟩ := List.getElem?_eq_some_iff.mp hchild
          have hset : (heap.children ref).set pos child = heap.children ref := by
            rw [← hget, List.set_getElem_self]
          simp only [hbelow, hset]
          rw [write]
          exact congrArg _ (setCell_cell heap ref)

/-! ## Nodes with further holders -/

theorem cell_retainAll {refs : List Ref} (hbounds : ∀ ref ∈ refs, heap.InBounds ref) (other : Ref) :
    (heap.retainAll refs).cell other =
      { heap.cell other with count := (heap.cell other).count + refs.count other } := by
  induction refs generalizing heap with
  | nil => rfl
  | cons ref rest ih =>
      have hrest : ∀ other ∈ rest, (heap.retain ref).InBounds other := by
        intro other hother
        rw [InBounds, retain, size_setCell]
        exact hbounds other (List.mem_cons_of_mem _ hother)
      have hstep := ih hrest
      rw [retainAll, List.foldl_cons, ← retainAll, hstep, retain, cell_setCell]
      by_cases hother : other = ref
      · subst hother
        rw [if_pos ⟨rfl, hbounds other List.mem_cons_self⟩, List.count_cons_self]
        simp only [Cell.mk.injEq, true_and]
        omega
      · rw [if_neg (not_and_of_not_left _ hother), List.count_cons_of_ne (Ne.symm hother)]

@[simp] theorem size_retainAll (heap : Heap) (refs : List Ref) :
    (heap.retainAll refs).cells.size = heap.cells.size := by
  induction refs generalizing heap with
  | nil => rfl
  | cons ref rest ih => exact (ih (heap.retain ref)).trans (size_setCell heap ref _)

/-- There is one more cell, which has the head and the children of another one and a single holder.
The other one has a holder less, and every child one more for each of its slots. -/
structure Forks (heap after : Heap) (old : Ref) : Prop where
  cell_new : after.cell heap.cells.size = ⟨heap.head old, heap.children old, 1⟩
  count_eq : ∀ other, other ≠ heap.cells.size →
    (after.cell other).count + [old].count other =
      (heap.cell other).count + (heap.children old).count other

/-- Who wants to write to a node with further holders gets a new one. All other nodes keep their
children. -/
theorem Shows.forks (hshows : heap.Shows ref tree) (hmany : 1 < (heap.cell ref).count) :
    (heap.unshare ref).1 = heap.cells.size ∧ heap.Forks (heap.unshare ref).2 ref ∧
      ∀ other, heap.InBounds other → (heap.unshare ref).2.children other = heap.children other := by
  have hbounds : ∀ child ∈ heap.children ref, heap.InBounds child := fun child hchild =>
    (hshows.exists_of_mem_children hchild).elim fun _ hsub => hsub.2.inBounds
  have hcell : ∀ other, other ≠ heap.cells.size → (heap.unshare ref).2.cell other =
      if other = ref then { heap.cell ref with count := (heap.cell ref).count - 1 }
      else { heap.cell other with count :=
        (heap.cell other).count + (heap.children ref).count other } := by
    intro other hother
    rw [Heap.unshare, if_pos hmany, cell_alloc_of_ne (by rwa [size_setCell, size_retainAll]),
      cell_setCell, size_retainAll]
    by_cases hself : other = ref
    · rw [if_pos ⟨hself, hshows.inBounds⟩, if_pos hself]
    · rw [if_neg (not_and_of_not_left _ hself), if_neg hself]
      exact cell_retainAll hbounds other
  refine ⟨?_, ⟨?_, fun other hother => ?_⟩, fun other hother => ?_⟩
  · rw [Heap.unshare, if_pos hmany, alloc_ref, size_setCell, size_retainAll]
  · rw [Heap.unshare, if_pos hmany, cell_alloc, size_setCell, size_retainAll, if_pos rfl]
    rfl
  · rw [hcell other hother]
    by_cases hself : other = ref
    · subst hself
      rw [if_pos rfl, List.count_eq_zero.mpr hshows.not_mem_children, List.count_cons_self,
        List.count_nil]
      simp only
      omega
    · rw [if_neg hself, List.count_cons_of_ne (Ne.symm hself), List.count_nil]
      rfl
  · rw [children, hcell other (Nat.ne_of_lt hother)]
    by_cases hself : other = ref
    · rw [if_pos hself, hself]
      rfl
    · rw [if_neg hself]
      rfl

/-! ## Along a path -/

/-- Owning the nodes along a path shows the same tree as before. -/
theorem Counted.own_along (path : List Nat) (hcounted : heap.Counted opened (ref :: holders))
    (hshows : heap.Shows ref tree) :
    heap.Gives (Heap.editAlong (fun heap _ => heap) path ref heap).2 opened holders
      [(Heap.editAlong (fun heap _ => heap) path ref heap).1] [tree.editAt id path] := by
  have hheld : heap.Counted opened (ref :: ([] ++ holders)) := hcounted
  refine hheld.editAlong (fun _ _ _ _ (_ : True) => trivial) ?_ path hshows trivial (.inr rfl)
  intro heap opened holders ref tree hcounted _ hshows _
  exact ⟨hcounted, Spares.refl heap opened holders, .cons hshows .nil⟩

/-- When an opened node is closed over a new child at a position, the paths through this position go
on from the new child, all others lead where they led, and no count changes. -/
theorem Gives.closing_child {middle : Heap} {child' : Ref} {sub' : Tree} {pos : Nat}
    (hgives : heap.Gives middle (ref :: opened) ((heap.children ref).eraseIdx pos ++ holders)
      [child'] [sub']) (hpos : pos < (heap.children ref).length) :
    let last := middle.write ref (middle.head ref) ((middle.children ref).set pos child')
    (∀ way, last.find? ref (pos :: way) = middle.find? child' way) ∧
      (∀ other way, other ≠ pos → last.find? ref (other :: way) = heap.find? ref (other :: way)) ∧
      ∀ other, (last.cell other).count = (middle.cell other).count := by
  intro last
  have hsame : middle.cell ref = heap.cell ref := hgives.spares.cell_eq ref List.mem_cons_self
  have hrow : middle.children ref = heap.children ref := by rw [children, hsame, children]
  have hbounds : middle.InBounds ref := hgives.counted.inBounds_of_opened List.mem_cons_self
  have hself : last.children ref = (heap.children ref).set pos child' := by
    rw [children, cell_write, if_pos ⟨rfl, hbounds⟩, hrow]
  have hwritten :
      middle.Spares last opened ([child'] ++ ((heap.children ref).eraseIdx pos ++ holders)) :=
    hgives.counted.spares_closing _ _ fun _ => hgives.counted.not_mem_opened
  refine ⟨fun way => ?_, fun other way hother => ?_, fun other => ?_⟩
  · rw [find?, hself, List.getElem?_set_self hpos, Option.bind_some,
      hwritten.find?_eq List.mem_cons_self]
  · rw [find?, find?, hself, List.getElem?_set_ne (Ne.symm hother)]
    cases hsibling : (heap.children ref)[other]? with
    | none => rfl
    | some sibling =>
        -- siblings are spared by the edit below and by the write to their parent
        have hmem : sibling ∈ (heap.children ref).eraseIdx pos ++ holders :=
          List.mem_append_left _ (List.mem_eraseIdx_iff_getElem?.mpr ⟨other, hother, hsibling⟩)
        exact (hwritten.find?_eq (List.mem_cons_of_mem _ hmem) way).trans
          (hgives.spares.find?_eq hmem way)
  · rw [cell_write]
    split
    next heq => rw [heq.1]
    next => rfl

/-- After owning the nodes along a path every node on the way has one holder. -/
theorem Counted.sole_along {path : List Nat} (hcounted : heap.Counted opened (ref :: holders))
    (hshows : heap.Shows ref tree) :
    let result := Heap.editAlong (fun heap _ => heap) path ref heap
    ∀ front found, front <+: path → result.2.find? result.1 front = some found →
      (result.2.cell found).count = 1 := by
  induction path generalizing heap opened holders ref tree with
  | nil =>
      intro result front found hfront hfound
      obtain rfl := List.prefix_nil.mp hfront
      cases hfound
      exact (hcounted.unshare hshows).2
  | cons pos path ih =>
      obtain ⟨hown, hone⟩ := hcounted.unshare hshows
      rw [Heap.editAlong]
      generalize heap.unshare ref = unshared at hown hone ⊢
      obtain ⟨ref, heap⟩ := unshared
      simp only at hown hone ⊢
      have hmine : heap.Counted opened (ref :: holders) := hown.counted
      cases hchild : (heap.children ref)[pos]? with
      | none =>
          intro front found hfront hfound
          rcases List.prefix_cons_iff.mp hfront with rfl | ⟨rest, rfl, _⟩
          · cases hfound
            exact hone
          · rw [find?, hchild] at hfound
            cases hfound
      | some child =>
          obtain ⟨sub, _, hsub⟩ :=
            hown.shows_head.exists_of_mem_children (List.mem_of_getElem? hchild)
          have hopen := (hmine.opening hone).handing hchild
          have hbelow := ih hopen hsub
          have hgives := hopen.own_along path hsub
          have hself :
              (Heap.editAlong (fun heap _ => heap) path child heap).2.cell ref = heap.cell ref :=
            hgives.spares.cell_eq ref List.mem_cons_self
          obtain ⟨hthrough, _, hcount⟩ :=
            hgives.closing_child (List.getElem?_eq_some_iff.mp hchild).1
          intro front found hfront hfound
          rw [hcount]
          rcases List.prefix_cons_iff.mp hfront with rfl | ⟨rest, rfl, hrest⟩
          · cases hfound
            rw [hself, hone]
          · exact hbelow rest found hrest ((hthrough rest).symm.trans hfound)

/-- Where a node with further holders is at the end of a path and all nodes on the way have one
holder, the writer gets a new one there and nothing else is moved. -/
theorem Counted.forks_along {path : List Nat} (hcounted : heap.Counted opened (ref :: holders))
    (hshows : heap.Shows ref tree)
    (hsole : ∀ front found, front <+: path → front ≠ path → heap.find? ref front = some found →
      (heap.cell found).count = 1)
    {old : Ref} (hfound : heap.find? ref path = some old) (hmany : 1 < (heap.cell old).count) :
    let result := Heap.editAlong (fun heap _ => heap) path ref heap
    result.2.find? result.1 path = some heap.cells.size ∧ heap.Forks result.2 old ∧
      ∀ other, other ≠ path → result.2.find? result.1 other = heap.find? ref other := by
  induction path generalizing heap opened holders ref tree with
  | nil =>
      obtain rfl : ref = old := Option.some.inj hfound
      obtain ⟨hnew, hforks, hchildren⟩ := hshows.forks hmany
      rw [Heap.editAlong]
      refine ⟨congrArg some hnew, hforks, fun other hother => ?_⟩
      obtain ⟨pos, rest, rfl⟩ := List.exists_cons_of_ne_nil hother
      rw [find?, find?, hnew, children, hforks.cell_new]
      cases hchild : (heap.children ref)[pos]? with
      | none => rfl
      | some child =>
          obtain ⟨sub, _, hsub⟩ := hshows.exists_of_mem_children (List.mem_of_getElem? hchild)
          refine find?_congr (fun below hbelow => ?_) rest
          obtain ⟨_, hshown⟩ := hsub.below hbelow
          exact hchildren below hshown.inBounds
  | cons pos path ih =>
      have hone : (heap.cell ref).count = 1 :=
        hsole [] ref List.nil_prefix (List.cons_ne_nil _ _).symm rfl
      rw [find?] at hfound
      obtain ⟨child, hchild, hfound⟩ := Option.bind_eq_some_iff.mp hfound
      obtain ⟨sub, _, hsub⟩ := hshows.exists_of_mem_children (List.mem_of_getElem? hchild)
      have hopen := (hcounted.opening hone).handing hchild
      obtain ⟨hnew, hforks, hothers⟩ := ih hopen hsub (fun front found hfront hne hmid =>
        hsole (pos :: front) found ((List.prefix_cons_inj pos).mpr hfront)
          (fun heq => hne (List.cons.inj heq).2) (by rw [find?, hchild, Option.bind_some, hmid]))
            hfound hmany
      obtain ⟨hthrough, hbeside, hcount⟩ :=
        (hopen.own_along path hsub).closing_child (List.getElem?_eq_some_iff.mp hchild).1
      rw [Heap.editAlong, unshare_of_sole hone]
      simp only [hchild]
      refine ⟨(hthrough path).trans hnew, ⟨?_, fun other hother => ?_⟩, fun other hother => ?_⟩
      · rw [cell_write_of_ne (Nat.ne_of_gt hshows.inBounds), hforks.cell_new]
      · rw [hcount, hforks.count_eq other hother]
      · cases other with
        | nil => rfl
        | cons first rest =>
            by_cases hfirst : first = pos
            · subst hfirst
              rw [hthrough, hothers rest fun heq => hother (heq ▸ rfl), find?, hchild,
                Option.bind_some]
            · exact hbeside first rest hfirst

end KeyedTree.Heap
