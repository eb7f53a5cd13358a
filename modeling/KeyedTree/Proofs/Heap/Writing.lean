import KeyedTree.Proofs.Heap.Counts
import KeyedTree.Proofs.WellFormed.Outline

/-! # Writing to a counted heap

Every operation of a heap gives its caller references that show what the operation is meant to make,
and no other holder notices. The tree under a reference is written to as if its holder owned it.
-/

namespace KeyedTree.Heap

variable {heap after : Heap} {opened holders : List Ref} {ref : Ref} {tree : Tree}

/-- Afterwards the caller holds references that show the given trees; the other holders are
spared. -/
structure Gives (heap after : Heap) (opened holders refs : List Ref) (trees : List Tree) :
    Prop where
  counted : after.Counted opened (refs ++ holders)
  spares : heap.Spares after opened holders
  shows : List.Forall₂ after.Shows refs trees

/-- What is given after something else was spared is given from the start. -/
theorem Gives.behind {before : Heap} {refs : List Ref} {trees : List Tree}
    (hgives : heap.Gives after opened holders refs trees)
    (hspares : before.Spares heap opened holders) :
    before.Gives after opened holders refs trees :=
  ⟨hgives.counted, hspares.trans hgives.spares, hgives.shows⟩

theorem Gives.shows_head {refs : List Ref} {trees : List Tree}
    (hgives : heap.Gives after opened holders (ref :: refs) (tree :: trees)) :
    after.Shows ref tree := by
  cases hgives.shows with
  | cons hfirst _ => exact hfirst

/-! ## New trees -/

theorem gives_allocRow_of_all (children : List Tree)
    (hall : ∀ child ∈ children, ∀ (heap : Heap) (holders : List Ref),
      heap.Counted opened holders →
        heap.Gives (heap.allocTree child).2 opened holders [(heap.allocTree child).1] [child])
    (hcounted : heap.Counted opened holders) :
    heap.Gives (heap.allocRow children).2 opened holders (heap.allocRow children).1 children := by
  induction children generalizing heap holders with
  | nil => exact ⟨hcounted, Spares.refl heap opened holders, .nil⟩
  | cons child rest ih =>
      have hfirst := hall child List.mem_cons_self heap holders hcounted
      have hrest := ih (fun other hother => hall other (List.mem_cons_of_mem _ hother))
        hfirst.counted
      rw [allocRow]
      exact
        { counted := hrest.counted.perm List.perm_middle
          spares := hfirst.spares.trans
            (hrest.spares.of_subset (List.Subset.refl _) (List.subset_cons_self _ _))
          shows := .cons (hrest.spares.shows _ List.mem_cons_self child hfirst.shows_head)
            hrest.shows }

/-- New nodes for a whole tree show the tree. -/
theorem gives_allocTree (tree : Tree) (hcounted : heap.Counted opened holders) :
    heap.Gives (heap.allocTree tree).2 opened holders [(heap.allocTree tree).1] [tree] := by
  induction tree using Tree.induction generalizing heap holders with
  | node head children ih =>
      have hrow := gives_allocRow_of_all children
        (fun child hchild heap holders => ih child hchild) hcounted
      obtain ⟨hafter, hspares⟩ := hrow.counted.alloc head
      rw [allocTree]
      exact
        { counted := hafter
          spares := hrow.spares.trans
            (hspares.of_subset (List.Subset.refl _) (List.subset_append_right _ _))
          shows := .cons (hrow.counted.shows_alloc head hrow.shows) .nil }

/-! ## Nodes of one's own -/

theorem Shows.exists_of_mem_children (hshows : heap.Shows ref tree) {child : Ref}
    (hchild : child ∈ heap.children ref) : ∃ sub ∈ tree.children, heap.Shows child sub :=
  exists_shows_of_mem_left hshows.forall₂ hchild

/-- No node is a child of its own. -/
theorem Shows.not_mem_children (hshows : heap.Shows ref tree) : ref ∉ heap.children ref := by
  intro hmem
  obtain ⟨sub, hsub, hshown⟩ := hshows.exists_of_mem_children hmem
  have hle := height_le_rowHeight hsub
  rw [hshown.unique hshows] at hle
  cases tree
  rw [Tree.children_node, height] at hle
  omega

theorem cell_retainAll_of_not_mem {refs : List Ref} (hnot : ref ∉ refs) :
    (heap.retainAll refs).cell ref = heap.cell ref := by
  induction refs generalizing heap with
  | nil => rfl
  | cons other rest ih =>
      rw [List.mem_cons, not_or] at hnot
      calc
        ((heap.retain other).retainAll rest).cell ref = (heap.retain other).cell ref := ih hnot.2
        _ = heap.cell ref := cell_setCell_of_ne _ hnot.1 _

/-- A holder that wants to write gets a node that shows the same and has no other holder. -/
theorem Counted.unshare (hcounted : heap.Counted opened (ref :: holders))
    (hshows : heap.Shows ref tree) :
    heap.Gives (heap.unshare ref).2 opened holders [(heap.unshare ref).1] [tree] ∧
      ((heap.unshare ref).2.cell (heap.unshare ref).1).count = 1 := by
  rw [Heap.unshare]
  split
  next hmany =>
    -- the copy will hold the children as well, so they are counted before the holder lets go
    have hclosed := hcounted.not_mem_opened List.mem_cons_self
    obtain ⟨hretained, hspares⟩ := hcounted.retainAll
      (fun child hchild => hcounted.child_not_mem_opened hclosed hchild)
      fun child hchild => (hshows.exists_of_mem_children hchild).elim fun _ hsub => hsub.2.inBounds
    have hsame : (heap.retainAll (heap.children ref)).cell ref = heap.cell ref :=
      cell_retainAll_of_not_mem hshows.not_mem_children
    have hchildren : (heap.retainAll (heap.children ref)).children ref = heap.children ref :=
      congrArg Cell.children hsame
    have hrow := (hspares.shows ref List.mem_cons_self tree hshows).forall₂
    rw [hchildren] at hrow
    obtain ⟨hleft, hspares'⟩ := (hretained.perm List.perm_middle).letGo (by rwa [hsame])
    have hrow' := hspares'.forall₂
      (List.Subset.trans (List.subset_append_left _ _) (List.subset_cons_self _ _)) hrow
    rw [hsame] at hleft hspares' hrow'
    obtain ⟨hlast, hspares''⟩ := hleft.alloc (heap.head ref)
    refine ⟨⟨hlast, ?_, .cons ?_ .nil⟩, ?_⟩
    · refine (hspares.of_subset (List.Subset.refl _) (List.subset_cons_self _ _)).trans
        ((hspares'.of_subset (List.Subset.refl _) ?_).trans
          (hspares''.of_subset (List.Subset.refl _) (List.subset_append_right _ _)))
      exact List.Subset.trans (List.subset_append_right _ _) (List.subset_cons_self _ _)
    · have hshown := hleft.shows_alloc tree.head hrow'
      rw [Tree.node_head_children, ← hshows.head_eq] at hshown
      exact hshown
    · exact count_alloc _ (heap.head ref) (heap.children ref)
  next hfew =>
    have hpos := hcounted.count_pos List.mem_cons_self
    have hone : (heap.cell ref).count = 1 := by omega
    exact ⟨⟨hcounted, Spares.refl heap opened holders, .cons hshows .nil⟩, hone⟩

/-- Writing a row to an opened cell gives its holder a node with the written head and row. -/
theorem Counted.write_row {row : List Ref} {trees : List Tree}
    (hcounted : heap.Counted (ref :: opened) (row ++ holders)) (head : Head)
    (hrow : List.Forall₂ heap.Shows row trees) :
    heap.Gives (heap.write ref head row) opened holders [ref] [.node head trees] := by
  obtain ⟨hafter, _, hspares⟩ := hcounted.closing head
  exact
    { counted := hafter
      spares := hspares.of_subset (List.Subset.refl _) (List.subset_append_right _ _)
      shows := .cons (hcounted.shows_closing head hrow) .nil }

/-- A node of one's own takes another head. -/
theorem Counted.write_head (hcounted : heap.Counted opened (ref :: holders))
    (hone : (heap.cell ref).count = 1) (hshows : heap.Shows ref tree) (head : Head) :
    heap.Gives (heap.write ref head (heap.children ref)) opened holders [ref]
      [tree.withHead head] :=
  (hcounted.opening hone).write_row head hshows.forall₂

/-- A holder makes the node its own and gives it another head. -/
theorem Counted.rewrite (hcounted : heap.Counted opened (ref :: holders))
    (hshows : heap.Shows ref tree) (change : Head → Head) :
    heap.Gives ((heap.unshare ref).2.write (heap.unshare ref).1
        (change ((heap.unshare ref).2.head (heap.unshare ref).1))
        ((heap.unshare ref).2.children (heap.unshare ref).1))
      opened holders [(heap.unshare ref).1] [tree.withHead (change tree.head)] := by
  obtain ⟨hown, hone⟩ := hcounted.unshare hshows
  have hwritten := hown.counted.write_head hone hown.shows_head (change tree.head)
  rw [hown.shows_head.head_eq]
  exact ⟨hwritten.counted, hown.spares.trans hwritten.spares, hwritten.shows⟩

/-- A node that comes in gets its stamp without anybody else noticing. -/
theorem Counted.stamped (child : Newcomer Ref)
    (hcounted : heap.Counted opened (child.node :: holders)) (hshows : heap.Shows child.node tree) :
    heap.Gives (heap.stamped child).2 opened holders [(heap.stamped child).1]
      [Newcomer.stamped ⟨tree, child.stamp⟩] := by
  rw [Heap.stamped, Newcomer.stamped]
  cases child.stamp with
  | none => exact ⟨hcounted, Spares.refl heap opened holders, .cons hshows .nil⟩
  | some stamp =>
      exact hcounted.rewrite hshows fun head =>
        { head with key := stamp.key, autosort := stamp.autosort }

/-- A node gets a new key without anybody else noticing. -/
theorem Counted.relabel (hcounted : heap.Counted opened (ref :: holders))
    (hshows : heap.Shows ref tree) (key : String) :
    heap.Gives (heap.relabel ref key).2 opened holders [(heap.relabel ref key).1]
      [tree.withKey key] :=
  hcounted.rewrite hshows fun head => { head with key }

/-- A row of nodes gets new keys without anybody else noticing. -/
theorem Counted.relabelRow {refs : List Ref} {trees : List Tree} (keys : List String)
    (hcounted : heap.Counted opened (refs ++ holders))
    (hshows : List.Forall₂ heap.Shows refs trees) :
    heap.Gives (heap.relabelRow refs keys).2 opened holders (heap.relabelRow refs keys).1
      (KeyedTree.relabelRow trees keys) := by
  induction refs generalizing heap holders trees keys with
  | nil =>
      cases hshows
      exact ⟨hcounted, Spares.refl heap opened holders, .nil⟩
  | cons ref refs ih =>
      cases hshows with
      | @cons _ tree _ trees hfirst hrest =>
          cases keys with
          | nil => exact ⟨hcounted, Spares.refl heap opened holders, .cons hfirst hrest⟩
          | cons key keys =>
              rw [Heap.relabelRow, KeyedTree.relabelRow]
              have hone : ∀ (found : Ref) (middle : Heap),
                  heap.Gives middle opened (refs ++ holders) [found] [tree.withKey key] →
                    heap.Gives (middle.relabelRow refs keys).2 opened holders
                      (found :: (middle.relabelRow refs keys).1)
                      (tree.withKey key :: KeyedTree.relabelRow trees keys) := by
                intro found middle hgives
                have hfound : middle.Counted opened (found :: (refs ++ holders)) := hgives.counted
                have hlater := ih keys (hfound.perm List.perm_middle.symm)
                  (hgives.spares.forall₂ (List.subset_append_left _ _) hrest)
                exact
                  { counted := hlater.counted.perm List.perm_middle
                    spares := (hgives.spares.of_subset (List.Subset.refl _)
                      (List.subset_append_right _ _)).trans
                      (hlater.spares.of_subset (List.Subset.refl _) (List.subset_cons_self _ _))
                    shows := .cons
                      (hlater.spares.shows found List.mem_cons_self _ hgives.shows_head)
                      hlater.shows }
              by_cases hkey : (heap.head ref).key = key
              · rw [if_pos hkey]
                refine hone ref heap ⟨hcounted, Spares.refl heap opened _, .cons ?_ .nil⟩
                rw [hfirst.head_eq] at hkey
                subst hkey
                rwa [Tree.withKey, Tree.withHead, Tree.node_head_children]
              · rw [if_neg hkey]
                exact hone _ _ (hcounted.relabel hfirst key)

/-! ## Changes to a node of one's own -/

/-- Two changes to a row are the same but for the nodes that come in, which are related. -/
inductive Relates {ι κ : Type} (R : ι → κ → Prop) : RowChange ι → RowChange κ → Prop
  | keep : Relates R .keep .keep
  | insert (pos : Nat) {node : ι} {node' : κ} (stamp : Option Stamp) :
      R node node' → Relates R (.insert pos ⟨node, stamp⟩) (.insert pos ⟨node', stamp⟩)
  | replace (pos : Nat) {node : ι} {node' : κ} (stamp : Option Stamp) :
      R node node' → Relates R (.replace pos ⟨node, stamp⟩) (.replace pos ⟨node', stamp⟩)
  | remove (pos : Nat) : Relates R (.remove pos) (.remove pos)
  | move (source target : Nat) : Relates R (.move source target) (.move source target)
  | label (pos : Nat) (key : String) : Relates R (.label pos key) (.label pos key)
  | relabel (keys : List String) : Relates R (.relabel keys) (.relabel keys)
  | refill {nodes : List ι} {nodes' : List κ} :
      List.Forall₂ R nodes nodes' → Relates R (.refill nodes) (.refill nodes')

section Rows

variable {α β : Type} {R : α → β → Prop} {row : List α} {row' : List β}

theorem forall₂_insertInto (hrow : List.Forall₂ R row row') (pos : Nat) {value : α} {value' : β}
    (hvalue : R value value') :
    List.Forall₂ R (insertInto row pos value) (insertInto row' pos value') := by
  have hinsert : ∀ pos, List.Forall₂ R (row.insertIdx pos value) (row'.insertIdx pos value') := by
    induction hrow with
    | nil =>
        intro pos
        cases pos with
        | zero => exact .cons hvalue .nil
        | succ pos => exact .nil
    | cons hfirst hrest ih =>
        intro pos
        cases pos with
        | zero => exact .cons hvalue (.cons hfirst hrest)
        | succ pos => exact .cons hfirst (ih pos)
  rw [insertInto, insertInto, hrow.length_eq]
  exact hinsert _

theorem forall₂_set (hrow : List.Forall₂ R row row') (pos : Nat) {value : α} {value' : β}
    (hvalue : R value value') : List.Forall₂ R (row.set pos value) (row'.set pos value') := by
  induction hrow generalizing pos with
  | nil => exact .nil
  | cons hfirst hrest ih =>
      cases pos with
      | zero => exact .cons hvalue hrest
      | succ pos => exact .cons hfirst (ih pos)

theorem forall₂_eraseIdx (hrow : List.Forall₂ R row row') (pos : Nat) :
    List.Forall₂ R (row.eraseIdx pos) (row'.eraseIdx pos) := by
  induction hrow generalizing pos with
  | nil => exact .nil
  | cons hfirst hrest ih =>
      cases pos with
      | zero => exact hrest
      | succ pos => exact .cons hfirst (ih pos)

theorem forall₂_set_of_eraseIdx (hlength : row.length = row'.length) {pos : Nat}
    (hrow : List.Forall₂ R (row.eraseIdx pos) (row'.eraseIdx pos)) {value : α} {value' : β}
    (hvalue : R value value') : List.Forall₂ R (row.set pos value) (row'.set pos value') := by
  induction row generalizing row' pos with
  | nil =>
      rw [List.length_eq_zero_iff.mp hlength.symm]
      exact .nil
  | cons first rest ih =>
      cases row' with
      | nil => cases hlength
      | cons first' rest' =>
          cases pos with
          | zero => exact .cons hvalue hrow
          | succ pos =>
              cases hrow with
              | cons hfirst hrest => exact .cons hfirst (ih (Nat.succ.inj hlength) hrest)

theorem forall₂_moveWithin (hrow : List.Forall₂ R row row') (source target : Nat) :
    List.Forall₂ R (moveWithin row source target) (moveWithin row' source target) := by
  rw [moveWithin, moveWithin]
  rcases forall₂_getElem? hrow source with ⟨value, value', hget, hget', hvalue⟩ | ⟨hget, hget'⟩
  · rw [hget, hget']
    exact forall₂_insertInto (forall₂_eraseIdx hrow source) target hvalue
  · rw [hget, hget']
    exact hrow

theorem perm_insertInto (row : List α) (pos : Nat) (value : α) :
    (insertInto row pos value).Perm (value :: row) :=
  List.perm_insertIdx value row (Nat.min_le_right pos row.length)

theorem perm_eraseIdx (row : List α) (pos : Nat) :
    (row[pos]?.toList ++ row.eraseIdx pos).Perm row := by
  by_cases hpos : pos < row.length
  · rw [List.getElem?_eq_getElem hpos]
    exact List.getElem_cons_eraseIdx_perm hpos
  · rw [List.getElem?_eq_none (Nat.not_lt.mp hpos), List.eraseIdx_of_length_le (Nat.not_lt.mp hpos)]
    exact List.Perm.refl row

theorem perm_set (row : List α) (pos : Nat) (value : α) :
    (row[pos]?.getD value :: row.set pos value).Perm (value :: row) := by
  by_cases hpos : pos < row.length
  · rw [List.getElem?_eq_getElem hpos, Option.getD_some]
    have hset : (row.set pos value).Perm (value :: row.eraseIdx pos) :=
      List.set_perm_cons_eraseIdx hpos value
    have hrow : (row[pos] :: row.eraseIdx pos).Perm row := List.getElem_cons_eraseIdx_perm hpos
    exact (hset.cons _).trans ((List.Perm.swap _ _ _).trans (hrow.cons value))
  · rw [List.getElem?_eq_none (Nat.not_lt.mp hpos), List.set_eq_of_length_le (Nat.not_lt.mp hpos)]
    exact List.Perm.refl _

theorem perm_moveWithin (row : List α) (source target : Nat) :
    (moveWithin row source target).Perm row := by
  rw [moveWithin]
  cases hget : row[source]? with
  | none => exact List.Perm.refl row
  | some value =>
      have hwhole := perm_eraseIdx row source
      rw [hget] at hwhole
      exact (perm_insertInto (row.eraseIdx source) target value).trans hwhole

end Rows

theorem Relates.of_guests {ι κ : Type} {R S : ι → κ → Prop} {row : RowChange ι} {row' : RowChange κ}
    (hrow : Relates R row row') (himp : ∀ node ∈ row.guests, ∀ node', R node node' → S node node') :
    Relates S row row' := by
  cases hrow with
  | keep => exact .keep
  | insert pos stamp hnode => exact .insert pos stamp (himp _ List.mem_cons_self _ hnode)
  | replace pos stamp hnode => exact .replace pos stamp (himp _ List.mem_cons_self _ hnode)
  | remove pos => exact .remove pos
  | move source target => exact .move source target
  | label pos key => exact .label pos key
  | relabel keys => exact .relabel keys
  | refill hnodes =>
      refine .refill ?_
      simp only [RowChange.guests] at himp
      induction hnodes with
      | nil => exact .nil
      | cons hfirst _ ih =>
          exact .cons (himp _ List.mem_cons_self _ hfirst)
            (ih fun node hnode => himp node (List.mem_cons_of_mem _ hnode))

/-- A change to an opened node, whose children and guests are held: the holder gets the tree after
the change. -/
theorem Counted.write_change {row rest : List Ref} {trees : List Tree}
    (hcounted : heap.Counted (ref :: opened) (row ++ (rest ++ holders))) (head : Head)
    (hrow : List.Forall₂ heap.Shows row trees) :
    heap.Gives ((heap.write ref head row).release rest) opened holders [ref]
      [.node head trees] := by
  have hwritten := hcounted.write_row head hrow
  have hheld : (heap.write ref head row).Counted opened (ref :: (rest ++ holders)) :=
    hwritten.counted
  obtain ⟨hlast, hspares⟩ := (hheld.perm List.perm_middle.symm).release
  exact
    { counted := hlast
      spares :=
        (hwritten.spares.of_subset (List.Subset.refl _) (List.subset_append_right _ _)).trans
        (hspares.of_subset (List.Subset.refl _) (List.subset_cons_self _ _))
      shows := .cons (hspares.shows ref List.mem_cons_self _ hwritten.shows_head) .nil }

/-- Of the children of an opened node, the one at a position is handed over; its siblings are held
meanwhile. -/
theorem Counted.handing {row : List Ref} (hcounted : heap.Counted opened (row ++ holders))
    {pos : Nat} {child : Ref} (hchild : row[pos]? = some child) :
    heap.Counted opened (child :: (row.eraseIdx pos ++ holders)) := by
  have hperm := perm_eraseIdx row pos
  rw [hchild] at hperm
  exact hcounted.perm (hperm.symm.append_right holders)

/-- An opened node is closed after an edit that gave another child for the one at a position. -/
theorem Gives.write_child {row : List Ref} {trees : List Tree} {child : Ref} {sub : Tree}
    {pos : Nat} (head : Head) (hrow : List.Forall₂ heap.Shows row trees) (hpos : pos < row.length)
    (hgives : heap.Gives after (ref :: opened) (row.eraseIdx pos ++ holders) [child] [sub]) :
    heap.Gives (after.write ref head (row.set pos child)) opened holders [ref]
      [.node head (trees.set pos sub)] := by
  have hrest := hgives.spares.forall₂ (List.subset_append_left _ _) (forall₂_eraseIdx hrow pos)
  have hset := forall₂_set_of_eraseIdx hrow.length_eq hrest hgives.shows_head
  have hperm := (List.set_perm_cons_eraseIdx hpos child).symm.append_right holders
  have hwritten := Counted.write_row (hgives.counted.perm hperm) head hset
  exact hwritten.behind (hgives.spares.of_subset (List.subset_cons_self _ _)
    (List.subset_append_right _ _))

/-- Changing a node of one's own makes it show the changed tree. The nodes that come in are no
longer held. -/
theorem Counted.apply {change : Change Ref} {row : RowChange Tree}
    (hcounted : heap.Counted opened (ref :: (change.row.guests ++ holders)))
    (hone : (heap.cell ref).count = 1) (hshows : heap.Shows ref tree)
    (hrow : Relates heap.Shows change.row row) :
    heap.Gives (heap.apply change ref) opened holders [ref] [tree.apply ⟨change.head, row⟩] := by
  have hopen := hcounted.opening hone
  have hforall := hshows.forall₂
  obtain ⟨head, refRow⟩ := change
  simp only at hrow hopen
  rw [Heap.apply, Tree.apply]
  -- a change hands references over between the row and the holders, which is a permutation of both
  cases hrow with
  | keep => exact hopen.write_row head hforall
  | @insert pos node sub stamp hnode =>
      have hstamped := Counted.stamped ⟨node, stamp⟩ (hopen.perm List.perm_middle) hnode
      have hforall' := hstamped.spares.forall₂ (List.subset_append_left _ _) hforall
      have hwritten := Counted.write_row
        (hstamped.counted.perm
          ((perm_insertInto (heap.children ref) pos _).symm.append_right holders))
        head (forall₂_insertInto hforall' pos hstamped.shows_head)
      exact hwritten.behind (hstamped.spares.of_subset (List.subset_cons_self _ _)
        (List.subset_append_right _ _))
  | @replace pos node sub stamp hnode =>
      have hstamped := Counted.stamped ⟨node, stamp⟩ (hopen.perm List.perm_middle) hnode
      have hforall' := hstamped.spares.forall₂ (List.subset_append_left _ _) hforall
      have hperm : ∀ child : Ref, (child :: (heap.children ref ++ holders)).Perm
          ((heap.children ref).set pos child ++
            ([(heap.children ref)[pos]?.getD child] ++ holders)) := fun child =>
        ((perm_set (heap.children ref) pos child).symm.append_right holders).trans
          List.perm_middle.symm
      have hwritten := Counted.write_change (hstamped.counted.perm (hperm _)) head
        (forall₂_set hforall' pos hstamped.shows_head)
      exact hwritten.behind (hstamped.spares.of_subset (List.subset_cons_self _ _)
        (List.subset_append_right _ _))
  | remove pos =>
      refine Counted.write_change (hopen.perm ?_) head (forall₂_eraseIdx hforall pos)
      have hperm := (perm_eraseIdx (heap.children ref) pos).symm.append_right holders
      rw [List.append_assoc] at hperm
      exact hperm.trans (List.perm_append_comm_assoc _ _ _)
  | move source target =>
      refine Counted.write_row (hopen.perm ?_) head (forall₂_moveWithin hforall source target)
      exact ((perm_moveWithin _ source target).symm).append_right holders
  | label pos key =>
      simp only [RowChange.apply]
      rcases hshows.child pos with ⟨child, sub, hchild, hsub, hbelow⟩ | ⟨hchild, hsub⟩
      · have hmodify : tree.children.modify pos (·.withKey key) =
            tree.children.set pos (sub.withKey key) := by
          rw [List.modify_eq_set_getElem?, hsub]
          rfl
        rw [hchild, hmodify]
        have hlabelled := (hopen.handing hchild).relabel hbelow key
        exact hlabelled.write_child head hforall (List.getElem?_eq_some_iff.mp hchild).1
      · rw [hchild, List.modify_eq_self (List.getElem?_eq_none_iff.mp hsub)]
        exact hopen.write_row head hforall
  | relabel keys =>
      have hlabelled := hopen.relabelRow keys hforall
      exact (hlabelled.counted.write_row head hlabelled.shows).behind
        (hlabelled.spares.of_subset (List.subset_cons_self _ _) (List.Subset.refl _))
  | refill hnodes =>
      refine Counted.write_change (hopen.perm ?_) head hnodes
      exact List.perm_append_comm_assoc _ _ _

/-! ## Changes below a node -/

/-- A node keeps its head when one of its children is edited. -/
theorem Gives.write_below {child : Ref} {sub : Tree} {pos : Nat} (hshows : heap.Shows ref tree)
    (hpos : pos < (heap.children ref).length)
    (hgives : heap.Gives after (ref :: opened) ((heap.children ref).eraseIdx pos ++ holders)
      [child] [sub]) :
    heap.Gives (after.write ref (after.head ref) ((after.children ref).set pos child)) opened
      holders [ref] [.node tree.head (tree.children.set pos sub)] := by
  have hcell : after.cell ref = heap.cell ref := hgives.spares.cell_eq ref List.mem_cons_self
  have hhead : after.head ref = tree.head := by
    rw [Heap.head, hcell]
    exact hshows.head_eq
  have hchildren : after.children ref = heap.children ref := by
    rw [children, hcell, children]
  rw [hhead, hchildren]
  exact hgives.write_child tree.head hshows.forall₂ hpos

/-- An edit along a path shows the tree after the edit. Nodes that the edit takes in are held until
then, so either the path must lead to a node or there must be none of them. -/
theorem Counted.editAlong {edit : Heap → Ref → Heap} {change : Tree → Tree} {guests : List Ref}
    {ready : Heap → Prop}
    (hready : ∀ heap after opened, heap.Spares after opened guests → ready heap → ready after)
    (hedit : ∀ heap opened holders ref tree, heap.Counted opened (ref :: (guests ++ holders)) →
      (heap.cell ref).count = 1 → heap.Shows ref tree → ready heap →
        heap.Gives (edit heap ref) opened holders [ref] [change tree])
    (path : List Nat) (hcounted : heap.Counted opened (ref :: (guests ++ holders)))
    (hshows : heap.Shows ref tree) (hnow : ready heap)
    (hreach : (tree.subtree? path).isSome ∨ guests = []) :
    heap.Gives (editAlong edit path ref heap).2 opened holders [(editAlong edit path ref heap).1]
      [tree.editAt change path] := by
  induction path generalizing heap opened holders ref tree with
  | nil =>
      obtain ⟨hown, hone⟩ := hcounted.unshare hshows
      have hspares := hown.spares.of_subset (List.Subset.refl _) (List.subset_append_left _ _)
      rw [Heap.editAlong, Tree.editAt_nil]
      exact (hedit _ _ _ _ _ hown.counted hone hown.shows_head (hready _ _ _ hspares hnow)).behind
        (hown.spares.of_subset (List.Subset.refl _) (List.subset_append_right _ _))
  | cons pos path ih =>
      obtain ⟨hown, hone⟩ := hcounted.unshare hshows
      rw [Heap.editAlong, Tree.editAt_cons]
      rw [Tree.subtree?_cons] at hreach
      cases hresult : heap.unshare ref with
      | mk ref middle =>
      rw [hresult] at hown hone
      simp only at hown hone ⊢
      have hshown := hown.shows_head
      rcases hshown.child pos with ⟨child, sub, hchild, hsub, hbelow⟩ | ⟨hchild, hsub⟩
      · rw [hchild]
        rw [hsub, Option.bind_some] at hreach
        have hmine : middle.Counted opened (ref :: (guests ++ holders)) := hown.counted
        have hhanded : middle.Counted (ref :: opened)
            (child :: (guests ++ ((middle.children ref).eraseIdx pos ++ holders))) :=
          ((hmine.opening hone).handing hchild).perm
            ((List.perm_append_comm_assoc _ _ _).cons child)
        have hready' := hready _ _ _ (hown.spares.of_subset (List.Subset.refl _)
          (List.subset_append_left _ _)) hnow
        have hedited := ih hhanded hbelow hready' hreach
        have hmodify : tree.children.modify pos (Tree.editAt change path) =
            tree.children.set pos (Tree.editAt change path sub) := by
          rw [List.modify_eq_set_getElem?, hsub]
          rfl
        rw [hmodify]
        exact (hedited.write_below hshown (List.getElem?_eq_some_iff.mp hchild).1).behind
          (hown.spares.of_subset (List.Subset.refl _) (List.subset_append_right _ _))
      · rw [hchild, List.modify_eq_self (List.getElem?_eq_none_iff.mp hsub),
          Tree.node_head_children]
        obtain rfl : guests = [] := by
          rcases hreach with hreach | hnone
          · rw [hsub] at hreach
            cases hreach
          · exact hnone
        exact hown

end KeyedTree.Heap
