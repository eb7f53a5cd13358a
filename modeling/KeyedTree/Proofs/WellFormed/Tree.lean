import Mathlib.Data.List.InsertIdx
import KeyedTree.Proofs.WellFormed.Outline
import KeyedTree.Tree.Edit

/-! # Well-formed trees

A tree is well-formed when all of its nodes are. Operations on the root keep a tree well-formed,
since their decisions do; copies of well-formed trees are well-formed.
-/

namespace KeyedTree.Tree

/-- Every node of the tree is well-formed. -/
inductive WellFormed : Tree → Prop
  | node {head : Head} {children : List Tree}
      (root : Outline.WellFormed ⟨head, children.map key⟩)
      (below : ∀ child ∈ children, child.WellFormed) : WellFormed (.node head children)

namespace WellFormed

variable {tree : Tree}

theorem outline (htree : tree.WellFormed) : tree.outline.WellFormed := by
  cases htree with
  | node root below => exact root

theorem child (htree : tree.WellFormed) {child : Tree} (hchild : child ∈ tree.children) :
    child.WellFormed := by
  cases htree with
  | node root below => exact below child hchild

theorem of_outline {head : Head} {children : List Tree}
    (hroot : Outline.WellFormed ⟨head, children.map key⟩)
    (hbelow : ∀ child ∈ children, child.WellFormed) : (Tree.node head children).WellFormed :=
  .node hroot hbelow

/-- Another head with the same kind, the same value and the same index. -/
theorem with_head (htree : tree.WellFormed) {head : Head} (hkind : head.kind = tree.head.kind)
    (hscalar : head.scalar = tree.head.scalar) (hindex : head.index = tree.head.index) :
    (tree.withHead head).WellFormed := by
  have hsuits : head.scalar.Suits tree.head.kind := hscalar ▸ htree.outline.suits
  exact .node (htree.outline.with_head hkind hsuits hindex) fun _ => htree.child

theorem with_key (htree : tree.WellFormed) (key : String) : (tree.withKey key).WellFormed :=
  htree.with_head rfl rfl rfl

theorem leaf (payload : Payload) : (Tree.leaf payload).WellFormed :=
  .node (.of_nil rfl payload.suits) (by simp)

theorem stamped {child : Newcomer Tree} (hchild : child.node.WellFormed) :
    child.stamped.WellFormed := by
  unfold Newcomer.stamped
  split
  next => exact hchild
  next => exact hchild.with_head rfl rfl rfl

end WellFormed

/-! ## Rows after a change -/

@[simp] theorem key_withHead (tree : Tree) (head : Head) :
    (tree.withHead head).key = head.key := rfl

@[simp] theorem key_withKey (tree : Tree) (key : String) : (tree.withKey key).key = key := rfl

theorem withKey_self (tree : Tree) : tree.withKey tree.key = tree := by
  obtain ⟨head, children⟩ := tree
  rfl

theorem key_stamped (child : Newcomer Tree) : child.stamped.key = child.key Tree.key := by
  unfold Newcomer.stamped Newcomer.key
  split <;> simp_all

/-- A newcomer has its key and its flag, whether it needs a stamp for that or not. -/
theorem stamped_stampFor (child : Tree) (key : String) (autosort : Bool) :
    (⟨child, Outline.stampFor child.head key autosort⟩ : Newcomer Tree).stamped =
      child.withHead { child.head with key, autosort } := by
  obtain ⟨head, children⟩ := child
  unfold Newcomer.stamped Outline.stampFor
  by_cases hsame : head.key = key ∧ head.autosort = autosort
  · obtain ⟨rfl, rfl⟩ := hsame
    simp [Tree.head, Tree.withHead, Tree.children]
  · simp [Tree.head, hsame]

theorem length_keys (tree : Tree) : tree.keys.length = tree.children.length :=
  List.length_map _

theorem insertInto_length {β : Type} (row : List β) (value : β) :
    insertInto row row.length value = row ++ [value] := by
  simp [insertInto]

theorem relabelRow_eq (row : List Tree) (labels : List String) :
    relabelRow row labels =
      (row.zip labels).map (fun (child, label) => child.withKey label) ++
        row.drop labels.length := by
  induction row generalizing labels with
  | nil => simp [relabelRow]
  | cons child rest ih =>
      cases labels with
      | nil => simp [relabelRow]
      | cons label labels => simp [relabelRow, ih]

/-- A child that is given a key has it, and any other child is as it was. -/
theorem getElem?_relabelRow (row : List Tree) (labels : List String) (pos : Nat) :
    (relabelRow row labels)[pos]? = row[pos]?.map fun child =>
      child.withKey (labels[pos]?.getD child.key) := by
  induction row generalizing labels pos with
  | nil => simp [relabelRow]
  | cons child rest ih =>
      cases labels with
      | nil => simp [relabelRow, withKey_self]
      | cons label labels =>
          cases pos with
          | zero => simp [relabelRow]
          | succ pos => simp [relabelRow, ih]

theorem map_key_relabelRow (row : List Tree) (labels : List String) :
    (relabelRow row labels).map key =
      labels.take row.length ++ (row.map key).drop labels.length := by
  induction row generalizing labels with
  | nil => simp [relabelRow]
  | cons child rest ih =>
      cases labels with
      | nil => simp [relabelRow]
      | cons label labels => simp [relabelRow, ih]

theorem map_insertInto {α β : Type} (f : α → β) (row : List α) (pos : Nat) (value : α) :
    (insertInto row pos value).map f = insertInto (row.map f) pos (f value) := by
  simp [insertInto, List.map_insertIdx]

theorem map_eraseIdx {α β : Type} (f : α → β) (row : List α) (pos : Nat) :
    (row.eraseIdx pos).map f = (row.map f).eraseIdx pos :=
  (List.eraseIdx_map f row pos).symm

theorem map_moveWithin {α β : Type} (f : α → β) (row : List α) (source target : Nat) :
    (moveWithin row source target).map f = moveWithin (row.map f) source target := by
  simp only [moveWithin, List.getElem?_map]
  cases row[source]? with
  | none => rfl
  | some value => simp [map_insertInto, map_eraseIdx]

theorem map_key_label (row : List Tree) (pos : Nat) (label : String) :
    (row.modify pos (·.withKey label)).map key = (row.map key).set pos label := by
  rw [List.modify_eq_set, List.map_set, key_withKey]

/-- The keys of a changed row are determined by its keys before. -/
theorem map_key_apply (change : RowChange Tree) (row : List Tree) :
    (change.apply row).map key = change.keys key (row.map key) := by
  cases change with
  | keep => rfl
  | insert pos child => simp only [RowChange.apply, RowChange.keys, map_insertInto, key_stamped]
  | replace pos child => simp only [RowChange.apply, RowChange.keys, List.map_set, key_stamped]
  | remove pos => exact map_eraseIdx key row pos
  | move source target => exact map_moveWithin key row source target
  | label pos label => exact map_key_label row pos label
  | relabel labels =>
      simp only [RowChange.apply, RowChange.keys, map_key_relabelRow, List.length_map]
  | refill children => rfl

theorem mem_insertInto {α : Type} {row : List α} {pos : Nat} {value item : α}
    (hitem : item ∈ insertInto row pos value) : item = value ∨ item ∈ row := by
  rwa [insertInto, List.mem_insertIdx (Nat.min_le_right _ _)] at hitem

theorem mem_moveWithin {α : Type} {row : List α} {source target : Nat} {item : α}
    (hitem : item ∈ moveWithin row source target) : item ∈ row := by
  unfold moveWithin at hitem
  split at hitem
  next value hvalue =>
    rcases mem_insertInto hitem with rfl | hrest
    · exact List.mem_of_getElem? hvalue
    · exact List.mem_of_mem_eraseIdx hrest
  next => exact hitem

theorem mem_modify {α : Type} {row : List α} {pos : Nat} {edit : α → α} {item : α}
    (hitem : item ∈ row.modify pos edit) : item ∈ row ∨ ∃ old ∈ row, item = edit old := by
  rw [List.modify_eq_set_getElem?] at hitem
  cases hold : row[pos]? with
  | none =>
      rw [hold] at hitem
      exact .inl hitem
  | some old =>
      rw [hold] at hitem
      exact (List.mem_or_eq_of_mem_set hitem).imp id fun heq =>
        ⟨old, List.mem_of_getElem? hold, heq⟩

/-- Whatever stands in a changed row stood there before, perhaps under another key, or has come
in. -/
theorem wellFormed_of_mem_apply {change : RowChange Tree} {row : List Tree}
    (hrow : ∀ child ∈ row, child.WellFormed) (hguests : ∀ guest ∈ change.guests, guest.WellFormed)
    {child : Tree} (hchild : child ∈ change.apply row) : child.WellFormed := by
  cases change with
  | keep => exact hrow child hchild
  | insert pos guest =>
      rcases mem_insertInto hchild with rfl | hold
      · exact .stamped (hguests guest.node List.mem_cons_self)
      · exact hrow child hold
  | replace pos guest =>
      rcases List.mem_or_eq_of_mem_set hchild with hold | rfl
      · exact hrow child hold
      · exact .stamped (hguests guest.node List.mem_cons_self)
  | remove pos => exact hrow child (List.mem_of_mem_eraseIdx hchild)
  | move source target => exact hrow child (mem_moveWithin hchild)
  | label pos label =>
      rcases mem_modify hchild with hold | ⟨old, hold, rfl⟩
      · exact hrow child hold
      · exact (hrow old hold).with_key label
  | relabel labels =>
      simp only [RowChange.apply, relabelRow_eq, List.mem_append, List.mem_map,
        Prod.exists] at hchild
      rcases hchild with ⟨old, label, hold, rfl⟩ | hold
      · exact (hrow old (List.of_mem_zip hold).1).with_key label
      · exact hrow child (List.mem_of_mem_drop hold)
  | refill children => exact hguests child hchild

/-! ## Operations on the root -/

variable {tree : Tree}

@[simp] theorem outline_apply (tree : Tree) (change : Change Tree) :
    (tree.apply change).outline = tree.outline.after key change := by
  simp only [apply, outline, Outline.after, head, keys, children, map_key_apply]

theorem WellFormed.apply (htree : tree.WellFormed) {change : Change Tree}
    (hroot : (tree.outline.after key change).WellFormed)
    (hguests : ∀ guest ∈ change.row.guests, guest.WellFormed) : (tree.apply change).WellFormed := by
  rw [← outline_apply] at hroot
  exact .node hroot fun child => wellFormed_of_mem_apply (fun _ => htree.child) hguests

theorem perform_refuse {α : Type} {decide : Outline → Verdict Tree α} {operation : Operation}
    {objection : Objection} (hdecide : decide tree.outline = .refuse operation objection) :
    tree.perform decide = (.error (.ofRefusal ⟨operation, objection⟩ tree), tree) := by
  unfold perform
  rw [hdecide]
  rfl

theorem perform_answered {α : Type} {decide : Outline → Verdict Tree α} {value : α}
    (hdecide : decide tree.outline = .answered value) :
    tree.perform decide = (.ok value, tree) := by
  unfold perform
  rw [hdecide]
  rfl

theorem perform_changed {α : Type} {decide : Outline → Verdict Tree α} {change : Change Tree}
    {value : α} (hdecide : decide tree.outline = .changed change value) :
    tree.perform decide = (.ok value, tree.apply change) := by
  unfold perform
  rw [hdecide]
  rfl

theorem key_perform {α : Type} {decide : Outline → Verdict Tree α}
    (hhead : ∀ change, (decide tree.outline).change = some change → change.head.key = tree.key) :
    (tree.perform decide).2.key = tree.key := by
  unfold perform
  simp only
  split
  next change hchange => exact hhead change hchange
  next => rfl

/-- An operation that keeps the root well-formed keeps the tree well-formed. -/
theorem WellFormed.perform {α : Type} {decide : Outline → Verdict Tree α} {offered : List Tree}
    (htree : tree.WellFormed) (hkeeps : (decide tree.outline).Keeps key offered tree.outline)
    (hoffered : ∀ guest ∈ offered, guest.WellFormed) : (tree.perform decide).2.WellFormed := by
  unfold Tree.perform
  simp only
  split
  next change hchange =>
    obtain ⟨hroot, hguests⟩ := hkeeps change hchange
    exact htree.apply hroot fun guest hguest => hoffered guest (hguests.subset hguest)
  next => exact htree

theorem WellFormed.attach (htree : tree.WellFormed) {child : Tree} (hchild : child.WellFormed) :
    (tree.attach child).2.WellFormed :=
  htree.perform (Outline.keeps_attach htree.outline _ _ rfl List.mem_cons_self)
    (List.forall_mem_singleton.mpr hchild)

theorem WellFormed.attachKeyed (htree : tree.WellFormed) (key : String) {child : Tree}
    (hchild : child.WellFormed) : (tree.attachKeyed key child).2.WellFormed :=
  htree.perform (Outline.keeps_attach htree.outline _ _ rfl List.mem_cons_self)
    (List.forall_mem_singleton.mpr hchild)

theorem WellFormed.append (htree : tree.WellFormed) {child : Tree} (hchild : child.WellFormed) :
    (tree.append child).2.WellFormed :=
  htree.perform (Outline.keeps_append htree.outline _ List.mem_cons_self)
    (List.forall_mem_singleton.mpr hchild)

/-! ## Copies -/

theorem copyRow_eq_map (row : List Tree) : copyRow row = row.map copy := by
  induction row with
  | nil => rfl
  | cons child rest ih => simp only [copyRow, ih, List.map_cons]

@[simp] theorem key_copy (tree : Tree) : tree.copy.key = tree.key := by
  cases tree
  rfl

theorem WellFormed.copy (htree : tree.WellFormed) : tree.copy.WellFormed := by
  induction htree with
  | @node head children root below ih =>
      have hkeys : (copyRow children).map key = children.map key := by
        simp [copyRow_eq_map, Function.comp_def]
      refine .node ?_ ?_
      · rw [hkeys]
        exact root.with_head rfl root.suits rfl
      · rw [copyRow_eq_map]
        exact List.forall_mem_map.mpr ih

theorem WellFormed.takeIn {join : Tree → Tree → Except Fault Nat × Tree}
    (hjoin : ∀ tree child : Tree, tree.WellFormed → child.WellFormed →
      (join tree child).2.WellFormed)
    (htree : tree.WellFormed) {row : List Tree} (hrow : ∀ child ∈ row, child.WellFormed) :
    (takeIn join tree row).2.WellFormed := by
  induction row generalizing tree with
  | nil => exact htree
  | cons child rest ih =>
      obtain ⟨hchild, hrest⟩ := List.forall_mem_cons.mp hrow
      have hjoined := hjoin tree child htree hchild
      unfold Tree.takeIn
      split
      next pos joined hresult => exact ih (by rwa [hresult] at hjoined) hrest
      next fault joined hresult => rwa [hresult] at hjoined

theorem WellFormed.copyFrom {source : Tree} (hsource : source.WellFormed) (tree : Tree) :
    (tree.copyFrom source).2.WellFormed := by
  unfold Tree.copyFrom
  have hsuits : source.head.scalar.Suits source.kind := hsource.outline.suits
  refine .takeIn ?_ (.node (.of_nil ?_ ?_) (by simp)) ?_
  · intro tree child htree hchild
    split
    · exact htree.append hchild
    · exact htree.attach hchild
  · rfl
  · exact hsuits
  · rw [copyRow_eq_map]
    exact List.forall_mem_map.mpr fun child hchild => (hsource.child hchild).copy

end KeyedTree.Tree
