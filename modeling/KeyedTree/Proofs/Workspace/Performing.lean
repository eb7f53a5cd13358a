import KeyedTree.Proofs.Workspace.Safety

/-! # Operations at places and on trees

An operation on the node at a place does to the tree there what the same operation does to a tree of
one's own: it makes the same change, with the nodes that come in put in the place of their origins,
and it answers the same.
-/

namespace KeyedTree

variable {α : Type} {store after : PrivateStore} {place : Place} {tree : Tree}

/-! ## Origins and nodes -/

namespace PrivateStore

/-- Taking in a node from another slot does not touch the node at a place. -/
theorem view?_resolve {origin : Origin} (haway : ∀ slot, origin = .held slot → slot ≠ place.slot) :
    (resolve origin store).2.view? place = store.view? place := by
  cases origin with
  | fresh tree => rfl
  | shared source => rfl
  | held slot =>
      simp only [resolve]
      split
      next tree hheld => rw [view?_set, if_neg (haway slot rfl).symm]
      next => rfl

theorem view?_resolveAll {origins : List Origin}
    (haway : ∀ slot, .held slot ∈ origins → slot ≠ place.slot) :
    (RowChange.resolveAll resolve origins store).2.view? place = store.view? place := by
  induction origins generalizing store with
  | nil => rfl
  | cons origin rest ih =>
      rw [RowChange.resolveAll]
      exact (ih fun slot hslot => haway slot (List.mem_cons_of_mem _ hslot)).trans
        (view?_resolve fun slot hslot => haway slot (hslot ▸ List.mem_cons_self))

theorem view?_resolveRow {row : RowChange Origin}
    (haway : ∀ slot, .held slot ∈ row.guests → slot ≠ place.slot) :
    (row.resolve resolve store).2.view? place = store.view? place := by
  cases row with
  | insert pos child =>
      exact view?_resolve fun slot hslot => haway slot (hslot ▸ List.mem_cons_self)
  | replace pos child =>
      exact view?_resolve fun slot hslot => haway slot (hslot ▸ List.mem_cons_self)
  | refill origins => exact view?_resolveAll haway
  | keep => rfl
  | remove pos => rfl
  | move source target => rfl
  | label pos key => rfl
  | relabel keys => rfl

/-- A verdict with the nodes that come in put in the place of their origins. -/
def grant (store : PrivateStore) (verdict : Verdict Origin α) : Verdict Tree α :=
  ⟨verdict.change.map fun change => ⟨change.head, (change.row.resolve resolve store).1⟩,
    verdict.answer⟩

/-- The node that comes in from an origin. -/
def guest (store : PrivateStore) (origin : Origin) : Tree :=
  (resolve origin store).1

theorem grant_attach (store : PrivateStore) (operation : Operation) (renamed : Option String)
    (origin : Origin) (guest : Head) (node : Outline) :
    store.grant (node.attach operation renamed origin guest) =
      node.attach operation renamed (store.guest origin) guest := by
  unfold Outline.attach
  simp only
  split
  next => rfl
  next =>
    split
    next => split <;> rfl
    next => rfl
  next =>
    split
    next => split <;> rfl
    next => rfl
  next => rfl

theorem grant_attachOver (store : PrivateStore) (key : String) (origin : Origin) (guest : Head)
    (node : Outline) :
    store.grant (node.attachOver key origin guest) =
      node.attachOver key (store.guest origin) guest := by
  unfold Outline.attachOver
  simp only
  rw [← grant_attach]
  simp only [grant, Option.map_map]
  rfl

theorem grant_append (store : PrivateStore) (origin : Origin) (guest : Head) (node : Outline) :
    store.grant (node.append origin guest) = node.append (store.guest origin) guest := by
  unfold Outline.append
  split <;> rfl

theorem grant_entry (store : PrivateStore) (key : String) (origin : Origin) (node : Outline) :
    store.grant (node.entry key origin) = node.entry key (store.guest origin) := by
  unfold Outline.entry
  split
  next =>
    split
    next => rfl
    next => exact store.grant_attach _ _ _ _ _
  next =>
    split
    next => rfl
    next => exact store.grant_attach _ _ _ _ _
  next => rfl

theorem grant_assign (store : PrivateStore) (operation : Operation) (value : Payload)
    (node : Outline) :
    store.grant (node.assign operation value) = node.assign operation value := by
  unfold Outline.assign
  simp only
  split
  next => rfl
  next => split <;> rfl

theorem grant_remove (store : PrivateStore) (key : String) (node : Outline) :
    store.grant (node.remove key) = node.remove key := by
  unfold Outline.remove
  split
  next => split <;> rfl
  next => rfl

theorem grant_rename (store : PrivateStore) (old new : String) (node : Outline) :
    store.grant (node.rename old new) = node.rename old new := by
  unfold Outline.rename
  simp only
  split
  next => rfl
  next =>
    split
    next => split <;> rfl
    next => rfl

theorem grant_rekey (store : PrivateStore) (pos : Nat) (key : String) (node : Outline) :
    store.grant (node.rekey pos key) = node.rekey pos key := by
  unfold Outline.rekey
  split
  next => rfl
  next =>
    split
    next => rfl
    next =>
      split
      next => split <;> rfl
      next => rfl

theorem grant_relocate (store : PrivateStore) (key : String) (pos : Nat) (node : Outline) :
    store.grant (node.relocate key pos) = node.relocate key pos := by
  unfold Outline.relocate
  split
  next => rfl
  next =>
    split
    next => rfl
    next => split <;> rfl

/-- No node comes in with an edit. -/
theorem grant_edit (store : PrivateStore) (edit : Edit) (node : Outline) :
    store.grant (edit.decide node) = edit.decide node := by
  cases edit with
  | setString value => exact store.grant_assign _ _ node
  | setInteger value => exact store.grant_assign _ _ node
  | setBool value => exact store.grant_assign _ _ node
  | appendText text =>
      simp only [Edit.decide, Outline.appendText]
      split <;> rfl
  | addInteger amount =>
      simp only [Edit.decide, Outline.addInteger]
      split <;> rfl
  | remove key => exact store.grant_remove key node
  | rename old new => exact store.grant_rename old new node
  | rekey pos key => exact store.grant_rekey pos key node
  | relocate key pos => exact store.grant_relocate key pos node
  | setKey key => rfl
  | appendKey text => rfl
  | setAutosort autosort => rfl
  | setOverwrite overwrite => rfl
  | clear kind => rfl

theorem grant_childOf (store : PrivateStore) (operation : Operation) (key : String)
    (node : Outline) :
    store.grant (node.childOf operation key) = node.childOf operation key := by
  unfold Outline.childOf
  split
  next => split <;> rfl
  next => rfl

theorem grant_settle (store : PrivateStore) (pos : Nat) (old : String) (node : Outline) :
    store.grant (node.settle pos old) = node.settle pos old := by
  unfold Outline.settle
  simp only
  split
  next => split <;> rfl
  next => rfl

theorem grant_resettle (store : PrivateStore) (old : List String) (node : Outline) :
    store.grant (node.resettle old) = node.resettle old := by
  unfold Outline.resettle
  split
  next => split <;> rfl
  next => rfl

/-! ## Operations that take nothing out of the workspace -/

theorem resolveAll_of_fresh {origins : List Origin}
    (hfresh : ∀ origin ∈ origins, ∃ tree, origin = .fresh tree) :
    (RowChange.resolveAll resolve origins store).2 = store := by
  induction origins with
  | nil => rfl
  | cons origin rest ih =>
      obtain ⟨⟨tree, rfl⟩, hrest⟩ := List.forall_mem_cons.mp hfresh
      exact ih hrest

/-- New nodes come in without leaving a trace elsewhere. -/
theorem resolve_of_fresh {row : RowChange Origin}
    (hfresh : ∀ origin ∈ row.guests, ∃ tree, origin = .fresh tree) :
    (row.resolve resolve store).2 = store := by
  have hone {child : Newcomer Origin} (hchild : ∃ tree, child.node = .fresh tree) :
      (resolve child.node store).2 = store := by
    obtain ⟨tree, htree⟩ := hchild
    rw [htree, resolve]
  cases row with
  | insert pos child => exact hone (hfresh _ List.mem_cons_self)
  | replace pos child => exact hone (hfresh _ List.mem_cons_self)
  | refill origins => exact resolveAll_of_fresh hfresh
  | keep => rfl
  | remove pos => rfl
  | move source target => rfl
  | label pos key => rfl
  | relabel keys => rfl

/-- Such an operation edits the node at a place as it edits a tree. -/
theorem changed_eq_editAt {decide : Outline → Verdict Origin α} {decide' : Outline → Verdict Tree α}
    (hgrant : ∀ node, store.grant (decide node) = decide' node)
    (hfresh : ∀ node change, (decide node).change = some change →
      ∀ origin ∈ change.row.guests, ∃ tree, origin = .fresh tree) (place : Place) :
    store.changed place (decide (((store.view? place).map Tree.outline).getD default)).change =
      store.editAt place fun tree => (tree.perform decide').2 := by
  cases hchange : (decide (((store.view? place).map Tree.outline).getD default)).change with
  | none =>
      refine (store.editAt_id place).symm.trans (editAt_congr fun node hnode => ?_)
      rw [hnode, Option.map_some, Option.getD_some] at hchange
      rw [Tree.perform, ← hgrant, grant, hchange]
      rfl
  | some change =>
      rw [changed_some, resolve_of_fresh (hfresh _ change hchange)]
      refine editAt_congr fun node hnode => ?_
      rw [hnode, Option.map_some, Option.getD_some] at hchange
      rw [Tree.perform, ← hgrant, grant, hchange]
      rfl

end PrivateStore

/-! ## Operations -/

namespace Course

/-- An operation with which nothing but new nodes come in edits the node at a place, and answers
what it answers on the tree there. -/
theorem performs_editAt {decide : Outline → Verdict Origin α} {decide' : Outline → Verdict Tree α}
    {result : Except Fault α} (hgrant : ∀ node, store.grant (decide node) = decide' node)
    (hfresh : ∀ node change, (decide node).change = some change →
      ∀ origin ∈ change.row.guests, ∃ tree, origin = .fresh tree)
    (hview : store.view? place = some tree)
    (hcourse : Course (place.perform decide).run store result after) :
    result = (tree.perform decide').1 ∧
      after = store.editAt place fun tree => (tree.perform decide').2 := by
  obtain ⟨hresult, hafter⟩ := Course.perform hcourse
  rw [PrivateStore.changed_eq_editAt hgrant hfresh place] at hafter
  subst hafter
  refine ⟨?_, rfl⟩
  rw [hresult, PrivateStore.view?_editAt_self, hview, Option.map_some, Option.map_some,
    Option.getD_some, Option.getD_some, Tree.perform, ← hgrant]
  rfl

/-- A parent settles as a tree does. -/
theorem settle {pos : Nat} {old : String} {result : Except Fault Unit}
    (hcourse : Course (place.perform (Outline.settle pos old)).run store result after) :
    after = store.editAt place fun tree => (tree.perform (Outline.settle pos old)).2 := by
  rw [(Course.perform hcourse).2]
  refine PrivateStore.changed_eq_editAt (store.grant_settle pos old)
    (fun node change hchange => ?_) place
  rw [Program.settle_guests node change hchange]
  exact List.forall_mem_nil _

/-- A node resettles as a tree does. -/
theorem resettle {old : List String} {result : Except Fault (List String)}
    (hview : store.view? place = some tree)
    (hcourse : Course (place.perform (Outline.resettle old)).run store result after) :
    result = (tree.perform (Outline.resettle old)).1 ∧
      after.view? place = some (tree.perform (Outline.resettle old)).2 := by
  have hfresh (node : Outline) (change : Change Origin)
      (hchange : (Outline.resettle old node : Verdict Origin (List String)).change = some change) :
      ∀ origin ∈ change.row.guests, ∃ tree, origin = .fresh tree := by
    rw [Program.resettle_guests node change hchange]
    exact List.forall_mem_nil _
  obtain ⟨hresult, rfl⟩ := performs_editAt (store.grant_resettle old) hfresh hview hcourse
  refine ⟨hresult, ?_⟩
  rw [PrivateStore.view?_editAt_self, hview, Option.map_some]

/-- An operation on the node at a place does what it does to the tree there, provided that the nodes
that come in are elsewhere. -/
theorem performs {decide : Outline → Verdict Origin α} {decide' : Outline → Verdict Tree α}
    {offered : List Origin} {result : Except Fault α}
    (hview : store.view? place = some tree)
    (hgrant : store.grant (decide tree.outline) = decide' tree.outline)
    (hkeeps : (decide tree.outline).Keeps store.keyOf offered tree.outline)
    (haway : ∀ slot, .held slot ∈ offered → slot ≠ place.slot)
    (hcourse : Course (place.perform decide).run store result after) :
    result = (tree.perform decide').1 ∧ after.view? place = some (tree.perform decide').2 := by
  obtain ⟨hresult, hafter⟩ := Course.perform hcourse
  rw [hview, Option.map_some, Option.getD_some] at hresult hafter
  have hnode : after.view? place = some (tree.perform decide').2 := by
    unfold Tree.perform
    rw [hafter, ← hgrant]
    cases hchange : (decide tree.outline).change with
    | none =>
        rw [PrivateStore.grant, hchange]
        exact hview
    | some change =>
        obtain ⟨_, hguests⟩ := hkeeps change hchange
        rw [PrivateStore.grant, hchange, PrivateStore.changed_some, PrivateStore.view?_editAt_self,
          PrivateStore.view?_resolveRow fun slot hslot => haway slot (hguests.subset hslot), hview]
        rfl
  refine ⟨?_, hnode⟩
  rw [hresult, hnode, Option.getD_some]
  unfold Tree.perform
  rw [← hgrant]
  rfl

/-- What takes in the argument fails on an empty handle, and goes on with the head of any other. -/
theorem of_argumentHead {operation : Operation} {next : Head → Attempt α} {result : Except Fault α}
    (hcourse : Course (argumentHead operation >>= next).run store result after) :
    (store.view? .argument = none ∧ result = .error (.emptyHandle operation) ∧ store = after) ∨
      ∃ child, store.view? .argument = some child ∧
        Course (next child.head).run store result after := by
  rcases run_bind_iff.mp hcourse with ⟨guest, middle, hhead, hnext⟩ | ⟨fault, hhead, rfl⟩
  · obtain ⟨hguest, rfl⟩ := Program.course_argumentHead hhead
    cases hview : store.view? .argument with
    | none =>
        rw [hview] at hguest
        cases hguest
    | some child =>
        rw [hview] at hguest
        cases hguest
        exact .inr ⟨child, rfl, hnext⟩
  · obtain ⟨hfault, rfl⟩ := Program.course_argumentHead hhead
    cases hview : store.view? .argument with
    | none =>
        rw [hview] at hfault
        obtain rfl : fault = .emptyHandle operation := Except.error.inj hfault
        exact .inl ⟨rfl, rfl, rfl⟩
    | some child =>
        rw [hview] at hfault
        cases hfault

/-- What succeeds after it has taken in the argument went on with the head of a node. -/
theorem of_argumentHead_ok {operation : Operation} {next : Head → Attempt α} {value : α}
    (hcourse : Course (argumentHead operation >>= next).run store (.ok value) after) :
    ∃ guest, Course (next guest).run store (.ok value) after := by
  rcases of_argumentHead hcourse with ⟨_, hfault, _⟩ | ⟨child, _, hnext⟩
  · cases hfault
  · exact ⟨child.head, hnext⟩

end Course

end KeyedTree
