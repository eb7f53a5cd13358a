import KeyedTree.Proofs.WellFormed.Origins
import KeyedTree.Proofs.WellFormed.Tree
import KeyedTree.Proofs.Workspace.Operations

/-! # Programs keep trees well-formed

A workspace is sound when whatever may be written to is well-formed. Programs made of operations
keep it sound, and they change a slot with a guarded node at that node only. When a guard is dropped
its parent settles, so soundness without any guard is soundness of all trees as they are.
-/

namespace KeyedTree

/-! ## Paths in private stores -/

namespace PrivateStore

variable {store : PrivateStore} {place : Place} {edit : Tree → Tree}

theorem get?_editAt (store : PrivateStore) (place : Place) (edit : Tree → Tree) (slot : Slot) :
    (store.editAt place edit).shelf.get? slot =
      if slot = place.slot then (store.shelf.get? slot).map (Tree.editAt edit place.path)
      else store.shelf.get? slot := by
  rw [editAt]
  cases hheld : store.shelf.get? place.slot with
  | none =>
      by_cases hslot : slot = place.slot
      · rw [if_pos hslot, hslot, hheld]
        rfl
      · rw [if_neg hslot]
  | some tree =>
      simp only [Shelf.get?_set]
      by_cases hslot : slot = place.slot
      · rw [if_pos hslot, if_pos hslot, hslot, hheld]
        rfl
      · rw [if_neg hslot, if_neg hslot]

theorem view?_editAt_self (store : PrivateStore) (place : Place) (edit : Tree → Tree) :
    (store.editAt place edit).view? place = (store.view? place).map edit := by
  rw [view?, get?_editAt, if_pos rfl, view?]
  cases store.shelf.get? place.slot with
  | none => rfl
  | some tree => exact Tree.subtree?_editAt edit place.path tree

theorem view?_editAt_of_ne {other : Place} (hslot : other.slot ≠ place.slot) :
    (store.editAt place edit).view? other = store.view? other := by
  rw [view?, get?_editAt, if_neg hslot, view?]

theorem view?_set (store : PrivateStore) (slot : Slot) (tree : Option Tree) (place : Place) :
    view? ⟨store.shelf.set slot tree⟩ place =
      if place.slot = slot then tree.bind fun root => root.subtree? place.path
      else store.view? place := by
  rw [view?, Shelf.get?_set]
  by_cases hslot : place.slot = slot
  · rw [if_pos hslot, if_pos hslot]
  · rw [if_neg hslot, if_neg hslot, view?]

/-- Only what an edit makes of the node at a place counts. -/
theorem editAt_congr {first second : Tree → Tree}
    (hsame : ∀ node, store.view? place = some node → first node = second node) :
    store.editAt place first = store.editAt place second := by
  unfold editAt
  cases hheld : store.shelf.get? place.slot with
  | none => rfl
  | some tree =>
      have hedited : tree.editAt first place.path = tree.editAt second place.path :=
        Tree.editAt_congr fun node hnode =>
          hsame node (by rw [view?, hheld, Option.bind_some, hnode])
      simp only [hedited]

/-- A node below another one. -/
theorem view?_append (store : PrivateStore) (slot : Slot) (path below : List Nat) :
    store.view? ⟨slot, path ++ below⟩ =
      (store.view? ⟨slot, path⟩).bind fun node => node.subtree? below := by
  simp only [view?, Option.bind_assoc]
  exact congrArg _ (funext fun tree => Tree.subtree?_append tree path below)

end PrivateStore

/-! ## Soundness -/

namespace Guards

variable {guards : Guards} {store before middle after : PrivateStore} {place : Place}

/-- Whatever may be written to is well-formed. -/
def Sound (guards : Guards) (store : PrivateStore) : Prop :=
  ∀ place, guards.Writable place → ∀ node, store.view? place = some node → node.WellFormed

theorem sound_empty (guards : Guards) : guards.Sound {} := by
  intro place _ node hnode
  cases hnode

/-- The workspace is sound afterwards, and slots with a guarded node changed at most there. -/
structure Kept (guards : Guards) (before after : PrivateStore) : Prop where
  sound : guards.Sound after
  moved : ∀ slot path, guards slot = some path →
    ∃ edit, after.shelf.get? slot = (before.shelf.get? slot).map (Tree.editAt edit path)

theorem Kept.refl (hsound : guards.Sound store) : guards.Kept store store where
  sound := hsound
  moved slot path _ := ⟨id, by
    rw [show Tree.editAt id path = id from funext (Tree.editAt_id path), Option.map_id]
    rfl⟩

theorem Kept.trans (hfirst : guards.Kept before middle) (hsecond : guards.Kept middle after) :
    guards.Kept before after where
  sound := hsecond.sound
  moved slot path hslot := by
    obtain ⟨first, hfirst⟩ := hfirst.moved slot path hslot
    obtain ⟨second, hsecond⟩ := hsecond.moved slot path hslot
    refine ⟨second ∘ first, ?_⟩
    rw [hsecond, hfirst, Option.map_map]
    exact congrArg (Option.map · _) (funext (Tree.editAt_editAt second first path))

theorem subtree_wellFormed {tree node : Tree} (htree : tree.WellFormed) {path : List Nat}
    (hnode : tree.subtree? path = some node) : node.WellFormed := by
  induction path generalizing tree with
  | nil =>
      rw [Tree.subtree?_nil, Option.some.injEq] at hnode
      exact hnode ▸ htree
  | cons pos path ih =>
      rw [Tree.subtree?_cons] at hnode
      cases hchild : tree.children[pos]? with
      | none => rw [hchild] at hnode; cases hnode
      | some child =>
          rw [hchild, Option.bind_some] at hnode
          exact ih (htree.child (List.mem_of_getElem? hchild)) hnode

/-- Whatever may be read as a whole is well-formed. -/
theorem Sound.readable (hsound : guards.Sound store) (hread : guards.Readable place) {node : Tree}
    (hnode : store.view? place = some node) : node.WellFormed := by
  obtain ⟨slot, path⟩ := place
  obtain ⟨below, hpath⟩ := hread
  simp only at hpath
  subst hpath
  rw [PrivateStore.view?_append] at hnode
  cases habove : store.view? ⟨slot, guards.reach slot⟩ with
  | none => rw [habove] at hnode; cases hnode
  | some above =>
      rw [habove, Option.bind_some] at hnode
      exact subtree_wellFormed (hsound ⟨slot, guards.reach slot⟩ rfl above habove) hnode

/-- Editing a node that may be written to. -/
theorem Sound.editAt (hsound : guards.Sound store) (hwrite : guards.Writable place)
    {edit : Tree → Tree}
    (hedit : ∀ node, store.view? place = some node → (edit node).WellFormed) :
    guards.Kept store (store.editAt place edit) where
  sound other hother node hnode := by
    by_cases hslot : other.slot = place.slot
    · obtain rfl : other = place := by
        rw [Writable, hslot, ← hwrite] at hother
        cases other
        cases place
        simp_all
      rw [PrivateStore.view?_editAt_self] at hnode
      obtain ⟨old, hold, rfl⟩ := Option.map_eq_some_iff.mp hnode
      exact hedit old hold
    · rw [PrivateStore.view?_editAt_of_ne hslot] at hnode
      exact hsound other hother node hnode
  moved slot path hpath := by
    rw [PrivateStore.get?_editAt]
    by_cases hslot : slot = place.slot
    · rw [if_pos hslot]
      have hsame : place.path = path := by
        rw [hwrite, reach, ← hslot, hpath]
        rfl
      exact ⟨edit, by rw [hsame]⟩
    · rw [if_neg hslot]
      exact (Kept.refl hsound).moved slot path hpath

/-- Putting a well-formed tree into a slot where nothing is being edited, or emptying the slot. -/
theorem Sound.set (hsound : guards.Sound store) {slot : Slot} (hfree : guards slot = none)
    {tree : Option Tree} (htree : ∀ root, tree = some root → root.WellFormed) :
    guards.Kept store ⟨store.shelf.set slot tree⟩ where
  sound place hwrite node hnode := by
    rw [PrivateStore.view?_set] at hnode
    by_cases hslot : place.slot = slot
    · rw [if_pos hslot] at hnode
      obtain ⟨root, hroot, hnode⟩ := Option.bind_eq_some_iff.mp hnode
      exact subtree_wellFormed (htree root hroot) hnode
    · rw [if_neg hslot] at hnode
      exact hsound place hwrite node hnode
  moved other path hother := by
    have hne : other ≠ slot := by
      rintro rfl
      rw [hfree] at hother
      cases hother
    rw [Shelf.get?_set, if_neg hne]
    exact (Kept.refl hsound).moved other path hother

theorem Sound.root (hsound : guards.Sound store) {slot : Slot} (hfree : guards slot = none)
    {tree : Tree} (htree : store.shelf.get? slot = some tree) : tree.WellFormed := by
  refine hsound ⟨slot, []⟩ ?_ tree ?_
  · rw [Writable, reach, hfree]
    rfl
  · rw [PrivateStore.view?, htree, Option.bind_some, Tree.subtree?_nil]

/-! ## Nodes that come in -/

/-- What may come in: a well-formed tree, the node of a slot where nothing is being edited, or a
node that may be read as a whole. -/
def Welcomes (guards : Guards) : Origin → Prop
  | .fresh tree => tree.WellFormed
  | .held slot => guards slot = none
  | .shared place => guards.Readable place

theorem Sound.resolve (hsound : guards.Sound store) {origin : Origin}
    (hwelcome : guards.Welcomes origin) :
    guards.Kept store (PrivateStore.resolve origin store).2 ∧
      (PrivateStore.resolve origin store).1.WellFormed := by
  cases origin with
  | fresh tree => exact ⟨.refl hsound, hwelcome⟩
  | held slot =>
      simp only [PrivateStore.resolve]
      cases hheld : store.shelf.get? slot with
      | none => exact ⟨.refl hsound, .leaf _⟩
      | some tree => exact ⟨hsound.set hwelcome (by simp), hsound.root hwelcome hheld⟩
  | shared place =>
      simp only [PrivateStore.resolve]
      cases hnode : store.view? place with
      | none => exact ⟨.refl hsound, .leaf _⟩
      | some node => exact ⟨.refl hsound, hsound.readable hwelcome hnode⟩

theorem Sound.resolveAll (hsound : guards.Sound store) {origins : List Origin}
    (hwelcome : ∀ origin ∈ origins, guards.Welcomes origin) :
    guards.Kept store (RowChange.resolveAll PrivateStore.resolve origins store).2 ∧
      ∀ tree ∈ (RowChange.resolveAll PrivateStore.resolve origins store).1, tree.WellFormed := by
  induction origins generalizing store with
  | nil => exact ⟨.refl hsound, fun tree htree => absurd htree List.not_mem_nil⟩
  | cons origin rest ih =>
      obtain ⟨hkept, htree⟩ := hsound.resolve (hwelcome origin List.mem_cons_self)
      obtain ⟨hrest, htrees⟩ := ih hkept.sound
        fun other hother => hwelcome other (List.mem_cons_of_mem _ hother)
      rw [RowChange.resolveAll]
      exact ⟨hkept.trans hrest, List.forall_mem_cons.mpr ⟨htree, htrees⟩⟩

theorem Sound.resolveRow (hsound : guards.Sound store) {row : RowChange Origin}
    (hwelcome : ∀ origin ∈ row.guests, guards.Welcomes origin) :
    guards.Kept store (row.resolve PrivateStore.resolve store).2 ∧
      ∀ tree ∈ (row.resolve PrivateStore.resolve store).1.guests, tree.WellFormed := by
  cases row with
  | insert pos child =>
      obtain ⟨hkept, htree⟩ := hsound.resolve (hwelcome child.node List.mem_cons_self)
      exact ⟨hkept, List.forall_mem_singleton.mpr htree⟩
  | replace pos child =>
      obtain ⟨hkept, htree⟩ := hsound.resolve (hwelcome child.node List.mem_cons_self)
      exact ⟨hkept, List.forall_mem_singleton.mpr htree⟩
  | refill origins => exact hsound.resolveAll hwelcome
  | keep => exact ⟨.refl hsound, fun tree htree => absurd htree List.not_mem_nil⟩
  | remove pos => exact ⟨.refl hsound, fun tree htree => absurd htree List.not_mem_nil⟩
  | move source target => exact ⟨.refl hsound, fun tree htree => absurd htree List.not_mem_nil⟩
  | label pos key => exact ⟨.refl hsound, fun tree htree => absurd htree List.not_mem_nil⟩
  | relabel keys => exact ⟨.refl hsound, fun tree htree => absurd htree List.not_mem_nil⟩

end Guards

namespace PrivateStore

variable {store : PrivateStore}

/-- The key of the tree that comes in from an origin. -/
def keyOf (store : PrivateStore) (origin : Origin) : String :=
  (resolve origin store).1.key

/-- Taking a node in moves no other node. -/
theorem view?_of_resolve {origin : Origin} {place : Place} {node : Tree}
    (hnode : (resolve origin store).2.view? place = some node) :
    store.view? place = some node := by
  cases origin with
  | fresh tree => exact hnode
  | shared source => exact hnode
  | held slot =>
      simp only [resolve] at hnode
      split at hnode
      next tree hheld =>
        rw [view?_set] at hnode
        split at hnode
        next => cases hnode
        next => exact hnode
      next => exact hnode

/-- A change that takes in one node at most changes the keys as it would with the keys of nodes in
place of the nodes. -/
theorem keys_resolve (store : PrivateStore) {row : RowChange Origin} (hfew : row.guests.length ≤ 1)
    (keys : List String) :
    (row.resolve resolve store).1.keys Tree.key keys = row.keys store.keyOf keys := by
  cases row with
  | refill origins =>
      rcases origins with _ | ⟨origin, _ | ⟨_, _⟩⟩
      · rfl
      · rfl
      · simp [RowChange.guests] at hfew
  | insert pos child =>
      obtain ⟨node, stamp⟩ := child
      cases stamp <;> rfl
  | replace pos child =>
      obtain ⟨node, stamp⟩ := child
      cases stamp <;> rfl
  | keep => rfl
  | remove pos => rfl
  | move source target => rfl
  | label pos key => rfl
  | relabel keys => rfl

theorem changed_some (store : PrivateStore) (place : Place) (change : Change Origin) :
    store.changed place (some change) =
      (change.row.resolve resolve store).2.editAt place fun tree =>
        tree.apply ⟨change.head, (change.row.resolve resolve store).1⟩ := rfl

theorem view?_of_resolveRow {row : RowChange Origin} (hfew : row.guests.length ≤ 1) {place : Place}
    {node : Tree} (hnode : (row.resolve resolve store).2.view? place = some node) :
    store.view? place = some node := by
  cases row with
  | refill origins =>
      rcases origins with _ | ⟨origin, _ | ⟨_, _⟩⟩
      · exact hnode
      · exact view?_of_resolve hnode
      · simp [RowChange.guests] at hfew
  | insert pos child => exact view?_of_resolve hnode
  | replace pos child => exact view?_of_resolve hnode
  | keep => exact hnode
  | remove pos => exact hnode
  | move source target => exact hnode
  | label pos key => exact hnode
  | relabel keys => exact hnode

end PrivateStore

/-! ## Single operations -/

namespace Guards

variable {guards : Guards} {store after : PrivateStore} {place : Place}

/-- An operation whose verdict keeps nodes well-formed keeps the workspace sound. -/
theorem Sound.changed {α : Type} (hsound : guards.Sound store) (hwrite : guards.Writable place)
    {decide : Outline → Verdict Origin α} {offered : List Origin}
    (hwelcome : ∀ origin ∈ offered, guards.Welcomes origin) (hfew : offered.length ≤ 1)
    (hkeeps : ∀ node : Outline, node.WellFormed → (decide node).Keeps store.keyOf offered node) :
    guards.Kept store (store.changed place
      (decide (((store.view? place).map Tree.outline).getD default)).change) := by
  have hdefault : (default : Outline).WellFormed := .of_nil rfl rfl
  have hnode : (((store.view? place).map Tree.outline).getD default).WellFormed := by
    cases hview : store.view? place with
    | none => exact hdefault
    | some node => exact (hsound place hwrite node hview).outline
  cases hchange : (decide (((store.view? place).map Tree.outline).getD default)).change with
  | none => exact .refl hsound
  | some change =>
      obtain ⟨hafter, hguests⟩ := hkeeps _ hnode change hchange
      have hfew' : change.row.guests.length ≤ 1 := Nat.le_trans hguests.length_le hfew
      obtain ⟨hkept, htrees⟩ := hsound.resolveRow
        fun origin horigin => hwelcome origin (hguests.subset horigin)
      rw [PrivateStore.changed_some]
      refine hkept.trans (hkept.sound.editAt hwrite fun node hview => ?_)
      have hbefore := PrivateStore.view?_of_resolveRow hfew' hview
      rw [hbefore, Option.map_some, Option.getD_some] at hafter
      refine (hkept.sound place hwrite node hview).apply ?_ htrees
      rwa [Outline.after, store.keys_resolve hfew']

theorem keeps_edit {ι : Type} {keyOf : ι → String} {offered : List ι} {node : Outline}
    (hnode : node.WellFormed) (edit : Edit) :
    (edit.decide node : Verdict ι Unit).Keeps keyOf offered node := by
  cases edit with
  | setString value => exact Outline.keeps_assign hnode _ _
  | setInteger value => exact Outline.keeps_assign hnode _ _
  | setBool value => exact Outline.keeps_assign hnode _ _
  | appendText text => exact Outline.keeps_appendText hnode text
  | addInteger amount => exact Outline.keeps_addInteger hnode amount
  | setKey key => exact Outline.keeps_setKey hnode key
  | appendKey text => exact Outline.keeps_appendKey hnode text
  | setAutosort autosort => exact Outline.keeps_setAutosort hnode autosort
  | setOverwrite overwrite => exact Outline.keeps_setOverwrite hnode overwrite
  | clear kind => exact Outline.keeps_clear kind
  | remove key => exact Outline.keeps_remove hnode key
  | rename old new => exact Outline.keeps_rename hnode old new
  | rekey pos key => exact Outline.keeps_rekey hnode pos key
  | relocate key pos => exact Outline.keeps_relocate hnode key pos

end Guards

end KeyedTree
