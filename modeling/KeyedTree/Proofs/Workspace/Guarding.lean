import KeyedTree.Proofs.Workspace.Soundness

/-! # Editing children

While children are edited, their parent may be out of step with them: all that is known is that its
head is as it was and that every child is well-formed. A decision that puts the parent in order
again makes the workspace sound.
-/

namespace KeyedTree

/-- A node after edits of some of its children. -/
structure Tree.ChildrenEdited (positions : List Nat) (old new : Tree) : Prop where
  head_eq : new.head = old.head
  length_eq : new.children.length = old.children.length
  elsewhere : ∀ pos, pos ∉ positions → new.children[pos]? = old.children[pos]?
  below : ∀ child ∈ new.children, child.WellFormed

theorem Tree.ChildrenEdited.length_keys {positions : List Nat} {old new : Tree}
    (hedited : Tree.ChildrenEdited positions old new) :
    new.keys.length = old.keys.length := by
  rw [Tree.length_keys, Tree.length_keys, hedited.length_eq]

/-- What holds of all values of a row and of an edited one holds of all values after the edit. -/
theorem forall_mem_modify {β : Type} {holds : β → Prop} {row : List β} {pos : Nat} {edit : β → β}
    (hrow : ∀ value ∈ row, holds value)
    (hedited : ∀ value, (row.modify pos edit)[pos]? = some value → holds value) :
    ∀ value ∈ row.modify pos edit, holds value := by
  intro value hmem
  obtain ⟨at_, hat⟩ := List.getElem?_of_mem hmem
  by_cases hpos : at_ = pos
  · exact hedited value (hpos ▸ hat)
  · rw [List.getElem?_modify_ne _ _ (Ne.symm hpos)] at hat
    exact hrow value (List.mem_of_getElem? hat)

theorem Tree.ChildrenEdited.modify {positions : List Nat} {old new : Tree}
    (hedited : Tree.ChildrenEdited positions old new) {edit : Tree → Tree} {pos : Nat}
    (hchild : ∀ child, (new.children.modify pos edit)[pos]? = some child → child.WellFormed) :
    Tree.ChildrenEdited (pos :: positions) old (.node new.head (new.children.modify pos edit)) where
  head_eq := hedited.head_eq
  length_eq := by rw [Tree.children_node, List.length_modify, hedited.length_eq]
  elsewhere other hother := by
    rw [Tree.children_node, List.getElem?_modify_ne _ _ (List.ne_of_not_mem_cons hother).symm]
    exact hedited.elsewhere other (List.not_mem_of_not_mem_cons hother)
  below := forall_mem_modify hedited.below hchild

/-- After the edit of one child the parent shows what it showed, but for the key of the child. -/
theorem Tree.ChildrenEdited.outline_eq_set {pos : Nat} {old new : Tree}
    (hedited : Tree.ChildrenEdited [pos] old new) :
    new.outline = ⟨old.head, old.keys.set pos (new.keys[pos]?.getD "")⟩ := by
  rw [Tree.outline, hedited.head_eq]
  refine congrArg (Outline.mk old.head) (List.ext_getElem? fun at_ => ?_)
  rw [List.getElem?_set]
  split
  next hat =>
    subst hat
    rw [Tree.keys, Tree.keys, List.getElem?_map, List.length_map]
    split
    next hlt =>
      rw [List.getElem?_eq_getElem (hedited.length_eq ▸ hlt), Option.map_some, Option.getD_some]
    next hlt =>
      rw [List.getElem?_eq_none (hedited.length_eq ▸ Nat.not_lt.mp hlt), Option.map_none]
  next hat =>
    rw [Tree.keys, Tree.keys, List.getElem?_map, List.getElem?_map,
      hedited.elsewhere at_ (by simpa using Ne.symm hat)]

theorem PrivateStore.resolve_of_guests_eq_nil (store : PrivateStore) {row : RowChange Origin}
    (hnone : row.guests = []) :
    (row.resolve PrivateStore.resolve store).2 = store ∧
      (row.resolve PrivateStore.resolve store).1.guests = [] := by
  cases row with
  | insert pos child => cases hnone
  | replace pos child => cases hnone
  | refill origins =>
      obtain rfl : origins = [] := hnone
      exact ⟨rfl, rfl⟩
  | keep => exact ⟨rfl, rfl⟩
  | remove pos => exact ⟨rfl, rfl⟩
  | move source target => exact ⟨rfl, rfl⟩
  | label pos key => exact ⟨rfl, rfl⟩
  | relabel keys => exact ⟨rfl, rfl⟩

namespace Guards

/-- What holds while children of the node at a place are being edited. -/
structure ChildrenKept (guards : Guards) (place : Place) (positions : List Nat)
    (before after : PrivateStore) : Prop where
  others : ∀ other, guards.Writable other → other.slot ≠ place.slot →
    ∀ node, after.view? other = some node → node.WellFormed
  moved : ∀ slot path, guards slot = some path →
    ∃ edit, after.shelf.get? slot = (before.shelf.get? slot).map (Tree.editAt edit path)
  node : Option.Rel (Tree.ChildrenEdited positions) (before.view? place) (after.view? place)

variable {guards : Guards} {before middle after : PrivateStore} {place : Place}
  {positions : List Nat}

theorem ChildrenKept.refl (hsound : guards.Sound before) (hwrite : guards.Writable place) :
    guards.ChildrenKept place [] before before where
  others other hother _ := hsound other hother
  moved := (Kept.refl hsound).moved
  node := by
    cases hview : before.view? place with
    | none => exact .none
    | some node =>
        exact .some ⟨rfl, rfl, fun _ _ => rfl, fun _ => (hsound place hwrite node hview).child⟩

theorem Writable.eq_of_slot_eq {other : Place} (hother : guards.Writable other)
    (hwrite : guards.Writable place) (hslot : other.slot = place.slot) : other = place := by
  rw [Writable, hslot, ← hwrite] at hother
  cases other
  cases place
  simp_all

theorem writable_guard_same {other : Place} (hslot : other.slot = place.slot) :
    (guards.guard place).Writable other ↔ other.path = place.path := by
  rw [Writable, reach, guard, if_pos hslot, Option.getD_some]

theorem writable_guard_other {other : Place} (hslot : other.slot ≠ place.slot) :
    (guards.guard place).Writable other ↔ guards.Writable other := by
  rw [Writable, reach, guard, if_neg hslot, Writable, reach]

theorem readable_guard_same (place : Place) {other : Place} (hslot : other.slot = place.slot) :
    (guards.guard place).Readable other ↔ place.path <+: other.path := by
  rw [Readable, reach, guard, if_pos hslot, Option.getD_some]

theorem readable_guard_other (place : Place) {other : Place} (hslot : other.slot ≠ place.slot) :
    (guards.guard place).Readable other ↔ guards.Readable other := by
  rw [Readable, reach, guard, if_neg hslot, Readable, reach]

theorem guard_guard (guards : Guards) (place other : Place) (hslot : place.slot = other.slot) :
    (guards.guard place).guard other = guards.guard other := by
  funext slot
  rw [guard, guard, guard]
  split
  next => rfl
  next hne => rw [if_neg (hslot ▸ hne)]

/-- A node that may be written to may be guarded by itself. -/
theorem Sound.guard (hsound : guards.Sound before) (hwrite : guards.Writable place) :
    (guards.guard place).Sound before := by
  intro other hother node hnode
  by_cases hslot : other.slot = place.slot
  · obtain rfl : other = place := by
      have hpath := (writable_guard_same hslot).mp hother
      cases other
      simp_all
    exact hsound other hwrite node hnode
  · exact hsound other ((writable_guard_other hslot).mp hother) node hnode

theorem Kept.unguard (hkept : (guards.guard place).Kept before after)
    (hwrite : guards.Writable place) : guards.Kept before after where
  sound other hother node hnode := by
    by_cases hslot : other.slot = place.slot
    · obtain rfl := hother.eq_of_slot_eq hwrite hslot
      exact hkept.sound other ((writable_guard_same rfl).mpr rfl) node hnode
    · exact hkept.sound other ((writable_guard_other hslot).mpr hother) node hnode
  moved slot path hpath := by
    refine hkept.moved slot path ?_
    rw [Guards.guard]
    split
    next hslot =>
      rw [hwrite, reach, ← hslot, hpath]
      rfl
    next => exact hpath

theorem view?_child (store : PrivateStore) (place : Place) (pos : Nat) :
    store.view? (place.child pos) =
      (store.view? place).bind fun node => node.children[pos]? := by
  obtain ⟨slot, path⟩ := place
  rw [Place.child, PrivateStore.view?_append]
  refine congrArg _ (funext fun node => ?_)
  rw [Tree.subtree?_cons]
  cases node.children[pos]? with
  | none => rfl
  | some child => exact Tree.subtree?_nil child

/-- An edit in a slot is seen from a node above it as an edit below that node. -/
theorem view?_of_edited {edit : Tree → Tree} {below : List Nat}
    (hedited : after.shelf.get? place.slot = (before.shelf.get? place.slot).map
      (Tree.editAt edit (place.path ++ below))) :
    after.view? place = (before.view? place).map (Tree.editAt edit below) := by
  rw [PrivateStore.view?, PrivateStore.view?, hedited]
  cases before.shelf.get? place.slot with
  | none => rfl
  | some tree =>
      rw [Option.map_some, Option.bind_some, Option.bind_some, Tree.editAt_append,
        Tree.subtree?_editAt]

/-- While children of a node are being edited, any of them may be edited next. -/
theorem ChildrenKept.sound_child (hkept : guards.ChildrenKept place positions before middle)
    (pos : Nat) :
    (guards.guard (place.child pos)).Sound middle := by
  intro other hother node hnode
  by_cases hslot : other.slot = (place.child pos).slot
  · obtain rfl : other = place.child pos := by
      have hpath := (writable_guard_same hslot).mp hother
      cases other
      simp_all [Place.child]
    rw [view?_child] at hnode
    rcases optionRel_cases hkept.node with ⟨_, parent, _, hparent, hedited⟩ | ⟨_, hparent⟩
    · rw [hparent, Option.bind_some] at hnode
      exact hedited.below node (List.mem_of_getElem? hnode)
    · rw [hparent] at hnode
      cases hnode
  · exact hkept.others other ((writable_guard_other hslot).mp hother) hslot node hnode

/-- Editing a child under a guard keeps up what holds while children are being edited. -/
theorem ChildrenKept.step (hkept : guards.ChildrenKept place positions before middle)
    (hwrite : guards.Writable place) {pos : Nat}
    (hafter : (guards.guard (place.child pos)).Kept middle after) :
    guards.ChildrenKept place (pos :: positions) before after := by
  -- seen from the parent, whatever was done to the child is one edit of it
  obtain ⟨edit, hmoved⟩ := hafter.moved place.slot (place.path ++ [pos]) (if_pos rfl)
  have hview : after.view? place = (middle.view? place).map (Tree.editAt edit [pos]) :=
    view?_of_edited hmoved
  refine ⟨fun other hother hslot => ?_, fun slot path hpath => ?_, ?_⟩
  · have hslot' : other.slot ≠ (place.child pos).slot := hslot
    exact hafter.sound other ((writable_guard_other hslot').mpr hother)
  · obtain ⟨first, hfirst⟩ := hkept.moved slot path hpath
    by_cases hslot : slot = place.slot
    · subst hslot
      have hsame : place.path = path := by
        rw [hwrite, reach, hpath]
        rfl
      refine ⟨Tree.editAt edit [pos] ∘ first, ?_⟩
      rw [hmoved, hfirst, Option.map_map, hsame]
      refine congrArg (Option.map · _) (funext fun tree => ?_)
      rw [Function.comp_apply, Tree.editAt_append, Tree.editAt_editAt]
    · obtain ⟨second, hsecond⟩ := hafter.moved slot path ((if_neg hslot).trans hpath)
      refine ⟨second ∘ first, ?_⟩
      rw [hsecond, hfirst, Option.map_map]
      exact congrArg (Option.map · _) (funext (Tree.editAt_editAt second first path))
  · rcases optionRel_cases hkept.node with ⟨old, parent, hold, hparent, hedited⟩ | ⟨hold, hparent⟩
    · rw [hold, hview, hparent, Option.map_some, Tree.editAt_cons]
      refine .some (hedited.modify fun child hat => ?_)
      refine hafter.sound (place.child pos) ((writable_guard_same rfl).mpr rfl) child ?_
      rw [view?_child, hview, hparent, Option.map_some, Option.bind_some, Tree.editAt_cons]
      exact hat
    · rw [hold, hview, hparent]
      exact .none

/-- A decision that takes nothing in is an edit of the node at the place. -/
theorem exists_changed_eq_editAt {α : Type} {decide : Outline → Verdict Origin α}
    (hguests : ∀ node change, (decide node).change = some change → change.row.guests = [])
    (store : PrivateStore) (place : Place) :
    ∃ edit : Tree → Tree,
      store.changed place (decide (((store.view? place).map Tree.outline).getD default)).change =
          store.editAt place edit ∧
        ∀ node, store.view? place = some node → (∀ child ∈ node.children, child.WellFormed) →
          (Outline.decided store.keyOf node.outline (decide node.outline)).WellFormed →
            (edit node).WellFormed := by
  cases hchange : (decide (((store.view? place).map Tree.outline).getD default)).change with
  | none =>
      refine ⟨id, (store.editAt_id place).symm, fun node hnode hbelow hroot => ?_⟩
      rw [hnode, Option.map_some, Option.getD_some] at hchange
      rw [Outline.decided, hchange] at hroot
      have hwf := Tree.WellFormed.of_outline hroot hbelow
      rwa [Tree.node_head_children] at hwf
  | some change =>
      have hnone := hguests _ change hchange
      obtain ⟨hstore, hrow⟩ := store.resolve_of_guests_eq_nil hnone
      rw [PrivateStore.changed_some, hstore]
      refine ⟨_, rfl, fun node hnode hbelow hroot => ?_⟩
      rw [hnode, Option.map_some, Option.getD_some] at hchange
      rw [Outline.decided, hchange] at hroot
      have hkeys := store.keys_resolve (by rw [hnone]; simp) node.keys
      refine Tree.WellFormed.of_outline ?_ fun child hchild =>
        Tree.wellFormed_of_mem_apply hbelow (by rw [hrow]; simp) hchild
      rw [Tree.map_key_apply]
      exact hkeys ▸ hroot

/-- A decision that puts the parent in order again makes the workspace sound. -/
theorem ChildrenKept.settled {α : Type} {decide : Outline → Verdict Origin α}
    (hkept : guards.ChildrenKept place positions before middle) (hwrite : guards.Writable place)
    (hguests : ∀ node change, (decide node).change = some change → change.row.guests = [])
    (hdecide : ∀ old new, before.view? place = some old → Tree.ChildrenEdited positions old new →
      (Outline.decided middle.keyOf new.outline (decide new.outline)).WellFormed) :
    guards.Kept before (middle.changed place
      (decide (((middle.view? place).map Tree.outline).getD default)).change) := by
  obtain ⟨edit, hchanged, hedit⟩ := exists_changed_eq_editAt hguests middle place
  rw [hchanged]
  refine ⟨fun other hother node hnode => ?_, fun slot path hpath => ?_⟩
  · by_cases hslot : other.slot = place.slot
    · obtain rfl := hother.eq_of_slot_eq hwrite hslot
      rw [PrivateStore.view?_editAt_self] at hnode
      obtain ⟨new, hnew, rfl⟩ := Option.map_eq_some_iff.mp hnode
      rcases optionRel_cases hkept.node with ⟨old, _, hold, hnew', hedited⟩ | ⟨_, hnone⟩
      · rw [hnew, Option.some.injEq] at hnew'
        subst hnew'
        exact hedit new hnew hedited.below (hdecide old new hold hedited)
      · rw [hnew] at hnone
        cases hnone
    · rw [PrivateStore.view?_editAt_of_ne hslot] at hnode
      exact hkept.others other hother hslot node hnode
  · obtain ⟨first, hfirst⟩ := hkept.moved slot path hpath
    rw [PrivateStore.get?_editAt]
    by_cases hslot : slot = place.slot
    · have hsame : place.path = path := by
        rw [hwrite, reach, ← hslot, hpath]
        rfl
      refine ⟨edit ∘ first, ?_⟩
      rw [if_pos hslot, hfirst, Option.map_map, hsame]
      exact congrArg (Option.map · _) (funext (Tree.editAt_editAt edit first path))
    · exact ⟨first, by rw [if_neg hslot, hfirst]⟩

end Guards

end KeyedTree
