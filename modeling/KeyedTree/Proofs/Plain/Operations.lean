import Mathlib.Order.MinMax
import KeyedTree.Proofs.Plain.Basic
import KeyedTree.Proofs.WellFormed.Lookup
import KeyedTree.Script.Run

/-! # Operations on indexed nodes and on plain containers

On a node whose index agrees with its children, every operation answers as it does on the plain
container, and leaves the same children. The index takes the place of the search for a key and of
nothing else.
-/

namespace KeyedTree

variable {tree : Tree} {α : Type}

/-! ## Faults do not show indexes -/

theorem Snapshot.of_congr {tree other : Tree} (hkey : tree.head.key = other.head.key)
    (hkind : tree.head.kind = other.head.kind) (hscalar : tree.head.scalar = other.head.scalar)
    (hrow : tree.children = other.children) : Snapshot.of tree = Snapshot.of other := by
  obtain ⟨⟨key, kind, scalar, _, _, _⟩, row⟩ := tree
  obtain ⟨⟨key', kind', scalar', _, _, _⟩, row'⟩ := other
  obtain rfl : key = key' := hkey
  obtain rfl : kind = kind' := hkind
  obtain rfl : scalar = scalar' := hscalar
  obtain rfl : row = row' := hrow
  simp only [Snapshot.of, Tree.key, Tree.kind, Tree.head, Head.payload, Tree.render, Layout.write]

theorem Plain.ofRefusal_tree (refusal : Refusal) (tree : Tree) :
    Fault.ofRefusal refusal tree.plain.tree = .ofRefusal refusal tree :=
  congrArg (Fault.refused refusal) (Snapshot.of_congr rfl rfl rfl rfl)

theorem Tree.plain_refuse (tree : Tree) (operation : Operation) (objection : Objection) :
    (tree.plain.refuse operation objection : Except Fault α × Plain) =
      (.error (.ofRefusal ⟨operation, objection⟩ tree), tree.plain) := by
  rw [Plain.refuse, Plain.ofRefusal_tree]

/-! ## Looking up is searching -/

namespace Plain

variable {node : Plain} {key : String} {pos : Nat}

/-- What is found under a key stands there. -/
theorem getElem?_of_find? (hfind : node.find? key = some pos) :
    key ≠ "" ∧ (node.children.map Tree.key)[pos]? = some key := by
  unfold find? at hfind
  split at hfind
  next hkey =>
    obtain ⟨hlt, hpos, _⟩ := List.findIdx?_eq_some_iff_getElem.mp hfind
    refine ⟨hkey.2, ?_⟩
    rw [List.getElem?_map, List.getElem?_eq_getElem hlt]
    exact congrArg some (of_decide_eq_true hpos)
  next => cases hfind

theorem find?_eq_none_iff (hobject : node.kind = .object) :
    node.find? key = none ↔ key = "" ∨ key ∉ node.children.map Tree.key := by
  unfold find?
  split
  next hkey => simp [hkey.2]
  next hkey =>
    have hempty : key = "" := by simpa [hobject] using hkey
    simp [hempty]

end Plain

/-- The index of a well-formed node finds what a search through the children finds. -/
theorem Tree.plain_find? (hroot : tree.outline.WellFormed) (key : String) :
    tree.plain.find? key = tree.index.get? key := by
  by_cases hobject : tree.kind = .object
  · have hnames : tree.index.Names (tree.children.map Tree.key) := hroot.names hobject
    cases hfind : tree.plain.find? key with
    | some pos => exact ((hnames key pos).mpr (Plain.getElem?_of_find? hfind)).symm
    | none =>
        exact ((hnames.get?_eq_none_iff key).mpr ((Plain.find?_eq_none_iff hobject).mp hfind)).symm
  · have hindex : tree.index = .empty := hroot.unindexed hobject
    rw [hindex]
    exact if_neg fun hkeyed => hobject hkeyed.1

theorem Tree.plain_find?_isSome (hroot : tree.outline.WellFormed) (key : String) :
    (tree.plain.find? key).isSome = tree.index.contains key := by
  rw [plain_find? hroot]
  rfl

/-! ## Newcomers -/

theorem Plain.placeFor_le_length (node : Plain) (key : String) :
    node.placeFor key ≤ node.children.length := by
  unfold placeFor
  split
  · exact (Outline.sortedPlace_le_length _ _).trans_eq (List.length_map _)
  · exact Nat.le_refl _

/-- A child that comes in under a key, with the stamp that it needs for it. -/
def Tree.stamping (tree : Tree) (key : String) (child : Tree) : Newcomer Tree :=
  ⟨child, Outline.stampFor child.head key tree.head.autosort⟩

theorem Tree.stamping_stamped (tree : Tree) (key : String) (child : Tree) :
    (tree.stamping key child).stamped = tree.plain.adopt key child :=
  stamped_stampFor child key tree.head.autosort

theorem Outline.WellFormed.kind_eq_object_of_contains {node : Outline} (hnode : node.WellFormed)
    {key : String} (hcontains : node.head.index.contains key = true) :
    node.head.kind = .object := by
  obtain ⟨pos, hget⟩ := Option.isSome_iff_exists.mp hcontains
  exact hnode.kind_eq_object hget

/-! ## Operations -/

/-- An operation whose verdict keeps the root well-formed leaves it so. -/
theorem Tree.outline_perform {decide : Outline → Verdict Tree α} {offered : List Tree}
    (hroot : tree.outline.WellFormed)
    (hkeeps : (decide tree.outline).Keeps Tree.key offered tree.outline) :
    (tree.perform decide).2.outline.WellFormed := by
  unfold perform
  simp only
  split
  next change hchange =>
    rw [outline_apply]
    exact (hkeeps change hchange).1
  next => exact hroot

/-- A run on a tree with the tree that it leaves shown without its index. -/
def Tree.plainly (run : Except Fault α × Tree) : Except Fault α × Plain :=
  (run.1, run.2.plain)

namespace Tree

theorem plainly_refuse {decide : Outline → Verdict Tree α} {operation : Operation}
    {objection : Objection} (hdecide : decide tree.outline = .refuse operation objection) :
    plainly (tree.perform decide) = tree.plain.refuse operation objection := by
  rw [perform_refuse hdecide, plain_refuse]
  rfl

theorem plainly_answered {decide : Outline → Verdict Tree α} {value : α}
    (hdecide : decide tree.outline = .answered value) :
    plainly (tree.perform decide) = (.ok value, tree.plain) := by
  rw [perform_answered hdecide]
  rfl

theorem plainly_changed {decide : Outline → Verdict Tree α} {change : Change Tree} {value : α}
    (hdecide : decide tree.outline = .changed change value) :
    plainly (tree.perform decide) =
      (.ok value, ⟨change.head.key, change.head.kind, change.head.scalar, change.head.autosort,
        change.head.overwrite, change.row.apply tree.children⟩) := by
  rw [perform_changed hdecide]
  rfl

theorem placeFor_eq (tree : Tree) (key : String) :
    (if key = "" ∨ !tree.head.autosort then tree.keys.length
      else Outline.sortedPlace key tree.keys) = tree.plain.placeFor key := by
  unfold Plain.placeFor
  rw [length_keys]
  change _ = if key ≠ "" ∧ tree.head.autosort = true then _ else _
  by_cases hsorted : key ≠ "" ∧ tree.head.autosort = true
  · rw [if_neg (by simp [hsorted]), if_pos hsorted]
    rfl
  · rw [if_pos (by simpa [Decidable.imp_iff_not_or] using hsorted), if_neg hsorted]
    rfl

/-- Attaching to an object, or to a node that becomes one. -/
theorem plainly_attachTo (hroot : tree.outline.WellFormed)
    (hkind : tree.kind = .uninitialized ∨ tree.kind = .object) (operation : Operation)
    (renamed : Option String) (child : Tree) :
    plainly (tree.perform (Outline.attach operation renamed child child.head)) =
      tree.plain.attachTo operation (renamed.getD child.key) child := by
  have hblank : tree.outline.head.kind = .uninitialized ∨ tree.outline.head.kind = .object :=
    hkind
  have hdecide := Outline.attach_of_blank_or_object operation renamed child child.head hblank
  simp only at hdecide
  unfold Plain.attachTo
  rw [plain_find? hroot]
  cases hget : tree.index.get? (renamed.getD child.key) with
  | some pos =>
      have hentered : tree.outline.head.index.get? (renamed.getD child.head.key) = some pos := hget
      rw [hentered] at hdecide
      simp only at hdecide ⊢
      split
      next hover =>
        rw [plainly_changed (hdecide.trans (if_pos hover))]
        have hobject : tree.kind = .object := hroot.kind_eq_object hget
        simp only [RowChange.apply, stamped_stampFor]
        rw [← hobject]
        rfl
      next hkept => exact plainly_refuse (hdecide.trans (if_neg hkept))
  | none =>
      have hmissing : tree.outline.head.index.get? (renamed.getD child.head.key) = none := hget
      rw [hmissing] at hdecide
      rw [plainly_changed hdecide]
      have hplace : (if renamed.getD child.head.key = "" ∨ !tree.outline.head.autosort then
          tree.outline.keys.length
          else Outline.sortedPlace (renamed.getD child.head.key) tree.outline.keys) =
          tree.plain.placeFor (renamed.getD child.key) := placeFor_eq tree _
      have hle : tree.plain.placeFor (renamed.getD child.key) ≤ tree.children.length :=
        tree.plain.placeFor_le_length _
      simp only [RowChange.apply, stamped_stampFor, hplace, Outline.insertInto_of_le hle]
      rfl

theorem plainly_attach (hroot : tree.outline.WellFormed) (operation : Operation)
    (renamed : Option String) (child : Tree) :
    plainly (tree.perform (Outline.attach operation renamed child child.head)) =
      tree.plain.attach operation (renamed.getD child.key) child := by
  unfold Plain.attach
  split
  next harray =>
    have hdecide : Outline.attach operation renamed child child.head tree.outline =
        .changed
          ⟨tree.head, .insert tree.keys.length (tree.stamping (renamed.getD child.key) child)⟩
          tree.keys.length := by
      unfold Outline.attach
      rw [show tree.outline.head.kind = .array from harray]
      rfl
    rw [plainly_changed hdecide]
    simp only [RowChange.apply, stamping_stamped, length_keys, insertInto_length]
    rfl
  next harray =>
    split
    next hkind => exact plainly_attachTo hroot hkind operation renamed child
    next hkind =>
      refine plainly_refuse ?_
      unfold Outline.attach
      split
      next h => exact absurd h harray
      next h => exact absurd (.inl h) hkind
      next h => exact absurd (.inr h) hkind
      next => rfl

theorem plainly_append (child : Tree) :
    plainly (tree.perform (Outline.append child child.head)) = tree.plain.append child := by
  unfold Plain.append
  split
  next hkind =>
    have hdecide : Outline.append child child.head tree.outline =
        .changed ⟨{ tree.head with kind := .array },
          .insert tree.keys.length (tree.stamping child.key child)⟩ tree.keys.length := by
      unfold Outline.append
      rcases hkind with hblank | harray
      · rw [show tree.outline.head.kind = .uninitialized from hblank]
        rfl
      · rw [show tree.outline.head.kind = .array from harray]
        rfl
    rw [plainly_changed hdecide]
    simp only [RowChange.apply, stamping_stamped, length_keys, insertInto_length]
    rfl
  next hkind =>
    refine plainly_refuse ?_
    unfold Outline.append
    split
    next h => exact absurd (.inl h) hkind
    next h => exact absurd (.inr h) hkind
    next => rfl

theorem plainly_entry (hroot : tree.outline.WellFormed) (key : String) :
    plainly (tree.perform (Outline.entry key Tree.blank)) = tree.plain.entry key := by
  unfold Plain.entry
  rw [plain_find? hroot]
  split
  next hkind =>
    cases hget : tree.index.get? key with
    | some pos =>
        refine plainly_answered ?_
        unfold Outline.entry
        rcases hkind with hblank | hobject
        · rw [show tree.outline.head.kind = .uninitialized from hblank,
            show tree.outline.head.index.get? key = some pos from hget]
        · rw [show tree.outline.head.kind = .object from hobject,
            show tree.outline.head.index.get? key = some pos from hget]
    | none =>
        have hentry : Outline.entry key blank tree.outline =
            tree.outline.attach .entry (some key) blank {} := by
          unfold Outline.entry
          rcases hkind with hblank | hobject
          · rw [show tree.outline.head.kind = .uninitialized from hblank,
              show tree.outline.head.index.get? key = none from hget]
          · rw [show tree.outline.head.kind = .object from hobject,
              show tree.outline.head.index.get? key = none from hget]
        have hattach : _ = tree.plain.attach .entry key blank :=
          plainly_attach hroot .entry (some key) blank
        unfold perform at hattach ⊢
        rw [hentry]
        exact hattach
  next hkind =>
    refine plainly_refuse ?_
    unfold Outline.entry
    split
    next h => exact absurd (.inl h) hkind
    next h => exact absurd (.inr h) hkind
    next => rfl

theorem plainly_locate (hroot : tree.outline.WellFormed) (operation : Operation) (key : String) :
    plainly (tree.perform (Outline.childOf operation key)) = tree.plain.locate operation key := by
  unfold Plain.locate
  rw [plain_find? hroot]
  cases hget : tree.index.get? key with
  | some pos =>
      have hlt : pos < tree.keys.length :=
        (hroot.names (hroot.kind_eq_object hget)).lt_length hget
      refine plainly_answered ?_
      unfold Outline.childOf
      rw [show tree.outline.head.index.get? key = some pos from hget]
      exact if_pos hlt
  | none =>
      refine plainly_refuse ?_
      unfold Outline.childOf
      rw [show tree.outline.head.index.get? key = none from hget]

/-! ### Assigning -/

/-- The tree with an overwritable root. -/
def permissive (tree : Tree) : Tree :=
  tree.withHead { tree.head with overwrite := true }

theorem plainly_attachOver (hroot : tree.outline.WellFormed) (key : String) (child : Tree) :
    plainly (tree.perform (Outline.attachOver key child child.head)) =
      let run := { tree.plain with overwrite := true }.attach .attachKeyed key child
      (run.1, { run.2 with overwrite := tree.head.overwrite }) := by
  have hopen : tree.permissive.outline.WellFormed := 
    hroot.with_head rfl hroot.suits rfl
  have hattach : _ = { tree.plain with overwrite := true }.attach .attachKeyed key child :=
    plainly_attach hopen .attachKeyed (some key) child
  have hverdict : Outline.attachOver key child child.head tree.outline =
      let verdict := Outline.attach .attachKeyed (some key) child child.head tree.permissive.outline
      { verdict with change := verdict.change.map fun change =>
          { change with head := { change.head with overwrite := tree.head.overwrite } } } := rfl
  rw [← hattach]
  unfold plainly perform
  rw [hverdict]
  generalize Outline.attach .attachKeyed (some key) child child.head
    tree.permissive.outline = verdict
  obtain ⟨change, answer⟩ := verdict
  cases change with
  | none =>
      cases answer with
      | ok value => rfl
      | error refusal =>
          have hfault : Fault.ofRefusal refusal tree = .ofRefusal refusal tree.permissive :=
            congrArg (Fault.refused refusal) (Snapshot.of_congr rfl rfl rfl rfl)
          exact congrArg (Prod.mk · tree.plain) (congrArg Except.error hfault)
  | some change =>
      cases answer with
      | ok value => rfl
      | error refusal =>
          have hfault : Fault.ofRefusal refusal
              (tree.apply { change with
                head := { change.head with overwrite := tree.head.overwrite } }) =
              .ofRefusal refusal (tree.permissive.apply change) :=
            congrArg (Fault.refused refusal) (Snapshot.of_congr rfl rfl rfl rfl)
          exact congrArg (Prod.mk · (tree.apply _).plain) (congrArg Except.error hfault)

/-! ### Rearranging -/

theorem plainly_remove (hroot : tree.outline.WellFormed) (key : String) :
    plainly (tree.perform (Outline.remove key)) = tree.plain.remove key := by
  unfold Plain.remove
  rw [plain_find? hroot]
  split
  next hobject =>
    cases hget : tree.index.get? key with
    | some pos =>
        have hdecide : (Outline.remove key tree.outline : Verdict Tree Unit) =
            .changed ⟨{ tree.head with index := tree.index.removeAt key pos }, .remove pos⟩ () := by
          unfold Outline.remove
          rw [if_pos (show tree.outline.head.kind = .object from hobject),
            show tree.outline.head.index.get? key = some pos from hget]
          rfl
        exact plainly_changed hdecide
    | none =>
        refine plainly_answered ?_
        unfold Outline.remove
        rw [if_pos (show tree.outline.head.kind = .object from hobject),
          show tree.outline.head.index.get? key = none from hget]
  next hobject => exact plainly_refuse (if_neg hobject)

theorem plainly_rename (hroot : tree.outline.WellFormed) (old new : String) :
    plainly (tree.perform (Outline.rename old new)) = tree.plain.rename old new := by
  unfold Plain.rename
  rw [plain_find? hroot, plain_find?_isSome hroot]
  simp only
  split
  next hsame => exact plainly_answered (if_pos hsame)
  next hdiffer =>
    cases hget : tree.index.get? old with
    | some pos =>
        simp only
        split
        next htaken =>
          refine plainly_refuse ?_
          unfold Outline.rename
          simp only
          rw [if_neg hdiffer, show tree.outline.head.index.get? old = some pos from hget]
          exact if_pos htaken
        next hfree =>
          have hdecide : (Outline.rename old new tree.outline : Verdict Tree Unit) =
              .changed ⟨{ tree.head with
                key := if tree.head.key = old then new else tree.head.key
                index := tree.index.rename old new }, .label pos new⟩ () := by
            unfold Outline.rename
            simp only
            rw [if_neg hdiffer, show tree.outline.head.index.get? old = some pos from hget]
            exact if_neg hfree
          rw [plainly_changed hdecide]
          rfl
    | none =>
        have hdecide : (Outline.rename old new tree.outline : Verdict Tree Unit) =
            .changed { head := { tree.head with
              key := if tree.head.key = old then new else tree.head.key } } () := by
          unfold Outline.rename
          simp only
          rw [if_neg hdiffer, show tree.outline.head.index.get? old = none from hget]
          rfl
        exact plainly_changed hdecide

theorem plainly_rekey (hroot : tree.outline.WellFormed) (pos : Nat) (key : String) :
    plainly (tree.perform (Outline.rekey pos key)) = tree.plain.rekey pos key := by
  have hkeys : tree.outline.keys[pos]? = tree.children[pos]?.map Tree.key := List.getElem?_map ..
  unfold Plain.rekey
  rw [plain_find?_isSome hroot]
  cases hchild : tree.children[pos]? with
  | none =>
      rw [show tree.plain.children[pos]? = none from hchild]
      refine plainly_refuse ?_
      unfold Outline.rekey
      rw [hkeys, hchild, show tree.outline.keys.length = _ from tree.length_keys]
      rfl
  | some child =>
      rw [show tree.plain.children[pos]? = some child from hchild]
      rw [hchild, Option.map_some] at hkeys
      simp only
      split
      next hsame =>
        refine plainly_answered ?_
        unfold Outline.rekey
        rw [hkeys]
        exact if_pos hsame
      next hdiffer =>
        split
        next htaken =>
          refine plainly_refuse ?_
          unfold Outline.rekey
          rw [hkeys]
          simp only
          rw [if_neg hdiffer, if_pos (hroot.kind_eq_object_of_contains htaken)]
          exact if_pos htaken
        next hfree =>
          have hdecide : ∃ index, (Outline.rekey pos key tree.outline : Verdict Tree Unit) =
              .changed ⟨{ tree.head with index }, .label pos key⟩ () := by
            unfold Outline.rekey
            rw [hkeys]
            simp only
            rw [if_neg hdiffer]
            split
            next => exact ⟨_, if_neg hfree⟩
            next => exact ⟨_, rfl⟩
          obtain ⟨index, hdecide⟩ := hdecide
          rw [plainly_changed hdecide]
          rfl

/-- A place past the end is the end. -/
theorem moveWithin_min {β : Type} {row : List β} {source : Nat} (hsource : source < row.length)
    (target : Nat) : moveWithin row source (min target (row.length - 1)) =
      moveWithin row source target := by
  unfold moveWithin
  rw [List.getElem?_eq_getElem hsource]
  simp only [insertInto, List.length_eraseIdx_of_lt hsource, min_assoc, min_self]

theorem plainly_relocate (hroot : tree.outline.WellFormed) (key : String) (pos : Nat) :
    plainly (tree.perform (Outline.relocate key pos)) = tree.plain.relocate key pos := by
  unfold Plain.relocate
  rw [plain_find? hroot]
  cases hget : tree.index.get? key with
  | none =>
      refine plainly_refuse ?_
      unfold Outline.relocate
      rw [show tree.outline.head.index.get? key = none from hget]
  | some source =>
      have hnames := hroot.names (hroot.kind_eq_object hget)
      have hkeyed : key ≠ "" := hnames.ne_empty hget
      have hsource : source < tree.children.length :=
        (hnames.lt_length hget).trans_eq tree.length_keys
      simp only
      split
      next hsame =>
        refine plainly_answered ?_
        unfold Outline.relocate
        rw [show tree.outline.head.index.get? key = some source from hget]
        simp only
        rw [if_neg hkeyed, if_pos hsame]
      next hmoves =>
        have hdecide : ∃ index, (Outline.relocate key pos tree.outline : Verdict Tree Unit) =
            .changed ⟨{ tree.head with index },
              .move source (min pos (tree.keys.length - 1))⟩ () := by
          unfold Outline.relocate
          rw [show tree.outline.head.index.get? key = some source from hget]
          simp only
          rw [if_neg hkeyed, if_neg hmoves]
          exact ⟨_, rfl⟩
        obtain ⟨index, hdecide⟩ := hdecide
        rw [plainly_changed hdecide]
        simp only [RowChange.apply, length_keys, moveWithin_min hsource]
        rfl

/-! ### Questions -/

theorem plain_childOf (hroot : tree.outline.WellFormed) (key : String) :
    tree.plain.childOf key = tree.childOf key := by
  unfold Plain.childOf childOf childOf?
  rw [plain_find? hroot, Plain.ofRefusal_tree]
  rfl

/-- Keyed children in the order of their keys are what the index lists. -/
theorem plain_keyIndex (hroot : tree.outline.WellFormed) :
    tree.plain.keyIndex = tree.indexed := by
  unfold Plain.keyIndex
  split
  next hobject =>
    have hnames : tree.index.Names tree.keys := hroot.names hobject
    have hperm := List.mergeSort_perm tree.keyedChildren (·.key ≤ ·.key)
    have hsorted : (tree.keyedChildren.mergeSort (·.key ≤ ·.key)).Pairwise fun first second =>
        first.key ≤ second.key :=
      (List.pairwise_mergeSort (by simpa using fun _ _ _ => String.le_trans)
        (by simpa using fun _ _ => String.le_total ..) tree.keyedChildren).imp of_decide_eq_true
    have hdistinct : (tree.keyedChildren.mergeSort (·.key ≤ ·.key)).Pairwise fun first second =>
        first.key ≠ second.key :=
      (hperm.pairwise_iff fun hne => hne.symm).mpr (keyedChildren_pairwise hnames)
    have hascending : ((tree.keyedChildren.mergeSort (·.key ≤ ·.key)).map fun child =>
        (child.key, child)).Pairwise fun first second => first.1 < second.1 := by
      refine List.pairwise_map.mpr ((hsorted.and hdistinct).imp fun {first second} h => ?_)
      exact Std.lt_of_le_of_ne h.1 h.2
    refine List.Perm.eq_of_pairwise ?_ hascending tree.indexed_ascending
      ((hperm.map _).trans (indexed_perm hnames).symm)
    intro first second _ _ hlt hgt
    exact absurd hgt (String.lt_asymm hlt)
  next hobject =>
    have hempty : tree.index = .empty := hroot.unindexed hobject
    rw [indexed, hempty]
    rfl

end Tree

end KeyedTree
