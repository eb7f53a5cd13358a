import KeyedTree.Proofs.WellFormed.Outline
import KeyedTree.Script.Run

/-! # Positions within the row

The positions in the index of a node lie within its row of children. A decision on such a node names
no position outside of the row: not in the change that it makes, and not in the answer with which it
opens a child. The keys of the children do not matter for this, and neither does their order.
-/

namespace KeyedTree

variable {ι α : Type}

/-- Every position in the index is that of a child. -/
def Outline.Within (node : Outline) : Prop :=
  ∀ key pos, node.head.index.get? key = some pos → pos < node.keys.length

/-- All positions of a change lie within a row of some length. What is put in may come in behind the
last child, but what is moved is taken out first. Where all children take new keys, there is one for
each. -/
def RowChange.Fits (length : Nat) : RowChange ι → Prop
  | .keep => True
  | .insert pos _ => pos ≤ length
  | .replace pos _ => pos < length
  | .remove pos => pos < length
  | .move source target => source < length ∧ target ≤ length - 1
  | .label pos _ => pos < length
  | .relabel keys => keys.length = length
  | .refill _ => True

/-- The change of a verdict, if it makes one, fits the node. -/
abbrev Verdict.Fits (node : Outline) (verdict : Verdict ι α) : Prop :=
  verdict.Makes fun change => change.row.Fits node.keys.length

namespace Outline

variable {node : Outline}

theorem WellFormed.within (hnode : node.WellFormed) : node.Within := by
  intro key pos hget
  exact (hnode.names (hnode.kind_eq_object hget)).lt_length hget

/-- Positions are judged by the index and the number of children alone. -/
theorem Within.congr {other : Outline} (hnode : node.Within)
    (hindex : other.head.index = node.head.index) (hlength : other.keys.length = node.keys.length) :
    other.Within := by
  intro key pos hget
  rw [hlength]
  exact hnode key pos (hindex ▸ hget)

/-! ## Changes -/

/-- Where a new key goes: to its place in the order, which fits any row, or to the end. -/
theorem attach_place_le (key : String) (autosort : Bool) (keys : List String) :
    (if key = "" ∨ !autosort then keys.length else sortedPlace key keys) ≤ keys.length := by
  split
  next => exact Nat.le_refl _
  next => exact sortedPlace_le_length _ _

theorem Within.fits_attach (hnode : node.Within) (operation : Operation) (renamed : Option String)
    (child : ι) (guest : Head) : (node.attach operation renamed child guest).Fits node := by
  by_cases hkind : node.head.kind = .uninitialized ∨ node.head.kind = .object
  · rw [attach_of_blank_or_object _ _ _ _ hkind]
    simp only
    split
    next pos hget =>
      split
      next => exact (Verdict.makes_changed _).mpr (hnode _ pos hget)
      next => exact Verdict.makes_refuse _ _
    next => exact (Verdict.makes_changed _).mpr (attach_place_le _ _ _)
  · unfold attach
    split
    next => exact (Verdict.makes_changed _).mpr (Nat.le_refl _)
    next hblank => exact absurd (.inl hblank) hkind
    next hobject => exact absurd (.inr hobject) hkind
    next => exact Verdict.makes_refuse _ _

theorem Within.fits_attachOver (hnode : node.Within) (key : String) (child : ι) (guest : Head) :
    (node.attachOver key child guest).Fits node := by
  intro change hchange
  obtain ⟨attached, hattached, rfl⟩ := Option.map_eq_some_iff.mp hchange
  have hpermissive : Within { node with head := { node.head with overwrite := true } } :=
    hnode.congr rfl rfl
  exact hpermissive.fits_attach _ _ child guest attached hattached

theorem fits_append (child : ι) (guest : Head) (node : Outline) :
    (node.append child guest).Fits node := by
  unfold append
  split <;> simp [RowChange.Fits]

theorem Within.fits_entry (hnode : node.Within) (key : String) (blank : ι) :
    (node.entry key blank).Fits node := by
  unfold entry
  repeat' split
  all_goals first
    | exact Verdict.makes_answered _
    | exact Verdict.makes_refuse _ _
    | exact hnode.fits_attach _ _ blank _

theorem fits_assign (operation : Operation) (value : Payload) (node : Outline) :
    (node.assign operation value : Verdict ι Unit).Fits node := by
  unfold assign
  simp only
  repeat' split
  all_goals simp [RowChange.Fits]

theorem Within.fits_remove (hnode : node.Within) (key : String) :
    (node.remove key : Verdict ι Unit).Fits node := by
  unfold remove
  split
  next =>
    split
    next pos hget => exact (Verdict.makes_changed _).mpr (hnode key pos hget)
    next => exact Verdict.makes_answered _
  next => exact Verdict.makes_refuse _ _

/-- The child that is renamed stands where the index has it. -/
theorem Within.fits_rename (hnode : node.Within) (old new : String) :
    (node.rename old new : Verdict ι Unit).Fits node := by
  unfold rename
  simp only
  split
  next => exact Verdict.makes_answered _
  next =>
    split
    next pos hget =>
      split
      next => exact Verdict.makes_refuse _ _
      next => exact (Verdict.makes_changed _).mpr (hnode old pos hget)
    next => exact (Verdict.makes_changed _).mpr trivial

/-- A position without a child is refused before anything is written there. -/
theorem fits_rekey (pos : Nat) (key : String) (node : Outline) :
    (node.rekey pos key : Verdict ι Unit).Fits node := by
  unfold rekey
  split
  next => exact Verdict.makes_refuse _ _
  next old hold =>
    have hpos : pos < node.keys.length := (List.getElem?_eq_some_iff.mp hold).1
    split
    next => exact Verdict.makes_answered _
    next =>
      split
      next =>
        split
        next => exact Verdict.makes_refuse _ _
        next => exact (Verdict.makes_changed _).mpr hpos
      next => exact (Verdict.makes_changed _).mpr hpos

theorem Within.fits_relocate (hnode : node.Within) (key : String) (pos : Nat) :
    (node.relocate key pos : Verdict ι Unit).Fits node := by
  unfold relocate
  split
  next => exact Verdict.makes_refuse _ _
  next source hget =>
    split
    next => exact Verdict.makes_refuse _ _
    next =>
      split
      next => exact Verdict.makes_answered _
      next => exact (Verdict.makes_changed _).mpr ⟨hnode key source hget, Nat.min_le_right _ _⟩

theorem Within.fits_edit (hnode : node.Within) (edit : Edit) :
    (edit.decide node : Verdict ι Unit).Fits node := by
  cases edit with
  | setString value => exact fits_assign _ _ node
  | setInteger value => exact fits_assign _ _ node
  | setBool value => exact fits_assign _ _ node
  | appendText text =>
      simp only [Edit.decide, appendText]
      split
      next => exact (Verdict.makes_changed _).mpr trivial
      next => exact Verdict.makes_refuse _ _
  | addInteger amount =>
      simp only [Edit.decide, addInteger]
      split
      next => exact (Verdict.makes_changed _).mpr trivial
      next => exact Verdict.makes_refuse _ _
  | setKey key => simp [Edit.decide, setKey, RowChange.Fits]
  | appendKey text => simp [Edit.decide, appendKey, RowChange.Fits]
  | setAutosort autosort => simp [Edit.decide, setAutosort, RowChange.Fits]
  | setOverwrite overwrite => simp [Edit.decide, setOverwrite, RowChange.Fits]
  | clear kind => simp [Edit.decide, clear, RowChange.Fits]
  | remove key => exact hnode.fits_remove key
  | rename old new => exact hnode.fits_rename old new
  | rekey pos key => exact fits_rekey pos key node
  | relocate key pos => exact hnode.fits_relocate key pos

/-- A key that differs from the old one was read off a child, which takes the old one back. -/
theorem fits_settle (pos : Nat) (old : String) (node : Outline) :
    (node.settle pos old : Verdict ι Unit).Fits node := by
  by_cases hpos : pos < node.keys.length
  · unfold settle
    simp only
    split
    next =>
      split
      next => exact (Verdict.makes_changed _).mpr hpos
      next => exact (Verdict.makes_changed _).mpr trivial
    next => exact Verdict.makes_answered _
  · rw [settle_of_length_le (Nat.le_of_not_lt hpos)]
    exact Verdict.makes_answered _

/-- No child comes or goes when a node settles. -/
theorem length_settle (keyOf : ι → String) (pos : Nat) (old : String) (node : Outline) :
    (decided keyOf node (node.settle pos old : Verdict ι Unit)).keys.length = node.keys.length := by
  unfold settle
  simp only
  repeat' split
  all_goals simp [after, RowChange.keys]

/-- Old keys fit as long as the number of children is the same. -/
theorem fits_resettle {old : List String} (hlength : old.length = node.keys.length) :
    (node.resettle old : Verdict ι (List String)).Fits node := by
  unfold resettle
  repeat' split
  all_goals simp [RowChange.Fits, hlength]

end Outline

/-! ## Openings -/

/-- The position that a verdict answers is that of a child once the verdict is carried out. -/
def Verdict.Opens (keyOf : ι → String) (node : Outline) (verdict : Verdict ι Nat) : Prop :=
  ∀ pos, verdict.answer = .ok pos → pos < (Outline.decided keyOf node verdict).keys.length

namespace Verdict

variable {keyOf : ι → String} {node : Outline} {pos : Nat}

theorem opens_refuse (operation : Operation) (objection : Objection) :
    (refuse operation objection : Verdict ι Nat).Opens keyOf node := by
  rintro pos ⟨⟩

theorem opens_answered (hpos : pos < node.keys.length) :
    (answered pos : Verdict ι Nat).Opens keyOf node := by
  rintro _ ⟨⟩
  exact hpos

theorem opens_insert (hpos : pos ≤ node.keys.length) (head : Head) (child : Newcomer ι) :
    (changed ⟨head, .insert pos child⟩ pos).Opens keyOf node := by
  rintro _ ⟨⟩
  rw [Outline.decided_changed, Outline.after, RowChange.keys, length_insertInto]
  exact Nat.lt_succ_of_le hpos

theorem opens_replace (hpos : pos < node.keys.length) (head : Head) (child : Newcomer ι) :
    (changed ⟨head, .replace pos child⟩ pos).Opens keyOf node := by
  rintro _ ⟨⟩
  rw [Outline.decided_changed, Outline.after, RowChange.keys, List.length_set]
  exact hpos

end Verdict

namespace Outline

variable {keyOf : ι → String} {node : Outline}

theorem Within.opens_attach (hnode : node.Within) (operation : Operation) (renamed : Option String)
    (child : ι) (guest : Head) : (node.attach operation renamed child guest).Opens keyOf node := by
  by_cases hkind : node.head.kind = .uninitialized ∨ node.head.kind = .object
  · rw [attach_of_blank_or_object _ _ _ _ hkind]
    simp only
    split
    next pos hget =>
      split
      next => exact Verdict.opens_replace (hnode _ pos hget) _ _
      next => exact Verdict.opens_refuse _ _
    next => exact Verdict.opens_insert (attach_place_le _ _ _) _ _
  · unfold attach
    split
    next => exact Verdict.opens_insert (Nat.le_refl _) _ _
    next hblank => exact absurd (.inl hblank) hkind
    next hobject => exact absurd (.inr hobject) hkind
    next => exact Verdict.opens_refuse _ _

theorem opens_append (child : ι) (guest : Head) (node : Outline) :
    (node.append child guest).Opens keyOf node := by
  unfold append
  split
  next => exact Verdict.opens_insert (Nat.le_refl _) _ _
  next => exact Verdict.opens_insert (Nat.le_refl _) _ _
  next => exact Verdict.opens_refuse _ _

theorem Within.opens_entry (hnode : node.Within) (key : String) (blank : ι) :
    (node.entry key blank).Opens keyOf node := by
  unfold entry
  repeat' split
  all_goals first
    | exact Verdict.opens_answered (hnode _ _ ‹_›)
    | exact Verdict.opens_refuse _ _
    | exact hnode.opens_attach _ _ blank _

theorem opens_child (operation : Operation) (pos : Nat) (node : Outline) :
    (node.child operation pos : Verdict ι Nat).Opens keyOf node := by
  unfold child
  split
  next hpos => exact Verdict.opens_answered hpos
  next => exact Verdict.opens_refuse _ _

theorem opens_childOf (operation : Operation) (key : String) (node : Outline) :
    (node.childOf operation key : Verdict ι Nat).Opens keyOf node := by
  unfold childOf
  repeat' split
  all_goals first
    | exact Verdict.opens_answered ‹_›
    | exact Verdict.opens_refuse _ _

theorem opens_lastChild (operation : Operation) (node : Outline) :
    (node.lastChild operation : Verdict ι Nat).Opens keyOf node := by
  unfold lastChild
  split
  next => exact Verdict.opens_refuse _ _
  next hkeys =>
    have hlength := List.length_pos_iff.mpr (mt List.isEmpty_iff.mpr hkeys)
    exact Verdict.opens_answered (Nat.sub_lt hlength Nat.one_pos)

/-! ## What comes after -/

/-- Taking a node in leaves all positions within the row, in whatever order the keys are. -/
theorem Within.attach (hnode : node.Within) (operation : Operation) (renamed : Option String)
    (child : ι) (guest : Head) :
    (decided keyOf node (node.attach operation renamed child guest)).Within := by
  by_cases hkind : node.head.kind = .uninitialized ∨ node.head.kind = .object
  · rw [attach_of_blank_or_object _ _ _ _ hkind]
    simp only
    split
    next pos hget =>
      split
      next => exact hnode.congr rfl List.length_set
      next => exact hnode
    next =>
      intro key pos hget
      rw [decided_changed, after, RowChange.keys, length_insertInto]
      rw [decided_changed, after, KeyIndex.get?_insertAt] at hget
      split at hget
      next =>
        cases hget
        exact Nat.lt_succ_of_le (attach_place_le _ _ _)
      next =>
        obtain ⟨old, hold, rfl⟩ := Option.map_eq_some_iff.mp hget
        have hstep : ∀ place : Nat, (if place ≤ old then old + 1 else old) ≤ old + 1 := by
          intro place
          split <;> omega
        exact Nat.lt_of_le_of_lt (hstep _) (Nat.succ_lt_succ (hnode key old hold))
  · unfold Outline.attach
    split
    next =>
      intro key pos hget
      rw [decided_changed, after, RowChange.keys, length_insertInto]
      exact Nat.lt_succ_of_lt (hnode key pos hget)
    next hblank => exact absurd (.inl hblank) hkind
    next hobject => exact absurd (.inr hobject) hkind
    next => exact hnode

theorem Within.append (hnode : node.Within) (child : ι) (guest : Head) :
    (decided keyOf node (node.append child guest)).Within := by
  have hinsert : ∀ head : Head, head.index = node.head.index → ∀ newcomer : Newcomer ι,
      (node.after keyOf ⟨head, .insert node.keys.length newcomer⟩).Within := by
    intro head hindex newcomer key pos hget
    rw [after, RowChange.keys, length_insertInto]
    rw [after, hindex] at hget
    exact Nat.lt_succ_of_lt (hnode key pos hget)
  unfold Outline.append
  split
  next => exact hinsert _ rfl _
  next => exact hinsert _ rfl _
  next => exact hnode

end Outline

/-! ## Removal -/

/-- When a child is taken out, only positions behind it move. They move down by one, and none of
them was the first position. -/
theorem KeyIndex.get?_removeAt_cases {index : KeyIndex} {key other : String} {pos after : Nat}
    (hget : (index.removeAt key pos).get? other = some after) :
    ∃ before, index.get? other = some before ∧
      (before ≤ pos ∧ after = before ∨ pos < before ∧ after + 1 = before) := by
  rw [get?_removeAt] at hget
  split at hget
  next => cases hget
  next =>
    obtain ⟨before, hbefore, rfl⟩ := Option.map_eq_some_iff.mp hget
    refine ⟨before, hbefore, ?_⟩
    split <;> omega

end KeyedTree
