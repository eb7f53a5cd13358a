import KeyedTree.Outline
import KeyedTree.Proofs.KeyIndex.Naming

/-! # Well-formed nodes

A node is well-formed when the index of an object names its children's keys, every other node has an
empty index, only containers have children, and the value is one of the kind. Every decision on a
well-formed node leaves a well-formed node, whatever the decision is and whether it refuses or not.
A node whose child was edited is well-formed again once it has settled.
-/

namespace KeyedTree

/-- The index agrees with the children's keys, only containers have children, and the value suits
the kind. -/
structure Outline.WellFormed (node : Outline) : Prop where
  names : node.head.kind = .object → node.head.index.Names node.keys
  unindexed : node.head.kind ≠ .object → node.head.index = .empty
  childless : node.head.kind.isContainer = false → node.keys = []
  suits : node.head.scalar.Suits node.head.kind

/-! ## Keys of a row after a change -/

variable {ι α : Type}

theorem set_eq_of_getElem? {β : Type} {row : List β} {pos : Nat} {value : β}
    (hget : row[pos]? = some value) : row.set pos value = row := by
  obtain ⟨hlt, rfl⟩ := List.getElem?_eq_some_iff.mp hget
  exact List.set_getElem_self hlt

theorem length_insertInto (row : List α) (pos : Nat) (value : α) :
    (insertInto row pos value).length = row.length + 1 := by
  rw [insertInto, List.length_insertIdx_of_le_length (Nat.min_le_right _ _)]

/-- Moving within a row neither adds nor loses anything. -/
theorem length_moveWithin (row : List α) (source target : Nat) :
    (moveWithin row source target).length = row.length := by
  unfold moveWithin
  split
  next value hget =>
    have hsource := (List.getElem?_eq_some_iff.mp hget).1
    rw [length_insertInto, List.length_eraseIdx_of_lt hsource]
    omega
  next => rfl

/-- The key that a newcomer has once it is attached, where `keyOf` tells the keys of nodes. -/
def Newcomer.key (keyOf : ι → String) (child : Newcomer ι) : String :=
  match child.stamp with
  | none => keyOf child.node
  | some stamp => stamp.key

/-- The keys of a row after a change. -/
def RowChange.keys (keyOf : ι → String) : RowChange ι → List String → List String
  | .keep, keys => keys
  | .insert pos child, keys => insertInto keys pos (child.key keyOf)
  | .replace pos child, keys => keys.set pos (child.key keyOf)
  | .remove pos, keys => keys.eraseIdx pos
  | .move source target, keys => moveWithin keys source target
  | .label pos key, keys => keys.set pos key
  | .relabel labels, keys => labels.take keys.length ++ keys.drop labels.length
  | .refill children, _ => children.map keyOf

/-- The nodes that come in with a change. -/
def RowChange.guests : RowChange ι → List ι
  | .insert _ child => [child.node]
  | .replace _ child => [child.node]
  | .refill children => children
  | _ => []

/-- What the node shows of itself after a change. -/
def Outline.after (keyOf : ι → String) (node : Outline) (change : Change ι) : Outline :=
  ⟨change.head, change.row.keys keyOf node.keys⟩

/-- A verdict on a node whose change, if it makes one, leaves a well-formed node and takes in none
but the nodes that are offered. -/
def Verdict.Keeps (keyOf : ι → String) (offered : List ι) (node : Outline)
    (verdict : Verdict ι α) : Prop :=
  ∀ change, verdict.change = some change →
    (node.after keyOf change).WellFormed ∧ change.row.guests.Sublist offered

namespace Verdict

variable {keyOf : ι → String} {offered : List ι} {node : Outline}

theorem keeps_refuse (operation : Operation) (objection : Objection) :
    (refuse operation objection : Verdict ι α).Keeps keyOf offered node := by
  rintro change ⟨⟩

theorem keeps_answered (value : α) : (answered value : Verdict ι α).Keeps keyOf offered node := by
  rintro change ⟨⟩

theorem keeps_changed {change : Change ι} (value : α)
    (hwf : (node.after keyOf change).WellFormed) (hguests : change.row.guests.Sublist offered) :
    (changed change value).Keeps keyOf offered node := by
  intro other hother
  cases hother
  exact ⟨hwf, hguests⟩

end Verdict

/-- A verdict whose change, if it makes one, is allowed. -/
def Verdict.Makes (allows : Change ι → Prop) (verdict : Verdict ι α) : Prop :=
  ∀ change, verdict.change = some change → allows change

namespace Verdict

variable {allows : Change ι → Prop}

@[simp] theorem makes_refuse (operation : Operation) (objection : Objection) :
    (refuse operation objection : Verdict ι α).Makes allows := by
  rintro change ⟨⟩

@[simp] theorem makes_answered (value : α) : (answered value : Verdict ι α).Makes allows := by
  rintro change ⟨⟩

@[simp] theorem makes_changed {change : Change ι} (value : α) :
    (changed change value).Makes allows ↔ allows change := by
  constructor
  · exact fun hmakes => hmakes change rfl
  · rintro hallows other ⟨⟩
    exact hallows

theorem makes_of_change_eq_none {verdict : Verdict ι α} (hnone : verdict.change = none) :
    verdict.Makes allows := by
  intro change hchange
  rw [hnone] at hchange
  cases hchange

end Verdict

namespace Outline

variable {keyOf : ι → String} {offered : List ι} {node : Outline}

/-! ## Lookup in well-formed nodes -/

namespace WellFormed

theorem get?_eq_none (hnode : node.WellFormed) (hkind : node.head.kind ≠ .object)
    (key : String) : node.head.index.get? key = none := by
  rw [hnode.unindexed hkind]
  rfl

/-- Whatever the index finds is the child of an object. -/
theorem kind_eq_object (hnode : node.WellFormed) {key : String} {pos : Nat}
    (hget : node.head.index.get? key = some pos) : node.head.kind = .object := by
  by_contra hkind
  rw [hnode.get?_eq_none hkind key] at hget
  cases hget

/-- A node of a kind without values holds the empty one. -/
theorem scalar_eq_nothing (hnode : node.WellFormed) {kind : Kind} (hkind : node.head.kind = kind)
    (hempty : kind.isScalar = false) : node.head.scalar = .nothing :=
  hnode.suits.eq_nothing (hkind ▸ hempty)

/-- A node without children whose index is empty is well-formed if its value suits its kind. -/
theorem of_nil {head : Head} (hindex : head.index = .empty) (hsuits : head.scalar.Suits head.kind) :
    WellFormed ⟨head, []⟩ :=
  ⟨fun _ => hindex ▸ KeyIndex.Names.nil, fun _ => hindex, fun _ => rfl, hsuits⟩

/-- A head of the same kind with the same index fits the same children, whatever its value of this
kind is. -/
theorem with_head (hnode : node.WellFormed) {head : Head} (hkind : head.kind = node.head.kind)
    (hsuits : head.scalar.Suits node.head.kind) (hindex : head.index = node.head.index) :
    WellFormed ⟨head, node.keys⟩ where
  names hobject := by
    rw [hindex]
    exact hnode.names (hkind ▸ hobject)
  unindexed hother := by
    rw [hindex]
    exact hnode.unindexed (hkind ▸ hother)
  childless hleaf := hnode.childless (hkind ▸ hleaf)
  suits := by
    rw [hkind]
    exact hsuits

/-- An object is well-formed as soon as its index names the keys and it holds no value. -/
theorem of_names {head : Head} {keys : List String} (hkind : head.kind = .object)
    (hscalar : head.scalar = .nothing) (hnames : head.index.Names keys) :
    WellFormed ⟨head, keys⟩ := by
  refine ⟨fun _ => hnames, fun hother => absurd hkind hother, fun hleaf => ?_, ?_⟩
  · rw [hkind] at hleaf
    cases hleaf
  · rw [hkind]
    exact hscalar

/-- A container other than an object may have any keys. -/
theorem of_array {head : Head} {keys : List String} (hkind : head.kind = .array)
    (hscalar : head.scalar = .nothing) (hindex : head.index = .empty) :
    WellFormed ⟨head, keys⟩ := by
  refine ⟨fun hobject => ?_, fun _ => hindex, fun hleaf => ?_, ?_⟩
  · rw [hkind] at hobject
    cases hobject
  · rw [hkind] at hleaf
    cases hleaf
  · rw [hkind]
    exact hscalar

end WellFormed

/-! ## Decisions about the node's own head -/

theorem keeps_assign (hnode : node.WellFormed) (operation : Operation) (value : Payload) :
    (node.assign operation value : Verdict ι Unit).Keeps keyOf offered node := by
  unfold assign
  simp only
  split
  next hsame =>
    have hsuits : value.scalar.Suits node.head.kind := hsame ▸ value.suits
    exact Verdict.keeps_changed _ (hnode.with_head rfl hsuits rfl) (List.nil_sublist _)
  next =>
    split
    next => exact Verdict.keeps_changed _ (.of_nil rfl value.suits) (List.nil_sublist _)
    next => exact Verdict.keeps_refuse _ _

theorem keeps_appendText (hnode : node.WellFormed) (text : String) :
    (node.appendText text : Verdict ι Unit).Keeps keyOf offered node := by
  unfold appendText
  split
  next value hkind hscalar =>
    have hsuits : (Scalar.string (value ++ text)).Suits node.head.kind :=
      Scalar.suits_string.mpr hkind
    exact Verdict.keeps_changed _ (hnode.with_head rfl hsuits rfl) (List.nil_sublist _)
  next => exact Verdict.keeps_refuse _ _

theorem keeps_addInteger (hnode : node.WellFormed) (amount : Int64) :
    (node.addInteger amount : Verdict ι Unit).Keeps keyOf offered node := by
  unfold addInteger
  split
  next value hkind hscalar =>
    have hsuits : (Scalar.integer (value + amount)).Suits node.head.kind :=
      Scalar.suits_integer.mpr hkind
    exact Verdict.keeps_changed _ (hnode.with_head rfl hsuits rfl) (List.nil_sublist _)
  next => exact Verdict.keeps_refuse _ _

theorem keeps_setKey (hnode : node.WellFormed) (key : String) :
    (node.setKey key : Verdict ι Unit).Keeps keyOf offered node :=
  Verdict.keeps_changed _ (hnode.with_head rfl hnode.suits rfl) (List.nil_sublist _)

theorem keeps_appendKey (hnode : node.WellFormed) (text : String) :
    (node.appendKey text : Verdict ι Unit).Keeps keyOf offered node :=
  Verdict.keeps_changed _ (hnode.with_head rfl hnode.suits rfl) (List.nil_sublist _)

theorem keeps_setAutosort (hnode : node.WellFormed) (autosort : Bool) :
    (node.setAutosort autosort : Verdict ι Unit).Keeps keyOf offered node :=
  Verdict.keeps_changed _ (hnode.with_head rfl hnode.suits rfl) (List.nil_sublist _)

theorem keeps_setOverwrite (hnode : node.WellFormed) (overwrite : Bool) :
    (node.setOverwrite overwrite : Verdict ι Unit).Keeps keyOf offered node :=
  Verdict.keeps_changed _ (hnode.with_head rfl hnode.suits rfl) (List.nil_sublist _)

theorem keeps_clear (kind : Kind) :
    (node.clear kind : Verdict ι Unit).Keeps keyOf offered node :=
  Verdict.keeps_changed _ (.of_nil rfl (Scalar.zero_suits kind)) (List.nil_sublist _)

/-! ## Decisions that take a node in -/

theorem key_stampFor {child : ι} {guest : Head} (hguest : keyOf child = guest.key) (key : String)
    (autosort : Bool) : (⟨child, stampFor guest key autosort⟩ : Newcomer ι).key keyOf = key := by
  unfold Newcomer.key stampFor
  by_cases hsame : guest.key = key ∧ guest.autosort = autosort
  · simp only [hsame, and_self, if_true]
    exact hguest.trans hsame.1
  · simp only [hsame, if_false]

/-- The place for a new key is in the row or at its end. -/
theorem sortedPlace_le_length (key : String) (keys : List String) :
    sortedPlace key keys ≤ keys.length :=
  bisect_le_length _ keys

theorem insertInto_of_le {β : Type} {row : List β} {pos : Nat} (hpos : pos ≤ row.length)
    (value : β) : insertInto row pos value = row.insertIdx pos value := by
  rw [insertInto, Nat.min_eq_left hpos]

/-- The index names the keys of an object, and also those of a node that may become one. -/
theorem WellFormed.names_of_blank_or_object (hnode : node.WellFormed)
    (hkind : node.head.kind = .uninitialized ∨ node.head.kind = .object) :
    node.head.index.Names node.keys := by
  rcases hkind with hblank | hobject
  · rw [hnode.unindexed (by simp [hblank]), hnode.childless (by rw [hblank]; rfl)]
    exact .nil
  · exact hnode.names hobject

/-- A node that may become an object holds no value. -/
theorem WellFormed.scalar_of_blank_or_object (hnode : node.WellFormed)
    (hkind : node.head.kind = .uninitialized ∨ node.head.kind = .object) :
    node.head.scalar = .nothing := by
  rcases hkind with hblank | hobject
  · exact hnode.scalar_eq_nothing hblank rfl
  · exact hnode.scalar_eq_nothing hobject rfl

/-- What attaching to an object comes to, or to a node that becomes one. -/
theorem attach_of_blank_or_object (operation : Operation) (renamed : Option String) (child : ι)
    (guest : Head)
    (hkind : node.head.kind = .uninitialized ∨ node.head.kind = .object) :
    node.attach operation renamed child guest =
      let key := renamed.getD guest.key
      let newcomer : Newcomer ι := ⟨child, stampFor guest key node.head.autosort⟩
      let head := { node.head with kind := .object }
      match node.head.index.get? key with
      | some pos =>
          if node.head.overwrite then .changed { head, row := .replace pos newcomer } pos
          else .refuse operation (.conflict (.present key))
      | none =>
          let pos :=
            if key = "" ∨ !node.head.autosort then node.keys.length else sortedPlace key node.keys
          .changed
            { head := { head with index := node.head.index.insertAt key pos }
              row := .insert pos newcomer } pos := by
  obtain ⟨⟨key, kind, scalar, autosort, overwrite, index⟩, keys⟩ := node
  rcases hkind with hblank | hobject
  · obtain rfl : kind = .uninitialized := hblank
    rfl
  · obtain rfl : kind = .object := hobject
    rfl

theorem keeps_attach (hnode : node.WellFormed) (operation : Operation) (renamed : Option String)
    {child : ι} {guest : Head} (hguest : keyOf child = guest.key) (hchild : child ∈ offered) :
    (node.attach operation renamed child guest).Keeps keyOf offered node := by
  have hkey := key_stampFor hguest (renamed.getD guest.key) node.head.autosort
  have hguests : [child].Sublist offered := List.singleton_sublist.mpr hchild
  by_cases hkind : node.head.kind = .uninitialized ∨ node.head.kind = .object
  · have hnames := hnode.names_of_blank_or_object hkind
    have hscalar := hnode.scalar_of_blank_or_object hkind
    rw [attach_of_blank_or_object _ _ _ _ hkind]
    simp only
    split
    next pos hget =>
      split
      next =>
        refine Verdict.keeps_changed _ (.of_names rfl hscalar ?_) hguests
        -- the newcomer takes over the key of the child that gives way
        simp only [RowChange.keys, hkey]
        rwa [set_eq_of_getElem? (hnames.getElem?_eq hget)]
      next => exact Verdict.keeps_refuse _ _
    next hget =>
      refine Verdict.keeps_changed _ (.of_names rfl hscalar ?_) hguests
      have hpos : (if renamed.getD guest.key = "" ∨ !node.head.autosort then node.keys.length
          else sortedPlace (renamed.getD guest.key) node.keys) ≤ node.keys.length := by
        split
        · exact Nat.le_refl _
        · exact sortedPlace_le_length _ _
      simp only [RowChange.keys, hkey, insertInto_of_le hpos]
      exact hnames.insertAt hpos ((hnames.get?_eq_none_iff _).mp hget)
  · unfold attach
    split
    next harray =>
      have hindex := hnode.unindexed (by simp [harray])
      exact Verdict.keeps_changed _
        (.of_array harray (hnode.scalar_eq_nothing harray rfl) hindex) hguests
    next hblank => exact absurd (.inl hblank) hkind
    next hobject => exact absurd (.inr hobject) hkind
    next => exact Verdict.keeps_refuse _ _

theorem keeps_attachOver (hnode : node.WellFormed) (key : String) {child : ι} {guest : Head}
    (hguest : keyOf child = guest.key) (hchild : child ∈ offered) :
    (node.attachOver key child guest).Keeps keyOf offered node := by
  intro change hchange
  obtain ⟨open_, hopen, rfl⟩ := Option.map_eq_some_iff.mp hchange
  have hpermissive : WellFormed { node with head := { node.head with overwrite := true } } :=
    hnode.with_head rfl hnode.suits rfl
  obtain ⟨hwf, hguests⟩ := keeps_attach hpermissive _ _ hguest hchild open_ hopen
  exact ⟨hwf.with_head rfl hwf.suits rfl, hguests⟩

theorem keeps_append (hnode : node.WellFormed) {child : ι} (guest : Head)
    (hchild : child ∈ offered) : (node.append child guest).Keeps keyOf offered node := by
  have hguests : [child].Sublist offered := List.singleton_sublist.mpr hchild
  unfold append
  split
  next hblank =>
    have hindex := hnode.unindexed (by simp [hblank])
    exact Verdict.keeps_changed _
      (.of_array rfl (hnode.scalar_eq_nothing hblank rfl) hindex) hguests
  next harray =>
    have hindex := hnode.unindexed (by simp [harray])
    exact Verdict.keeps_changed _
      (.of_array rfl (hnode.scalar_eq_nothing harray rfl) hindex) hguests
  next => exact Verdict.keeps_refuse _ _

theorem keeps_entry (hnode : node.WellFormed) (key : String) {blank : ι} (hblank : keyOf blank = "")
    (hchild : blank ∈ offered) : (node.entry key blank).Keeps keyOf offered node := by
  unfold entry
  split
  · split
    · exact Verdict.keeps_answered _
    · exact keeps_attach hnode _ _ hblank hchild
  · split
    · exact Verdict.keeps_answered _
    · exact keeps_attach hnode _ _ hblank hchild
  · exact Verdict.keeps_refuse _ _

/-! ## Decisions that rearrange the children -/

theorem keeps_remove (hnode : node.WellFormed) (key : String) :
    (node.remove key : Verdict ι Unit).Keeps keyOf offered node := by
  unfold remove
  split
  next hobject =>
    split
    next pos hget =>
      have hnames := hnode.names hobject
      have hscalar := hnode.scalar_eq_nothing hobject rfl
      exact Verdict.keeps_changed _
        (.of_names hobject hscalar (hnames.removeAt (hnames.getElem?_eq hget))) (List.nil_sublist _)
    next => exact Verdict.keeps_answered _
  next => exact Verdict.keeps_refuse _ _

/-- The keys of a row that was relabelled with as many keys. -/
theorem keys_relabel {labels keys : List String} (hlength : labels.length = keys.length) :
    (RowChange.relabel labels : RowChange ι).keys keyOf keys = labels := by
  simp only [RowChange.keys]
  rw [List.take_of_length_le (Nat.le_of_eq hlength), hlength, List.drop_length, List.append_nil]

theorem keeps_rename (hnode : node.WellFormed) (old new : String) :
    (node.rename old new : Verdict ι Unit).Keeps keyOf offered node := by
  unfold rename
  simp only
  split
  next => exact Verdict.keeps_answered _
  next =>
    split
    next pos hget =>
      have hobject := hnode.kind_eq_object hget
      have hnames := hnode.names hobject
      split
      next => exact Verdict.keeps_refuse _ _
      next hcontains =>
        refine Verdict.keeps_changed _
          (.of_names hobject (hnode.scalar_eq_nothing hobject rfl) ?_) (List.nil_sublist _)
        exact hnames.rename (hnames.ne_empty hget) (hnames.getElem?_eq hget)
          ((hnames.contains_eq_false_iff new).mp (eq_false_of_ne_true hcontains))
    next =>
      exact Verdict.keeps_changed _ (hnode.with_head rfl hnode.suits rfl) (List.nil_sublist _)

theorem keeps_rekey (hnode : node.WellFormed) (pos : Nat) (key : String) :
    (node.rekey pos key : Verdict ι Unit).Keeps keyOf offered node := by
  unfold rekey
  split
  next => exact Verdict.keeps_refuse _ _
  next old hold =>
    split
    next => exact Verdict.keeps_answered _
    next =>
      split
      next hobject =>
        split
        next => exact Verdict.keeps_refuse _ _
        next hcontains =>
          have hnames := hnode.names hobject
          have hnew := (hnames.contains_eq_false_iff key).mp (eq_false_of_ne_true hcontains)
          refine Verdict.keeps_changed _
            (.of_names hobject (hnode.scalar_eq_nothing hobject rfl) ?_) (List.nil_sublist _)
          simp only [RowChange.keys]
          split
          next hempty => exact hnames.set (hempty ▸ hold) hnew
          next hkeyed => exact hnames.rename hkeyed hold hnew
      next hkind =>
        refine Verdict.keeps_changed _ ?_ (List.nil_sublist _)
        refine ⟨fun hobject => absurd hobject hkind, hnode.unindexed, fun hleaf => ?_, hnode.suits⟩
        rw [hnode.childless hleaf] at hold
        cases hold

theorem keeps_relocate (hnode : node.WellFormed) (key : String) (pos : Nat) :
    (node.relocate key pos : Verdict ι Unit).Keeps keyOf offered node := by
  unfold relocate
  split
  next => exact Verdict.keeps_refuse _ _
  next source hget =>
    split
    next => exact Verdict.keeps_refuse _ _
    next =>
      split
      next => exact Verdict.keeps_answered _
      next =>
        have hobject := hnode.kind_eq_object hget
        have hscalar := hnode.scalar_eq_nothing hobject rfl
        exact Verdict.keeps_changed _
          (.of_names hobject hscalar ((hnode.names hobject).move hget (Nat.min_le_right _ _)))
          (List.nil_sublist _)

/-! ## After edits of children -/

/-- What a node shows of itself once a verdict is carried out. -/
def decided (keyOf : ι → String) (node : Outline) (verdict : Verdict ι α) : Outline :=
  match verdict.change with
  | none => node
  | some change => node.after keyOf change

@[simp] theorem decided_answered (value : α) :
    decided keyOf node (.answered value) = node := rfl

@[simp] theorem decided_changed (change : Change ι) (value : α) :
    decided keyOf node (.changed change value) = node.after keyOf change := rfl

/-- Nothing settles where there is no child. -/
theorem settle_of_length_le {pos : Nat} (hout : node.keys.length ≤ pos) (old : String) :
    (Outline.settle pos old node : Verdict ι Unit) = .answered () := by
  unfold Outline.settle
  simp only [List.getElem?_eq_none hout, Option.getD_none]
  rw [if_neg fun h => h.2 rfl]

/-- A node whose child came out of an edit with any key is well-formed once it has settled. -/
theorem WellFormed.settle (hnode : node.WellFormed) {pos : Nat} {old : String}
    (hold : node.keys[pos]? = some old) (new : String) :
    (decided keyOf { node with keys := node.keys.set pos new }
      (Outline.settle pos old { node with keys := node.keys.set pos new } :
        Verdict ι Unit)).WellFormed := by
  have hlt : pos < node.keys.length := (List.getElem?_eq_some_iff.mp hold).1
  have hnew : (node.keys.set pos new)[pos]?.getD old = new := by
    rw [List.getElem?_set_self hlt, Option.getD_some]
  unfold Outline.settle
  simp only [hnew]
  by_cases hmoved : node.head.kind = .object ∧ new ≠ old
  · have hnames := hnode.names hmoved.1
    have hscalar := hnode.scalar_eq_nothing hmoved.1 rfl
    rw [if_pos hmoved]
    by_cases hclash : new ≠ "" ∧ node.head.index.contains new = true
    · -- the old key comes back, and the index never lost it
      rw [if_pos hclash, decided_changed]
      refine .of_names hmoved.1 hscalar ?_
      simp only [RowChange.keys, List.set_set]
      rwa [set_eq_of_getElem? hold]
    · have hout : new = "" ∨ new ∉ node.keys := by
        rw [← hnames.contains_eq_false_iff, ← Bool.not_eq_true]
        intro hcontains
        exact hclash ⟨((hnames.contains_iff new).mp hcontains).1, hcontains⟩
      rw [if_neg hclash, decided_changed]
      refine .of_names hmoved.1 hscalar ?_
      simp only [RowChange.keys]
      split
      next hempty => exact hnames.set (hempty ▸ hold) hout
      next hkeyed => exact hnames.rename hkeyed hold hout
  · rw [if_neg hmoved, decided_answered]
    by_cases hobject : node.head.kind = .object
    · have hsame : new = old := not_not.mp fun hne => hmoved ⟨hobject, hne⟩
      rwa [hsame, set_eq_of_getElem? hold]
    · refine ⟨fun h => absurd h hobject, hnode.unindexed, fun hleaf => ?_, hnode.suits⟩
      rw [hnode.childless hleaf] at hold
      cases hold

/-- A node whose children came out of a walk with any keys is well-formed once it has resettled. -/
theorem WellFormed.resettle (hnode : node.WellFormed) {keys : List String}
    (hlength : keys.length = node.keys.length) :
    (decided keyOf { node with keys }
      (Outline.resettle node.keys { node with keys } :
        Verdict ι (List String))).WellFormed := by
  unfold Outline.resettle
  by_cases hobject : node.head.kind = .object
  · rw [if_pos hobject]
    have hnames := hnode.names hobject
    have hscalar := hnode.scalar_eq_nothing hobject rfl
    split
    next index hindex =>
      have hnone : (KeyIndex.ofKeys keys).2 = [] := congrArg Prod.snd hindex
      have hnew := KeyIndex.names_ofKeys hnone
      rw [decided_changed]
      exact .of_names hobject hscalar (by rwa [hindex] at hnew)
    next hrepeated =>
      rw [decided_changed]
      refine .of_names hobject hscalar ?_
      rw [keys_relabel hlength.symm, hnames.ofKeys_eq]
      exact hnames
  · rw [if_neg hobject, decided_changed]
    refine ⟨fun h => absurd h hobject, fun _ => rfl, fun hleaf => ?_, hnode.suits⟩
    rw [hnode.childless hleaf] at hlength
    exact List.length_eq_zero_iff.mp hlength

end Outline

end KeyedTree
