import KeyedTree.Proofs.Plain.Visits
import KeyedTree.Proofs.Tree.Paths
import KeyedTree.Proofs.WellFormed.Lookup

/-! # Writes along keys

A value is written where a list of keys leads to. Nodes that are not there yet are made on the way,
and a node without content becomes an object when a child comes in. The value is read back under the
same keys, what was reached by other keys is still reached by them, even if it has moved to another
position, and writing the value once more changes nothing.
-/

namespace KeyedTree.Tree

variable {tree opened child last : Tree} {key : String} {keys : List String} {pos : Nat}
  {value : Payload} {edit : Tree → Tree}

/-! ## Nodes under keys -/

/-- The node that keys lead to, one after the other. -/
def reach? : List String → Tree → Option Tree
  | [], tree => some tree
  | key :: rest, tree => (tree.childOf? key).bind (reach? rest)

/-- Getting the child under each key in turn finds what the keys lead to. -/
theorem foldlM_childOf_eq_ok_iff :
    keys.foldlM childOf tree = .ok last ↔ tree.reach? keys = some last := by
  induction keys generalizing tree with
  | nil => simp [reach?, pure, Except.pure]
  | cons key rest ih =>
      rw [List.foldlM_cons, reach?, childOf]
      cases tree.childOf? key with
      | none => simp [bind, Except.bind]
      | some child => exact ih

/-- A search passes over a value that is put in and does not fit. -/
theorem find?_insertIdx_of_neg {β : Type} (fits : β → Bool) {value : β}
    (hvalue : fits value = false) (row : List β) (pos : Nat) :
    (row.insertIdx pos value).find? fits = row.find? fits := by
  induction row generalizing pos with
  | nil => cases pos <;> simp [hvalue]
  | cons first rest ih =>
      cases pos with
      | zero => simp [hvalue]
      | succ pos => simp [List.find?_cons, ih]

/-! ## Entering a key -/

/-- The node at a position of a tree stands under a key, and the tree was another one before that
child was asked for: if the child was not there, it was put in without content. -/
structure Enters (tree : Tree) (key : String) (opened : Tree) (pos : Nat) (child : Tree) :
    Prop where
  object : opened.kind = .object
  wellFormed : opened.WellFormed
  found : opened.index.get? key = some pos
  there : opened.children[pos]? = some child
  origin : tree.childOf? key = some child ∨ tree.childOf? key = none ∧ child.kind = .uninitialized
  others : ∀ other node, other ≠ key → tree.childOf? other = some node →
    opened.childOf? other = some node

/-- The key of a node does not change when a key is entered into it. -/
theorem key_perform_entry (key : String) (tree : Tree) :
    (tree.perform (Outline.entry key blank)).2.key = tree.key := by
  apply key_perform
  unfold Outline.entry Outline.attach
  simp only
  repeat' split
  all_goals
    intro change hchange
    cases hchange <;> rfl

theorem perform_entry_present (hobject : tree.kind = .object)
    (hfound : tree.index.get? key = some pos) :
    tree.perform (Outline.entry key blank) = (.ok pos, tree) := by
  apply perform_answered
  rw [Outline.entry, show tree.outline.head.kind = .object from hobject,
    show tree.outline.head.index.get? key = some pos from hfound]

/-- The child that is put in under a key that was not there. -/
def entrant (tree : Tree) (key : String) : Tree :=
  blank.withHead { blank.head with key, autosort := tree.head.autosort }

theorem perform_entry_absent (hkind : tree.kind = .uninitialized ∨ tree.kind = .object)
    (habsent : tree.index.get? key = none) :
    ∃ pos ≤ tree.children.length, tree.perform (Outline.entry key blank) =
      (.ok pos, node { tree.head with kind := .object, index := tree.index.insertAt key pos }
        (tree.children.insertIdx pos (tree.entrant key))) := by
  let pos :=
    if key = "" ∨ !tree.head.autosort then tree.keys.length else Outline.sortedPlace key tree.keys
  have hpos : pos ≤ tree.children.length := by
    rw [← length_keys]
    unfold pos
    split
    next => exact Nat.le_refl _
    next => exact Outline.sortedPlace_le_length key tree.keys
  have hdecide : Outline.entry key blank tree.outline = .changed
      ⟨{ tree.head with kind := .object, index := tree.index.insertAt key pos },
        .insert pos ⟨blank, Outline.stampFor blank.head key tree.head.autosort⟩⟩ pos := by
    have hget : tree.outline.head.index.get? key = none := habsent
    unfold Outline.entry Outline.attach
    rcases hkind with hblank | hobject
    · simp only [show tree.outline.head.kind = .uninitialized from hblank, Option.getD_some, hget]
      rfl
    · simp only [show tree.outline.head.kind = .object from hobject, Option.getD_some, hget]
      rfl
  refine ⟨pos, hpos, ?_⟩
  rw [perform_changed hdecide, apply, RowChange.apply, stamped_stampFor, insertInto,
    Nat.min_eq_left hpos]
  rfl

/-- A key can be entered into every object and into every node without content. -/
theorem exists_enters (htree : tree.WellFormed)
    (hkind : tree.kind = .object ∨ tree.kind = .uninitialized) (hkey : key ≠ "") :
    ∃ pos child, (tree.perform (Outline.entry key blank)).1 = .ok pos ∧
      tree.Enters key (tree.perform (Outline.entry key blank)).2 pos child := by
  have hopened : (tree.perform (Outline.entry key blank)).2.WellFormed :=
    htree.perform (Outline.keeps_entry htree.outline key rfl List.mem_cons_self)
      (List.forall_mem_singleton.mpr (.leaf _))
  cases hget : tree.index.get? key with
  | some pos =>
      have hobject : tree.kind = .object := htree.outline.kind_eq_object hget
      have hthere := isSome_childOf? htree.outline key
      rw [KeyIndex.contains, hget, Option.isSome_some, Option.isSome_iff_exists] at hthere
      obtain ⟨child, hchild⟩ := hthere
      rw [perform_entry_present hobject hget] at hopened ⊢
      refine ⟨pos, child, rfl, hobject, hopened, hget, ?_, .inl hchild, fun _ _ _ hother => hother⟩
      rwa [childOf?, hget, Option.bind_some] at hchild
  | none =>
      obtain ⟨pos, hpos, hperform⟩ := perform_entry_absent hkind.symm hget
      rw [hperform] at hopened ⊢
      have hnames := hopened.outline.names rfl
      have hthere :
          (tree.children.insertIdx pos (tree.entrant key))[pos]? = some (tree.entrant key) := by
        rw [List.getElem?_insertIdx_self, if_pos hpos]
      refine ⟨pos, tree.entrant key, rfl, rfl, hopened, ?_, hthere, .inr ⟨?_, rfl⟩,
        fun other node hne hother => ?_⟩
      · refine (hnames key pos).mpr ⟨hkey, ?_⟩
        simp only [outline, keys, children_node, List.getElem?_map, hthere]
        rfl
      · rw [childOf?, hget, Option.bind_none]
      · obtain ⟨at_, hat, _⟩ := Option.bind_eq_some_iff.mp hother
        have hobject := htree.outline.kind_eq_object hat
        have hnonempty : other ≠ "" := (htree.outline.names hobject).ne_empty hat
        have hpasses : decide ((tree.entrant key).key = other) = false := decide_eq_false hne.symm
        have hsearch :=
          find?_insertIdx_of_neg (fun child : Tree => child.key = other) hpasses tree.children pos
        rw [childOf?_eq_find? hnames hnonempty, children_node, hsearch,
          ← childOf?_eq_find? (htree.outline.names hobject) hnonempty, hother]

namespace Enters

/-- The child is edited and found under the same key. -/
theorem childOf?_modify (henters : tree.Enters key opened pos child) (edit : Tree → Tree) :
    (node opened.head (opened.children.modify pos edit)).childOf? key = some (edit child) := by
  have hfound : (node opened.head (opened.children.modify pos edit)).index.get? key = some pos :=
    henters.found
  rw [childOf?, hfound, Option.bind_some, children_node, List.getElem?_modify_eq, henters.there]
  rfl

/-- The children under other keys are not touched. -/
theorem childOf?_modify_of_ne (henters : tree.Enters key opened pos child) (edit : Tree → Tree)
    {other : String} (hne : other ≠ key) :
    (node opened.head (opened.children.modify pos edit)).childOf? other =
      opened.childOf? other := by
  have hindex : (node opened.head (opened.children.modify pos edit)).index = opened.index := rfl
  rw [childOf?, childOf?, hindex]
  refine Option.bind_congr fun at_ hat => ?_
  have hnames := henters.wellFormed.outline.names henters.object
  have hapart : pos ≠ at_ := by
    rintro rfl
    exact hne
      (Option.some.inj ((hnames.getElem?_eq hat).symm.trans (hnames.getElem?_eq henters.found)))
  rw [children_node, List.getElem?_modify_ne _ _ hapart]

end Enters

/-! ## Assigning a value -/

/-- A node holds a value if it is of the kind of the value and the value is stored in it. -/
structure Holds (value : Payload) (node : Tree) : Prop where
  kind_eq : node.kind = value.kind
  scalar_eq : node.head.scalar = value.scalar

/-- A node takes a value if it holds one of the same kind, has no content or may be overwritten. -/
def Accepts (value : Payload) (node : Tree) : Prop :=
  node.kind = value.kind ∨ node.kind = .uninitialized ∨ node.head.overwrite = true

theorem perform_assign (operation : Operation) (haccepts : tree.Accepts value) :
    (tree.perform (Outline.assign operation value)).1 = .ok () ∧
      (tree.perform (Outline.assign operation value)).2.Holds value := by
  by_cases hkind : tree.outline.head.kind = value.kind
  · rw [perform_changed (if_pos hkind)]
    exact ⟨rfl, hkind, rfl⟩
  · have hfree : tree.outline.head.kind = .uninitialized ∨ tree.outline.head.overwrite = true :=
      haccepts.resolve_left hkind
    rw [perform_changed ((if_neg hkind).trans (if_pos hfree))]
    exact ⟨rfl, rfl, rfl⟩

/-- A value that is there already is assigned without a trace. -/
theorem perform_assign_again (operation : Operation) (hvalue : tree.Holds value) :
    (tree.perform (Outline.assign operation value)).2 = tree := by
  rw [perform_changed (if_pos hvalue.kind_eq), ← hvalue.scalar_eq]
  exact node_head_children tree

theorem key_perform_assign (operation : Operation) (value : Payload) (tree : Tree) :
    (tree.perform (Outline.assign operation value)).2.key = tree.key := by
  apply key_perform
  unfold Outline.assign
  simp only
  repeat' split
  all_goals
    intro change hchange
    cases hchange <;> rfl

/-! ## Writing along keys -/

/-- The tree with an edit made where keys lead to. -/
def writeAlong (edit : Tree → Tree) : List String → Tree → Tree
  | [], tree => edit tree
  | key :: rest, tree =>
      let opened := (tree.perform (Outline.entry key blank)).2
      match opened.index.get? key with
      | some pos => .node opened.head (opened.children.modify pos (writeAlong edit rest))
      | none => opened

/-- A value may be written along keys: all of them can be entered, and what is there takes it. -/
def Takes (value : Payload) : List String → Tree → Prop
  | [], tree => tree.Accepts value
  | key :: rest, tree =>
      key ≠ "" ∧ (tree.kind = .object ∨ tree.kind = .uninitialized) ∧
        ∀ child, tree.childOf? key = some child → Takes value rest child

theorem childOf?_eq_none (htree : tree.WellFormed) (hkind : tree.kind = .uninitialized)
    (key : String) :
    tree.childOf? key = none := by
  have hother : tree.kind ≠ .object := by simp [hkind]
  have hindex : tree.index = .empty := htree.outline.unindexed hother
  rw [childOf?, hindex]
  rfl

theorem takes_of_uninitialized (htree : tree.WellFormed) (hkind : tree.kind = .uninitialized)
    (hkeys : ∀ key ∈ keys, key ≠ "") : tree.Takes value keys := by
  cases keys with
  | nil => exact .inr (.inl hkind)
  | cons key rest =>
      refine ⟨hkeys key List.mem_cons_self, .inr hkind, fun child hchild => ?_⟩
      rw [childOf?_eq_none htree hkind] at hchild
      cases hchild

theorem key_writeAlong (hedit : ∀ tree, (edit tree).key = tree.key) (keys : List String)
    (tree : Tree) :
    (tree.writeAlong edit keys).key = tree.key := by
  cases keys with
  | nil => exact hedit tree
  | cons key rest =>
      rw [writeAlong]
      split
      next => exact key_perform_entry key tree
      next => exact key_perform_entry key tree

/-- What a write along keys comes to. -/
structure Written (edit : Tree → Tree) (value : Payload) (keys : List String)
    (tree written : Tree) : Prop where
  wellFormed : written.WellFormed
  /-- the value is read back -/
  read : ∃ last, written.reach? keys = some last ∧ last.Holds value
  /-- what other keys led to, they still lead to -/
  elsewhere : ∀ other last, ¬ other <+: keys → ¬ keys <+: other → tree.reach? other = some last →
    written.reach? other = some last
  /-- the value may be written again, which changes nothing -/
  takes : written.Takes value keys
  again : written.writeAlong edit keys = written

theorem modify_modify_of_fixed {β : Type} {row : List β} {pos : Nat} {edit : β → β} {value : β}
    (hvalue : row[pos]? = some value) (hfixed : edit (edit value) = edit value) :
    (row.modify pos edit).modify pos edit = row.modify pos edit := by
  refine List.ext_getElem? fun at_ => ?_
  rw [List.modify_modify_eq, List.getElem?_modify, List.getElem?_modify]
  by_cases hat : pos = at_
  · subst hat
    simp [hvalue, hfixed]
  · simp [hat]

/-- A child is edited, and its parent has what the edit made of it. -/
theorem Enters.written {rest : List String} (henters : tree.Enters key opened pos child)
    (hkey : key ≠ "") (hkeeps : ∀ tree, (edit tree).key = tree.key)
    (hchild : Written edit value rest child (child.writeAlong edit rest)) :
    Written edit value (key :: rest) tree
      (node opened.head (opened.children.modify pos (writeAlong edit rest))) where
  wellFormed := by
    have hrow := map_key_modify (key_writeAlong hkeeps rest) opened.children pos
    refine .node (hrow ▸ henters.wellFormed.outline) ?_
    refine forall_mem_modify (fun _ => henters.wellFormed.child) fun sibling hsibling => ?_
    rw [List.getElem?_modify_eq, henters.there, Option.map_eq_map, Option.map_some,
      Option.some.injEq] at hsibling
    exact hsibling ▸ hchild.wellFormed
  read := by
    obtain ⟨last, hlast, hvalue⟩ := hchild.read
    exact ⟨last, by rw [reach?, henters.childOf?_modify, Option.bind_some, hlast], hvalue⟩
  elsewhere other last habove hbelow hother := by
    cases other with
    | nil => exact absurd List.nil_prefix habove
    | cons name other =>
        obtain ⟨found, hfound, hlast⟩ := Option.bind_eq_some_iff.mp hother
        by_cases hname : name = key
        · subst hname
          rw [List.cons_prefix_cons, not_and] at habove hbelow
          rw [reach?, henters.childOf?_modify, Option.bind_some]
          rcases henters.origin with hthere | ⟨hnone, _⟩
          · obtain rfl : child = found := Option.some.inj (hthere.symm.trans hfound)
            exact hchild.elsewhere other last (habove rfl) (hbelow rfl) hlast
          · rw [hnone] at hfound
            cases hfound
        · rw [reach?, henters.childOf?_modify_of_ne _ hname, henters.others name found hname hfound,
            Option.bind_some, hlast]
  takes := by
    refine ⟨hkey, .inl henters.object, fun found hfound => ?_⟩
    rw [henters.childOf?_modify, Option.some.injEq] at hfound
    exact hfound ▸ hchild.takes
  again := by
    have hfound : (node opened.head (opened.children.modify pos (writeAlong edit rest))).index.get?
        key = some pos :=
      henters.found
    have hobject :
        (node opened.head (opened.children.modify pos (writeAlong edit rest))).kind = .object :=
      henters.object
    simp only [writeAlong, perform_entry_present hobject hfound, hfound]
    rw [head_node, children_node, modify_modify_of_fixed henters.there hchild.again]

/-- A key is entered, and the child there is edited. -/
theorem Enters.writeAlong_cons {rest : List String}
    (henters : tree.Enters key (tree.perform (Outline.entry key blank)).2 pos child) :
    tree.writeAlong edit (key :: rest) =
      node (tree.perform (Outline.entry key blank)).2.head
        ((tree.perform (Outline.entry key blank)).2.children.modify pos
          (writeAlong edit rest)) := by
  rw [writeAlong]
  simp only [henters.found]

/-- The child under a key that is entered may be written to along the other keys. -/
theorem Enters.takes {rest : List String} (henters : tree.Enters key opened pos child)
    (hkeys : ∀ key ∈ rest, key ≠ "") (htakes : tree.Takes value (key :: rest)) :
    child.Takes value rest := by
  rcases henters.origin with hthere | ⟨_, hblank⟩
  · exact htakes.2.2 child hthere
  · exact takes_of_uninitialized (henters.wellFormed.child
      (List.mem_of_getElem? henters.there)) hblank hkeys

/-- A value that may be written along keys is written. -/
theorem Takes.written (htakes : tree.Takes value keys) (htree : tree.WellFormed)
    (hkeys : ∀ key ∈ keys, key ≠ "") (operation : Operation) :
    let assigned := fun node : Tree => (node.perform (Outline.assign operation value)).2
    Written assigned value keys tree (tree.writeAlong assigned keys) := by
  intro assigned
  induction keys generalizing tree with
  | nil =>
      have hvalue := (perform_assign operation htakes).2
      exact
        { wellFormed :=
          htree.perform (Outline.keeps_assign htree.outline _ _) (List.forall_mem_nil _)
          read := ⟨_, rfl, hvalue⟩
          elsewhere := fun _ _ _ hbelow => absurd List.nil_prefix hbelow
          takes := .inl hvalue.kind_eq
          again := perform_assign_again operation hvalue }
  | cons key rest ih =>
      obtain ⟨hkey, hrest⟩ := List.forall_mem_cons.mp hkeys
      obtain ⟨pos, child, _, henters⟩ := exists_enters htree htakes.2.1 hkey
      have hchild := henters.wellFormed.child (List.mem_of_getElem? henters.there)
      rw [henters.writeAlong_cons]
      exact henters.written hkey (key_perform_assign operation value)
        (ih (henters.takes hrest htakes) hchild hrest)

end KeyedTree.Tree
