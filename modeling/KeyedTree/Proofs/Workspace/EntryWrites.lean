import KeyedTree.Proofs.Tree.KeyWrites

/-! # Writes through entries

An edit of a workspace enters one key after the other and assigns a value to the node at the end.
Every node on the way is edited under a guard. All guards are dropped without a trace, since no node
gets another key, and the tree is written to along the keys.
-/

namespace KeyedTree

variable {store before after : PrivateStore} {place : Place} {tree : Tree} {keys : List String}
  {value : Payload}

/-! ## Assignments -/

/-- An edit that assigns a value. -/
inductive Edit.Assigns : Edit → Payload → Prop
  | string (value : String) : Assigns (.setString value) (.string value)
  | integer (value : Int64) : Assigns (.setInteger value) (.integer value)
  | bool (value : Bool) : Assigns (.setBool value) (.bool value)

theorem Edit.Assigns.exists_operation {edit : Edit} (hassigns : edit.Assigns value) :
    ∃ operation, ∀ {ι : Type} (node : Outline),
      (edit.decide node : Verdict ι Unit) = Outline.assign operation value node := by
  cases hassigns with
  | string => exact ⟨.setString, fun _ => rfl⟩
  | integer => exact ⟨.setInteger, fun _ => rfl⟩
  | bool => exact ⟨.setBool, fun _ => rfl⟩

/-- Enters one key after the other and assigns a value to the node at the end. -/
def Place.writeAlong (edit : Edit) (keys : List String) (place : Place) :
    Program (Except Fault Unit) :=
  (editAlong (fun last => last.perform edit.decide) (keys.map .entry) place).run

/-! ## Courses of a write -/

/-- An edit of a node and one of its child are one edit of the node. -/
theorem PrivateStore.editAt_child (store : PrivateStore) (place : Place) (pos : Nat)
    (outer inner : Tree → Tree) :
    (store.editAt place outer).editAt (place.child pos) inner =
      store.editAt place fun tree =>
        .node (outer tree).head ((outer tree).children.modify pos inner) := by
  have hslot : (place.child pos).slot = place.slot := rfl
  unfold editAt
  rw [hslot]
  cases hheld : store.shelf.get? place.slot with
  | none => simp only [hheld]
  | some tree =>
      have hedit : Tree.editAt inner [pos] ∘ outer =
          fun tree => .node (outer tree).head ((outer tree).children.modify pos inner) := by
        funext tree
        rw [Function.comp_apply, Tree.editAt_cons, funext (Tree.editAt_nil inner)]
      simp only [Shelf.get?_set, if_pos, Shelf.set_set, Place.child]
      rw [Tree.editAt_append, Tree.editAt_editAt, hedit]

/-- Entering a key finds the child or puts one in, as in a tree of one's own. -/
theorem Course.entry {key : String} (hview : store.view? place = some tree)
    {result : Except Fault Nat}
    (hcourse : Course (place.perform (Outline.entry key (.fresh .blank))).run store result after) :
    result = (tree.perform (Outline.entry key Tree.blank)).1 ∧
      after = store.editAt place fun tree => (tree.perform (Outline.entry key Tree.blank)).2 := by
  refine Course.performs_editAt (store.grant_entry key _)
    (fun node change hchange origin horigin => ?_) hview hcourse
  have hguest := Outline.takes_entry key _ node change hchange horigin
  exact ⟨.blank, List.mem_singleton.mp hguest⟩

/-- Editing a single node is editing a tree of one's own. -/
theorem Course.edit {edit : Edit} (hview : store.view? place = some tree)
    {result : Except Fault Unit}
    (hcourse : Course (place.perform edit.decide).run store result after) :
    result = (tree.perform edit.decide).1 ∧
      after = store.editAt place fun tree => (tree.perform edit.decide).2 := by
  refine Course.performs_editAt (store.grant_edit edit)
    (fun node change hchange origin horigin => ?_) hview hcourse
  have hguest := edit.takes_decide node change hchange horigin
  cases hguest

/-- A write along keys succeeds where the tree takes the value, and it writes to the tree there. -/
theorem Course.writeAlong {edit : Edit} (hassigns : edit.Assigns value)
    (hview : before.view? place = some tree) (htree : tree.WellFormed)
    (hkeys : ∀ key ∈ keys, key ≠ "") (htakes : tree.Takes value keys) {result : Except Fault Unit}
    (hcourse : Course (place.writeAlong edit keys) before result after) :
    result = .ok () ∧
      after = before.editAt place fun tree =>
        tree.writeAlong (fun node => (node.perform edit.decide).2) keys := by
  obtain ⟨operation, hoperation⟩ := hassigns.exists_operation
  induction keys generalizing place tree before after result with
  | nil =>
      obtain ⟨hresult, hafter⟩ := Course.edit hview hcourse
      refine ⟨?_, hafter⟩
      rw [hresult, Tree.perform, hoperation]
      exact (Tree.perform_assign operation htakes).1
  | cons key rest ih =>
      obtain ⟨hkey, hrest⟩ := List.forall_mem_cons.mp hkeys
      obtain ⟨pos, child, hpos, henters⟩ := Tree.exists_enters htree htakes.2.1 hkey
      have hchild := henters.wellFormed.child (List.mem_of_getElem? henters.there)
      have hkeeps : ∀ tree : Tree, (tree.perform edit.decide).2.key = tree.key := fun tree => by
        rw [Tree.perform, hoperation]
        exact Tree.key_perform_assign operation value tree
      rcases Course.run_bind_iff.mp
        hcourse with ⟨opened, middle, hentry, hguarded⟩ | ⟨fault, hentry, _⟩
      · obtain ⟨hopened, hmiddle⟩ := Course.entry hview hentry
        obtain rfl : opened = pos := Except.ok.inj (hopened.trans hpos)
        have hthere : middle.view? (place.child opened) = some child := by
          rw [hmiddle, Guards.view?_child, PrivateStore.view?_editAt_self, hview, Option.map_some,
            Option.bind_some, henters.there]
        -- the child keeps its key, so dropping its guard changes nothing
        obtain ⟨hinner, rfl⟩ := Course.guarded_of_keeps (Tree.key_writeAlong hkeeps rest)
          (fun _ hinner => (ih hthere hchild hrest (henters.takes hrest htakes) hinner).2) hguarded
        refine ⟨(ih hthere hchild hrest (henters.takes hrest htakes) hinner).1, ?_⟩
        rw [hmiddle, PrivateStore.editAt_child]
        refine PrivateStore.editAt_congr fun node hnode => ?_
        obtain rfl : tree = node := Option.some.inj (hview.symm.trans hnode)
        rw [henters.writeAlong_cons]
      · obtain ⟨hfault, _⟩ := Course.entry hview hentry
        rw [hpos] at hfault
        cases hfault

/-! ## Writes to shared nodes -/

/-- Keys that can be entered one after the other, and the value that the node at the end takes. -/
theorem Tree.takes_of_way (htree : tree.WellFormed) (hkeys : ∀ key ∈ keys, key ≠ "")
    (hway : ∀ above node, above <+: keys → above ≠ keys →
      above.foldlM Tree.childOf tree = .ok node → node.kind = .object ∨ node.kind = .uninitialized)
    (hlast : ∀ node, keys.foldlM Tree.childOf tree = .ok node → node.Accepts value) :
    tree.Takes value keys := by
  induction keys generalizing tree with
  | nil => exact hlast tree (foldlM_childOf_eq_ok_iff.mpr rfl)
  | cons key rest ih =>
      obtain ⟨hkey, hrest⟩ := List.forall_mem_cons.mp hkeys
      refine ⟨hkey, hway [] tree List.nil_prefix nofun (foldlM_childOf_eq_ok_iff.mpr rfl),
        fun child hchild => ?_⟩
      have hbelow (keys : List String) (node : Tree)
          (hnode : keys.foldlM Tree.childOf child = .ok node) :
          (key :: keys).foldlM Tree.childOf tree = .ok node := by
        rw [foldlM_childOf_eq_ok_iff] at hnode ⊢
        rw [reach?, hchild, Option.bind_some, hnode]
      refine ih
        (htree.child (List.mem_of_getElem? (Option.bind_eq_some_iff.mp hchild).choose_spec.2)) hrest
        (fun above node habove hne hnode => ?_) fun node hnode =>
          hlast node (hbelow rest node hnode)
      have hpath : key :: above ≠ key :: rest := fun hsame => hne (List.cons.inj hsame).2
      exact hway (key :: above) node (List.cons_prefix_cons.mpr ⟨rfl, habove⟩) hpath
        (hbelow above node hnode)

theorem Edit.Assigns.written {edit : Edit} (hassigns : edit.Assigns value)
    (htakes : tree.Takes value keys) (htree : tree.WellFormed) (hkeys : ∀ key ∈ keys, key ≠ "") :
    tree.Written (fun node => (node.perform edit.decide).2) value keys
      (tree.writeAlong (fun node => (node.perform edit.decide).2) keys) := by
  obtain ⟨operation, hoperation⟩ := hassigns.exists_operation
  have hassigned : (fun node : Tree => (node.perform edit.decide).2) =
      fun node => (node.perform (Outline.assign operation value)).2 := by
    funext node
    simp only [Tree.perform, hoperation]
  rw [hassigned]
  exact htakes.written htree hkeys operation

/-- At any time, a value may be written to where a list of non-empty keys leads to from the root of
a well-formed tree, if all nodes on the way that are there are objects or without content, and the
node at the end, if it is there, takes the value. The write succeeds. The same keys then lead to the
value. Whatever other keys led to, they lead to it still, unless they are some of the first of these
keys or go on from all of them. Writing the value once more succeeds and leaves the tree as it
is. -/
theorem entry_write_reads_back {α : Type} (program : Program α) {root : Tree} {edit : Edit}
    (hassigns : edit.Assigns value)
    (hview : (program.run ({} : SharedStore)).2.view? place = some root) (hroot : root.WellFormed)
    (hkeys : ∀ key ∈ keys, key ≠ "")
    (hway : ∀ above node, above <+: keys → above ≠ keys →
      above.foldlM Tree.childOf root = .ok node → node.kind = .object ∨ node.kind = .uninitialized)
    (hlast : ∀ node, keys.foldlM Tree.childOf root = .ok node → node.Accepts value) :
    let write (store : SharedStore) := (place.writeAlong edit keys).run store
    let first := write (program.run ({} : SharedStore)).2
    let second := write first.2
    ∃ written node, first.1 = .ok () ∧ first.2.view? place = some written ∧ written.WellFormed ∧
      keys.foldlM Tree.childOf written = .ok node ∧ node.Holds value ∧
      (∀ other last, ¬ other <+: keys → ¬ keys <+: other →
        other.foldlM Tree.childOf root = .ok last → other.foldlM Tree.childOf written = .ok last) ∧
      second.1 = .ok () ∧ second.2.view? place = some written := by
  intro write first second
  have htakes := Tree.takes_of_way hroot hkeys hway hlast
  have hwritten := hassigns.written htakes hroot hkeys
  obtain ⟨node, hnode, hvalue⟩ := hwritten.read
  -- both writes follow courses on trees of one's own
  obtain ⟨plain, _, hplain⟩ := Mirrors.empty.run program
  rw [hplain.view?_eq] at hview
  obtain ⟨middle, hfirst, hmiddle⟩ := hplain.run (place.writeAlong edit keys)
  obtain ⟨hok, hleft⟩ := Course.writeAlong hassigns hview hroot hkeys htakes hfirst
  have hthere : middle.view? place =
      some (root.writeAlong (fun node => (node.perform edit.decide).2) keys) := by
    rw [hleft, PrivateStore.view?_editAt_self, hview, Option.map_some]
  obtain ⟨last, hsecond, hend⟩ := hmiddle.run (place.writeAlong edit keys)
  obtain ⟨hagain, rfl⟩ :=
    Course.writeAlong hassigns hthere hwritten.wellFormed hkeys hwritten.takes hsecond
  refine ⟨_, node, hok, (hmiddle.view?_eq place).trans hthere, hwritten.wellFormed,
    Tree.foldlM_childOf_eq_ok_iff.mpr hnode, hvalue, fun other last habove hbelow hother => ?_,
    hagain, ?_⟩
  · rw [Tree.foldlM_childOf_eq_ok_iff] at hother ⊢
    exact hwritten.elsewhere other last habove hbelow hother
  · rw [hend.view?_eq, PrivateStore.view?_editAt_self, hthere, Option.map_some, hwritten.again]

/-- Two nodes are made in an autosorted object with two children, which move to other positions. -/
theorem sortedPair_written :
    let before := ((Program.request (.hold (.register "a") sortedPair)).run ({} : SharedStore)).2
    let place : Place := ⟨.register "a", []⟩
    let keys := ["a", "k"]
    let write (store : SharedStore) := (place.writeAlong (.setInteger 7) keys).run store
    before.view? place = some sortedPair ∧ sortedPair.WellFormed ∧
      ∃ written node, (write before).1 = .ok () ∧ (write before).2.view? place = some written ∧
        written.WellFormed ∧ keys.foldlM Tree.childOf written = .ok node ∧ node.Holds (.integer 7) ∧
        (∀ other last, ¬ other <+: keys → ¬ keys <+: other →
          other.foldlM Tree.childOf sortedPair = .ok last →
          other.foldlM Tree.childOf written = .ok last) ∧
        (write (write before).2).1 = .ok () ∧
          (write (write before).2).2.view? place = some written := by
  intro before place keys write
  have hview : before.view? place = some sortedPair :=
    (Mirrors.empty.answer (.hold (.register "a") sortedPair)).view?_eq place
  have hnone : sortedPair.childOf? "a" = none := by cbv
  refine ⟨hview, sortedPair_wellFormed, ?_⟩
  refine entry_write_reads_back _ (.integer 7) hview sortedPair_wellFormed (by decide) ?_ ?_
  · intro above node habove _ hnode
    rw [Tree.foldlM_childOf_eq_ok_iff] at hnode
    cases above with
    | nil =>
        cases hnode
        exact .inl rfl
    | cons key above =>
        obtain ⟨rfl, _⟩ := List.cons_prefix_cons.mp habove
        simp [Tree.reach?, hnone] at hnode
  · intro node hnode
    rw [Tree.foldlM_childOf_eq_ok_iff] at hnode
    simp [keys, Tree.reach?, hnone] at hnode

end KeyedTree
