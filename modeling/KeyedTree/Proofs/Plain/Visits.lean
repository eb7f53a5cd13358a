import KeyedTree.Proofs.Plain.Sorting
import KeyedTree.Proofs.Workspace.Requests

/-! # Visits to objects of a workspace

An object of a workspace is visited: calls are made of it one after the other, and the child that a
call gets hold of is edited under its guard. As long as no child gets another key that way, the
object comes to what the plain container comes to. An autosorted object that was empty at first is
in order all the time, and it does not matter in which order its children come.
-/

namespace KeyedTree

/-- Gives the node at a place what an edit makes of the tree there. -/
def Place.rewrite (edit : Tree → Tree) (place : Place) : Program Unit := do
  let tree ← place.view
  Program.request (.change place ⟨(edit tree).head, .refill ((edit tree).children.map .fresh)⟩)

namespace Visit

/-- Makes the call of the node at a place and edits the child that it gets hold of under its
guard. -/
def run (place : Place) (visit : Visit) : Program (Except Fault Answer) := do
  let answer ← (visit.call.run place).run
  if let .ok (.position pos) := answer then
    place.guarded pos (Place.rewrite visit.edit)
  return answer

/-- Visits the node at a place again and again. -/
def runAll (place : Place) : List Visit → Program (List (Except Fault Answer))
  | [] => return []
  | visit :: rest => do
      let answer ← visit.run place
      let answers ← runAll place rest
      return answer :: answers

end Visit

/-! ## Edits under a guard -/

/-- A child that keeps its key when it is edited leaves the keys of the row as they are. -/
theorem Tree.map_key_modify {edit : Tree → Tree} (hkeeps : ∀ tree, (edit tree).key = tree.key)
    (row : List Tree) (pos : Nat) : (row.modify pos edit).map key = row.map key := by
  refine List.ext_getElem? fun at_ => ?_
  rw [List.getElem?_map, List.getElem?_map, List.getElem?_modify]
  cases row[at_]? with
  | none => rfl
  | some tree => by_cases hat : pos = at_ <;> simp [hat, hkeeps]

/-- A parent whose child has the key that it had before has nothing to settle. -/
theorem Outline.settle_same {ι : Type} {pos : Nat} {old : String} {node : Outline}
    (hold : node.keys[pos]?.getD old = old) :
    (settle pos old node : Verdict ι Unit) = .answered () := by
  simp only [settle, hold, ne_eq, not_true_eq_false, and_false, if_false]

namespace Course

variable {store after : PrivateStore} {place : Place} {node : Plain} {edit : Tree → Tree}
  {pos : Nat}

/-- A node is rewritten by what the edit makes of it. -/
theorem rewrite (hcourse : Course (place.rewrite edit) store () after) :
    after = store.editAt place edit := by
  obtain ⟨tree, middle, hview, hrequest⟩ := bind_iff.mp hcourse
  obtain ⟨rfl, rfl⟩ := view_iff.mp hview
  rw [(request_iff.mp hrequest).2, PrivateStore.answer, RowChange.resolve, Program.resolveAll_fresh]
  simp only [Tree.apply, RowChange.apply, Tree.node_head_children]
  exact PrivateStore.editAt_congr fun node hnode => by rw [hnode, Option.getD_some]

/-- An edit of a child is seen from its parent as an edit of the row. -/
theorem view?_editAt_child (store : PrivateStore) (place : Place) (pos : Nat) (edit : Tree → Tree) :
    (store.editAt (place.child pos) edit).view? place =
      (store.view? place).map fun tree => .node tree.head (tree.children.modify pos edit) := by
  refine (store.view?_editAt_below place [pos] edit).trans
    (congrArg (Option.map · _) (funext fun tree => ?_))
  rw [Tree.editAt_cons, funext (Tree.editAt_nil edit)]

/-- An edit of a child that keeps its key is all that happens under its guard. -/
theorem guarded_of_keeps {α : Type} {opened : Place → Program α} {result : α}
    (hkeeps : ∀ tree, (edit tree).key = tree.key)
    (hopened : ∀ middle, Course (opened (place.child pos)) store result middle →
      middle = store.editAt (place.child pos) edit)
    (hcourse : Course (place.guarded pos opened) store result after) :
    Course (opened (place.child pos)) store result after ∧
      after = store.editAt (place.child pos) edit := by
  obtain ⟨old, middle, outcome, hold, hinner, hsettle⟩ := Program.course_guarded hcourse
  obtain rfl := hopened middle hinner
  -- the parent finds the key that the child had
  have hsettled : after = store.editAt (place.child pos) edit := by
    rw [settle hsettle]
    refine (PrivateStore.editAt_congr fun node hnode => ?_).trans (PrivateStore.editAt_id _ place)
    rw [view?_editAt_child] at hnode
    obtain ⟨parent, hparent, rfl⟩ := Option.map_eq_some_iff.mp hnode
    refine congrArg Prod.snd (Tree.perform_answered (Outline.settle_same ?_))
    rw [hold, Guards.view?_child, hparent, Option.bind_some]
    simp only [Tree.outline, Tree.keys, Tree.children_node, Tree.map_key_modify hkeeps,
      List.getElem?_map]
    cases parent.children[pos]? <;> rfl
  exact ⟨hsettled ▸ hinner, hsettled⟩

/-- A child that is edited under its guard and keeps its key is all that changes. -/
theorem guarded (hnode : store.Presents place node) (hkeeps : ∀ tree, (edit tree).key = tree.key)
    (hcourse : Course (place.guarded pos (Place.rewrite edit)) store () after) :
    after.Presents place (node.holding (node.children.modify pos edit)) := by
  obtain ⟨tree, hview, hroot, rfl⟩ := hnode
  obtain ⟨_, rfl⟩ := guarded_of_keeps hkeeps (fun _ => rewrite) hcourse
  have houtline : (Tree.node tree.head (tree.children.modify pos edit)).outline = tree.outline :=
    congrArg (Outline.mk tree.head) (Tree.map_key_modify hkeeps tree.children pos)
  exact ⟨_, by rw [view?_editAt_child, hview, Option.map_some], houtline ▸ hroot, rfl⟩

end Course

/-! ## Visits -/

namespace Visit

variable {store after : PrivateStore} {place : Place} {node : Plain}

/-- Each visit of the node at a place answers as the plain container does, and leaves a node that is
the container that is left. -/
theorem course_visit (hslot : place.slot ≠ .argument) (hnode : store.Presents place node)
    {visit : Visit} {answer : Except Fault Answer}
    (hcourse : Course (visit.run place) store answer after) :
    answer = (node.visit visit).1 ∧ after.Presents place (node.visit visit).2 := by
  obtain ⟨called, middle, hcall, hcourse⟩ := Course.bind_iff.mp hcourse
  obtain ⟨hcalled, hmiddle⟩ := Call.course_call hslot hnode hcall
  rw [Plain.visit]
  generalize node.call visit.call = call at hcalled hmiddle ⊢
  obtain ⟨result, left⟩ := call
  obtain rfl : called = result := hcalled
  cases called with
  | error fault =>
      obtain ⟨rfl, rfl⟩ := Course.pure_iff.mp hcourse
      exact ⟨rfl, hmiddle⟩
  | ok found =>
      cases found with
      | position pos =>
          obtain ⟨_, last, hguarded, hpure⟩ := Course.bind_iff.mp hcourse
          obtain ⟨rfl, rfl⟩ := Course.pure_iff.mp hpure
          exact ⟨rfl, Course.guarded hmiddle visit.keeps hguarded⟩
      | _ =>
          obtain ⟨rfl, rfl⟩ := Course.pure_iff.mp hcourse
          exact ⟨rfl, hmiddle⟩

theorem course_runAll (hslot : place.slot ≠ .argument) (hnode : store.Presents place node)
    {visits : List Visit} {answers : List (Except Fault Answer)}
    (hcourse : Course (runAll place visits) store answers after) :
    answers = (node.visits visits).1 ∧ after.Presents place (node.visits visits).2 := by
  induction visits generalizing store node answers with
  | nil =>
      obtain ⟨rfl, rfl⟩ := Course.pure_iff.mp hcourse
      exact ⟨rfl, hnode⟩
  | cons visit rest ih =>
      obtain ⟨answer, middle, hvisit, hcourse⟩ := Course.bind_iff.mp hcourse
      obtain ⟨rfl, hmiddle⟩ := course_visit hslot hnode hvisit
      obtain ⟨others, last, hrest, hpure⟩ := Course.bind_iff.mp hcourse
      obtain ⟨rfl, rfl⟩ := Course.pure_iff.mp hpure
      obtain ⟨rfl, hlast⟩ := ih hmiddle hrest
      exact ⟨rfl, hlast⟩

/-- What stands at a place of a workspace of shared nodes after visits, if it was an autosorted
object without children: the object that the plain container comes to, with its children in
order. -/
theorem exists_inOrder {store : SharedStore} {before : PrivateStore}
    (hmirrors : Mirrors store before []) (hslot : place.slot ≠ .argument)
    (hnode : before.Presents place node) (hsorts : node.Autosorted) (hempty : node.children = [])
    (visits : List Visit) :
    ∃ (left : PrivateStore) (tree : Tree) (keyed : List Tree),
      Mirrors ((runAll place visits).run store).2 left [] ∧ left.view? place = some tree ∧
        tree.outline.WellFormed ∧ tree.plain = (node.visits visits).2 ∧ tree.plain.Autosorted ∧
        Tree.InOrder tree.children keyed (anonymous visits) := by
  obtain ⟨left, hcourse, hleft⟩ := hmirrors.run (runAll place visits)
  obtain ⟨tree, htree, hwell, hplain⟩ := (course_runAll hslot hnode hcourse).2
  have hstart : Tree.InOrder node.children [] [] := hempty ▸ .nil
  obtain ⟨row, keyed, hrow, horder⟩ := hsorts.visits_inOrder hstart visits
  obtain rfl : tree.children = row := congrArg Plain.children (hplain.trans hrow)
  have hafter : tree.plain.Autosorted := hplain ▸ hrow ▸ hsorts.holding _
  exact ⟨left, tree, keyed, hleft, htree, hwell, hplain, hafter, horder⟩

end Visit

/-- Well-formed nodes that are the same plain container are the same. -/
theorem Tree.eq_of_plain_eq {tree other : Tree} (htree : tree.outline.WellFormed)
    (hother : other.outline.WellFormed) (hplain : tree.plain = other.plain) : tree = other := by
  obtain ⟨⟨key, kind, scalar, autosort, overwrite, index⟩, children⟩ := tree
  obtain ⟨⟨key', kind', scalar', autosort', overwrite', index'⟩, children'⟩ := other
  injection hplain with hkey hkind hscalar hautosort hoverwrite hchildren
  obtain rfl : key = key' := hkey
  obtain rfl : kind = kind' := hkind
  obtain rfl : scalar = scalar' := hscalar
  obtain rfl : autosort = autosort' := hautosort
  obtain rfl : overwrite = overwrite' := hoverwrite
  obtain rfl : children = children' := hchildren
  have hindex : index = index' := by
    by_cases hobject : kind = .object
    · exact (htree.names hobject).index_unique (hother.names hobject)
    · exact (htree.unindexed hobject).trans (hother.unindexed hobject).symm
  rw [hindex]

/-- An autosorted object of a workspace that is empty at first is visited, and the children are
edited under their guards but keep their keys. At any time the children with keys stand in strictly
ascending order of the bytes of their keys, and behind them the anonymous ones in the order in which
they came. A child that is brought under a new key is put in at the first place that fits. Visits
that bring children under different keys can be made in any other order in which the anonymous
children keep theirs: the object is the same. -/
theorem autosorted_object_in_order {α : Type} (program : Program α) {place : Place}
    (hslot : place.slot ≠ .argument) {head : Head}
    (hview : (program.run ({} : SharedStore)).2.view? place = some (.node head []))
    (hobject : head.kind = .object) (hscalar : head.scalar = .nothing)
    (hautosort : head.autosort = true) (hindex : head.index = .empty) :
    let after := fun visits : List Visit =>
      ((Visit.runAll place visits).run (program.run ({} : SharedStore)).2).2
    (∀ visits, ∃ node keyed, (after visits).view? place = some node ∧
        Tree.InOrder node.children keyed (Visit.anonymous visits)) ∧
      (∀ (visits : List Visit) (visit : Visit) (node child : Tree), (after visits).view? place =
        some node → visit.brought = some child → child.key ≠ "" → child.key ∉ node.keys →
          ∃ (pos : Nat) (next : Tree), ((visit.run place).run (after visits)).1 =
            .ok (.position pos) ∧ ((visit.run place).run (after visits)).2.view? place = some next ∧
            next.children = node.children.insertIdx pos child ∧
            Tree.FirstPlace node.children child.key pos) ∧
      ∀ visits others, visits.Perm others → (∀ visit ∈ visits, visit.brought.isSome = true) →
        (((visits.filterMap Visit.brought).map Tree.key).filter (· ≠ "")).Nodup →
          Visit.anonymous visits = Visit.anonymous others →
            (after visits).view? place = (after others).view? place := by
  intro after
  obtain ⟨before, _, hbefore⟩ := Mirrors.empty.run program
  have hsuits : head.scalar.Suits head.kind := by
    rw [hobject]
    exact hscalar
  have hroot : (Tree.node head []).outline.WellFormed := .of_nil hindex hsuits
  have hnode : before.Presents place (Tree.node head []).plain :=
    ⟨_, (hbefore.view?_eq place).symm.trans hview, hroot, rfl⟩
  have hsorts : (Tree.node head []).plain.Autosorted := ⟨hobject, hautosort⟩
  have hleft := Visit.exists_inOrder hbefore hslot hnode hsorts rfl
  refine ⟨fun visits => ?_, fun visits visit node child hthere hbrought hkey hnew => ?_,
    fun visits others hperm hbring hkeys hanonymous => ?_⟩
  · obtain ⟨left, tree, keyed, hmirrors, htree, -, -, -, horder⟩ := hleft visits
    exact ⟨tree, keyed, (hmirrors.view?_eq place).trans htree, horder⟩
  · obtain ⟨left, tree, keyed, hmirrors, htree, hwell, -, hafter, horder⟩ := hleft visits
    obtain rfl : node = tree :=
      Option.some.inj (hthere.symm.trans ((hmirrors.view?_eq place).trans htree))
    obtain ⟨pos, hanswer, hplaced, hfirst⟩ := hafter.visit_placed horder hbrought hkey hnew
    obtain ⟨last, hcourse, hlast⟩ := hmirrors.run (visit.run place)
    obtain ⟨hsame, next, hnext, _, hplain⟩ :=
      Visit.course_visit hslot ⟨node, htree, hwell, rfl⟩ hcourse
    refine ⟨pos, next, hsame.trans hanswer, (hlast.view?_eq place).trans hnext, ?_, hfirst⟩
    exact congrArg Plain.children (hplain.trans hplaced)
  · obtain ⟨left, tree, _, hmirrors, htree, hwell, hplain, -, -⟩ := hleft visits
    obtain ⟨left', other, _, hmirrors', hother, hwell', hplain', -, -⟩ := hleft others
    have hsame := hsorts.visits_eq_of_perm rfl hperm hbring hkeys hanonymous
    rw [hmirrors.view?_eq, hmirrors'.view?_eq, htree, hother,
      Tree.eq_of_plain_eq hwell hwell' (hplain.trans (hsame.trans hplain'.symm))]

/-- An autosorted object without children. -/
def emptySorted : Tree :=
  .node { kind := .object, autosort := true } []

/-- Two children under keys, the second of which is edited, and an anonymous one between them. -/
def mixedVisits : List Visit :=
  [{ call := .attachKeyed "b" (some (.leaf .null)) }, { call := .attach (some .blank) },
    { call := .entry "a", edit := fun tree => tree.withAutosort false }]

theorem mixedVisits_in_order :
    let before := (Program.request (.hold (.register "a") emptySorted)).run ({} : SharedStore)
    let place : Place := ⟨.register "a", []⟩
    let after := fun visits : List Visit => ((Visit.runAll place visits).run before.2).2
    place.slot ≠ .argument ∧ before.2.view? place = some emptySorted ∧
      emptySorted.head.kind = .object ∧ emptySorted.head.scalar = .nothing ∧
      emptySorted.head.autosort = true ∧ emptySorted.head.index = .empty ∧
      (∃ node keyed, (after mixedVisits).view? place = some node ∧
        Tree.InOrder node.children keyed (Visit.anonymous mixedVisits)) ∧
      (∀ visit ∈ mixedVisits.head?, ∃ (pos : Nat) (next : Tree),
        ((visit.run place).run (after [])).1 = .ok (.position pos) ∧
          ((visit.run place).run (after [])).2.view? place = some next ∧
          next.children = [].insertIdx pos ((Tree.leaf .null).incoming "b") ∧
            Tree.FirstPlace [] "b" pos) ∧
      (after mixedVisits).view? place = (after mixedVisits.reverse).view? place := by
  intro before place after
  have hview : before.2.view? place = some emptySorted :=
    (Mirrors.empty.answer (.hold (.register "a") emptySorted)).view?_eq _
  obtain ⟨horder, hplaced, hsame⟩ := autosorted_object_in_order _ (by decide) hview rfl rfl rfl rfl
  refine ⟨by decide, hview, rfl, rfl, rfl, rfl, horder mixedVisits, ?_, ?_⟩
  · rintro visit ⟨⟩
    exact hplaced [] _ emptySorted _ hview rfl (by decide) nofun
  · exact hsame _ _ (List.reverse_perm _).symm (by simp [mixedVisits, Visit.brought])
      (by decide) rfl

end KeyedTree
