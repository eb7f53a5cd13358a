import KeyedTree.Proofs.Script.Operations
import KeyedTree.Proofs.WellFormed.Range
import KeyedTree.Proofs.Workspace.Discipline

/-! # Opened children

When an opener answers a position, the child is there, also in a node that is out of step with its
children at the time. From then on it stays where it is until the guard that edits it is dropped.
With this every position that an operation uses is in range, at every moment of every run.
-/

namespace KeyedTree

variable {α : Type} {place : Place} {store after : PrivateStore} {node : Tree}

/-- In every node the positions in the index lie within the row, and every change fits its row. -/
theorem Outline.disciplined_within :
    Discipline Outline.Within fun node change => change.row.Fits node.keys.length where
  of_wellFormed hnode := hnode.within
  congr hnode hhead hlength := hnode.congr (congrArg Head.index hhead) hlength
  attach hnode operation renamed child guest := hnode.fits_attach operation renamed child guest
  attachOver hnode key child guest := hnode.fits_attachOver key child guest
  append _ child guest := fits_append child guest _
  entry hnode key blank := hnode.fits_entry key blank
  edit hnode edit := hnode.fits_edit edit
  settle _ pos old := fits_settle pos old _
  resettle _ _ hlength := fits_resettle hlength
  refill _ _ _ := trivial

/-! ## Openers -/

namespace PrivateStore

theorem length_resolveAll (origins : List Origin) (store : PrivateStore) :
    (RowChange.resolveAll resolve origins store).1.length = origins.length := by
  induction origins generalizing store with
  | nil => rfl
  | cons origin rest ih => exact congrArg (· + 1) (ih _)

/-- A change makes a row as long as it would with anything in place of the nodes that come in. -/
theorem length_keys_resolve (store : PrivateStore) (row : RowChange Origin) (keys : List String) :
    ((row.resolve resolve store).1.keys Tree.key keys).length =
      (row.keys store.keyOf keys).length := by
  cases row with
  | refill origins =>
      rw [RowChange.resolve, RowChange.keys, RowChange.keys, List.length_map, List.length_map]
      exact length_resolveAll origins store
  | insert pos child => simp [RowChange.resolve, RowChange.keys, length_insertInto]
  | replace pos child => simp [RowChange.resolve, RowChange.keys]
  | keep => rfl
  | remove pos => rfl
  | move source target => rfl
  | label pos key => simp [RowChange.resolve, RowChange.keys]
  | relabel keys => rfl

theorem isSome_view?_child (hview : store.view? place = some node) {pos : Nat}
    (hpos : pos < node.children.length) : (store.view? (place.child pos)).isSome := by
  rw [Guards.view?_child, hview, Option.bind_some, List.getElem?_eq_getElem hpos]
  rfl

end PrivateStore

namespace Course

/-- After an operation the node at the place has as many children as its verdict says. -/
theorem view?_perform {decide : Outline → Verdict Origin α} {offered : List Origin}
    {result : Except Fault α} (hview : store.view? place = some node)
    (htakes : (decide node.outline).Takes offered)
    (haway : ∀ slot, .held slot ∈ offered → slot ≠ place.slot)
    (hcourse : Course (place.perform decide).run store result after) :
    ∃ changed, after.view? place = some changed ∧ changed.children.length =
      (Outline.decided store.keyOf node.outline (decide node.outline)).keys.length := by
  have hafter := (Course.perform hcourse).2
  rw [hview, Option.map_some, Option.getD_some] at hafter
  subst hafter
  cases hchange : (decide node.outline).change with
  | none =>
      refine ⟨node, hview, ?_⟩
      rw [Outline.decided, hchange]
      exact node.length_keys.symm
  | some change =>
      have hguests := htakes change hchange
      rw [PrivateStore.changed_some, PrivateStore.view?_editAt_self,
        PrivateStore.view?_resolveRow fun slot hslot => haway slot (hguests hslot), hview]
      refine ⟨_, rfl, ?_⟩
      rw [Outline.decided, hchange]
      change List.length (RowChange.apply _ node.children) =
        (change.row.keys store.keyOf node.outline.keys).length
      rw [← store.length_keys_resolve change.row node.outline.keys]
      exact (List.length_map Tree.key).symm.trans (congrArg List.length (Tree.map_key_apply _ _))

/-- When an operation answers a position, the child is there afterwards. -/
theorem child_there {decide : Outline → Verdict Origin Nat} {offered : List Origin} {pos : Nat}
    (hview : store.view? place = some node) (htakes : (decide node.outline).Takes offered)
    (haway : ∀ slot, .held slot ∈ offered → slot ≠ place.slot)
    (hopens : (decide node.outline).Opens store.keyOf node.outline)
    (hcourse : Course (place.perform decide).run store (.ok pos) after) :
    (after.view? (place.child pos)).isSome := by
  obtain ⟨changed, hchanged, hlength⟩ := view?_perform hview htakes haway hcourse
  have hanswer := (Course.perform hcourse).1
  rw [hview, Option.map_some, Option.getD_some] at hanswer
  refine PrivateStore.isSome_view?_child hchanged (hlength ▸ hopens pos ?_)
  cases hverdict : (decide node.outline).answer with
  | ok value =>
      rw [hverdict] at hanswer
      cases hanswer
      rfl
  | error refusal =>
      rw [hverdict] at hanswer
      cases hanswer

/-- A question that answers a position of a child changes nothing, so the child is there. -/
theorem child_there_of_asks {decide : Outline → Verdict Origin Nat} {pos : Nat}
    (hview : store.view? place = some node) (hasks : ∀ node, (decide node).change = none)
    (hopens : (decide node.outline).Opens store.keyOf node.outline)
    (hcourse : Course (place.perform decide).run store (.ok pos) after) :
    (after.view? (place.child pos)).isSome := by
  have htakes : (decide node.outline).Takes [] := by
    intro change hchange
    rw [hasks] at hchange
    cases hchange
  exact child_there hview htakes (fun _ hheld => nomatch hheld) hopens hcourse

/-- An opener that answers a position leaves a child there. -/
theorem opened (hwithin : store.All Outline.Within) (hslot : place.slot ≠ .argument)
    (hthere : (store.view? place).isSome) {opener : Opener} {pos : Nat}
    (hcourse : Course (opener.run place).run store (.ok pos) after) :
    (after.view? (place.child pos)).isSome := by
  obtain ⟨node, hview⟩ := Option.isSome_iff_exists.mp hthere
  have hnode := hwithin place node hview
  have haway : ∀ slot, Origin.held slot ∈ [Origin.held .argument] → slot ≠ place.slot := by
    intro slot hheld
    rw [List.mem_singleton, Origin.held.injEq] at hheld
    exact hheld ▸ hslot.symm
  cases opener with
  | attach child =>
      obtain ⟨guest, hcourse⟩ := of_argumentHead_ok hcourse
      exact child_there hview (Outline.takes_attach _ _ _ guest _) haway
        (hnode.opens_attach _ _ _ guest)
        hcourse
  | attachKeyed key child =>
      obtain ⟨guest, hcourse⟩ := of_argumentHead_ok hcourse
      exact child_there hview (Outline.takes_attach _ _ _ guest _) haway
        (hnode.opens_attach _ _ _ guest)
        hcourse
  | append child =>
      obtain ⟨guest, hcourse⟩ := of_argumentHead_ok hcourse
      exact child_there hview (Outline.takes_append _ guest _) haway
        (Outline.opens_append _ guest _) hcourse
  | entry key =>
      refine child_there hview (Outline.takes_entry key _ _) (fun slot hheld => ?_)
        (hnode.opens_entry key _) hcourse
      simp at hheld
  | child at_ =>
      exact child_there_of_asks hview (Program.child_change _ at_)
        (Outline.opens_child _ at_ _) hcourse
  | childOf key =>
      exact child_there_of_asks hview (Program.childOf_change _ key)
        (Outline.opens_childOf _ key _) hcourse
  | lastChild =>
      exact child_there_of_asks hview (Program.lastChild_change _)
        (Outline.opens_lastChild _ _) hcourse
  | assign key child =>
      obtain ⟨guest, hcourse⟩ := of_argumentHead_ok hcourse
      rcases Course.run_bind_iff.mp hcourse with ⟨_, middle, hattach, hfind⟩ | ⟨_, _, hfault⟩
      · obtain ⟨changed, hchanged, _⟩ :=
          view?_perform hview (Outline.takes_attachOver key _ guest _) haway hattach
        exact child_there_of_asks hchanged (Program.childOf_change _ key)
          (Outline.opens_childOf _ key _) hfind
      · cases hfault

/-! ## Guards -/

/-- Settling leaves all children where they are. -/
theorem view?_settled {pos at_ : Nat} {old : String} {outcome : Except Fault Unit}
    (hthere : (store.view? (place.child at_)).isSome)
    (hcourse : Course (place.perform (Outline.settle pos old)).run store outcome after) :
    (after.view? (place.child at_)).isSome := by
  obtain ⟨child, hchild⟩ := Option.isSome_iff_exists.mp hthere
  rw [Guards.view?_child] at hchild
  obtain ⟨node, hview, hget⟩ := Option.bind_eq_some_iff.mp hchild
  have htakes : (Outline.settle pos old node.outline : Verdict Origin Unit).Takes [] :=
    fun change hchange => Program.settle_guests _ change hchange ▸ List.Subset.refl _
  obtain ⟨changed, hchanged, hlength⟩ :=
    view?_perform hview htakes (fun _ hheld => nomatch hheld) hcourse
  refine PrivateStore.isSome_view?_child hchanged ?_
  rw [hlength, Outline.length_settle, Tree.outline, Tree.length_keys]
  exact (List.getElem?_eq_some_iff.mp hget).1

end Course

section

variable {guards : Guards} {pos : Nat} {edit : Place → Program α}

/-- While a child is edited under a guard it is there, from when the guard is made until it is
dropped. -/
theorem Program.Operates.watched_guarded
    (hedit : (edit (place.child pos)).Operates (guards.guard (place.child pos)))
    (hthere : (store.view? (place.child pos)).isSome) :
    (place.guarded pos edit).Watched (fun _ store => (store.view? (place.child pos)).isSome) store ∧
      ∀ result after, Course (place.guarded pos edit) store result after →
        (after.view? (place.child pos)).isSome := by
  have hanswer : ∀ {β : Type} (request : Request β) (store : PrivateStore),
      request.Heeds (guards.guard (place.child pos)) → (store.view? (place.child pos)).isSome →
        ((PrivateStore.answer request store).2.view? (place.child pos)).isSome :=
    fun _ _ => PrivateStore.isSome_view?_answer (if_pos rfl)
  have hedited : ∀ {result middle}, Course (edit (place.child pos)) store result middle →
      (middle.view? (place.child pos)).isSome :=
    fun hcourse => hcourse.preserves hanswer hedit.heeds hthere
  constructor
  · refine .bind (.key (fun _ _ => hthere) _) fun old middle hkey => ?_
    obtain ⟨_, rfl⟩ := Course.key_iff.mp hkey
    refine .bind (.request hthere) fun _ middle hown => ?_
    obtain rfl := Course.own_iff.mp hown
    refine .bind (.of_each hanswer hedit.heeds hthere) fun result middle hinner => ?_
    refine .bind ?_ fun _ _ _ => trivial
    have hcourse := Course.of_run (place.perform (Outline.settle pos old)).run middle
    have hsettled := Course.view?_settled (hedited hinner) hcourse
    rw [(Course.perform hcourse).2] at hsettled
    exact .perform (fun _ _ => hedited hinner) (fun _ _ => hedited hinner) fun _ _ => hsettled
  · intro result after hcourse
    obtain ⟨old, middle, outcome, _, hinner, hsettle⟩ := Program.course_guarded hcourse
    exact Course.view?_settled (hedited hinner) hsettle

end

/-! ## Shared nodes -/

/-- No position is out of range, and none will be that is answered from here. -/
structure SharedStore.InRange (store : SharedStore) : Prop where
  /-- The positions in the index of a node are those of its children. -/
  within : ∀ place node, store.view? place = some node → node.outline.Within
  /-- A child that is opened is there, from when its guard is made until it is dropped. The node
  that it is opened in is not the argument, which is given away. -/
  opened : ∀ (place : Place) (opener : Opener) (pos : Nat) (after : SharedStore),
    place.slot ≠ .argument → (store.view? place).isSome →
      (opener.run place).run.run store = (.ok pos, after) →
        (after.view? (place.child pos)).isSome ∧
          ∀ (guards : Guards) {α : Type} (edit : Place → Program α),
            (edit (place.child pos)).Operates (guards.guard (place.child pos)) →
              (place.guarded pos edit).Always
                  (fun _ store => (store.view? (place.child pos)).isSome) after ∧
                (((place.guarded pos edit).run after).2.view? (place.child pos)).isSome

theorem Mirrors.inRange {store : SharedStore} {plain : PrivateStore}
    (hmirrors : Mirrors store plain []) (hwithin : plain.All Outline.Within) : store.InRange where
  within place node hnode := hwithin place node (hmirrors.view?_eq place ▸ hnode)
  opened place opener pos after hslot hthere hrun := by
    obtain ⟨middle, hcourse, hmiddle⟩ := hmirrors.run (opener.run place).run
    rw [hrun] at hcourse hmiddle
    rw [hmirrors.view?_eq] at hthere
    have hopened := Course.opened hwithin hslot hthere hcourse
    refine ⟨hmiddle.view?_eq _ ▸ hopened, fun guards _ edit hedit => ?_⟩
    obtain ⟨hwatched, hend⟩ := hedit.watched_guarded hopened
    obtain ⟨last, hguarded, hlast⟩ := hmiddle.run (place.guarded pos edit)
    refine ⟨hmiddle.always (fun _ store plain hmirrors hplain => ?_) hwatched, ?_⟩
    · rw [hmirrors.view?_eq]
      exact hplain
    · rw [hlast.view?_eq]
      exact hend _ _ hguarded

/-- At every moment of a run, and where it ends, no position is out of range, and every change that
is asked for fits the node as it then is. Trees that are built from others of their own take each
child in where it fits, even between keys that are out of order; and where a child is taken out, a
position that moves down was not the first. -/
theorem operations_in_range {program : Program α} (hprogram : program.Operates .free) :
    program.Always (fun request store => store.InRange ∧
        request.Meets (fun node change => change.row.Fits node.keys.length) store.view?)
          ({} : SharedStore) ∧
      (program.run ({} : SharedStore)).2.InRange ∧
      (∀ {ι : Type} (keyOf : ι → String) (node : Outline) (child : ι) (guest : Head), node.Within →
        (∀ operation renamed,
          (node.attach operation renamed child guest).Fits node ∧
            (Outline.decided keyOf node (node.attach operation renamed child guest)).Within) ∧
          (node.append child guest).Fits node ∧
            (Outline.decided keyOf node (node.append child guest)).Within) ∧
      (∀ key keys, Outline.sortedPlace key keys ≤ keys.length) ∧
      ∀ (index : KeyIndex) key other pos after, (index.removeAt key pos).get? other = some after →
        ∃ before, index.get? other = some before ∧
          (before ≤ pos ∧ after = before ∨ pos < before ∧ after + 1 = before) := by
  obtain ⟨halways, hend⟩ := Outline.disciplined_within.always hprogram fun _ _ => Mirrors.inRange
  refine ⟨halways, hend, ?_, Outline.sortedPlace_le_length,
    fun index key other pos after => KeyIndex.get?_removeAt_cases⟩
  intro ι keyOf node child guest hnode
  exact ⟨fun operation renamed =>
      ⟨hnode.fits_attach operation renamed child guest, hnode.attach operation renamed child guest⟩,
    node.fits_append child guest, hnode.append child guest⟩

/-- A script that puts the keys of an object out of order before a child comes in by the order. A
child is taken out, and another one gives way where it stands. -/
def disorderedScript : Script :=
  { nodes := [("a", .new (.node .object none true true
      [.node (.integer 1) (some "b") true false [], .node (.bool true) (some "m") true false [],
        .node (.integer 2) (some "x") true false []]))]
    steps :=
      [⟨"a", .act [] (.edit (.relocate "x" 0))⟩,
        ⟨"a", .act [] (.visit (.attachKeyed "n" (.new (.node (.integer 7) none false false [])))
          [.edit (.setKey "k")])⟩,
        ⟨"a", .act [] (.edit (.remove "b"))⟩,
        ⟨"a", .act [] (.find (.assign "m" (.new (.node .array none false false []))))⟩]
    quiet := true }

theorem disordered_child_opened :
    disorderedScript.run.run.Operates .free ∧
      let place : Place := ⟨.register "a", []⟩
      let ended := (disorderedScript.run.run.run ({} : SharedStore)).2
      (ended.view? place).map Tree.keys = some ["x", "m", "k"] ∧
        ∃ opened, ((Opener.childOf "k").run place).run.run ended = (.ok 2, opened) ∧
          (opened.view? (place.child 2)).isSome := by
  have hoperates : disorderedScript.run.run.Operates .free :=
    Script.operates_run (by decide)
  have hkeys : ((disorderedScript.run.run.run ({} : SharedStore)).2.view? ⟨.register "a", []⟩).map
      Tree.keys = some ["x", "m", "k"] := by
    cbv
  have hpos : (((Opener.childOf "k").run ⟨.register "a", []⟩).run.run
      (disorderedScript.run.run.run ({} : SharedStore)).2).1 = .ok 2 := by
    cbv
  have hthere :
      ((disorderedScript.run.run.run ({} : SharedStore)).2.view? ⟨.register "a", []⟩).isSome := by
    rw [← Option.isSome_map, hkeys]
    rfl
  refine ⟨hoperates, hkeys, _, Prod.ext hpos rfl, ?_⟩
  exact ((operations_in_range hoperates).2.1.opened _ _ 2 _ (by decide) hthere
    (Prod.ext hpos rfl)).1

end KeyedTree
