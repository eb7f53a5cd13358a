import KeyedTree.Proofs.Script.Sharing
import KeyedTree.Proofs.Workspace.Holders

/-! # Guards that are not used

Who follows a path in order to edit a node makes every node on the way his own. Where these belong
to him alone already, and a child is only got hold of or looked at in the end, the workspace is left
as it is.
-/

namespace KeyedTree

variable {α : Type}

namespace SharedStore

variable {store : SharedStore} {place : Place}

/-- What the node at a place shows of itself. -/
def outlineAt (store : SharedStore) (place : Place) : Outline :=
  ((store.ref? place).map store.heap.outline).getD default

/-- An operation that changes nothing leaves the workspace as it is and answers what it decides. -/
theorem run_perform {decide : Outline → Verdict Origin α}
    (hasks : (decide (store.outlineAt place)).change = none) :
    (place.perform decide).run.run store =
      ((decide (store.outlineAt place)).answer.mapError fun refusal =>
        .ofRefusal refusal ((store.view? place).getD default), store) := by
  have houtline : place.outline.run store = (store.outlineAt place, store) := rfl
  rw [Place.perform, Attempt.run_liftM_bind, houtline]
  generalize decide (store.outlineAt place) = verdict at hasks ⊢
  obtain ⟨made, answer⟩ := verdict
  cases hasks
  cases answer <;> rfl

/-- The children of a node are where its outline names their keys. -/
theorem outlineAt_keys (store : SharedStore) (place : Place) (pos : Nat) :
    (store.outlineAt place).keys[pos]? =
      (store.ref? (place.child pos)).map fun child => (store.heap.head child).key := by
  obtain ⟨slot, path⟩ := place
  rw [outlineAt, Place.child]
  cases hfound : store.ref? ⟨slot, path⟩ with
  | none =>
      have hbelow : store.ref? ⟨slot, path ++ [pos]⟩ = none := by
        rw [ref?] at hfound ⊢
        cases hheld : store.shelf.get? slot with
        | none => rfl
        | some holder =>
            simp only [hheld, Option.bind_some] at hfound ⊢
            rw [Heap.find?_concat, hfound, Option.bind_none]
      rw [hbelow]
      rfl
  | some ref =>
      rw [Option.map_some, Option.getD_some, Heap.outline, List.getElem?_map,
        children_getElem? hfound]

/-- A child that kept its key leaves its parent in step. -/
theorem settle_outlineAt (store : SharedStore) (place : Place) (pos : Nat) :
    (Outline.settle pos (store.outlineAt (place.child pos)).head.key (store.outlineAt place) :
      Verdict Origin Unit).change = none := by
  have hkey : (store.outlineAt place).keys[pos]?.getD (store.outlineAt (place.child pos)).head.key =
      (store.outlineAt (place.child pos)).head.key := by
    rw [outlineAt_keys]
    cases hchild : store.ref? (place.child pos) with
    | none => rfl
    | some child => rw [outlineAt, hchild]; rfl
  rw [Outline.settle, hkey, if_neg fun h => h.2 rfl]
  rfl

end SharedStore

/-! ## Following a path -/

/-- What a segment decides at a node when it is followed in order to read. -/
def Segment.reading : Segment → Outline → Verdict Origin Nat
  | .child pos => Outline.child .child pos
  | .childOf key => Outline.childOf .childOf key
  | .lastChild => Outline.lastChild .lastChild
  | .entry key => Outline.childOf .childOf key

/-- What a segment decides at a node when it is followed in order to edit. -/
def Segment.editing : Segment → Outline → Verdict Origin Nat
  | .child pos => Outline.child .editChild pos
  | .childOf key => Outline.childOf .editChildOf key
  | .lastChild => Outline.lastChild .editLastChild
  | .entry key => Outline.entry key (.fresh .blank)

namespace Segment

variable {segment : Segment} {place : Place} {node : Outline}

theorem reading_change (segment : Segment) (node : Outline) :
    (segment.reading node).change = none := by
  cases segment with
  | child pos => exact Program.child_change _ pos node
  | childOf key => exact Program.childOf_change _ key node
  | lastChild => exact Program.lastChild_change _ node
  | entry key => exact Program.childOf_change _ key node

theorem opener_run (segment : Segment) (place : Place) :
    segment.opener.run place = place.perform segment.editing := by
  cases segment <;> rfl

theorem follow_eq (segment : Segment) (place : Place) :
    segment.follow place = (do
      let pos ← place.perform segment.reading
      return place.child pos) := by
  cases segment <;> rfl

/-- What can be read can be edited without a change to the parent, unless the edit is refused. -/
theorem editing_of_reading {pos : Nat} (hread : (segment.reading node).answer = .ok pos) :
    (segment.editing node).change = none ∧
      ∀ other, (segment.editing node).answer = .ok other → other = pos := by
  cases segment with
  | child asked =>
      simp only [reading, editing, Outline.child] at hread ⊢
      split at hread
      next hthere =>
        rw [if_pos hthere]
        exact ⟨rfl, fun other hother => Except.ok.inj (hother.symm.trans hread)⟩
      next => cases hread
  | childOf key =>
      simp only [reading, editing, Outline.childOf] at hread ⊢
      split at hread
      next found _ =>
        split at hread
        next hthere =>
          rw [if_pos hthere]
          exact ⟨rfl, fun other hother => Except.ok.inj (hother.symm.trans hread)⟩
        next => cases hread
      next => cases hread
  | lastChild =>
      simp only [reading, editing, Outline.lastChild] at hread ⊢
      split at hread
      next => cases hread
      next hthere =>
        rw [if_neg hthere]
        exact ⟨rfl, fun other hother => Except.ok.inj (hother.symm.trans hread)⟩
  | entry key =>
      simp only [reading, editing, Outline.childOf, Outline.entry] at hread ⊢
      split at hread
      next found _ =>
        split at hread
        next =>
          split
          next => exact ⟨rfl, fun other hother => Except.ok.inj (hother.symm.trans hread)⟩
          next => exact ⟨rfl, fun other hother => Except.ok.inj (hother.symm.trans hread)⟩
          next => exact ⟨rfl, fun other hother => by cases hother⟩
        next => cases hread
      next => cases hread

end Segment

namespace SharedStore

variable {store after : SharedStore} {place last : Place}

/-- Following a path in order to read leads from one place to another. -/
def Leads (store : SharedStore) : List Segment → Place → Place → Prop
  | [], place, last => place = last
  | segment :: rest, place, last =>
      ∃ pos, (segment.reading (store.outlineAt place)).answer = .ok pos ∧
        Leads store rest (place.child pos) last

/-- Following a segment leaves the workspace as it is. -/
theorem run_follow (store : SharedStore) (segment : Segment) (place : Place) :
    ((segment.follow place).run.run store).2 = store ∧
      ∀ found, ((segment.follow place).run.run store).1 = .ok found →
        ∃ pos, (segment.reading (store.outlineAt place)).answer = .ok pos ∧
          found = place.child pos := by
  rw [Segment.follow_eq, Attempt.run_bind, run_perform (segment.reading_change _)]
  cases hanswer : (segment.reading (store.outlineAt place)).answer with
  | ok pos => exact ⟨rfl, fun found hfound => ⟨pos, rfl, (Except.ok.inj hfound).symm⟩⟩
  | error refusal => exact ⟨rfl, fun found hfound => by cases hfound⟩

theorem leads_of_readAlong {path : List Segment}
    (hread : ((readAlong place path).run.run store).1 = .ok last) :
    store.Leads path place last := by
  have hfollow : ∀ (path : List Segment) (place : Place),
      ((path.foldlM (fun place segment => segment.follow place) place : Attempt Place).run.run
        store).1 = .ok last → store.Leads path place last := by
    intro path
    induction path with
    | nil => exact fun place hread => Except.ok.inj hread
    | cons segment rest ih =>
        intro place hread
        obtain ⟨hstore, hfound⟩ := store.run_follow segment place
        rw [List.foldlM_cons, Attempt.run_bind] at hread
        generalize (segment.follow place).run.run store = followed at hread hstore hfound
        obtain ⟨result, middle⟩ := followed
        obtain rfl : middle = store := hstore
        cases result with
        | error fault => cases hread
        | ok found =>
            obtain ⟨pos, hpos, rfl⟩ := hfound found rfl
            exact ⟨pos, hpos, ih _ hread⟩
  have hthere : place.occupied.run store = ((store.ref? place).isSome, store) := by
    rw [← Option.isSome_map]
    rfl
  rw [readAlong, Attempt.run_liftM_bind, hthere] at hread
  cases hsome : (store.ref? place).isSome with
  | true =>
      rw [hsome] at hread
      exact hfollow path place hread
  | false =>
      rw [hsome] at hread
      cases hread

/-- The way goes down from where it begins. -/
theorem Leads.below {path : List Segment} (hleads : store.Leads path place last) :
    last.slot = place.slot ∧ place.path <+: last.path := by
  induction path generalizing place with
  | nil =>
      obtain rfl : place = last := hleads
      exact ⟨rfl, List.prefix_refl _⟩
  | cons segment rest ih =>
      obtain ⟨pos, _, hrest⟩ := hleads
      obtain ⟨hslot, hpath⟩ := ih hrest
      exact ⟨hslot, (List.prefix_append _ _).trans hpath⟩

theorem Leads.congr {path : List Segment} (hleads : store.Leads path place last)
    (hsame : ∀ way, after.outlineAt ⟨place.slot, way⟩ = store.outlineAt ⟨place.slot, way⟩) :
    after.Leads path place last := by
  induction path generalizing place with
  | nil => exact hleads
  | cons segment rest ih =>
      obtain ⟨pos, hpos, hrest⟩ := hleads
      exact ⟨pos, (congrArg _ (congrArg _ (hsame place.path))).trans hpos, ih hrest hsame⟩

/-- Guards on nodes that belong to the writer alone leave the workspace as it is if what is done in
the end does. -/
theorem run_editAlong_of_sole {action : Place → Attempt α}
    (haction : ((action last).run.run store).2 = store)
    (hsole : ∀ front, front <+: last.path → store.Sole ⟨last.slot, front⟩) {path : List Segment} :
    ∀ {place : Place}, store.Leads path place last →
      ((editAlong action path place).run.run store).2 = store := by
  induction path with
  | nil =>
      intro place hleads
      obtain rfl : place = last := hleads
      exact haction
  | cons segment rest ih =>
      intro place hleads
      obtain ⟨pos, hpos, hrest⟩ := hleads
      obtain ⟨hasks, honly⟩ := Segment.editing_of_reading hpos
      rw [editAlong, Segment.opener_run, Attempt.run_bind, run_perform hasks]
      cases hanswer : (segment.editing (store.outlineAt place)).answer with
      | error refusal => rfl
      | ok other =>
          obtain rfl := honly other hanswer
          have hown : Keeper.answer (.own (place.child other)) store = ((), store) := by
            obtain ⟨hslot, hpath⟩ := hrest.below
            refine answer_own_of_sole fun front hfront => ?_
            have habove := hsole front (hfront.trans hpath)
            rwa [hslot] at habove
          have hkey : (place.child other).key.run store =
              ((store.outlineAt (place.child other)).head.key, store) := rfl
          have hedit := ih hrest
          have hsettle : (place.perform (Outline.settle other
              (store.outlineAt (place.child other)).head.key)).run.run store = (_, store) :=
            run_perform (store.settle_outlineAt place other)
          change ((place.guarded other fun child => (editAlong action rest child).run).run
            store).2 = store
          rw [Place.guarded, Program.run_bind, hkey, Program.run_bind]
          change (Program.run (_ >>= _) (Keeper.answer (.own (place.child other)) store).2).2 =
            store
          rw [hown, Program.run_bind, hedit, Program.run_bind, hsettle]
          rfl

/-- Actions that get hold of a child which is there, or only look for one. -/
inductive Peeks (store : SharedStore) (place : Place) : Action → Prop
  | find (segment : Segment) (child : Place) :
      ((segment.follow place).run.run store).1 = .ok child →
        Peeks store place (.find segment.opener)
  | pointerExists (key : String) : Peeks store place (.pointerExists key)
  | pointerGet (key : String) : Peeks store place (.pointerGet key)

namespace Peeks

variable {action : Action}

theorem reads_eq (hpeeks : store.Peeks place action) : action.reads = false := by
  cases hpeeks <;> rfl

theorem argument_eq (hpeeks : store.Peeks place action) : action.argument = .empty := by
  cases hpeeks with
  | find segment child _ => cases segment <;> rfl
  | pointerExists key => rfl
  | pointerGet key => rfl

/-- Peeking leaves every workspace as it is where the node shows the same. -/
theorem run_eq (hpeeks : store.Peeks place action)
    (hsame : after.outlineAt place = store.outlineAt place) :
    ((action.run place).run.run after).2 = after := by
  cases hpeeks with
  | find segment child hfollow =>
      obtain ⟨pos, hpos, _⟩ := (store.run_follow segment place).2 child hfollow
      rw [← hsame] at hpos
      obtain ⟨hasks, _⟩ := Segment.editing_of_reading hpos
      rw [Action.run, Segment.opener_run, Attempt.run_bind, run_perform hasks]
      cases (segment.editing (after.outlineAt place)).answer <;> rfl
  | pointerExists key => rfl
  | pointerGet key =>
      have hview : place.view.run after = ((after.view? place).getD default, after) := rfl
      rw [Action.run, Attempt.run_liftM_bind, hview]
      cases ((after.view? place).getD default).childOf key <;> rfl

end Peeks

/-- Emptying an empty slot at most lists it. -/
theorem put_none {slot : Slot} (hempty : store.shelf.get? slot = none) :
    store.put slot none = { store with shelf := store.shelf.set slot none } := by
  rw [put, hempty, Option.toList_none, Heap.release]

/-- An empty handle leaves a workspace as it is if its argument slot was listed and empty. -/
theorem run_holding_empty {attempt : Attempt α} {ready : SharedStore}
    (hready : { store with shelf := store.shelf.set .argument none } = ready)
    (hempty : store.shelf.get? .argument = none) (hattempt : (attempt.run.run ready).2 = ready) :
    ((Argument.empty.holding attempt).run.run store).2 = ready := by
  have hprepared : (Keeper.answer (.release .argument) store).2 = ready :=
    (put_none hempty).trans hready
  have hgone : ready.shelf.get? .argument = none := by
    rw [← hready, Shelf.get?_set, if_pos rfl]
  have hreleased : (Keeper.answer (.release .argument) ready).2 = ready := by
    refine (put_none hgone).trans ?_
    rw [← hready, Shelf.set_set]
  change ((do
    let result
        ← ((liftM (Program.request (.release .argument)) : Attempt Unit) >>= fun _ => attempt).run
    Program.request (.release .argument)
    return result : Program (Except Fault α)).run store).2 = ready
  rw [Program.run_bind, Attempt.run_liftM_bind]
  change (Keeper.answer (.release .argument)
    (attempt.run.run (Keeper.answer (.release .argument) store).2).2).2 = ready
  rw [hprepared, hattempt, hreleased]

/-- The way from a register to a node leaves the workspace as it is if all nodes on it belong to the
register alone and what is done in the end leaves it so. -/
theorem run_act_of_sole {name : String} {path : List Segment} {action : Place → Attempt α}
    (hleads : store.Leads path (Place.register name) last)
    (hsole : ∀ front, front <+: last.path → store.Sole ⟨last.slot, front⟩)
    (haction : ((action last).run.run store).2 = store) :
    ((do
      if !(← (Place.register name).occupied) then
        throw (.emptyHandle .edit)
      Attempt.request (.own (Place.register name))
      editAlong action path (Place.register name) : Attempt α).run.run store).2 = store := by
  have hthere : (Place.register name).occupied.run store =
      (((store.ref? (Place.register name)).map store.heap.outline).isSome, store) := rfl
  have hown : Keeper.answer (.own (Place.register name)) store = ((), store) := by
    refine answer_own_of_sole fun front hfront => ?_
    have habove := hsole front (hfront.trans List.nil_prefix)
    rwa [hleads.below.1] at habove
  rw [Attempt.run_liftM_bind, hthere]
  cases ((store.ref? (Place.register name)).map store.heap.outline).isSome with
  | false => rfl
  | true =>
      change ((editAlong action path (Place.register name)).run.run
        (Keeper.answer (.own (Place.register name)) store).2).2 = store
      rw [hown, run_editAlong_of_sole haction hsole hleads]

/-- Nobody sees a guard that is not used, taken where everything on the way belongs to the register
alone. -/
theorem sharesAs_of_peeks (hargument : store.shelf.get? .argument = none) {name : String}
    {path : List Segment}
    (hread : ((readAlong (Place.register name) path).run.run store).1 = .ok last)
    (hsole : ∀ front, front <+: last.path → store.Sole ⟨last.slot, front⟩) {action : Action}
    (hpeeks : store.Peeks last action) (quiet : Bool) :
    store.SharesAs
      ((({ register := name, command := .act path action } : Step).run quiet).run store).2 := by
  -- the register is listed and the argument slot is emptied, but no node is touched
  let ready : SharedStore :=
    { store with shelf := (store.shelf.touch (.register name)).set .argument none }
  have href :
      ∀ other way, ready.ref? ⟨.register other, way⟩ = store.ref? ⟨.register other, way⟩ := by
    intro other way
    rw [ref?, Shelf.get?_set, if_neg Slot.noConfusion, Shelf.get?_touch, ref?]
  have hsame :
      ∀ way, ready.outlineAt ⟨.register name, way⟩ = store.outlineAt ⟨.register name, way⟩ :=
    fun way => by rw [outlineAt, href, outlineAt]
  have hleads := leads_of_readAlong hread
  obtain ⟨slot, way⟩ := last
  obtain rfl : slot = .register name := hleads.below.1
  have hready : ∀ front, front <+: way → ready.Sole ⟨.register name, front⟩ := by
    intro front hfront ref hfound
    rw [href] at hfound
    exact hsole front hfront ref hfound
  have hcommand : (((StepCommand.act path action).run name).run.run store).2 = ready := by
    have hempty : (store.shelf.touch (.register name)).get? .argument = none := by
      rw [Shelf.get?_touch, hargument]
    simp only [StepCommand.run, StepCommand.lists, hpeeks.reads_eq, hpeeks.argument_eq,
      Bool.not_false, if_true, Bool.false_eq_true, if_false]
    exact run_holding_empty rfl hempty
      (run_act_of_sole (hleads.congr hsame) hready (hpeeks.run_eq (hsame way)))
  have hstep :
      ((({ register := name, command := .act path action } : Step).run quiet).run store).2 =
      ready := by
    rw [Step.run, Program.run_bind, hcommand]
    cases quiet <;> rfl
  rw [hstep]
  exact ⟨href, fun ref => rfl⟩

end SharedStore

end KeyedTree
