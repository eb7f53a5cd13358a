import KeyedTree.Proofs.Script.Reading

/-! # Scripts mind their own registers

A step of a script changes the registers that it is on or stores to, and the argument slot, but
nothing that is held elsewhere; and only two commands ask about sharing itself. Both are facts about
the requests of the step, whatever these are answered.
-/

namespace KeyedTree

variable {α : Type}

/-! ## Requests -/

/-- A slot that none of some places is in. -/
def Slot.AwayFrom (others : List Place) (slot : Slot) : Prop :=
  ∀ other ∈ others, slot ≠ other.slot

/-- A request that spares some places and, if it has to be discreet, does not ask about sharing
itself. -/
def Request.Minds (discreet : Prop) (others : List Place) (request : Request α) : Prop :=
  (discreet → request.Visible) ∧ ∀ other ∈ others, request.Spares other

/-- A program that makes no other requests, whatever it is answered. -/
abbrev Program.Minds (discreet : Prop) (others : List Place) (program : Program α) : Prop :=
  program.Each (Request.Minds discreet others)

namespace Request

variable {discreet : Prop} {others : List Place}

theorem lenient_minds : Lenient (Minds discreet others) where
  look request hasks hvisible := by
    refine ⟨fun _ => hvisible, fun other _ => ?_⟩
    cases request <;> trivial
  own _ := ⟨fun _ => trivial, fun _ _ => trivial⟩

/-- A change away from some places, with no node coming in from the slots where they are. -/
theorem minds_change {place : Place} {slots : List Slot} (hplace : place.slot.AwayFrom others)
    (hslots : ∀ slot ∈ slots, slot.AwayFrom others) :
    LetsChange (Minds discreet others) slots place :=
  fun _ htakes => ⟨fun _ => trivial, fun other hother =>
    ⟨fun hslot => absurd hslot (hplace other hother),
      fun hheld => hslots _ (htakes _ hheld) other hother rfl⟩⟩

theorem minds_fill {target : Slot} (hargument : Slot.argument.AwayFrom others)
    (htarget : target.AwayFrom others) : LetsFill (Minds discreet others) target where
  hold _ := ⟨fun _ => trivial, htarget⟩
  share _ := ⟨fun _ => trivial, htarget⟩
  take := ⟨fun _ => trivial, fun other hother => ⟨hargument other hother, htarget other hother⟩⟩
  release := ⟨fun _ => trivial, htarget⟩

end Request

namespace Program.Minds

open Request

variable {discreet : Prop} {others : List Place} {place : Place}

/-! ## Looking -/

theorem look {request : Request α} (hvisible : discreet → request.Visible)
    (hasks : request.Asks) : (Program.request request).Minds discreet others := by
  refine .request ⟨hvisible, fun other _ => ?_⟩
  cases request <;> trivial

theorem own (place : Place) : (Program.request (.own place)).Minds discreet others :=
  .request (lenient_minds.own place)

theorem outline (place : Place) : place.outline.Minds discreet others :=
  Each.outline lenient_minds.look place

theorem view (place : Place) : place.view.Minds discreet others :=
  Each.view lenient_minds.look place

theorem key (place : Place) : place.key.Minds discreet others :=
  Each.key lenient_minds.look place

theorem occupied (place : Place) : place.occupied.Minds discreet others :=
  Each.occupied lenient_minds.look place

theorem argumentTree : argumentTree.run.Minds discreet others :=
  Each.argumentTree lenient_minds.look

/-! ## Slots -/

variable {source target : Slot}

theorem share (place : Place) (htarget : target.AwayFrom others) :
    (Program.request (.share place target)).Minds discreet others :=
  .request ⟨fun _ => trivial, htarget⟩

theorem take (hsource : source.AwayFrom others) (htarget : target.AwayFrom others) :
    (Program.request (.take source target)).Minds discreet others :=
  .request ⟨fun _ => trivial, fun other hother => ⟨hsource other hother, htarget other hother⟩⟩

theorem release (htarget : target.AwayFrom others) :
    (Program.request (.release target)).Minds discreet others :=
  .request ⟨fun _ => trivial, htarget⟩

/-! ## Changes -/

/-- An operation that takes in no node. -/
theorem rearrange {decide : Outline → Verdict Origin α} (hplace : place.slot.AwayFrom others)
    (htakes : ∀ node, (decide node).Takes []) : (place.perform decide).run.Minds discreet others :=
  Each.rearrange lenient_minds.look (minds_change hplace (List.forall_mem_nil _)) htakes

theorem opener (hplace : place.slot.AwayFrom others) (hargument : Slot.argument.AwayFrom others)
    (opener : Opener) : (opener.run place).run.Minds discreet others :=
  Each.opener lenient_minds.look (minds_change hplace (List.forall_mem_singleton.mpr hargument))
    List.mem_cons_self opener

theorem copyFrom (hplace : place.slot.AwayFrom others) (tree : Tree) :
    (place.copyFrom tree).run.Minds discreet others :=
  Each.copyFrom lenient_minds.look (minds_change hplace (List.forall_mem_nil _)) tree

theorem become (hplace : place.slot.AwayFrom others) (source : Place) :
    (place.become source).Minds discreet others :=
  Each.become lenient_minds.look (minds_change hplace (List.forall_mem_nil _)) source

/-! ## Guards and walks -/

theorem guarded {pos : Nat} {edit : Place → Program α} (hplace : place.slot.AwayFrom others)
    (hedit : (edit (place.child pos)).Minds discreet others) :
    (place.guarded pos edit).Minds discreet others :=
  Each.guarded lenient_minds (minds_change hplace (List.forall_mem_nil _)) hedit

theorem walk {σ : Type} {visit : Place → σ → Program (Traversal × σ)} {slot : Slot}
    (hslot : slot.AwayFrom others)
    (hvisit : ∀ path state, (visit ⟨slot, path⟩ state).Minds discreet others)
    (exceptions : List String) (reach : Nat) (path : List Nat) (state : σ) :
    (Walk.run visit exceptions reach ⟨slot, path⟩ state).Minds discreet others :=
  @Each.walk _ [] σ lenient_minds slot [] (fun _ => minds_change hslot (List.forall_mem_nil _))
    visit hvisit
    exceptions reach path state

/-! ## Actions -/

theorem prepare (hargument : Slot.argument.AwayFrom others) (argument : Argument) :
    argument.prepare.run.Minds discreet others :=
  Each.prepare (minds_fill hargument hargument) argument

theorem holding (hargument : Slot.argument.AwayFrom others) (argument : Argument)
    {attempt : Attempt α} (hattempt : attempt.run.Minds discreet others) :
    (argument.holding attempt).run.Minds discreet others :=
  Each.holding (minds_fill hargument hargument) argument hattempt

theorem store (hargument : Slot.argument.AwayFrom others) {target : Slot}
    (htarget : target.AwayFrom others) (kept : Kept) (place : Place) :
    (kept.store place target).run.Minds discreet others :=
  Each.store lenient_minds.look (minds_fill hargument hargument)
    (minds_change hargument (List.forall_mem_nil _)) (minds_fill hargument htarget) kept place

/-- Actions that only read change no slot but that of the argument. -/
theorem reading (hargument : Slot.argument.AwayFrom others) {action : Action}
    (hreads : action.reads) (place : Place) : (action.run place).run.Minds discreet others :=
  Each.reading lenient_minds.look (minds_fill hargument hargument)
    (minds_change hargument (List.forall_mem_nil _)) hreads place

theorem visit {visitors : List Visitor}
    (hwork : ∀ visitor ∈ visitors, (visitor.work place).Minds discreet others) (log : WalkLog) :
    (Visitor.visit visitors place log).Minds discreet others := by
  refine .bind (view place) fun tree => ?_
  split
  next => trivial
  next visitor hfound =>
    exact .bind (hwork visitor (List.mem_of_find?_eq_some hfound)) fun _ => trivial

mutual

/-- An action changes the slot that it is done in and the argument slot. -/
theorem action (hargument : Slot.argument.AwayFrom others) : ∀ (action : Action) {place : Place},
    place.slot.AwayFrom others → (action.run place).run.Minds discreet others
  | .ask query, _, _ => reading hargument (show (Action.ask query).reads from rfl) _
  | .compare other, _, _ => reading hargument (show (Action.compare other).reads from rfl) _
  | .obtain kept, _, _ => reading hargument (show (Action.obtain kept).reads from rfl) _
  | .edit edit, place, hplace =>
      .run_bind (rearrange hplace edit.takes_decide) fun _ => .run_pure _
  | .copyFrom source, place, hplace =>
      .run_bind argumentTree fun tree => .run_bind (copyFrom hplace tree) fun _ => .run_pure _
  | .become source, place, hplace =>
      .run_bind argumentTree fun _ =>
        .run_bind (.run_liftM (become hplace .argument)) fun _ => .run_pure _
  | .pointerExists key, place, _ =>
      .run_bind (.run_liftM (outline place)) fun _ => .run_pure _
  | .pointerGet key, place, _ => by
      refine .run_bind (.run_liftM (view place)) fun tree => ?_
      split
      next => exact .run_pure _
      next => exact .run_throw _
  | .find way, place, hplace =>
      .run_bind (opener hplace hargument way) fun pos =>
        .run_bind (.run_liftM (key (place.child pos))) fun _ => .run_pure _
  | .visit way next, place, hplace =>
      .run_bind (opener hplace hargument way) fun pos =>
        .run_bind (.run_liftM (key (place.child pos))) fun _ =>
          .run_bind (.run_liftM (guarded hplace (runAll hargument next hplace))) fun _ =>
            .run_pure _
  | .verify actions, place, hplace =>
      .run_bind (runUntilFault hargument actions hplace) fun _ => .run_pure _
  | .modify rules recursive exceptions, place, hplace => by
      have hvisit : ∀ path log, (Visitor.visit (Rule.visitors rules) ⟨place.slot, path⟩ log).Minds
          discreet others := by
        intro path log
        refine visit (fun visitor hvisitor => ?_) log
        exact visitors hargument rules visitor hvisitor hplace
      exact .run_bind (.run_liftM (view place)) fun _ =>
        .run_bind (.run_liftM (walk hplace hvisit exceptions _ place.path {})) fun _ => .run_pure _

theorem runAll (hargument : Slot.argument.AwayFrom others) : ∀ (actions : List Action)
    {place : Place}, place.slot.AwayFrom others →
      (Action.runAll actions place).Minds discreet others
  | [], _, _ => trivial
  | first :: rest, _, hplace =>
      .bind (holding hargument first.argument (action hargument first hplace)) fun _ =>
        .bind (runAll hargument rest hplace) fun _ => trivial

theorem runUntilFault (hargument : Slot.argument.AwayFrom others) : ∀ (actions : List Action)
    {place : Place}, place.slot.AwayFrom others →
      (Action.runUntilFault actions place).run.Minds discreet others
  | [], _, _ => .run_pure _
  | first :: rest, _, hplace =>
      .run_bind (holding hargument first.argument (action hargument first hplace)) fun _ =>
        .run_bind (runUntilFault hargument rest hplace) fun _ => .run_pure _

theorem visitors (hargument : Slot.argument.AwayFrom others) : ∀ (rules : List Rule),
    ∀ visitor ∈ Rule.visitors rules, ∀ {place : Place}, place.slot.AwayFrom others →
      (visitor.work place).Minds discreet others
  | [], visitor, hvisitor, _, _ => absurd hvisitor List.not_mem_nil
  | .mk condition actions skip :: rest, visitor, hvisitor, place, hplace => by
      rcases List.mem_cons.mp hvisitor with rfl | hrest
      · exact runAll hargument actions hplace
      · exact visitors hargument rest visitor hrest hplace

end

/-! ## Steps -/

theorem readAlong (place : Place) (path : List Segment) :
    (readAlong place path).run.Minds discreet others :=
  Each.readAlong lenient_minds.look place path

theorem editing (hargument : Slot.argument.AwayFrom others) {edit : Place → Attempt α} {slot : Slot}
    (hslot : slot.AwayFrom others)
    (hedit : ∀ path, (edit ⟨slot, path⟩).run.Minds discreet others) (segments : List Segment) :
    ∀ path, (editAlong edit segments ⟨slot, path⟩).run.Minds discreet others := by
  induction segments with
  | nil => exact hedit
  | cons segment rest ih =>
      intro path
      exact .run_bind (opener hslot hargument segment.opener) fun pos =>
        guarded hslot (ih (path ++ [pos]))

end Program.Minds

/-- Whether a command does not ask about sharing itself. -/
def StepCommand.Discreet : StepCommand → Prop
  | .holders => False
  | .same _ => False
  | _ => True

/-- The registers that a command may change if it is given to a register. -/
def StepCommand.changes (name : String) : StepCommand → List String
  | .new _ => [name]
  | .clone target => [target]
  | .take target => [name, target]
  | .release => [name]
  | .keep _ _ target => [target]
  | .act _ action => if action.reads then [] else [name]
  | _ => []

namespace Program.Minds

variable {discreet : Prop} {others : List Place}

theorem command (hargument : Slot.argument.AwayFrom others) (command : StepCommand) (name : String)
    (hdiscreet : discreet → command.Discreet)
    (hchanges : ∀ other ∈ command.changes name, (Slot.register other).AwayFrom others) :
    (command.run name).run.Minds discreet others := by
  unfold StepCommand.run
  extract_lets slot place go
  have hgo : ∀ result, (go result).run.Minds discreet others := by
    intro result
    cases command with
    | new node =>
        have hslot : slot.AwayFrom others := hchanges name List.mem_cons_self
        exact .run_bind (holding hargument node (.run_liftM (take hargument hslot))) fun _ =>
          .run_pure _
    | clone target =>
        exact .run_bind (.run_liftM (share place (hchanges target List.mem_cons_self))) fun _ =>
          .run_pure _
    | take target =>
        have hslot : slot.AwayFrom others := hchanges name List.mem_cons_self
        have htarget := hchanges target (List.mem_cons_of_mem _ List.mem_cons_self)
        exact .run_bind (.run_liftM (take hslot htarget)) fun _ => .run_pure _
    | release =>
        have hslot : slot.AwayFrom others := hchanges name List.mem_cons_self
        exact .run_bind (.run_liftM (release hslot)) fun _ => .run_pure _
    | info => exact .run_bind (.run_liftM (look (fun _ => trivial) trivial)) fun _ => .run_pure _
    | holders => exact .run_bind (.run_liftM (look hdiscreet trivial)) fun _ => .run_pure _
    | own =>
        exact .run_bind (.run_liftM (own place)) fun _ =>
          .run_bind (.run_liftM (occupied place)) fun _ => .run_pure _
    | same other => exact .run_bind (.run_liftM (look hdiscreet trivial)) fun _ => .run_pure _
    | equal other =>
        refine .run_bind (.run_liftM (occupied place)) fun _ =>
          .run_bind (.run_liftM (occupied _)) fun _ => ?_
        split
        next => exact .run_bind (.run_liftM (look (fun _ => trivial) trivial)) fun _ => .run_pure _
        next => exact .run_pure _
    | keep path kept target =>
        exact .run_bind (readAlong place path) fun found =>
          .run_bind (store hargument (hchanges target List.mem_cons_self) kept found) fun _ =>
            .run_pure _
    | act path action =>
        simp only [go]
        split
        next hreads =>
          exact .run_bind (readAlong place path) fun found =>
            holding hargument action.argument (reading hargument hreads found)
        next hwrites =>
          -- whatever is nested in the action is done in the slot of the register
          have hslot : slot.AwayFrom others := by
            refine hchanges name ?_
            rw [StepCommand.changes, if_neg hwrites]
            exact List.mem_cons_self
          have hedit : (editAlong action.run path place).run.Minds discreet others :=
            editing hargument hslot (fun _ => Minds.action hargument action hslot) path []
          have hown := Each.run_bind (.run_liftM (own place)) fun _ => hedit
          refine holding hargument action.argument
            (.run_bind (.run_liftM (occupied place)) fun there => ?_)
          split
          next => exact .run_bind (.run_throw _) fun _ => hown
          next => exact hown
  split
  next => exact .run_bind (.run_liftM (.request ⟨fun _ => trivial, fun _ _ => trivial⟩)) hgo
  next => exact hgo ()

/-- A step changes the argument slot and the registers that its command names, and it asks about
sharing itself only if its command does. -/
theorem step (hargument : Slot.argument.AwayFrom others) (quiet : Bool) (step : Step)
    (hdiscreet : discreet → step.command.Discreet)
    (hchanges : ∀ other ∈ step.command.changes step.register,
      (Slot.register other).AwayFrom others) : (step.run quiet).Minds discreet others := by
  refine .bind (command hargument step.command step.register hdiscreet hchanges) fun result => ?_
  split
  next => trivial
  next => exact .bind (look (fun _ => trivial) trivial) fun _ => trivial

theorem setUp (hargument : Slot.argument.AwayFrom others) (nodes : List (String × Argument))
    (hnodes : ∀ node ∈ nodes, (Slot.register node.1).AwayFrom others) :
    (Script.setUp nodes).run.Minds discreet others := by
  induction nodes with
  | nil => exact .run_pure ()
  | cons node rest ih =>
      obtain ⟨name, argument⟩ := node
      have hslot : (Slot.register name).AwayFrom others := hnodes _ List.mem_cons_self
      exact .run_bind (holding hargument argument (.run_liftM (take hargument hslot))) fun _ =>
        ih fun other hother => hnodes other (List.mem_cons_of_mem _ hother)

end Program.Minds

end KeyedTree
