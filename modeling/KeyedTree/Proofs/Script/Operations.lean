import KeyedTree.Proofs.Workspace.Safety

/-! # Scripts are made of operations

The steps of a script, with all that is nested in them, are programs made of operations. While a
child is being edited no register may be looked at as a whole, so nested actions are given new nodes
only.
-/

namespace KeyedTree

variable {α β γ : Type}

/-- Whether an argument does not name a register. -/
def Argument.isNew : Argument → Bool
  | .register _ => false
  | _ => true

mutual

/-- Whether the actions nested in an action name no register. -/
def Action.nestsNew : Action → Bool
  | .visit _ next => Action.areNew next
  | .verify actions => Action.areNew actions
  | .modify rules _ _ => Rule.areNew rules
  | _ => true

/-- Whether no action of a list names a register. -/
def Action.areNew : List Action → Bool
  | [] => true
  | action :: rest => action.argument.isNew && action.nestsNew && Action.areNew rest

/-- Whether no action of a list of rules names a register. -/
def Rule.areNew : List Rule → Bool
  | [] => true
  | .mk _ actions _ :: rest => Action.areNew actions && Rule.areNew rest

end

/-- Whether nothing nested in a step names a register. -/
def Step.nestsNew (step : Step) : Bool :=
  match step.command with
  | .act _ action => action.nestsNew
  | _ => true

theorem Program.bind_done (program : Program α) : program.bind .done = program := by
  induction program with
  | done result => rfl
  | ask request next ih => exact congrArg (Program.ask request) (funext ih)

theorem Program.bind_bind (program : Program α) (first : α → Program β) (second : β → Program γ) :
    (program.bind first).bind second = program.bind fun value => (first value).bind second := by
  induction program with
  | done result => rfl
  | ask request next ih => exact congrArg (Program.ask request) (funext ih)

instance : LawfulMonad Program :=
  LawfulMonad.mk' Program Program.bind_done (fun _ _ => rfl) Program.bind_bind

namespace Program.Operates

variable {guards : Guards} {place : Place}

/-! ## Attempts -/

theorem run_pure (value : α) : (pure value : Attempt α).run.Operates guards :=
  .done _

theorem run_throw (fault : Fault) : (throw fault : Attempt α).run.Operates guards :=
  .done _

theorem run_bind {attempt : Attempt α} {next : α → Attempt β}
    (hattempt : attempt.run.Operates guards) (hnext : ∀ value, (next value).run.Operates guards) :
    (attempt >>= next).run.Operates guards := by
  change (attempt.run >>= ExceptT.bindCont next).Operates guards
  refine .bind hattempt fun result => ?_
  cases result with
  | ok value => exact hnext value
  | error fault => exact .done _

theorem run_liftM {program : Program α} (hprogram : program.Operates guards) :
    (liftM program : Attempt α).run.Operates guards :=
  .bind hprogram fun _ => .done _

theorem run_request {request : Request α} (hrequest : (Program.request request).Operates guards) :
    (Attempt.request request).run.Operates guards :=
  run_liftM hrequest

/-! ## Looking -/

theorem outline (place : Place) : place.outline.Operates guards :=
  .bind (.look trivial) fun _ => .done _

theorem view (place : Place) : place.view.Operates guards :=
  .bind (.look trivial) fun _ => .done _

theorem key (place : Place) : place.key.Operates guards :=
  .bind (outline place) fun _ => .done _

theorem occupied (place : Place) : place.occupied.Operates guards :=
  .bind (.look trivial) fun _ => .done _

theorem argumentTree : argumentTree.run.Operates guards := by
  refine run_bind (run_request (.look trivial)) fun found => ?_
  cases found with
  | none => exact run_throw _
  | some tree => exact run_pure _

/-! ## Arguments -/

theorem prepare {argument : Argument} (hfree : guards .argument = none)
    (hread : argument.isNew ∨ ∀ name, guards (.register name) = none) :
    argument.prepare.run.Operates guards := by
  cases argument with
  | empty => exact run_request (.release hfree)
  | register name =>
      refine run_request (.share ?_ hfree)
      rw [Guards.Readable, Guards.reach, hread.resolve_left Bool.false_ne_true name]
      exact List.nil_prefix
  | new blueprint =>
      rw [Argument.prepare]
      cases hbuild : blueprint.build with
      | ok tree => exact run_request (.hold hfree (.built hbuild))
      | error fault => exact run_throw fault

theorem holding {argument : Argument} {attempt : Attempt α} (hfree : guards .argument = none)
    (hread : argument.isNew ∨ ∀ name, guards (.register name) = none)
    (hattempt : attempt.run.Operates guards) : (argument.holding attempt).run.Operates guards := by
  refine .bind (run_bind (prepare hfree hread) fun _ => hattempt) fun result => ?_
  exact .bind (.release hfree) fun _ => .done _

/-! ## Storing nodes -/

theorem store (kept : Kept) {target : Slot} (hread : guards.Readable place)
    (hfree : guards .argument = none) (htarget : guards target = none) :
    (kept.store place target).run.Operates guards := by
  have hbelow : ∀ pos, guards.Readable (place.child pos) := fun pos =>
    hread.trans (List.prefix_append place.path [pos])
  cases kept with
  | child pos =>
      exact run_bind (.consult place (child_change _ pos)) fun _ =>
        run_request (.share (hbelow _) htarget)
  | childOf key =>
      exact run_bind (.consult place (childOf_change _ key)) fun _ =>
        run_request (.share (hbelow _) htarget)
  | copy => exact .copy hread htarget
  | clone =>
      have hwrite : guards.Writable .argument := by
        rw [Guards.Writable, Guards.reach, Place.argument, hfree]
        rfl
      exact run_bind (run_request (.hold hfree (.leaf _))) fun _ =>
        run_bind (run_liftM (.become hwrite hread)) fun _ => run_request (.take hfree htarget)

/-! ## Actions -/

theorem guard_argument (hfree : guards .argument = none) (hslot : place.slot ≠ .argument) :
    guards.guard place .argument = none := by
  rw [Guards.guard, if_neg hslot.symm, hfree]

theorem visit {visitors : List Visitor}
    (hwork : ∀ visitor ∈ visitors, (visitor.work place).Operates guards) (log : WalkLog) :
    (Visitor.visit visitors place log).Operates guards := by
  refine .bind (view place) fun tree => ?_
  split
  next => exact .done _
  next visitor hfound =>
    exact .bind (hwork visitor (List.mem_of_find?_eq_some hfound)) fun _ => .done _

mutual

/-- An action is made of operations on the node that it is done at. -/
theorem action : ∀ (action : Action) {guards : Guards} {place : Place}, action.nestsNew →
    guards.Writable place → guards .argument = none → place.slot ≠ .argument →
      (action.run place).run.Operates guards
  | .ask query, guards, place, _, _, _, _ => by
      refine run_bind (run_liftM (view place)) fun tree => ?_
      split
      · exact run_pure _
      · exact run_throw _
  | .compare other, guards, place, _, _, _, _ =>
      run_bind argumentTree fun _ => run_bind (run_request (.look trivial)) fun _ => run_pure _
  | .obtain kept, guards, place, _, hwrite, hfree, _ =>
      run_bind (store kept hwrite.readable hfree hfree) fun _ => run_pure _
  | .edit change, guards, place, _, hwrite, _, _ =>
      run_bind (.edit hwrite change) fun _ => run_pure _
  | .copyFrom source, guards, place, _, hwrite, hfree, _ => by
      rw [Action.run, ← bind_assoc]
      exact run_bind (.copyFrom hwrite hfree) fun _ => run_pure _
  | .become source, guards, place, _, hwrite, hfree, _ => by
      refine run_bind argumentTree fun _ => run_bind (run_liftM (.become hwrite ?_)) fun _ =>
        run_pure _
      rw [Guards.Readable, Guards.reach, Place.argument, hfree]
      exact List.nil_prefix
  | .pointerExists key, guards, place, _, _, _, _ =>
      run_bind (run_liftM (outline place)) fun _ => run_pure _
  | .pointerGet key, guards, place, _, _, _, _ => by
      refine run_bind (run_liftM (view place)) fun tree => ?_
      split
      · exact run_pure _
      · exact run_throw _
  | .find way, guards, place, _, hwrite, hfree, _ =>
      run_bind (.opener hwrite hfree way) fun pos =>
        run_bind (run_liftM (key (place.child pos))) fun _ => run_pure _
  | .visit way next, guards, place, hnew, hwrite, hfree, hslot => by
      refine run_bind (.opener hwrite hfree way) fun pos =>
        run_bind (run_liftM (key (place.child pos))) fun _ =>
          run_bind (run_liftM (.guarded hwrite ?_)) fun _ => run_pure _
      exact runAll next hnew ((Guards.writable_guard_same rfl).mpr rfl)
        (guard_argument hfree hslot) hslot
  | .verify actions, guards, place, hnew, hwrite, hfree, hslot =>
      run_bind (runUntilFault actions hnew hwrite hfree hslot) fun _ => run_pure _
  | .modify rules recursive exceptions, guards, place, hnew, hwrite, hfree, hslot => by
      refine run_bind (run_liftM (view place)) fun _ =>
        run_bind (run_liftM (.walk exceptions _ _ hwrite fun path log => visit ?_ log))
          fun _ => run_pure _
      exact fun visitor hvisitor => visitors rules hnew visitor hvisitor
        ((Guards.writable_guard_same rfl).mpr rfl) (guard_argument hfree hslot) hslot

theorem runAll :
    ∀ (actions : List Action) {guards : Guards} {place : Place}, Action.areNew actions →
    guards.Writable place → guards .argument = none → place.slot ≠ .argument →
      (Action.runAll actions place).Operates guards
  | [], guards, place, _, _, _, _ => .done _
  | first :: rest, guards, place, hnew, hwrite, hfree, hslot => by
      rw [Action.areNew, Bool.and_eq_true, Bool.and_eq_true] at hnew
      have hfirst := action first hnew.1.2 hwrite hfree hslot
      exact .bind (holding hfree (.inl hnew.1.1) hfirst) fun _ =>
        .bind (runAll rest hnew.2 hwrite hfree hslot) fun _ => .done _

theorem runUntilFault : ∀ (actions : List Action) {guards : Guards} {place : Place},
    Action.areNew actions → guards.Writable place → guards .argument = none →
      place.slot ≠ .argument → (Action.runUntilFault actions place).run.Operates guards
  | [], guards, place, _, _, _, _ => run_pure _
  | first :: rest, guards, place, hnew, hwrite, hfree, hslot => by
      rw [Action.areNew, Bool.and_eq_true, Bool.and_eq_true] at hnew
      have hfirst := action first hnew.1.2 hwrite hfree hslot
      exact run_bind (holding hfree (.inl hnew.1.1) hfirst) fun _ =>
        run_bind (runUntilFault rest hnew.2 hwrite hfree hslot) fun _ => run_pure _

theorem visitors : ∀ (rules : List Rule), Rule.areNew rules → ∀ visitor ∈ Rule.visitors rules,
    ∀ {guards : Guards} {place : Place}, guards.Writable place → guards .argument = none →
      place.slot ≠ .argument → (visitor.work place).Operates guards
  | [], _, visitor, hvisitor, _, _, _, _, _ => absurd hvisitor List.not_mem_nil
  | .mk condition actions skip :: rest, hnew, visitor, hvisitor, guards, place, hwrite, hfree,
      hslot => by
      rw [Rule.areNew, Bool.and_eq_true] at hnew
      rcases List.mem_cons.mp hvisitor with rfl | hrest
      · exact runAll actions hnew.1 hwrite hfree hslot
      · exact visitors rest hnew.2 visitor hrest hwrite hfree hslot

end

/-! ## Steps -/

theorem follow (segment : Segment) (place : Place) :
    (segment.follow place).run.Operates guards := by
  cases segment with
  | child pos => exact run_bind (.consult place (child_change _ pos)) fun _ => run_pure _
  | childOf key => exact run_bind (.consult place (childOf_change _ key)) fun _ => run_pure _
  | lastChild => exact run_bind (.consult place (lastChild_change _)) fun _ => run_pure _
  | entry key => exact run_bind (.consult place (childOf_change _ key)) fun _ => run_pure _

theorem readAlong (place : Place) (path : List Segment) :
    (readAlong place path).run.Operates guards := by
  have hfollow : ∀ (path : List Segment) (place : Place),
      (path.foldlM (fun place segment => segment.follow place) place : Attempt Place).run.Operates
        guards := by
    intro path
    induction path with
    | nil => exact fun place => run_pure place
    | cons segment rest ih =>
        intro place
        rw [List.foldlM_cons]
        exact run_bind (follow segment place) ih
  refine run_bind (run_liftM (occupied place)) fun there => ?_
  split
  · exact run_bind (run_throw _) fun _ => hfollow path place
  · exact hfollow path place

/-- Editing along a path guards every node on the way. -/
theorem editing {edit : Place → Attempt α}
    (hedit : ∀ {guards : Guards} {place : Place}, guards.Writable place → guards .argument = none →
      place.slot ≠ .argument → (edit place).run.Operates guards) (path : List Segment) :
    ∀ {guards : Guards} {place : Place}, guards.Writable place → guards .argument = none →
      place.slot ≠ .argument → (editAlong edit path place).run.Operates guards := by
  induction path with
  | nil => exact hedit
  | cons segment rest ih =>
      intro guards place hwrite hfree hslot
      refine run_bind (.opener hwrite hfree segment.opener) fun pos => ?_
      exact .guarded hwrite (ih ((Guards.writable_guard_same rfl).mpr rfl)
        (guard_argument hfree hslot) hslot)

/-- Actions that only read may be done at any node. -/
theorem reading {action : Action} (hreads : action.reads) (place : Place) :
    (action.run place).run.Operates .free := by
  have hread : Guards.free.Readable place := List.nil_prefix
  cases action with
  | ask query =>
      refine run_bind (run_liftM (view place)) fun tree => ?_
      split
      · exact run_pure _
      · exact run_throw _
  | compare other =>
      exact run_bind argumentTree fun _ => run_bind (run_request (.look trivial)) fun _ =>
        run_pure _
  | obtain kept => exact run_bind (store kept hread rfl rfl) fun _ => run_pure _
  | edit change => cases hreads
  | copyFrom source => cases hreads
  | become source => cases hreads
  | pointerExists key => cases hreads
  | pointerGet key => cases hreads
  | find way => cases hreads
  | visit way next => cases hreads
  | verify actions => cases hreads
  | modify rules recursive exceptions => cases hreads

theorem command (command : StepCommand) (name : String)
    (hnew : ∀ path action, command = .act path action → action.nestsNew) :
    (command.run name).run.Operates .free := by
  have hall : ∀ argument : Argument, argument.isNew ∨ ∀ name, Guards.free (.register name) = none :=
    fun _ => .inr fun _ => rfl
  unfold StepCommand.run
  extract_lets slot place go
  have hgo : ∀ result, (go result).run.Operates .free := by
    intro result
    cases command with
    | new node =>
        exact run_bind (holding rfl (hall node) (run_request (.take rfl rfl))) fun _ => run_pure _
    | clone target =>
        exact run_bind (run_request (.share List.nil_prefix rfl)) fun _ => run_pure _
    | take target => exact run_bind (run_request (.take rfl rfl)) fun _ => run_pure _
    | release => exact run_bind (run_request (.release rfl)) fun _ => run_pure _
    | info => exact run_bind (run_request (.look trivial)) fun _ => run_pure _
    | holders => exact run_bind (run_request (.look trivial)) fun _ => run_pure _
    | own =>
        exact run_bind (run_request (.own place)) fun _ =>
          run_bind (run_liftM (occupied place)) fun _ => run_pure _
    | same other => exact run_bind (run_request (.look trivial)) fun _ => run_pure _
    | equal other =>
        refine run_bind (run_liftM (occupied place)) fun _ =>
          run_bind (run_liftM (occupied _)) fun _ => ?_
        split
        · exact run_bind (run_request (.look trivial)) fun _ => run_pure _
        · exact run_pure _
    | keep path kept target =>
        exact run_bind (readAlong place path) fun found =>
          run_bind (store kept List.nil_prefix rfl rfl) fun _ => run_pure _
    | act path action =>
        simp only [go]
        split
        next hreads =>
          exact run_bind (readAlong place path) fun found =>
            holding rfl (hall _) (reading hreads found)
        next =>
          refine holding rfl (hall _) (run_bind (run_liftM (occupied place)) fun there => ?_)
          have hslot : place.slot ≠ .argument := Slot.noConfusion
          have hedit : (editAlong action.run path place).run.Operates .free :=
            editing (fun hwrite hfree hslot => Operates.action action (hnew path action rfl) hwrite
              hfree hslot) path rfl rfl hslot
          have hown := run_bind (run_request (.own place)) fun _ => hedit
          split
          · exact run_bind (run_throw _) fun _ => hown
          · exact hown
  split
  · exact run_bind (run_request (.touch slot)) hgo
  · exact hgo ()

end Program.Operates

/-! ## Whole scripts -/

namespace Script

/-- A step of a script is made of operations. -/
theorem operates_step (quiet : Bool) {step : Step} (hnew : step.nestsNew) :
    (step.run quiet).Operates .free := by
  refine .bind (.command step.command step.register fun path action hact => ?_) fun result => ?_
  · rw [Step.nestsNew, hact] at hnew
    exact hnew
  · split
    · exact .done _
    · exact .bind (.look trivial) fun _ => .done _

theorem operates_runSteps (quiet : Bool) {steps : List Step}
    (hnew : ∀ step ∈ steps, step.nestsNew) : (runSteps quiet steps).Operates .free := by
  induction steps with
  | nil => exact .done _
  | cons step rest ih =>
      exact .bind (operates_step quiet (hnew step List.mem_cons_self)) fun _ =>
        .bind (ih fun other hother => hnew other (List.mem_cons_of_mem _ hother)) fun _ => .done _

theorem operates_setUp (nodes : List (String × Argument)) : (setUp nodes).run.Operates .free := by
  induction nodes with
  | nil => exact .run_pure ()
  | cons node rest ih =>
      obtain ⟨name, argument⟩ := node
      exact .run_bind (.holding rfl (.inr fun _ => rfl) (.run_request (.take rfl rfl))) fun _ => ih

theorem operates_inspect (names : List String) : (inspect names).Operates .free := by
  induction names with
  | nil => exact .done _
  | cons name rest ih => exact .bind (.look trivial) fun _ => .bind ih fun _ => .done _

/-- A script is made of operations. -/
theorem operates_run {script : Script} (hnew : ∀ step ∈ script.steps, step.nestsNew) :
    script.run.run.Operates .free :=
  .run_bind (operates_setUp script.nodes) fun _ =>
    .run_bind (.run_liftM (operates_runSteps script.quiet hnew)) fun _ =>
      .run_bind (.run_request (.look trivial)) fun names =>
        .run_bind (.run_liftM (operates_inspect names)) fun _ => .run_pure _

end Script

end KeyedTree
