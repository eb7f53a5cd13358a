import KeyedTree.Proofs.Script.Minding

/-! # Sharing is unobservable

The same script comes to the same on shared nodes and on private copies, and its registers show the
same after every step. Only the replies to the two commands that ask about sharing itself can
differ. A write changes nothing but what is at, above and below the place that is written to.
-/

namespace KeyedTree

variable {σ α β : Type}

/-! ## Replies that agree -/

/-- Results of the same command that agree: they are equal, but for the number of holders of a node
and for whether two registers hold the very same node. -/
inductive Reply.Agree : StepCommand → Except Fault Reply → Except Fault Reply → Prop
  | refl (command : StepCommand) (result : Except Fault Reply) : Agree command result result
  | holders (count count' : Nat) : Agree .holders (.ok (.count count)) (.ok (.count count'))
  | same (other : String) (flag flag' : Bool) :
      Agree (.same other) (.ok (.flag flag)) (.ok (.flag flag'))

/-- Replies to the same steps that agree. -/
inductive StepReply.Agree : List Step → List StepReply → List StepReply → Prop
  | nil : Agree [] [] []
  | cons {step : Step} {result result' : Except Fault Reply} {rest : List Step}
      {replies replies' : List StepReply} (summary : Option String) :
      Reply.Agree step.command result result' → Agree rest replies replies' →
      Agree (step :: rest) (⟨result, summary⟩ :: replies) (⟨result', summary⟩ :: replies')

/-- What the same script comes to agrees: its fault, or its replies and its registers. -/
inductive Transcript.Agree (steps : List Step) :
    Except Fault Transcript → Except Fault Transcript → Prop
  | error (fault : Fault) : Agree steps (.error fault) (.error fault)
  | ok {replies replies' : List StepReply} (registers : List (String × Option Tree)) :
      StepReply.Agree steps replies replies' →
      Agree steps (.ok ⟨replies, registers⟩) (.ok ⟨replies', registers⟩)

/-! ## What the registers show -/

/-- What the registers show after each of some steps. -/
def Script.stages [Keeper σ] (quiet : Bool) : List Step → σ → List (List (String × Option Tree))
  | [], _ => []
  | step :: rest, workspace =>
      let after := ((step.run quiet).run workspace).2
      Keeper.shown after :: stages quiet rest after

/-- What the registers show when the nodes of a script are there, and after each of its steps. -/
def Script.dumps [Keeper σ] (script : Script) (workspace : σ) :
    List (List (String × Option Tree)) :=
  let (built, ready) := (setUp script.nodes).run.run workspace
  match built with
  | .ok () => Keeper.shown ready :: stages script.quiet script.steps ready
  | .error _ => [Keeper.shown ready]

/-! ## Runs -/

/-- An attempt goes on where its first part ends, unless that ends with a fault. -/
theorem Attempt.run_bind [Keeper σ] (attempt : Attempt α) (next : α → Attempt β) (workspace : σ) :
    (attempt >>= next).run.run workspace =
      match attempt.run.run workspace with
      | (.ok value, after) => (next value).run.run after
      | (.error fault, after) => (.error fault, after) := by
  change (attempt.run >>= ExceptT.bindCont next).run workspace = _
  rw [Program.run_bind]
  obtain ⟨result, after⟩ := attempt.run.run workspace
  cases result <;> rfl

theorem Attempt.run_liftM_bind [Keeper σ] (program : Program α) (next : α → Attempt β)
    (workspace : σ) :
    ((liftM program : Attempt α) >>= next).run.run workspace =
      (next (program.run workspace).1).run.run (program.run workspace).2 := by
  rw [Attempt.run_bind]
  change (match (program >>= fun value => pure (Except.ok value) : Program _).run workspace with
    | (.ok value, after) => (next value).run.run after
    | (.error fault, after) => (.error fault, after)) = _
  rw [Program.run_bind]
  rfl

/-- In the end a script shows its registers. -/
theorem Script.run_registers [Keeper σ] (replies : List StepReply) (workspace : σ) :
    ((do
      let names ← Attempt.request .registers
      return ⟨replies, ← inspect names⟩ : Attempt Transcript).run.run workspace).1 =
      .ok ⟨replies, Keeper.shown workspace⟩ := by
  change ((liftM (Program.request .registers) >>= fun names => do
    return ⟨replies, ← inspect names⟩ : Attempt Transcript).run.run workspace).1 = _
  rw [Attempt.run_liftM_bind, Attempt.run_liftM_bind, Keeper.shown, look, Program.run_bind]
  rfl

namespace Mirrors

variable {store : SharedStore} {plain : PrivateStore}

/-- A command comes to the same in both stores, unless it asks about sharing itself. -/
theorem run_command (hmirrors : Mirrors store plain []) (command : StepCommand) (name : String) :
    Reply.Agree command ((command.run name).run.run store).1 ((command.run name).run.run plain).1 ∧
      Mirrors ((command.run name).run.run store).2 ((command.run name).run.run plain).2 [] := by
  have hlisted := hmirrors.answer (.touch (.register name))
  by_cases hdiscreet : command.Discreet
  · have hminds : (command.run name).run.Minds True [] :=
      .command (List.forall_mem_nil _) command name (fun _ => hdiscreet)
        fun _ _ => List.forall_mem_nil _
    have hvisible := hminds.imp fun request hrequest => hrequest.1 trivial
    obtain ⟨hresult, hafter⟩ := hmirrors.run_visible hvisible
    exact ⟨hresult ▸ .refl command _, hafter⟩
  · -- the answer goes into the reply and nowhere else
    cases command with
    | holders => exact ⟨.holders _ _, hlisted⟩
    | same other => exact ⟨.same other _ _, hmirrors⟩
    | _ => exact absurd trivial hdiscreet

/-- Steps come to the same in both stores, and the registers show the same after each of them. -/
theorem run_step (hmirrors : Mirrors store plain []) (quiet : Bool) (step : Step) :
    (∃ result result' summary, Reply.Agree step.command result result' ∧
        ((step.run quiet).run store).1 = ⟨result, summary⟩ ∧
        ((step.run quiet).run plain).1 = ⟨result', summary⟩) ∧
      Mirrors ((step.run quiet).run store).2 ((step.run quiet).run plain).2 [] := by
  obtain ⟨hagree, hafter⟩ := hmirrors.run_command step.command step.register
  rw [Step.run, Program.run_bind, Program.run_bind]
  cases quiet with
  | true => exact ⟨⟨_, _, none, hagree, rfl, rfl⟩, hafter⟩
  | false =>
      refine ⟨⟨_, _, _, hagree, rfl, ?_⟩, hafter⟩
      exact congrArg _ (congrArg (Option.map Tree.summary) (hafter.view?_eq _).symm)

theorem run_runSteps (hmirrors : Mirrors store plain []) (quiet : Bool) (steps : List Step) :
    StepReply.Agree steps ((Script.runSteps quiet steps).run store).1
        ((Script.runSteps quiet steps).run plain).1 ∧
      Mirrors ((Script.runSteps quiet steps).run store).2
        ((Script.runSteps quiet steps).run plain).2 [] := by
  induction steps generalizing store plain with
  | nil => exact ⟨.nil, hmirrors⟩
  | cons step rest ih =>
      obtain ⟨⟨result, result', summary, hagree, hfirst, hfirst'⟩, hafter⟩ :=
        hmirrors.run_step quiet step
      obtain ⟨hrest, hlast⟩ := ih hafter
      simp only [Script.runSteps, Program.run_bind, hfirst, hfirst']
      exact ⟨.cons summary hagree hrest, hlast⟩

theorem stages_eq (hmirrors : Mirrors store plain []) (quiet : Bool) (steps : List Step) :
    Script.stages quiet steps store = Script.stages quiet steps plain := by
  induction steps generalizing store plain with
  | nil => rfl
  | cons step rest ih =>
      obtain ⟨_, hafter⟩ := hmirrors.run_step quiet step
      rw [Script.stages, Script.stages, hafter.shown_eq, ih hafter]

/-- The nodes of a script come to the same in both stores. -/
theorem run_setUp (hmirrors : Mirrors store plain []) (nodes : List (String × Argument)) :
    ((Script.setUp nodes).run.run store).1 = ((Script.setUp nodes).run.run plain).1 ∧
      Mirrors ((Script.setUp nodes).run.run store).2 ((Script.setUp nodes).run.run plain).2 [] := by
  have hminds : (Script.setUp nodes).run.Minds True [] :=
    .setUp (List.forall_mem_nil _) nodes fun _ _ => List.forall_mem_nil _
  exact hmirrors.run_visible (hminds.imp fun request hrequest => hrequest.1 trivial)

theorem dumps_eq (hmirrors : Mirrors store plain []) (script : Script) :
    script.dumps store = script.dumps plain := by
  obtain ⟨hbuilt, hready⟩ := hmirrors.run_setUp script.nodes
  rw [Script.dumps, Script.dumps]
  simp only [hbuilt, hready.shown_eq, hready.stages_eq]

theorem run_script (hmirrors : Mirrors store plain []) (script : Script) :
    Transcript.Agree script.steps (script.run.run.run store).1 (script.run.run.run plain).1 := by
  obtain ⟨hbuilt, hready⟩ := hmirrors.run_setUp script.nodes
  rw [Script.run, Attempt.run_bind, Attempt.run_bind]
  generalize (Script.setUp script.nodes).run.run store = shared at hbuilt hready ⊢
  generalize (Script.setUp script.nodes).run.run plain = owned at hbuilt hready ⊢
  obtain ⟨built, store⟩ := shared
  obtain ⟨built', plain⟩ := owned
  obtain rfl : built = built' := hbuilt
  cases built with
  | error fault => exact .error fault
  | ok value =>
      obtain ⟨hreplies, hlast⟩ := hready.run_runSteps script.quiet script.steps
      simp only [Attempt.run_liftM_bind, Script.run_registers, hlast.shown_eq]
      exact .ok _ hreplies

end Mirrors

/-- Sharing is unobservable. A script comes to the same on shared nodes as where every slot owns a
copy, and its registers show the same after every step; so does every program that does not ask
about sharing itself, after every request. However the nodes came to be shared, a step leaves all
registers as they are that it does not name, and a program all of whose writes are elsewhere leaves
what is at a place as it is. -/
theorem sharing_unobservable :
    (∀ script : Script,
      Transcript.Agree script.steps (script.run.run.run ({} : SharedStore)).1
          (script.run.run.run ({} : PrivateStore)).1 ∧
        script.dumps ({} : SharedStore) = script.dumps ({} : PrivateStore)) ∧
      (∀ {α : Type} (program : Program α), program.Each Request.Visible →
        (program.run ({} : SharedStore)).1 = (program.run ({} : PrivateStore)).1 ∧
          program.history ({} : SharedStore) = program.history ({} : PrivateStore)) ∧
      (∀ {α : Type} (before : Program α) (quiet : Bool) (step : Step) (name : String),
        name ∉ step.command.changes step.register →
          let store := (before.run ({} : SharedStore)).2
          ((step.run quiet).run store).2.view? (.register name) = store.view? (.register name)) ∧
      ∀ {α β : Type} (before : Program α) (writing : Program β) (other : Place),
        writing.Each (Request.Spares other) →
          let store := (before.run ({} : SharedStore)).2
          (writing.run store).2.view? other = store.view? other := by
  refine ⟨fun script => ⟨Mirrors.empty.run_script script, Mirrors.empty.dumps_eq script⟩,
    fun program hvisible => ⟨(Mirrors.empty.run_visible hvisible).1,
      Mirrors.empty.history_eq hvisible⟩, ?_, ?_⟩
  · intro α before quiet step name hname
    obtain ⟨plain, _, hmirrors⟩ := Mirrors.empty.run before
    have haway : ∀ slot : Slot, slot ≠ .register name → slot.AwayFrom [.register name] :=
      fun slot hslot => List.forall_mem_singleton.mpr hslot
    have hminds : (step.run quiet).Minds False [.register name] :=
      .step (haway .argument Slot.noConfusion) quiet step False.elim fun other hother =>
        haway _ fun hsame => hname (Slot.register.inj hsame ▸ hother)
    exact hmirrors.view?_run
      (hminds.imp fun request hrequest => hrequest.2 _ (List.mem_singleton_self _))
  · intro α β before writing other hspares
    obtain ⟨plain, _, hmirrors⟩ := Mirrors.empty.run before
    exact hmirrors.view?_run hspares

/-- The number of holders does differ: a node in two registers is one node or two. -/
example :
    let script : Script :=
      { nodes := [("first", .new (.node .object none false false []))]
        steps := [⟨"first", .clone "second"⟩, ⟨"second", .holders⟩]
        quiet := true }
    let results (outcome : Except Fault Transcript) :=
      outcome.map fun transcript => transcript.replies.map (·.result)
    results (script.run.run.run ({} : SharedStore)).1 = .ok [.ok .nothing, .ok (.count 2)] ∧
      results (script.run.run.run ({} : PrivateStore)).1 = .ok [.ok .nothing, .ok (.count 1)] := by
  cbv

end KeyedTree
