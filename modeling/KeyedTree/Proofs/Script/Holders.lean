import KeyedTree.Proofs.Script.Peeking

/-! # Reference counts are exact

After every step of a script the count of every node is the number of its holders. Reading changes
no count, and neither does getting hold of a child whose parent belongs to the register alone.
Whoever writes to a node with further holders gets a new one, and the children have one holder more
for each of its slots.
-/

namespace KeyedTree

variable {α β : Type}

/-! ## Slots that a program avoids -/

/-- A program that avoids a slot leaves it its very node. -/
theorem Mirrors.stays_run {store : SharedStore} {plain : PrivateStore}
    (hmirrors : Mirrors store plain []) {slot : Slot} {program : Program α}
    (hprogram : program.Each (Request.Avoids slot)) :
    store.Stays (program.run store).2 slot := by
  induction program generalizing store plain with
  | done result => exact .refl store slot
  | ask request next ih =>
      exact (hmirrors.stays hprogram.1).trans (ih _ (hmirrors.answer request) (hprogram.2 _))

theorem Request.avoids_look (slot : Slot) : Request.LetsLook (Request.Avoids slot) := by
  intro β request hasks hvisible
  cases request <;> trivial

/-! ## The argument slot -/

/-- A program that begins with an empty argument slot ends with one. -/
def Program.Clears (program : Program α) : Prop :=
  ∀ (store : SharedStore) (plain : PrivateStore), Mirrors store plain [] →
    store.shelf.get? .argument = none → (program.run store).2.shelf.get? .argument = none

namespace Program.Clears

theorem of_avoids {program : Program α} (hprogram : program.Each (Request.Avoids .argument)) :
    program.Clears :=
  fun _ _ hmirrors hempty => (hmirrors.stays_run hprogram).get?_eq.trans hempty

theorem bind {program : Program α} {next : α → Program β} (hprogram : program.Clears)
    (hnext : ∀ value, (next value).Clears) : (program >>= next).Clears := by
  intro store plain hmirrors hempty
  obtain ⟨after, _, hafter⟩ := hmirrors.run program
  rw [Program.run_bind]
  exact hnext _ _ after hafter (hprogram store plain hmirrors hempty)

theorem run_bind {attempt : Attempt α} {next : α → Attempt β} (hattempt : attempt.run.Clears)
    (hnext : ∀ value, (next value).run.Clears) : (attempt >>= next).run.Clears := by
  change (attempt.run >>= ExceptT.bindCont next).Clears
  refine hattempt.bind fun result => ?_
  cases result with
  | ok value => exact hnext value
  | error fault => exact fun _ _ _ hempty => hempty

theorem run_pure (value : α) : (pure value : Attempt α).run.Clears :=
  fun _ _ _ hempty => hempty

theorem run_request {request : Request α} (havoids : request.Avoids .argument) :
    (Attempt.request request).run.Clears :=
  of_avoids (.run_liftM (.request havoids))

/-- Whatever is done with a handle in the argument slot, the slot is empty in the end. -/
theorem holding (argument : Argument) (attempt : Attempt α) :
    (argument.holding attempt).run.Clears := by
  intro store plain _ _
  change ((do
    let result ← (do argument.prepare; attempt : Attempt α).run
    Program.request (.release .argument)
    return result : Program (Except Fault α)).run store).2.shelf.get? .argument = none
  rw [Program.run_bind]
  exact (Shelf.get?_set ..).trans (if_pos rfl)

/-- A clone is taken out of the argument slot when it is made. -/
theorem store (kept : Kept) (place : Place) (name : String) :
    (kept.store place (.register name)).run.Clears := by
  have hlook : Request.LetsLook (Request.Avoids .argument) := @Request.avoids_look .argument
  cases kept with
  | child pos =>
      exact .run_bind (of_avoids (Each.consult hlook place (child_change _ pos))) fun _ =>
        run_request Slot.noConfusion
  | childOf key =>
      exact .run_bind (of_avoids (Each.consult hlook place (childOf_change _ key))) fun _ =>
        run_request Slot.noConfusion
  | copy =>
      exact .run_bind (of_avoids (.run_liftM (Each.view hlook place))) fun _ =>
        run_request Slot.noConfusion
  | clone =>
      intro store plain _ _
      change ((liftM (Program.request (.hold .argument .blank)) >>= fun _ =>
        liftM (Place.argument.become place) >>= fun _ =>
          Attempt.request (.take .argument (.register name)) : Attempt Unit).run.run
            store).2.shelf.get? .argument = none
      rw [Attempt.run_liftM_bind, Attempt.run_liftM_bind]
      generalize (Place.argument.become place).run (_ : SharedStore) = cloned
      change ((cloned.2.shelf.set .argument none).set (.register name) _).get? .argument = none
      rw [Shelf.get?_set, if_neg Slot.noConfusion, Shelf.get?_set, if_pos rfl]

theorem command (command : StepCommand) (name : String) : (command.run name).run.Clears := by
  have hlook : Request.LetsLook (Request.Avoids .argument) := @Request.avoids_look .argument
  unfold StepCommand.run
  extract_lets slot place go
  have hgo : ∀ result, (go result).run.Clears := by
    intro result
    cases command with
    | new node => exact .run_bind (holding node _) fun _ => run_pure _
    | clone target => exact .run_bind (run_request Slot.noConfusion) fun _ => run_pure _
    | take target =>
        exact .run_bind (run_request ⟨Slot.noConfusion, Slot.noConfusion⟩) fun _ => run_pure _
    | release => exact .run_bind (run_request Slot.noConfusion) fun _ => run_pure _
    | info => exact .run_bind (run_request trivial) fun _ => run_pure _
    | holders => exact .run_bind (run_request trivial) fun _ => run_pure _
    | own =>
        exact .run_bind (run_request Slot.noConfusion) fun _ =>
          of_avoids (.run_bind (.run_liftM (Each.occupied hlook place)) fun _ => .run_pure _)
    | same other => exact .run_bind (run_request trivial) fun _ => run_pure _
    | equal other =>
        refine of_avoids (.run_bind (.run_liftM (Each.occupied hlook place)) fun _ =>
          .run_bind (.run_liftM (Each.occupied hlook _)) fun _ => ?_)
        split
        next => exact .run_bind (.run_liftM (.request trivial)) fun _ => .run_pure _
        next => exact .run_pure _
    | keep path kept target =>
        exact .run_bind (of_avoids (Each.readAlong hlook place path)) fun found =>
          .run_bind (store kept found target) fun _ => run_pure _
    | act path action =>
        simp only [go]
        split
        next =>
          exact .run_bind (of_avoids (Each.readAlong hlook place path)) fun found => holding _ _
        next => exact holding _ _
  split
  next => exact .run_bind (run_request trivial) hgo
  next => exact hgo ()

theorem step (quiet : Bool) (step : Step) : (step.run quiet).Clears := by
  refine .bind (command step.command step.register) fun result => ?_
  split
  next => exact fun _ _ _ hempty => hempty
  next => exact fun _ _ _ hempty => hempty

theorem runSteps (quiet : Bool) (steps : List Step) : (Script.runSteps quiet steps).Clears := by
  induction steps with
  | nil => exact fun _ _ _ hempty => hempty
  | cons first rest ih =>
      exact .bind (step quiet first) fun _ => .bind ih fun _ _ _ _ hempty => hempty

theorem setUp (nodes : List (String × Argument)) : (Script.setUp nodes).run.Clears := by
  induction nodes with
  | nil => exact run_pure ()
  | cons node rest ih => exact .run_bind (holding node.2 _) fun _ => ih

end Program.Clears

namespace SharedStore

variable {store : SharedStore}

theorem tidy_empty : Tidy {} :=
  ⟨⟨{}, .empty⟩, List.nodup_nil, rfl⟩

theorem Tidy.run (htidy : store.Tidy) {program : Program α} (hclears : program.Clears) :
    (program.run store).2.Tidy := by
  obtain ⟨plain, hmirrors⟩ := htidy.mirrors
  obtain ⟨after, _, hafter⟩ := hmirrors.run program
  exact ⟨⟨after, hafter⟩, nodup_slots_run program htidy.slots,
    hclears store plain hmirrors htidy.argument⟩

/-! ## Reading -/

/-- A program that avoids all registers changes no count. -/
theorem Tidy.sharesAs_of_avoids (htidy : store.Tidy) {program : Program α}
    (hclears : program.Clears)
    (hprogram : program.Each fun request => ∀ name, request.Avoids (.register name)) :
    store.SharesAs (program.run store).2 := by
  obtain ⟨plain, hmirrors⟩ := htidy.mirrors
  refine htidy.sharesAs (htidy.run hclears) fun name path => ?_
  exact (hmirrors.stays_run (hprogram.imp fun request havoids => havoids name)).ref?_eq path

end SharedStore

/-- Whether a command only reads and puts no node into a register. -/
def StepCommand.reads : StepCommand → Bool
  | .info => true
  | .holders => true
  | .same _ => true
  | .equal _ => true
  | .act _ action => action.reads
  | _ => false

/-- What commands that only read are given or get goes into the argument slot and nowhere else. -/
theorem StepCommand.avoids_registers {command : StepCommand} (hreads : command.reads)
    (name : String) :
    (command.run name).run.Each fun request => ∀ other, request.Avoids (.register other) := by
  have hlook : Request.LetsLook fun request => ∀ other, request.Avoids (.register other) :=
    fun request hasks hvisible other => Request.avoids_look _ request hasks hvisible
  have hfill :
      Request.LetsFill (fun request => ∀ other, request.Avoids (.register other)) .argument :=
    ⟨fun _ _ => Slot.noConfusion, fun _ _ => Slot.noConfusion,
      fun _ => ⟨Slot.noConfusion, Slot.noConfusion⟩, fun _ => Slot.noConfusion⟩
  have hchange : Request.LetsChange (fun request => ∀ other, request.Avoids (.register other)) []
      Place.argument :=
    fun made htakes other => ⟨Slot.noConfusion, fun hheld => List.not_mem_nil (htakes _ hheld)⟩
  unfold StepCommand.run
  extract_lets slot place go
  have hgo :
      ∀ result, (go result).run.Each fun request => ∀ other, request.Avoids (.register other) := by
    intro result
    cases command with
    | info => exact .run_bind (.run_liftM (.request fun _ => trivial)) fun _ => .run_pure _
    | holders => exact .run_bind (.run_liftM (.request fun _ => trivial)) fun _ => .run_pure _
    | same other => exact .run_bind (.run_liftM (.request fun _ => trivial)) fun _ => .run_pure _
    | equal other =>
        refine .run_bind (.run_liftM (.occupied hlook place)) fun _ =>
          .run_bind (.run_liftM (.occupied hlook _)) fun _ => ?_
        split
        next => exact .run_bind (.run_liftM (.request fun _ => trivial)) fun _ => .run_pure _
        next => exact .run_pure _
    | act path action =>
        have hreads : action.reads = true := hreads
        simp only [go, hreads, if_true]
        exact .run_bind (.readAlong hlook place path) fun found =>
          .holding hfill action.argument (.reading hlook hfill hchange hreads found)
    | _ => cases hreads
  split
  next => exact .run_bind (.run_liftM (.request fun _ => trivial)) hgo
  next => exact hgo ()

namespace SharedStore

variable {store : SharedStore}

/-- Reading changes no count. -/
theorem Tidy.sharesAs_of_reads (htidy : store.Tidy) (quiet : Bool) {step : Step}
    (hreads : step.command.reads) : store.SharesAs ((step.run quiet).run store).2 := by
  refine htidy.sharesAs_of_avoids (.step quiet step) ?_
  refine .bind (step.command.avoids_registers hreads step.register) fun result => ?_
  split
  next => trivial
  next => exact .bind (.request fun _ => trivial) fun _ => trivial

end SharedStore

/-! ## Scripts -/

/-- The workspace of a script with its nodes in place and some steps done. -/
def Script.workspace (nodes : List (String × Argument)) (quiet : Bool) (steps : List Step) :
    SharedStore :=
  ((runSteps quiet steps).run ((setUp nodes).run.run ({} : SharedStore)).2).2

theorem Script.tidy_workspace (nodes : List (String × Argument)) (quiet : Bool)
    (steps : List Step) :
    (workspace nodes quiet steps).Tidy :=
  (SharedStore.tidy_empty.run (.setUp nodes)).run (.runSteps quiet steps)

/-- Reference counts are exact. After every step of a script the number of holders of a register's
node is the number of registers that hold it and of child slots in the nodes that are reached from a
register. A command that only reads changes no count and no node of a place, and neither does a
guard that is not used, taken on a node that belongs to its register alone. Whoever makes a node his
own has one with a single holder, and so are all nodes above it; if the node had further holders, he
gets a new node at this place and no other one, the old node has a holder less, and every child one
more for each of its slots. -/
theorem reference_counts_exact :
    (∀ (nodes : List (String × Argument)) (quiet : Bool) (steps : List Step),
      let store := Script.workspace nodes quiet steps
      (∀ (name : String) (ref : Ref), store.shelf.get? (.register name) = some ref →
        ((({ register := name, command := .holders } : Step).run quiet).run store).1.result =
          .ok (.count ((store.shelf.holders ref).card +
            ∑ parent ∈ store.reached, (store.heap.children parent).count ref))) ∧
        (∀ step : Step, step.command.reads → store.SharesAs ((step.run quiet).run store).2) ∧
        ∀ (name : String) (path : List Segment) (last : Place) (action : Action),
          ((readAlong (Place.register name) path).run.run store).1 = .ok last →
          (∀ front, front <+: last.path → store.Sole ⟨last.slot, front⟩) → store.Peeks last action →
            store.SharesAs
              ((({ register := name, command := .act path action } : Step).run quiet).run
                store).2) ∧
      ∀ {α : Type} (before : Program α) (place : Place),
        let store := (before.run ({} : SharedStore)).2
        let after := (Keeper.answer (.own place) store).2
        (∀ front, front <+: place.path → after.Sole ⟨place.slot, front⟩) ∧
          ∀ ref, store.ref? place = some ref → 1 < (store.heap.cell ref).count →
            (∀ front, front <+: place.path → front ≠ place.path → store.Sole ⟨place.slot, front⟩) →
              ∃ fresh, (∀ other, store.ref? other ≠ some fresh) ∧ after.ref? place = some fresh ∧
                (∀ other, other ≠ place → after.ref? other = store.ref? other) ∧
                after.heap.cell fresh = ⟨store.heap.head ref, store.heap.children ref, 1⟩ ∧
                (after.heap.cell ref).count = (store.heap.cell ref).count - 1 ∧
                ∀ other, other ≠ fresh → other ≠ ref → (after.heap.cell other).count =
                  (store.heap.cell other).count + (store.heap.children ref).count other := by
  refine ⟨fun nodes quiet steps => ?_, ?_⟩
  · have htidy := Script.tidy_workspace nodes quiet steps
    generalize Script.workspace nodes quiet steps = store at htidy ⊢
    refine ⟨fun name ref hheld => ?_, fun step hreads => htidy.sharesAs_of_reads quiet hreads,
      fun name path last action hread hsole hpeeks =>
        SharedStore.sharesAs_of_peeks htidy.argument hread hsole hpeeks quiet⟩
    rw [← htidy.count_eq]
    have hlisted : ((store.shelf.touch (.register name)).get? (.register name)) = some ref := by
      rw [Shelf.get?_touch, hheld]
    have hreply : ((StepCommand.holders.run name).run.run store).1 =
        .ok (.count ((((store.shelf.touch (.register name)).get? (.register name)).map fun ref =>
          (store.heap.cell ref).count).getD 0)) := rfl
    rw [Step.run, Program.run_bind, hreply, hlisted]
    cases quiet <;> rfl
  · intro α before place store after
    obtain ⟨plain, _, hmirrors⟩ := Mirrors.empty.run before
    refine ⟨fun front hfront => hmirrors.sole_own place hfront, fun ref hfound hmany habove => ?_⟩
    obtain ⟨hnew, hforks, hothers⟩ := hmirrors.forks habove hfound hmany
    obtain ⟨tree, hshows⟩ := hmirrors.exists_shows hfound
    have hcount := hforks.count_eq ref (Nat.ne_of_lt hshows.inBounds)
    rw [List.count_cons_self, List.count_nil,
      List.count_eq_zero.mpr hshows.not_mem_children] at hcount
    refine ⟨store.heap.cells.size, fun other hother => ?_, hnew, hothers, hforks.cell_new,
      Nat.eq_sub_of_add_eq hcount, fun other hfresh hold => ?_⟩
    · obtain ⟨_, hshown⟩ := hmirrors.exists_shows hother
      exact Nat.lt_irrefl _ hshown.inBounds
    · have hchild := hforks.count_eq other hfresh
      rwa [List.count_cons_of_ne (Ne.symm hold), List.count_nil] at hchild

/-- Two objects with a child each. -/
def twoParents : List (String × Argument) :=
  let parent (value : Int64) : Blueprint :=
    .node .object none false false [.node (.integer value) (some "leaf") false false []]
  [("first", .new (parent 1)), ("single", .new (parent 2))]

/-- Puts the first of two objects into another register as well. -/
def sharedParents : Program (List StepReply) := do
  let _ ← (Script.setUp twoParents).run
  Script.runSteps true [⟨"first", .clone "second"⟩]

/-- A node in two registers, one that is in none but its own, and a write to the first of them. -/
theorem twoParents_counts :
    let store := Script.workspace twoParents true [⟨"first", .clone "second"⟩]
    let shared := (sharedParents.run ({} : SharedStore)).2
    let written := (Keeper.answer (.own (.register "second")) shared).2
    ((Step.run true ⟨"second", .holders⟩).run store).1.result =
        .ok (.count ((store.shelf.holders 1).card +
          ∑ parent ∈ store.reached, (store.heap.children parent).count 1)) ∧
      store.SharesAs ((Step.run true ⟨"second", .info⟩).run store).2 ∧
      store.SharesAs ((Step.run true ⟨"single", .act [] (.find (.child 0))⟩).run store).2 ∧
      ∃ fresh, (∀ other, shared.ref? other ≠ some fresh) ∧
        written.ref? (.register "second") = some fresh ∧
        (∀ other, other ≠ .register "second" → written.ref? other = shared.ref? other) ∧
        written.heap.cell fresh = ⟨shared.heap.head 1, shared.heap.children 1, 1⟩ ∧
        (written.heap.cell 1).count = (shared.heap.cell 1).count - 1 ∧
        ∀ other, other ≠ fresh → other ≠ 1 → (written.heap.cell other).count =
          (shared.heap.cell other).count + (shared.heap.children 1).count other := by
  intro store shared written
  obtain ⟨hcount, hreads, hpeeks⟩ :=
    reference_counts_exact.1 twoParents true [⟨"first", .clone "second"⟩]
  have hsole : ∀ front, front <+: ([] : List Nat) → store.Sole ⟨.register "single", front⟩ := by
    intro front hfront ref hfound
    rw [List.prefix_nil.mp hfront] at hfound
    have hsingle : store.ref? ⟨.register "single", []⟩ = some 3 := by cbv
    obtain rfl : 3 = ref := Option.some.inj (hsingle.symm.trans hfound)
    cbv
  refine ⟨hcount "second" 1 (by cbv), hreads ⟨"second", .info⟩ rfl,
    hpeeks "single" [] (.register "single") _ (by cbv) hsole
      (.find (.child 0) ((Place.register "single").child 0) (by cbv)), ?_⟩
  exact (reference_counts_exact.2 sharedParents (.register "second")).2 1 (by cbv) (by cbv)
    fun front hfront hne => absurd (List.prefix_nil.mp hfront) hne

end KeyedTree
