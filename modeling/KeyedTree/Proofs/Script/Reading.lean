import KeyedTree.Proofs.Script.Operations
import KeyedTree.Proofs.Workspace.Requests

/-! # Requests of reading

What a script asks for when it only reads. It looks at nodes, and what it is given or gets is put
into the argument slot.
-/

namespace KeyedTree

variable {α : Type}

/-- Nodes may be put into a slot and let go again. -/
structure Request.LetsFill (allowed : {β : Type} → Request β → Prop) (slot : Slot) : Prop where
  hold : ∀ tree, allowed (.hold slot tree)
  share : ∀ place, allowed (.share place slot)
  take : allowed (.take .argument slot)
  release : allowed (.release slot)

namespace Program.Each

open Request

variable {allowed : {β : Type} → Request β → Prop} {place : Place}

/-! ## Following a path -/

theorem occupied (hlook : LetsLook allowed) (place : Place) : place.occupied.Each allowed :=
  .bind (.request (hlook _ trivial trivial)) fun _ => trivial

theorem follow (hlook : LetsLook allowed) (segment : Segment) (place : Place) :
    (segment.follow place).run.Each allowed := by
  cases segment with
  | child pos => exact .run_bind (consult hlook place (child_change _ pos)) fun _ => .run_pure _
  | childOf key => exact .run_bind (consult hlook place (childOf_change _ key)) fun _ => .run_pure _
  | lastChild => exact .run_bind (consult hlook place (lastChild_change _)) fun _ => .run_pure _
  | entry key => exact .run_bind (consult hlook place (childOf_change _ key)) fun _ => .run_pure _

theorem readAlong (hlook : LetsLook allowed) (place : Place) (path : List Segment) :
    (readAlong place path).run.Each allowed := by
  have hfollow : ∀ (path : List Segment) (place : Place),
      (path.foldlM (fun place segment => segment.follow place) place : Attempt Place).run.Each
        allowed := by
    intro path
    induction path with
    | nil => exact fun place => .run_pure place
    | cons segment rest ih =>
        intro place
        rw [List.foldlM_cons]
        exact .run_bind (follow hlook segment place) ih
  refine .run_bind (.run_liftM (occupied hlook place)) fun there => ?_
  split
  next => exact .run_bind (.run_throw _) fun _ => hfollow path place
  next => exact hfollow path place

/-! ## The argument -/

theorem prepare (hfill : LetsFill allowed .argument) (argument : Argument) :
    argument.prepare.run.Each allowed := by
  cases argument with
  | empty => exact .run_liftM (.request hfill.release)
  | register name => exact .run_liftM (.request (hfill.share _))
  | new blueprint =>
      rw [Argument.prepare]
      cases blueprint.build with
      | ok tree => exact .run_liftM (.request (hfill.hold tree))
      | error fault => exact .run_throw fault

theorem holding (hfill : LetsFill allowed .argument) (argument : Argument) {attempt : Attempt α}
    (hattempt : attempt.run.Each allowed) : (argument.holding attempt).run.Each allowed :=
  .bind (.run_bind (prepare hfill argument) fun _ => hattempt) fun _ =>
    .bind (.request hfill.release) fun _ => trivial

/-- Only a clone is made in the argument slot, with the children that the node has. -/
theorem store (hlook : LetsLook allowed) (hfill : LetsFill allowed .argument)
    (hchange : LetsChange allowed [] Place.argument) {target : Slot}
    (htarget : LetsFill allowed target) (kept : Kept) (place : Place) :
    (kept.store place target).run.Each allowed := by
  cases kept with
  | child pos =>
      exact .run_bind (consult hlook place (child_change _ pos)) fun _ =>
        .run_liftM (.request (htarget.share _))
  | childOf key =>
      exact .run_bind (consult hlook place (childOf_change _ key)) fun _ =>
        .run_liftM (.request (htarget.share _))
  | copy => exact .run_bind (.run_liftM (view hlook place)) fun _ =>
      .run_liftM (.request (htarget.hold _))
  | clone =>
      exact .run_bind (.run_liftM (.request (hfill.hold _))) fun _ =>
        .run_bind (.run_liftM (become hlook hchange place)) fun _ =>
          .run_liftM (.request htarget.take)

/-! ## Actions that only read -/

theorem ask (hlook : LetsLook allowed) (query : Query) (place : Place) :
    ((Action.ask query).run place).run.Each allowed := by
  refine .run_bind (.run_liftM (view hlook place)) fun tree => ?_
  split
  next => exact .run_pure _
  next => exact .run_throw _

theorem compare (hlook : LetsLook allowed) (other : Argument) (place : Place) :
    ((Action.compare other).run place).run.Each allowed :=
  .run_bind (argumentTree hlook) fun _ =>
    .run_bind (.run_liftM (.request (hlook _ trivial trivial))) fun _ => .run_pure _

theorem obtain (hlook : LetsLook allowed) (hfill : LetsFill allowed .argument)
    (hchange : LetsChange allowed [] Place.argument) (kept : Kept) (place : Place) :
    ((Action.obtain kept).run place).run.Each allowed :=
  .run_bind (store hlook hfill hchange hfill kept place) fun _ => .run_pure _

/-- Actions that only read change no slot but that of the argument. -/
theorem reading (hlook : LetsLook allowed) (hfill : LetsFill allowed .argument)
    (hchange : LetsChange allowed [] Place.argument) {action : Action} (hreads : action.reads)
    (place : Place) : (action.run place).run.Each allowed := by
  cases action with
  | ask query => exact ask hlook query place
  | compare other => exact compare hlook other place
  | obtain kept => exact obtain hlook hfill hchange kept place
  | _ => cases hreads

end Program.Each

end KeyedTree
