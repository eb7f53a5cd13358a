import KeyedTree.Proofs.Workspace.Sharing

/-! # Requests of operations

What the operations ask for, whatever they are answered. They look at nodes and change the node that
they are on, and only the openers take a node away, which is the argument. While a node is being
edited under a guard, nothing is asked for that could take the node away.
-/

namespace KeyedTree

variable {ι α : Type}

/-! ## Nodes that come in -/

/-- A verdict whose change, if it makes one, takes in none but the nodes that are offered. -/
def Verdict.Takes (offered : List ι) (verdict : Verdict ι α) : Prop :=
  ∀ change, verdict.change = some change → change.row.guests ⊆ offered

namespace Verdict

variable {offered : List ι}

@[simp] theorem takes_refuse (operation : Operation) (objection : Objection) :
    (refuse operation objection : Verdict ι α).Takes offered :=
  makes_refuse operation objection

@[simp] theorem takes_answered (value : α) : (answered value : Verdict ι α).Takes offered :=
  makes_answered value

@[simp] theorem takes_changed {change : Change ι} (value : α) :
    (changed change value).Takes offered ↔ change.row.guests ⊆ offered :=
  makes_changed value

end Verdict

namespace Outline

theorem takes_attach (operation : Operation) (renamed : Option String) (child : ι) (guest : Head)
    (node : Outline) : (node.attach operation renamed child guest).Takes [child] := by
  unfold attach
  simp only
  repeat' split
  all_goals simp [RowChange.guests]

theorem takes_attachOver (key : String) (child : ι) (guest : Head) (node : Outline) :
    (node.attachOver key child guest).Takes [child] := by
  intro change hchange
  obtain ⟨attached, hattached, rfl⟩ := Option.map_eq_some_iff.mp hchange
  exact takes_attach _ _ child guest _ attached hattached

theorem takes_append (child : ι) (guest : Head) (node : Outline) :
    (node.append child guest).Takes [child] := by
  unfold append
  split <;> simp [RowChange.guests]

theorem takes_entry (key : String) (blank : ι) (node : Outline) :
    (node.entry key blank).Takes [blank] := by
  unfold entry
  split
  next =>
    split
    next => exact Verdict.takes_answered _
    next => exact takes_attach _ _ blank _ node
  next =>
    split
    next => exact Verdict.takes_answered _
    next => exact takes_attach _ _ blank _ node
  next => exact Verdict.takes_refuse _ _

theorem takes_assign (operation : Operation) (value : Payload) (node : Outline) :
    (node.assign operation value : Verdict ι Unit).Takes [] := by
  unfold assign
  simp only
  repeat' split
  all_goals simp [RowChange.guests]

theorem takes_rename (old new : String) (node : Outline) :
    (node.rename old new : Verdict ι Unit).Takes [] := by
  unfold rename
  simp only
  repeat' split
  all_goals simp [RowChange.guests]

theorem takes_rekey (pos : Nat) (key : String) (node : Outline) :
    (node.rekey pos key : Verdict ι Unit).Takes [] := by
  unfold rekey
  repeat' split
  all_goals simp [RowChange.guests]

end Outline

/-- No node comes in with an edit. -/
theorem Edit.takes_decide (edit : Edit) (node : Outline) :
    (edit.decide node : Verdict ι Unit).Takes [] := by
  cases edit with
  | setString value => exact Outline.takes_assign _ _ node
  | setInteger value => exact Outline.takes_assign _ _ node
  | setBool value => exact Outline.takes_assign _ _ node
  | appendText text =>
      simp only [decide, Outline.appendText]
      split <;> simp [RowChange.guests]
  | addInteger amount =>
      simp only [decide, Outline.addInteger]
      split <;> simp [RowChange.guests]
  | setKey key => simp [decide, Outline.setKey, RowChange.guests]
  | appendKey text => simp [decide, Outline.appendKey, RowChange.guests]
  | setAutosort autosort => simp [decide, Outline.setAutosort, RowChange.guests]
  | setOverwrite overwrite => simp [decide, Outline.setOverwrite, RowChange.guests]
  | clear kind => simp [decide, Outline.clear, RowChange.guests]
  | remove key =>
      simp only [decide, Outline.remove]
      repeat' split
      all_goals simp [RowChange.guests]
  | rename old new => exact Outline.takes_rename old new node
  | rekey pos key => exact Outline.takes_rekey pos key node
  | relocate key pos =>
      simp only [decide, Outline.relocate]
      repeat' split
      all_goals simp [RowChange.guests]

/-- A change takes nodes away from some slots at most. -/
def RowChange.TakesFrom (slots : List Slot) (row : RowChange Origin) : Prop :=
  ∀ slot, .held slot ∈ row.guests → slot ∈ slots

theorem RowChange.takesFrom_of_subset {row : RowChange Origin} {offered : List Origin}
    {slots : List Slot} (hguests : row.guests ⊆ offered)
    (hoffered : ∀ slot, .held slot ∈ offered → slot ∈ slots) :
    row.TakesFrom slots :=
  fun slot hslot => hoffered slot (hguests hslot)

/-! ## What operations ask for -/

/-- Requests that only ask are allowed, unless they ask about sharing itself. -/
def Request.LetsLook (allowed : {β : Type} → Request β → Prop) : Prop :=
  ∀ {β : Type} (request : Request β), request.Asks → request.Visible → allowed request

/-- Requests that change nothing are allowed. -/
structure Request.Lenient (allowed : {β : Type} → Request β → Prop) : Prop where
  look : ∀ {β : Type} (request : Request β), request.Asks → request.Visible → allowed request
  own : ∀ place, allowed (.own place)

/-- Changes of the node at a place are allowed if they take nodes away from some slots at most. -/
def Request.LetsChange (allowed : {β : Type} → Request β → Prop) (slots : List Slot)
    (place : Place) :
    Prop :=
  ∀ made : Change Origin, made.row.TakesFrom slots → allowed (.change place made)

namespace Program.Each

variable {allowed : {β : Type} → Request β → Prop} {slots : List Slot} {place : Place}

theorem outline (hlook : Request.LetsLook allowed) (place : Place) : place.outline.Each allowed :=
  .bind (.request (hlook _ trivial trivial)) fun _ => trivial

theorem view (hlook : Request.LetsLook allowed) (place : Place) : place.view.Each allowed :=
  .bind (.request (hlook _ trivial trivial)) fun _ => trivial

theorem key (hlook : Request.LetsLook allowed) (place : Place) : place.key.Each allowed :=
  .bind (outline hlook place) fun _ => trivial

theorem argumentTree (hlook : Request.LetsLook allowed) : argumentTree.run.Each allowed := by
  refine .run_bind (.run_liftM (.request (hlook _ trivial trivial))) fun found => ?_
  cases found with
  | none => exact .run_throw _
  | some tree => exact .run_pure _

theorem argumentHead (hlook : Request.LetsLook allowed) (operation : Operation) :
    (argumentHead operation).run.Each allowed := by
  refine .run_bind (.run_liftM (.request (hlook _ trivial trivial))) fun found => ?_
  cases found with
  | none => exact .run_throw _
  | some node => exact .run_pure _

theorem refuse (hlook : Request.LetsLook allowed) (place : Place) (refusal : Refusal) :
    (place.refuse refusal : Attempt α).run.Each allowed :=
  .run_bind (.run_liftM (view hlook place)) fun _ => .run_throw _

/-- Carrying out an operation makes no request but for the change that its verdict names. -/
theorem perform (hlook : Request.LetsLook allowed) {decide : Outline → Verdict Origin α}
    (hchange : ∀ node made, (decide node).change = some made → allowed (.change place made)) :
    (place.perform decide).run.Each allowed := by
  refine .run_bind (.run_liftM (outline hlook place)) fun node => ?_
  have hnode := hchange node
  simp only at hnode ⊢
  generalize decide node = verdict at hnode ⊢
  obtain ⟨made, answer⟩ := verdict
  -- behind the change, a refusal looks at the node for its fault
  cases made with
  | none =>
      cases answer with
      | ok value => exact .run_pure value
      | error refusal => exact refuse hlook place refusal
  | some made =>
      refine .run_bind (.run_liftM (.request (hnode made rfl))) fun _ => ?_
      cases answer with
      | ok value => exact .run_pure value
      | error refusal => exact refuse hlook place refusal

/-- An operation that changes nothing. -/
theorem consult (hlook : Request.LetsLook allowed) {decide : Outline → Verdict Origin α}
    (place : Place) (hasks : ∀ node, (decide node).change = none) :
    (place.perform decide).run.Each allowed :=
  perform hlook fun node made hmade => by
    rw [hasks] at hmade
    cases hmade

/-- An operation that takes in no node. -/
theorem rearrange (hlook : Request.LetsLook allowed)
    (hchange : Request.LetsChange allowed slots place) {decide : Outline → Verdict Origin α}
    (htakes : ∀ node, (decide node).Takes []) :
    (place.perform decide).run.Each allowed :=
  perform hlook fun node made hmade => hchange made
    (RowChange.takesFrom_of_subset (htakes node made hmade) (by simp))

/-- An operation that takes in the argument. -/
theorem takeIn (hlook : Request.LetsLook allowed) (hchange : Request.LetsChange allowed slots place)
    (hargument : .argument ∈ slots) {decide : Outline → Verdict Origin α}
    (htakes : ∀ node, (decide node).Takes [.held .argument]) :
    (place.perform decide).run.Each allowed :=
  perform hlook fun node made hmade => hchange made
    (RowChange.takesFrom_of_subset (htakes node made hmade) (by simpa using hargument))

theorem opener (hlook : Request.LetsLook allowed) (hchange : Request.LetsChange allowed slots place)
    (hargument : .argument ∈ slots) (opener : Opener) : (opener.run place).run.Each allowed := by
  cases opener with
  | attach child =>
      exact .run_bind (argumentHead hlook _) fun guest =>
        takeIn hlook hchange hargument fun node => node.takes_attach _ _ _ guest
  | attachKeyed key child =>
      exact .run_bind (argumentHead hlook _) fun guest =>
        takeIn hlook hchange hargument fun node => node.takes_attach _ _ _ guest
  | append child =>
      exact .run_bind (argumentHead hlook _) fun guest =>
        takeIn hlook hchange hargument fun node => node.takes_append _ guest
  | entry key =>
      exact perform hlook fun node made hmade => hchange made
        (RowChange.takesFrom_of_subset (node.takes_entry key _ made hmade) (by simp))
  | child pos => exact consult hlook place (child_change _ pos)
  | childOf key => exact consult hlook place (childOf_change _ key)
  | lastChild => exact consult hlook place (lastChild_change _)
  | assign key child =>
      exact .run_bind (argumentHead hlook _) fun guest =>
        .run_bind (takeIn hlook hchange hargument fun node => node.takes_attachOver key _ guest)
          fun _ => consult hlook place (childOf_change _ key)

theorem copyFrom (hlook : Request.LetsLook allowed)
    (hchange : Request.LetsChange allowed slots place) (tree : Tree) :
    (place.copyFrom tree).run.Each allowed := by
  refine .run_bind (.run_liftM (view hlook place)) fun held => ?_
  simp only
  generalize held.copyFrom tree = copied
  obtain ⟨result, copied⟩ := copied
  refine .run_bind (.run_liftM (.request (hchange _ ?_))) fun _ => ?_
  · intro slot hslot
    simp [RowChange.guests] at hslot
  · cases result with
    | ok value => exact .run_pure _
    | error fault => exact .run_throw fault

/-- A clone shares the children of the other node, which keeps them. -/
theorem become (hlook : Request.LetsLook allowed) (hchange : Request.LetsChange allowed slots place)
    (source : Place) : (place.become source).Each allowed := by
  refine .bind (outline hlook source) fun node => .request (hchange _ ?_)
  intro slot hslot
  simp [RowChange.guests] at hslot

/-! ### Guards and walks -/

theorem guarded (hlenient : Request.Lenient allowed)
    (hchange : Request.LetsChange allowed slots place) {pos : Nat} {edit : Place → Program α}
    (hedit : (edit (place.child pos)).Each allowed) :
    (place.guarded pos edit).Each allowed := by
  have hsettle : ∀ old, (place.perform (Outline.settle pos old)).run.Each allowed :=
    fun old => rearrange hlenient.look hchange fun node made hmade =>
      settle_guests node made hmade ▸ List.Subset.refl _
  exact .bind (key hlenient.look _) fun old => .bind (.request (hlenient.own _)) fun _ =>
    .bind hedit fun _ => .bind (hsettle old) fun _ => trivial

section

variable {σ : Type} {walkChild : Place → σ → Program (Except Fault Unit × σ)}

theorem row (hlenient : Request.Lenient allowed)
    (hchild : ∀ pos state, (walkChild (place.child pos) state).Each allowed) (positions : List Nat)
    (state : σ) : (Walk.row walkChild place positions state).Each allowed := by
  induction positions generalizing state with
  | nil => trivial
  | cons pos rest ih =>
      rw [Walk.row]
      refine .bind (.request (hlenient.own _)) fun _ => .bind (hchild pos state) fun walked => ?_
      obtain ⟨result, state⟩ := walked
      cases result with
      | ok value => exact ih state
      | error fault => trivial

theorem below (hlenient : Request.Lenient allowed)
    (hchange : Request.LetsChange allowed slots place)
    (hchild : ∀ pos state, (walkChild (place.child pos) state).Each allowed) (state : σ) :
    (Walk.below walkChild place state).Each allowed := by
  have hresettle : ∀ old, (place.perform (Outline.resettle old)).run.Each allowed :=
    fun old => rearrange hlenient.look hchange fun node made hmade =>
      resettle_guests node made hmade ▸ List.Subset.refl _
  refine .bind (outline hlenient.look place) fun node =>
    .bind (row hlenient hchild _ state) fun walked => ?_
  refine .bind (hresettle _) fun settled => ?_
  -- once the parent is in step again, only the fault of a repeated key still looks at it
  split
  next => trivial
  next => trivial
  next =>
    split
    next => trivial
    next => exact .bind (refuse hlenient.look place _) fun _ => trivial

/-- A walk makes no requests but for its visits and for what keeps the visited nodes in step. -/
theorem walk (hlenient : Request.Lenient allowed) {slot : Slot} {base : List Nat}
    (hchange : ∀ path, Request.LetsChange allowed slots ⟨slot, base ++ path⟩)
    {visit : Place → σ → Program (Traversal × σ)}
    (hvisit : ∀ path state, (visit ⟨slot, base ++ path⟩ state).Each allowed)
    (exceptions : List String) (reach : Nat) :
    ∀ (path : List Nat) (state : σ),
      (Walk.run visit exceptions reach ⟨slot, base ++ path⟩ state).Each allowed := by
  induction reach with
  | zero =>
      intro path state
      rw [Walk.run]
      refine .bind (key hlenient.look _) fun name => ?_
      split
      next => trivial
      next => exact .bind (hvisit path state) fun _ => trivial
  | succ reach ih =>
      intro path state
      rw [Walk.run]
      refine .bind (key hlenient.look _) fun name => ?_
      split
      next => trivial
      next =>
        refine .bind (hvisit path state) fun visited => ?_
        obtain ⟨traversal, state⟩ := visited
        cases traversal with
        | skipBelow => trivial
        | goOn =>
            refine below hlenient (hchange path) (fun pos state => ?_) state
            have hbelow := ih (path ++ [pos]) state
            rwa [← List.append_assoc] at hbelow

end

end Program.Each

/-! ## Under guards -/

/-- A request leaves the nodes that are being edited where they are. -/
def Request.Heeds (guards : Guards) : Request α → Prop
  | .change place made =>
      guards.Readable place ∧ ∀ slot, .held slot ∈ made.row.guests → guards slot = none
  | .hold slot _ => guards slot = none
  | .share _ slot => guards slot = none
  | .take source target => guards source = none ∧ guards target = none
  | .release slot => guards slot = none
  | _ => True

namespace Request

variable {guards : Guards} {place : Place}

theorem lenient_heeds : Lenient (Heeds guards) where
  look request hasks _ := by cases request <;> trivial
  own _ := trivial

theorem heeds_change {slots : List Slot} (hread : guards.Readable place)
    (hslots : ∀ slot ∈ slots, guards slot = none) : LetsChange (Heeds guards) slots place :=
  fun _ htakes => ⟨hread, fun slot hheld => hslots slot (htakes slot hheld)⟩

/-- What heeds a guard below heeds the guards outside of it. -/
theorem Heeds.outside (hwrite : guards.Writable place) {below : List Nat} {request : Request α}
    (hheeds : request.Heeds (guards.guard ⟨place.slot, place.path ++ below⟩)) :
    request.Heeds guards := by
  have hnone : ∀ slot, guards.guard ⟨place.slot, place.path ++ below⟩ slot = none →
      guards slot = none := by
    intro slot hfree
    rw [Guards.guard] at hfree
    split at hfree
    next => cases hfree
    next => exact hfree
  cases request with
  | change other made =>
      obtain ⟨hread, hfree⟩ := hheeds
      refine ⟨?_, fun slot hheld => hnone slot (hfree slot hheld)⟩
      by_cases hslot : other.slot = place.slot
      · rw [Guards.Readable, hslot, ← hwrite]
        rw [Guards.readable_guard_same ⟨place.slot, place.path ++ below⟩ hslot] at hread
        exact (List.prefix_append _ _).trans hread
      · rwa [Guards.readable_guard_other ⟨place.slot, place.path ++ below⟩ hslot] at hread
  | hold slot tree => exact hnone slot hheeds
  | share source slot => exact hnone slot hheeds
  | take source target => exact ⟨hnone source hheeds.1, hnone target hheeds.2⟩
  | release slot => exact hnone slot hheeds
  | _ => trivial

end Request

/-- Programs made of operations leave the nodes that are being edited where they are. -/
theorem Program.Operates.heeds {guards : Guards} {program : Program α}
    (hprogram : program.Operates guards) :
    program.Each (Request.Heeds guards) := by
  have hlenient : ∀ {guards : Guards},
      Request.Lenient (Request.Heeds guards) := Request.lenient_heeds
  induction hprogram with
  | done result => trivial
  | bind _ _ ihfirst ihnext => exact ihfirst.bind ihnext
  | @look guards β request hasks => exact .request (by cases request <;> trivial)
  | consult place hasks => exact Each.consult hlenient.look place hasks
  | own place => exact .request trivial
  | touch slot => exact .request trivial
  | hold hfree hmade => exact .request hfree
  | share hread hfree => exact .request hfree
  | take hsource htarget => exact .request ⟨hsource, htarget⟩
  | release hfree => exact .request hfree
  | copy hread hfree =>
      exact .run_bind (.run_liftM (Each.view hlenient.look _)) fun _ => .run_liftM (.request hfree)
  | edit hwrite edit =>
      exact Each.rearrange hlenient.look
        (Request.heeds_change hwrite.readable (List.forall_mem_nil _))
        edit.takes_decide
  | opener hwrite hfree opener =>
      exact Each.opener hlenient.look
        (Request.heeds_change hwrite.readable (List.forall_mem_singleton.mpr hfree))
        List.mem_cons_self opener
  | copyFrom hwrite hfree =>
      exact .run_bind (Each.argumentTree hlenient.look) fun tree =>
        Each.copyFrom hlenient.look
          (Request.heeds_change hwrite.readable (List.forall_mem_nil _)) tree
  | become hwrite hread =>
      exact Each.become hlenient.look
        (Request.heeds_change hwrite.readable (List.forall_mem_nil _)) _
  | guarded hwrite _ ih =>
      exact Each.guarded hlenient (Request.heeds_change hwrite.readable (List.forall_mem_nil _))
        (ih.imp fun request hheeds => hheeds.outside hwrite)
  | @walk guards σ visit place exceptions reach state hwrite _ ih =>
      have hbelow : ∀ path, guards.Readable ⟨place.slot, place.path ++ path⟩ := by
        intro path
        rw [Guards.Readable, ← hwrite]
        exact List.prefix_append _ _
      have hwalk := Each.walk hlenient
        (fun path => Request.heeds_change (hbelow path) (List.forall_mem_nil _))
        (fun path state => (ih path state).imp fun request hheeds => hheeds.outside hwrite)
        exceptions reach [] state
      rwa [List.append_nil] at hwalk

/-! ## Nodes that are being edited stay -/

namespace PrivateStore

variable {store : PrivateStore}

/-- An edit at or below a node is seen there as an edit of the node. -/
theorem view?_editAt_below (store : PrivateStore) (place : Place) (below : List Nat)
    (edit : Tree → Tree) :
    (store.editAt ⟨place.slot, place.path ++ below⟩ edit).view? place =
      (store.view? place).map (Tree.editAt edit below) :=
  Guards.view?_of_edited ((get?_editAt ..).trans (if_pos rfl))

/-- A request that leaves a node under a guard where it is. -/
theorem isSome_view?_answer {guards : Guards} {place : Place}
    (hguarded : guards place.slot = some place.path) {request : Request α}
    (hheeds : request.Heeds guards) (hthere : (store.view? place).isSome) :
    ((answer request store).2.view? place).isSome := by
  have haway : ∀ slot, guards slot = none → place.slot ≠ slot := by
    rintro slot hfree rfl
    rw [hguarded] at hfree
    cases hfree
  have hset : ∀ slot tree, guards slot = none →
      (view? ⟨store.shelf.set slot tree⟩ place).isSome := by
    intro slot tree hfree
    rwa [view?_set, if_neg (haway slot hfree)]
  cases request with
  | change other made =>
      obtain ⟨hread, hguests⟩ := hheeds
      have hkept : (made.row.resolve resolve store).2.view? place = store.view? place :=
        view?_resolveRow fun slot hheld => (haway slot (hguests slot hheld)).symm
      simp only [answer]
      by_cases hslot : other.slot = place.slot
      · obtain ⟨slot, path⟩ := other
        obtain rfl : slot = place.slot := hslot
        rw [Guards.Readable, Guards.reach, hguarded, Option.getD_some] at hread
        obtain ⟨below, rfl⟩ := hread
        rw [view?_editAt_below, Option.isSome_map, hkept]
        exact hthere
      · rw [view?_editAt_of_ne (Ne.symm hslot), hkept]
        exact hthere
  | hold slot tree => exact hset slot _ hheeds
  | share source slot => exact hset slot _ hheeds
  | take source target =>
      simp only [answer]
      rw [view?_set, if_neg (haway target hheeds.2)]
      exact hset source none hheeds.1
  | release slot => exact hset slot _ hheeds
  | touch slot =>
      simp only [answer, view?, Shelf.get?_touch]
      exact hthere
  | _ => exact hthere

end PrivateStore

end KeyedTree
