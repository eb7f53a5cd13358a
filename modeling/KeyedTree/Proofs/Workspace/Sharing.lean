import KeyedTree.Proofs.Workspace.Performing

/-! # Programs and sharing

A program that does not ask about sharing itself comes to the same on shared nodes as on private
copies, and the registers show the same after each of its requests. What is at a place is left as it
is by every program that writes elsewhere, whoever else holds the nodes there.
-/

namespace KeyedTree

variable {σ α β : Type}

/-! ## The requests of a program -/

/-- Whatever a program is answered, it makes requests of some kind only. -/
def Program.Each (allowed : {β : Type} → Request β → Prop) : Program α → Prop
  | .done _ => True
  | .ask request next => allowed request ∧ ∀ answer, (next answer).Each allowed

namespace Program.Each

variable {allowed : {β : Type} → Request β → Prop}

theorem request {request : Request α} (hallowed : allowed request) :
    (Program.request request).Each allowed :=
  ⟨hallowed, fun _ => trivial⟩

theorem bind {program : Program α} {next : α → Program β} (hprogram : program.Each allowed)
    (hnext : ∀ value, (next value).Each allowed) : (program >>= next).Each allowed := by
  change (program.bind next).Each allowed
  induction program with
  | done value => exact hnext value
  | ask request rest ih => exact ⟨hprogram.1, fun answer => ih answer (hprogram.2 answer)⟩

theorem imp {allowed' : {β : Type} → Request β → Prop} {program : Program α}
    (hprogram : program.Each allowed)
    (himp : ∀ {β : Type} (request : Request β), allowed request → allowed' request) :
    program.Each allowed' := by
  induction program with
  | done value => trivial
  | ask request rest ih =>
      exact ⟨himp request hprogram.1, fun answer => ih answer (hprogram.2 answer)⟩

theorem run_pure (value : α) : (pure value : Attempt α).run.Each allowed :=
  trivial

theorem run_throw (fault : Fault) : (throw fault : Attempt α).run.Each allowed :=
  trivial

theorem run_bind {attempt : Attempt α} {next : α → Attempt β} (hattempt : attempt.run.Each allowed)
    (hnext : ∀ value, (next value).run.Each allowed) : (attempt >>= next).run.Each allowed := by
  change (attempt.run >>= ExceptT.bindCont next).Each allowed
  refine hattempt.bind fun result => ?_
  cases result with
  | ok value => exact hnext value
  | error fault => trivial

theorem run_liftM {program : Program α} (hprogram : program.Each allowed) :
    (liftM program : Attempt α).run.Each allowed :=
  hprogram.bind fun _ => trivial

end Program.Each

/-! ## What the registers show -/

/-- Looks at all registers. -/
def Script.look : Program (List (String × Option Tree)) := do
  inspect (← Program.request .registers)

/-- What the registers of a workspace show. -/
def Keeper.shown [Keeper σ] (workspace : σ) : List (String × Option Tree) :=
  (Script.look.run workspace).1

/-- What the registers show after each request of a program. -/
def Program.history [Keeper σ] : Program α → σ → List (List (String × Option Tree))
  | .done _, _ => []
  | .ask request next, workspace =>
      let (answer, after) := Keeper.answer request workspace
      Keeper.shown after :: (next answer).history after

theorem visible_inspect (names : List String) : (Script.inspect names).Each Request.Visible := by
  induction names with
  | nil => trivial
  | cons name rest ih => exact .bind (.request trivial) fun _ => .bind ih fun _ => trivial

theorem visible_look : Script.look.Each Request.Visible :=
  ⟨trivial, visible_inspect⟩

namespace Mirrors

variable {store : SharedStore} {plain : PrivateStore}

/-- A program that does not ask about sharing itself comes to the same in both stores, and they go
on mirroring each other. -/
theorem run_visible (hmirrors : Mirrors store plain []) {program : Program α}
    (hvisible : program.Each Request.Visible) :
    (program.run store).1 = (program.run plain).1 ∧
      Mirrors (program.run store).2 (program.run plain).2 [] := by
  induction program generalizing store plain with
  | done result => exact ⟨rfl, hmirrors⟩
  | ask request next ih =>
      have hanswer : (Keeper.answer request store).1 = (Keeper.answer request plain).1 :=
        hmirrors.answer_eq hvisible.1
      rw [Program.run, Program.run]
      simp only [hanswer]
      exact ih _ (hmirrors.answer request) (hvisible.2 _)

theorem shown_eq (hmirrors : Mirrors store plain []) : Keeper.shown store = Keeper.shown plain :=
  (hmirrors.run_visible visible_look).1

/-- The registers of both stores show the same after each request. -/
theorem history_eq (hmirrors : Mirrors store plain []) {program : Program α}
    (hvisible : program.Each Request.Visible) : program.history store = program.history plain := by
  induction program generalizing store plain with
  | done result => rfl
  | ask request next ih =>
      have hanswer : (Keeper.answer request store).1 = (Keeper.answer request plain).1 :=
        hmirrors.answer_eq hvisible.1
      have hafter : Mirrors (Keeper.answer request store).2 (Keeper.answer request plain).2 [] :=
        hmirrors.answer request
      rw [Program.history, Program.history]
      simp only [hanswer, hafter.shown_eq, ih _ hafter (hvisible.2 _)]

end Mirrors

/-! ## Writes elsewhere -/

/-- Neither of two places lies at or below the other. -/
def Place.Apart (first second : Place) : Prop :=
  first.slot = second.slot → ¬first.path <+: second.path ∧ ¬second.path <+: first.path

/-- A request writes elsewhere than at, above or below a place, and takes no node away from
there. -/
def Request.Spares (other : Place) : Request α → Prop
  | .change place made => place.Apart other ∧ .held other.slot ∉ made.row.guests
  | .hold slot _ => slot ≠ other.slot
  | .share _ slot => slot ≠ other.slot
  | .take source target => source ≠ other.slot ∧ target ≠ other.slot
  | .release slot => slot ≠ other.slot
  | _ => True

namespace Tree

/-- An edit is not seen where neither path leads on to the other. -/
theorem subtree?_editAt_of_apart {edit : Tree → Tree} {path other : List Nat} {tree : Tree}
    (habove : ¬path <+: other) (hbelow : ¬other <+: path) :
    (editAt edit path tree).subtree? other = tree.subtree? other := by
  induction path generalizing other tree with
  | nil => exact absurd List.nil_prefix habove
  | cons pos path ih =>
      cases other with
      | nil => exact absurd List.nil_prefix hbelow
      | cons pos' other =>
          rw [editAt_cons, subtree?_cons, subtree?_cons, children_node]
          by_cases hpos : pos = pos'
          · subst hpos
            rw [List.prefix_cons_inj] at habove hbelow
            rw [List.getElem?_modify_eq]
            cases tree.children[pos]? with
            | none => rfl
            | some child => exact ih habove hbelow
          · rw [List.getElem?_modify_ne _ _ hpos]

end Tree

namespace PrivateStore

variable {store : PrivateStore} {place other : Place}

theorem view?_editAt_of_apart {edit : Tree → Tree} (hapart : place.Apart other) :
    (store.editAt place edit).view? other = store.view? other := by
  by_cases hslot : place.slot = other.slot
  · obtain ⟨habove, hbelow⟩ := hapart hslot
    rw [view?, get?_editAt, if_pos hslot.symm, view?]
    cases store.shelf.get? other.slot with
    | none => rfl
    | some tree => exact Tree.subtree?_editAt_of_apart habove hbelow
  · exact view?_editAt_of_ne (Ne.symm hslot)

/-- Whatever is answered, a place that is spared shows what it showed. -/
theorem view?_answer {request : Request α} (hspares : request.Spares other) :
    (answer request store).2.view? other = store.view? other := by
  cases request with
  | outline place => rfl
  | view place => rfl
  | alike first second => rfl
  | own place => rfl
  | change place change =>
      obtain ⟨hapart, hguests⟩ := hspares
      -- neither what comes in nor the write itself is seen at the other place
      have haway : ∀ slot, .held slot ∈ change.row.guests → slot ≠ other.slot := by
        rintro slot hslot rfl
        exact hguests hslot
      exact (view?_editAt_of_apart hapart).trans (view?_resolveRow haway)
  | hold slot tree => exact (view?_set ..).trans (if_neg hspares.symm)
  | share place slot => exact (view?_set ..).trans (if_neg hspares.symm)
  | take source target =>
      simp only [answer]
      rw [view?_set, if_neg hspares.2.symm, view?_set, if_neg hspares.1.symm]
  | release slot => exact (view?_set ..).trans (if_neg hspares.symm)
  | touch slot =>
      simp only [answer, view?, Shelf.get?_touch]
  | holders slot => rfl
  | same first second => rfl
  | registers => rfl

end PrivateStore

/-- What every request of a program preserves holds where it ends. -/
theorem Course.preserves {allowed : {β : Type} → Request β → Prop} {kept : PrivateStore → Prop}
    (hanswer : ∀ {β : Type} (request : Request β) store, allowed request → kept store →
      kept (PrivateStore.answer request store).2)
    {program : Program α} {store after : PrivateStore} {result : α}
    (hcourse : Course program store result after) (hprogram : program.Each allowed)
    (hkept : kept store) :
    kept after := by
  induction hcourse with
  | done result store => exact hkept
  | ask _ _ ih => exact ih (hprogram.2 _) (hanswer _ _ hprogram.1 hkept)

theorem Course.view?_eq {program : Program α} {store after : PrivateStore} {result : α}
    (hcourse : Course program store result after) {other : Place}
    (hspares : program.Each (Request.Spares other)) : after.view? other = store.view? other := by
  have hanswer : ∀ {β : Type} (request : Request β) (middle : PrivateStore), request.Spares other →
      middle.view? other = store.view? other →
        (PrivateStore.answer request middle).2.view? other = store.view? other :=
    fun request middle hspares hsame => (PrivateStore.view?_answer hspares).trans hsame
  exact hcourse.preserves hanswer hspares rfl

/-- A program that writes elsewhere leaves what is at a place as it is, also where the nodes that it
writes to are shared. -/
theorem Mirrors.view?_run {store : SharedStore} {plain : PrivateStore}
    (hmirrors : Mirrors store plain []) {program : Program α} {other : Place}
    (hspares : program.Each (Request.Spares other)) :
    (program.run store).2.view? other = store.view? other := by
  obtain ⟨after, hcourse, hafter⟩ := hmirrors.run program
  rw [hafter.view?_eq, hcourse.view?_eq hspares, hmirrors.view?_eq]

end KeyedTree
