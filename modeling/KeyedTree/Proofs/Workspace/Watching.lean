import KeyedTree.Proofs.Workspace.Requests

/-! # Moments of a run

A property of requests and of the workspaces that they are put to may hold at every moment of a run.
On trees of one's own a program is watched along all its courses, which covers the runs on shared
nodes.
-/

namespace KeyedTree

variable {σ α β : Type}

/-- At every request of a run, something holds of the request and of the workspace that answers
it. -/
def Program.Always [Keeper σ] (holds : {β : Type} → Request β → σ → Prop) : Program α → σ → Prop
  | .done _, _ => True
  | .ask request next, workspace =>
      holds request workspace ∧
        (next (Keeper.answer request workspace).1).Always holds (Keeper.answer request workspace).2

/-- At every request of every course, something holds of the request and of the workspace. -/
def Program.Watched (holds : {β : Type} → Request β → PrivateStore → Prop) :
    Program α → PrivateStore → Prop
  | .done _, _ => True
  | .ask request next, store =>
      holds request store ∧
        ∀ answer, (request.Visible → answer = (PrivateStore.answer request store).1) →
          (next answer).Watched holds (PrivateStore.answer request store).2

namespace Program.Watched

variable {holds : {β : Type} → Request β → PrivateStore → Prop} {store : PrivateStore}
  {place : Place}

theorem request {request : Request α} (hholds : holds request store) :
    (Program.request request).Watched holds store :=
  ⟨hholds, fun _ _ => trivial⟩

/-- A sequence of programs is watched part by part. -/
theorem bind {program : Program α} {next : α → Program β} (hprogram : program.Watched holds store)
    (hnext : ∀ value middle, Course program store value middle →
      (next value).Watched holds middle) :
    (program >>= next).Watched holds store := by
  change (program.bind next).Watched holds store
  induction program generalizing store with
  | done value => exact hnext value store (.done value store)
  | ask request rest ih =>
      refine ⟨hprogram.1, fun answer hanswer => ?_⟩
      exact ih answer (hprogram.2 answer hanswer) fun value middle hcourse =>
        hnext value middle (.ask hanswer hcourse)

theorem run_bind {attempt : Attempt α} {next : α → Attempt β}
    (hattempt : attempt.run.Watched holds store)
    (hnext : ∀ value middle, Course attempt.run store (.ok value) middle →
      (next value).run.Watched holds middle) : (attempt >>= next).run.Watched holds store := by
  change (attempt.run >>= ExceptT.bindCont next).Watched holds store
  refine hattempt.bind fun result middle hcourse => ?_
  cases result with
  | ok value => exact hnext value middle hcourse
  | error fault => trivial

theorem run_liftM {program : Program α} (hprogram : program.Watched holds store) :
    (liftM program : Attempt α).run.Watched holds store :=
  hprogram.bind fun _ _ _ => trivial

theorem outline (hlook : ∀ {β : Type} (request : Request β), request.Asks → holds request store)
    (place : Place) : place.outline.Watched holds store :=
  .bind (.request (hlook _ trivial)) fun _ _ _ => trivial

theorem view (hlook : ∀ {β : Type} (request : Request β), request.Asks → holds request store)
    (place : Place) : place.view.Watched holds store :=
  .bind (.request (hlook _ trivial)) fun _ _ _ => trivial

theorem key (hlook : ∀ {β : Type} (request : Request β), request.Asks → holds request store)
    (place : Place) : place.key.Watched holds store :=
  .bind (outline hlook place) fun _ _ _ => trivial

theorem refuse (hlook : ∀ {β : Type} (request : Request β), request.Asks → holds request store)
    (place : Place) (refusal : Refusal) :
    (place.refuse refusal : Attempt α).run.Watched holds store :=
  .run_bind (.run_liftM (view hlook place)) fun _ _ _ => trivial

/-- An operation is watched in front of its change, with the change, and behind it. -/
theorem perform {decide : Outline → Verdict Origin α}
    (hbefore : ∀ {β : Type} (request : Request β), request.Asks → holds request store)
    (hchange : ∀ made, (decide (((store.view? place).map Tree.outline).getD default)).change =
      some made → holds (.change place made) store)
    (hafter : ∀ {β : Type} (request : Request β), request.Asks → holds request
      (store.changed place (decide (((store.view? place).map Tree.outline).getD default)).change)) :
    (place.perform decide).run.Watched holds store := by
  refine .run_bind (.run_liftM (outline hbefore place)) fun node middle hcourse => ?_
  obtain ⟨_, hnode, houtline⟩ := Course.run_liftM_iff.mp hcourse
  cases hnode
  obtain ⟨rfl, rfl⟩ := Course.outline_iff.mp houtline
  simp only
  generalize decide _ = verdict at hchange hafter ⊢
  obtain ⟨made, answer⟩ := verdict
  cases made with
  | none =>
      cases answer with
      | ok value => trivial
      | error refusal => exact refuse hafter place refusal
  | some made =>
      refine .run_bind (.run_liftM (.request (hchange made rfl))) fun _ middle hcourse => ?_
      obtain ⟨_, _, _, rfl⟩ := Course.run_request_iff.mp hcourse
      cases answer with
      | ok value => trivial
      | error refusal => exact refuse hafter place refusal

/-- What every request of a program preserves holds along all its courses. -/
theorem of_each {allowed : {β : Type} → Request β → Prop} {kept : PrivateStore → Prop}
    (hanswer : ∀ {β : Type} (request : Request β) store, allowed request → kept store →
      kept (PrivateStore.answer request store).2)
    {program : Program α} (hprogram : program.Each allowed) (hkept : kept store) :
    program.Watched (fun _ store => kept store) store := by
  induction program generalizing store with
  | done value => trivial
  | ask request rest ih =>
      exact ⟨hkept,
        fun answer _ => ih answer (hprogram.2 answer) (hanswer request store hprogram.1 hkept)⟩

end Program.Watched

/-- A run on trees of one's own is a course. -/
theorem Course.of_run (program : Program α) (store : PrivateStore) :
    Course program store (program.run store).1 (program.run store).2 := by
  induction program generalizing store with
  | done value => exact .done value store
  | ask request rest ih => exact .ask (fun _ => rfl) (ih _ _)

/-- A run on shared nodes is one of the courses that are watched. -/
theorem Mirrors.always {holds : {β : Type} → Request β → PrivateStore → Prop}
    {holds' : {β : Type} → Request β → SharedStore → Prop}
    (himp : ∀ {β : Type} (request : Request β) store plain, Mirrors store plain [] →
      holds request plain → holds' request store)
    {program : Program α} {store : SharedStore} {plain : PrivateStore}
    (hmirrors : Mirrors store plain []) (hwatched : program.Watched holds plain) :
    program.Always holds' store := by
  induction program generalizing store plain with
  | done value => trivial
  | ask request rest ih =>
      refine ⟨himp request store plain hmirrors hwatched.1, ?_⟩
      exact ih _ (hmirrors.answer request)
        (hwatched.2 _ fun hvisible => hmirrors.answer_eq hvisible)

end KeyedTree
