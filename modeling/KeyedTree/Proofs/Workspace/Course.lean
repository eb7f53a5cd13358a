import KeyedTree.Proofs.Workspace.Mirror
import KeyedTree.Workspace.Edit

/-! # Courses of programs

A course is what a program can come to on trees of one's own when the questions about sharing are
answered in any way. Running a program on shared nodes follows such a course.
-/

namespace KeyedTree

/-- A program on a workspace comes to a result and leaves a workspace. -/
inductive Course {α : Type} : Program α → PrivateStore → α → PrivateStore → Prop
  | done (result : α) (store : PrivateStore) : Course (.done result) store result store
  | ask {β : Type} {request : Request β} {next : β → Program α} {store after : PrivateStore}
      {answer : β} {result : α} :
      (request.Visible → answer = (PrivateStore.answer request store).1) →
      Course (next answer) (PrivateStore.answer request store).2 result after →
      Course (.ask request next) store result after

namespace Course

variable {α β : Type} {store after : PrivateStore} {result : α}

theorem done_iff {value : α} :
    Course (.done value) store result after ↔ result = value ∧ store = after := by
  constructor
  · intro hcourse
    cases hcourse
    exact ⟨rfl, rfl⟩
  · rintro ⟨rfl, rfl⟩
    exact .done _ _

theorem pure_iff {value : α} :
    Course (pure value) store result after ↔ result = value ∧ store = after :=
  done_iff

theorem request_iff {request : Request α} :
    Course (.request request) store result after ↔
      (request.Visible → result = (PrivateStore.answer request store).1) ∧
        after = (PrivateStore.answer request store).2 := by
  constructor
  · rintro (_ | ⟨hanswer, hnext⟩)
    obtain ⟨rfl, rfl⟩ := done_iff.mp hnext
    exact ⟨hanswer, rfl⟩
  · rintro ⟨hanswer, rfl⟩
    exact .ask hanswer (.done _ _)

theorem own_iff {place : Place} {result : Unit} :
    Course (.request (.own place)) store result after ↔ store = after := by
  rw [request_iff]
  exact ⟨fun h => h.2.symm, fun h => ⟨fun _ => rfl, h.symm⟩⟩

/-- A sequence of programs takes the courses of its parts, one after the other. -/
theorem bind_iff {program : Program α} {next : α → Program β} {last : β} :
    Course (program >>= next) store last after ↔
      ∃ value middle, Course program store value middle ∧
        Course (next value) middle last after := by
  change Course (program.bind next) store last after ↔ _
  induction program generalizing store with
  | done value =>
      constructor
      · exact fun hcourse => ⟨value, store, .done _ _, hcourse⟩
      · rintro ⟨_, _, hfirst, hsecond⟩
        obtain ⟨rfl, rfl⟩ := done_iff.mp hfirst
        exact hsecond
  | ask request rest ih =>
      constructor
      · rintro (_ | ⟨hanswer, hnext⟩)
        obtain ⟨value, middle, hfirst, hsecond⟩ := (ih _).mp hnext
        exact ⟨value, middle, .ask hanswer hfirst, hsecond⟩
      · rintro ⟨value, middle, hfirst, hsecond⟩
        cases hfirst with
        | ask hanswer hnext => exact .ask hanswer ((ih _).mpr ⟨value, middle, hnext, hsecond⟩)

/-! ## Attempts -/

theorem run_pure_iff {value : α} {result : Except Fault α} :
    Course (pure value : Attempt α).run store result after ↔ result = .ok value ∧ store = after :=
  done_iff

theorem run_throw_iff {fault : Fault} {result : Except Fault α} :
    Course (throw fault : Attempt α).run store result after ↔
      result = .error fault ∧ store = after :=
  done_iff

/-- A program as an attempt never ends with a fault. -/
theorem run_liftM_iff {program : Program α} {result : Except Fault α} :
    Course (liftM program : Attempt α).run store result after ↔
      ∃ value, result = .ok value ∧ Course program store value after := by
  change Course (program >>= fun value => pure (Except.ok value)) store result after ↔ _
  rw [bind_iff]
  constructor
  · rintro ⟨value, middle, hcourse, hpure⟩
    obtain ⟨rfl, rfl⟩ := pure_iff.mp hpure
    exact ⟨value, rfl, hcourse⟩
  · rintro ⟨value, rfl, hcourse⟩
    exact ⟨value, after, hcourse, .done _ _⟩

theorem run_request_iff {request : Request α} {result : Except Fault α} :
    Course (Attempt.request request).run store result after ↔
      ∃ value, result = .ok value ∧
        (request.Visible → value = (PrivateStore.answer request store).1) ∧
        after = (PrivateStore.answer request store).2 := by
  change Course (liftM (Program.request request) : Attempt α).run store result after ↔ _
  simp only [run_liftM_iff, request_iff]

/-- An attempt goes on after a success and ends with a fault. -/
theorem run_bind_iff {attempt : Attempt α} {next : α → Attempt β} {last : Except Fault β} :
    Course (attempt >>= next).run store last after ↔
      (∃ value middle, Course attempt.run store (.ok value) middle ∧
          Course (next value).run middle last after) ∨
        ∃ fault, Course attempt.run store (.error fault) after ∧ last = .error fault := by
  change Course (attempt.run >>= ExceptT.bindCont next) store last after ↔ _
  rw [bind_iff]
  constructor
  · rintro ⟨answer, middle, hfirst, hsecond⟩
    cases answer with
    | ok value => exact .inl ⟨value, middle, hfirst, hsecond⟩
    | error fault =>
        obtain ⟨rfl, rfl⟩ := done_iff.mp hsecond
        exact .inr ⟨fault, hfirst, rfl⟩
  · rintro (⟨value, middle, hfirst, hsecond⟩ | ⟨fault, hfirst, rfl⟩)
    · exact ⟨.ok value, middle, hfirst, hsecond⟩
    · exact ⟨.error fault, after, hfirst, .done _ _⟩

/-- An attempt whose first part is a program. -/
theorem run_lift_bind_iff {program : Program α} {next : α → Attempt β} {last : Except Fault β} :
    Course ((liftM program : Attempt α) >>= next).run store last after ↔
      ∃ value middle, Course program store value middle ∧
        Course (next value).run middle last after := by
  rw [run_bind_iff]
  simp only [run_liftM_iff, Except.ok.injEq, exists_eq_left', reduceCtorEq, false_and, exists_false,
    or_false]

/-- An attempt that first asks for something visible goes on with the answer. -/
theorem run_visible_bind_iff {request : Request α} (hvisible : request.Visible)
    {next : α → Attempt β} {last : Except Fault β} :
    Course (Attempt.request request >>= next).run store last after ↔
      Course (next (PrivateStore.answer request store).1).run (PrivateStore.answer request store).2
        last after := by
  change Course (liftM (Program.request request) >>= next : Attempt β).run store last after ↔ _
  rw [run_lift_bind_iff]
  simp only [request_iff, hvisible, true_imp_iff]
  constructor
  · rintro ⟨value, middle, ⟨rfl, rfl⟩, hnext⟩
    exact hnext
  · exact fun hnext => ⟨_, _, ⟨rfl, rfl⟩, hnext⟩

/-! ## Looking at a place -/

theorem outline_iff {place : Place} {node : Outline} :
    Course place.outline store node after ↔
      node = ((store.view? place).map Tree.outline).getD default ∧ store = after := by
  rw [Place.outline, bind_iff]
  simp only [request_iff, pure_iff, PrivateStore.answer, Request.Visible, true_imp_iff]
  constructor
  · rintro ⟨value, middle, ⟨rfl, rfl⟩, rfl, rfl⟩
    exact ⟨rfl, rfl⟩
  · rintro ⟨rfl, rfl⟩
    exact ⟨_, _, ⟨rfl, rfl⟩, rfl, rfl⟩

theorem view_iff {place : Place} {tree : Tree} :
    Course place.view store tree after ↔
      tree = (store.view? place).getD default ∧ store = after := by
  rw [Place.view, bind_iff]
  simp only [request_iff, pure_iff, PrivateStore.answer, Request.Visible, true_imp_iff]
  constructor
  · rintro ⟨value, middle, ⟨rfl, rfl⟩, rfl, rfl⟩
    exact ⟨rfl, rfl⟩
  · rintro ⟨rfl, rfl⟩
    exact ⟨_, _, ⟨rfl, rfl⟩, rfl, rfl⟩

theorem key_iff {place : Place} {key : String} :
    Course place.key store key after ↔
      key = (((store.view? place).map Tree.outline).getD default).head.key ∧ store = after := by
  rw [Place.key, bind_iff]
  simp only [outline_iff, pure_iff]
  constructor
  · rintro ⟨value, middle, ⟨rfl, rfl⟩, rfl, rfl⟩
    exact ⟨rfl, rfl⟩
  · rintro ⟨rfl, rfl⟩
    exact ⟨_, _, ⟨rfl, rfl⟩, rfl, rfl⟩

end Course

/-- The store after a change, if there is one, to the node at a place. -/
def PrivateStore.changed (store : PrivateStore) (place : Place) :
    Option (Change Origin) → PrivateStore
  | none => store
  | some change => (answer (.change place change) store).2

/-- A refusal changes nothing, and its fault shows the node. -/
theorem Course.refuse {α : Type} {place : Place} {refusal : Refusal} {store after : PrivateStore}
    {result : Except Fault α} (hcourse : Course (place.refuse refusal).run store result after) :
    result = .error (.ofRefusal refusal ((store.view? place).getD default)) ∧ store = after := by
  rw [Place.refuse, run_lift_bind_iff] at hcourse
  obtain ⟨tree, _, hview, hthrow⟩ := hcourse
  obtain ⟨rfl, rfl⟩ := view_iff.mp hview
  exact run_throw_iff.mp hthrow

/-- Carrying out an operation makes the change that its verdict on the node names, and answers what
the verdict answers. -/
theorem Course.perform {α : Type} {place : Place} {decide : Outline → Verdict Origin α}
    {store after : PrivateStore} {result : Except Fault α}
    (hcourse : Course (place.perform decide).run store result after) :
    let verdict := decide (((store.view? place).map Tree.outline).getD default)
    result = verdict.answer.mapError
        (fun refusal => .ofRefusal refusal ((after.view? place).getD default)) ∧
      after = store.changed place verdict.change := by
  rw [Place.perform, run_lift_bind_iff] at hcourse
  obtain ⟨node, middle, houtline, hrest⟩ := hcourse
  obtain ⟨hnode, rfl⟩ := outline_iff.mp houtline
  rw [← hnode]
  simp only at hrest ⊢
  generalize decide node = verdict at hrest ⊢
  obtain ⟨change, answer⟩ := verdict
  cases change with
  | none =>
      cases answer with
      | ok value =>
          obtain ⟨rfl, rfl⟩ := run_pure_iff.mp hrest
          exact ⟨rfl, rfl⟩
      | error refusal =>
          obtain ⟨rfl, rfl⟩ := Course.refuse hrest
          exact ⟨rfl, rfl⟩
  | some change =>
      have hvisible : (Request.change place change).Visible := trivial
      have hanswer := (run_visible_bind_iff hvisible).mp hrest
      cases answer with
      | ok value =>
          obtain ⟨rfl, rfl⟩ := run_pure_iff.mp hanswer
          exact ⟨rfl, rfl⟩
      | error refusal =>
          obtain ⟨rfl, rfl⟩ := Course.refuse hanswer
          exact ⟨rfl, rfl⟩

/-- A run on a shared store follows a course on the private store that it mirrors. -/
theorem Mirrors.run {α : Type} {store : SharedStore} {plain : PrivateStore}
    (hmirrors : Mirrors store plain []) (program : Program α) :
    ∃ after, Course program plain (program.run store).1 after ∧
      Mirrors (program.run store).2 after [] := by
  induction program generalizing store plain with
  | done result => exact ⟨plain, .done _ _, hmirrors⟩
  | ask request next ih =>
      obtain ⟨after, hcourse, hafter⟩ := ih _ (hmirrors.answer request)
      exact ⟨after, .ask (fun hvisible => hmirrors.answer_eq hvisible) hcourse, hafter⟩

end KeyedTree
