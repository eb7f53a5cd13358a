import KeyedTree.Proofs.Workspace.GuardedEdits

/-! # Courses of walks

What a walk does at a node, along a row of children and behind it, whatever its visits do. Visits
may take notes of what they see, which changes nothing about the walk.
-/

namespace KeyedTree

variable {σ : Type} {visit : Place → σ → Program (Traversal × σ)} {exceptions : List String}
  {reach : Nat} {place : Place} {guards : Guards} {before middle after : PrivateStore}
  {old left : Tree} {state : σ} {result : Except Fault Unit × σ}

/-! ## Safe visits -/

namespace Walk

theorem safe_self
    (hvisit : ∀ path state, (visit (place.below path) state).Safe (guards.guard (place.below path)))
    (state : σ) :
    (visit place state).Safe (guards.guard place) := by
  have hself := hvisit [] state
  rwa [Place.below_nil] at hself

theorem safe_child
    (hvisit : ∀ path state, (visit (place.below path) state).Safe (guards.guard (place.below path)))
    (pos : Nat) (path : List Nat) (state : σ) :
    (visit ((place.child pos).below path) state).Safe
      (guards.guard ((place.child pos).below path)) := by
  rw [← Place.below_cons]
  exact hvisit (pos :: path) state

/-- A walk is safe if all visits from the place on are. -/
theorem safe_run
    (hvisit : ∀ path state,
      (visit (place.below path) state).Safe (guards.guard (place.below path))) :
    (run visit exceptions reach place state).Safe (guards.guard place) := by
  have hwalk := Program.safe_walk exceptions hvisit reach [] state
  rwa [List.append_nil] at hwalk

end Walk

/-! ## What walks do -/

/-- What was done to a child under its guard is seen from its parent. -/
theorem Guards.Kept.view?_parent {pos : Nat} {parent edited : Tree}
    (hkept : (guards.guard (place.child pos)).Kept before after)
    (hparent : before.view? place = some parent)
    (hedited : after.view? (place.child pos) = some edited) :
    after.view? place = some (.node parent.head (parent.children.set pos edited)) := by
  obtain ⟨edit, hmoved⟩ := hkept.moved place.slot (place.path ++ [pos]) (if_pos rfl)
  have hafter : after.view? place =
      some (.node parent.head (parent.children.modify pos (Tree.editAt edit []))) := by
    rw [Guards.view?_of_edited hmoved, hparent, Option.map_some, Tree.editAt_cons]
  rw [Guards.view?_child, hafter, Option.bind_some, Tree.children_node] at hedited
  rw [hafter]
  refine congrArg (some ∘ Tree.node parent.head) (List.ext_getElem? fun at_ => ?_)
  by_cases hat : pos = at_
  · subst hat
    obtain ⟨hlt, _⟩ := List.getElem?_eq_some_iff.mp hedited
    rw [hedited, List.getElem?_set_self (by rwa [List.length_modify] at hlt)]
  · rw [List.getElem?_modify_ne _ _ hat, List.getElem?_set_ne hat]

namespace Course

/-- A node with an exceptional key is passed, and any other node is visited. -/
theorem walk_entry {next : Traversal × σ → Program (Except Fault Unit × σ)}
    (hold : before.view? place = some old)
    (hcourse : Course (do
      if exceptions.contains (← place.key) then
        return (.ok (), state)
      next (← visit place state)) before result after) :
    (old.key ∈ exceptions ∧ result = (.ok (), state) ∧ before = after) ∨
      old.key ∉ exceptions ∧
        ∃ traversal state' middle, Course (visit place state) before (traversal, state') middle ∧
        Course (next (traversal, state')) middle result after := by
  obtain ⟨key, _, hkey, hcourse⟩ := bind_iff.mp hcourse
  obtain ⟨rfl, rfl⟩ := key_iff.mp hkey
  rw [hold] at hcourse
  split at hcourse
  next hexception =>
    obtain ⟨rfl, rfl⟩ := pure_iff.mp hcourse
    exact .inl ⟨List.contains_iff_mem.mp hexception, rfl, rfl⟩
  next hallowed =>
    obtain ⟨⟨traversal, state'⟩, middle, hvisit, hcourse⟩ := bind_iff.mp hcourse
    exact .inr ⟨mt List.contains_iff_mem.mpr hallowed, traversal, state', middle, hvisit, hcourse⟩

/-- After the visit a walk is over, or it goes on to the children if it may go that far and the
visit lets it. -/
theorem walk_run (hold : before.view? place = some old)
    (hcourse : Course (Walk.run visit exceptions reach place state) before result after) :
    (old.key ∈ exceptions ∧ result = (.ok (), state) ∧ before = after) ∨
      old.key ∉ exceptions ∧
        ∃ traversal state' middle, Course (visit place state) before (traversal, state') middle ∧
        ((reach = 0 ∨ traversal = .skipBelow) ∧ result = (.ok (), state') ∧ middle = after ∨
          traversal = .goOn ∧ ∃ further, reach = further + 1 ∧
            Course (Walk.below (Walk.run visit exceptions further) place state') middle result
              after) := by
  cases reach with
  | zero =>
      refine (walk_entry hold hcourse).imp_right
        fun ⟨hkey, traversal, state', middle, hvisit, hnext⟩ => ?_
      obtain ⟨rfl, rfl⟩ := pure_iff.mp hnext
      exact ⟨hkey, _, _, _, hvisit, .inl ⟨.inl rfl, rfl, rfl⟩⟩
  | succ further =>
      refine (walk_entry hold hcourse).imp_right
        fun ⟨hkey, traversal, state', middle, hvisit, hnext⟩ => ?_
      refine ⟨hkey, traversal, state', middle, hvisit, ?_⟩
      cases traversal with
      | skipBelow =>
          obtain ⟨rfl, rfl⟩ := pure_iff.mp hnext
          exact .inl ⟨.inr rfl, rfl, rfl⟩
      | goOn => exact .inr ⟨rfl, further, rfl, hnext⟩

/-- A walk over a row of children walks over the first one, which is as it was, and unless that ends
with a fault, it walks over the rest. -/
theorem walk_row {walkChild : Place → σ → Program (Except Fault Unit × σ)} {visited : List Nat}
    {head : Head} {done rest : List Tree} {child : Tree} (hwrite : guards.Writable place)
    (hsafe : ∀ pos state, (walkChild (place.child pos) state).Safe (guards.guard (place.child pos)))
    (hkept : guards.ChildrenKept place visited before middle)
    (hview : middle.view? place = some (.node head (done ++ child :: rest)))
    (hcourse : Course (Walk.row walkChild place (List.range' done.length (child :: rest).length)
      state) middle result after) :
    (guards.guard (place.child done.length)).Sound middle ∧
      middle.view? (place.child done.length) = some child ∧
      ∃ answer state' last, Course (walkChild (place.child done.length) state) middle
        (answer, state') last ∧ ∀ final, last.view? (place.child done.length) = some final →
          last.view? place = some (.node head (done ++ final :: rest)) ∧
            ((∃ fault, answer = .error fault ∧ result = (.error fault, state') ∧ last = after) ∨
              answer = .ok () ∧ (∃ visited, guards.ChildrenKept place visited before last) ∧
                Course (Walk.row walkChild place (List.range' (done ++ [final]).length rest.length)
                  state') last result
                  after) := by
  rw [List.length_cons, List.range'_succ] at hcourse
  obtain ⟨_, _, hown, hcourse⟩ := bind_iff.mp hcourse
  obtain rfl := own_iff.mp hown
  obtain ⟨⟨answer, state'⟩, last, hwalk, hcourse⟩ := bind_iff.mp hcourse
  have hsound := hkept.sound_child done.length
  have hstep := hsafe _ _ _ hsound _ _ hwalk
  have hthere : middle.view? (place.child done.length) = some child := by
    rw [Guards.view?_child, hview, Option.bind_some, Tree.children_node]
    simp
  refine ⟨hsound, hthere, answer, state', last, hwalk, fun final hfinal => ⟨?_, ?_⟩⟩
  · rw [hstep.view?_parent hview hfinal]
    simp
  · cases answer with
    | error fault =>
        obtain ⟨rfl, rfl⟩ := pure_iff.mp hcourse
        exact .inl ⟨fault, rfl, rfl, rfl⟩
    | ok _ =>
        refine .inr ⟨rfl, ⟨_, hkept.step hwrite hstep⟩, ?_⟩
        rw [List.length_append]
        exact hcourse

/-- Behind the row of its children a node resettles. The walk ends as it did over the row, or with a
fault of its own where the row has left keys twice. -/
theorem walk_below {walkChild : Place → σ → Program (Except Fault Unit × σ)}
    (hview : before.view? place = some left)
    (hcourse : Course (Walk.below walkChild place state) before result after) :
    ∃ answer middle,
      Course (Walk.row walkChild place (List.range' 0 left.children.length) state) before
        (answer, result.2) middle ∧
      ∀ tree, middle.view? place = some tree →
        let settled := tree.perform (Outline.resettle left.keys)
        after.view? place = some settled.2 ∧ (settled.1 = .ok [] → result.1 = answer) ∧
        ∀ key keys, settled.1 = .ok (key :: keys) → result.1 = answer.bind fun _ =>
          .error (.ofRefusal ⟨.modify, .conflict (.repeated (key :: keys))⟩ settled.2) := by
  obtain ⟨node, _, houtline, hcourse⟩ := bind_iff.mp hcourse
  obtain ⟨rfl, rfl⟩ := outline_iff.mp houtline
  rw [hview, Option.map_some, Option.getD_some] at hcourse
  obtain ⟨⟨answer, state'⟩, middle, hwalk, hcourse⟩ := bind_iff.mp hcourse
  obtain ⟨outcome, last, hsettle, hcourse⟩ := bind_iff.mp hcourse
  rw [List.range_eq_range', Tree.outline, Tree.length_keys] at hwalk
  rcases outcome with fault | _ | ⟨key, keys⟩
  · obtain ⟨rfl, rfl⟩ := pure_iff.mp hcourse
    refine ⟨answer, middle, hwalk, fun tree htree => ?_⟩
    obtain ⟨houtcome, hlast⟩ := resettle htree hsettle
    refine ⟨hlast, fun hok => ?_, fun _ _ hok => ?_⟩
    · cases houtcome.trans hok
    · cases houtcome.trans hok
  · obtain ⟨rfl, rfl⟩ := pure_iff.mp hcourse
    refine ⟨answer, middle, hwalk, fun tree htree => ?_⟩
    obtain ⟨houtcome, hlast⟩ := resettle htree hsettle
    refine ⟨hlast, fun _ => rfl, fun _ _ hok => ?_⟩
    cases houtcome.trans hok
  · cases answer with
    | error fault =>
        obtain ⟨rfl, rfl⟩ := pure_iff.mp hcourse
        refine ⟨.error fault, middle, hwalk, fun tree htree => ?_⟩
        exact ⟨(resettle htree hsettle).2, fun _ => rfl, fun _ _ _ => rfl⟩
    | ok _ =>
        obtain ⟨_, _, hrefuse, hpure⟩ := bind_iff.mp hcourse
        obtain ⟨rfl, rfl⟩ := pure_iff.mp hpure
        obtain ⟨rfl, rfl⟩ := refuse hrefuse
        refine ⟨.ok (), middle, hwalk, fun tree htree => ?_⟩
        obtain ⟨houtcome, hlast⟩ := resettle htree hsettle
        refine ⟨hlast, fun hok => ?_, fun key' keys' hok => ?_⟩
        · cases houtcome.trans hok
        · cases houtcome.trans hok
          rw [hlast]
          rfl

end Course

/-! ## Taking notes -/

section Forgets

variable {α β γ δ : Type} {forget : α → β} {forget' : γ → δ}

/-- A program does to shared nodes what another one does, which answers less. -/
def Program.Forgets (forget : α → β) (program : Program α) (plain : Program β) : Prop :=
  ∀ store : SharedStore, plain.run store = Prod.map forget id (program.run store)

namespace Program.Forgets

theorem pure (value : α) : Forgets forget (Pure.pure value) (Pure.pure (forget value)) := by
  intro store
  rfl

theorem same (program : Program α) : Forgets id program program := by
  intro store
  rfl

theorem bind {program : Program α} {plain : Program β} {next : α → Program γ}
    {next' : β → Program δ} (hfirst : program.Forgets forget plain)
    (hnext : ∀ value, (next value).Forgets forget' (next' (forget value))) :
    (program >>= next).Forgets forget' (plain >>= next') := by
  intro store
  rw [run_bind, run_bind, hfirst store]
  exact hnext _ _

theorem ite {condition : Prop} [Decidable condition] {first second : Program α}
    {first' second' : Program β} (hfirst : first.Forgets forget first')
    (hsecond : second.Forgets forget second') :
    (if condition then first else second).Forgets forget
      (if condition then first' else second') := by
  split
  · exact hfirst
  · exact hsecond

end Program.Forgets

end Forgets

/-- The answer without the notes. -/
def Walk.plainly {α τ : Type} (noted : α × σ × τ) : α × σ :=
  (noted.1, noted.2.1)

section Notes

variable {τ : Type}

theorem Walk.forgets_row {walkChild : Place → σ × τ → Program (Except Fault Unit × σ × τ)}
    {walkChild' : Place → σ → Program (Except Fault Unit × σ)}
    (hchild : ∀ place state, (walkChild place state).Forgets plainly (walkChild' place state.1))
    (place : Place) (positions : List Nat) (state : σ × τ) :
    (row walkChild place positions state).Forgets plainly
      (row walkChild' place positions state.1) := by
  induction positions generalizing state with
  | nil => exact .pure _
  | cons pos rest ih =>
      refine .bind (.same _) fun _ => .bind (hchild _ state) fun ⟨answer, state⟩ => ?_
      cases answer with
      | ok _ => exact ih state
      | error fault => exact .pure _

theorem Walk.forgets_below {walkChild : Place → σ × τ → Program (Except Fault Unit × σ × τ)}
    {walkChild' : Place → σ → Program (Except Fault Unit × σ)}
    (hchild : ∀ place state, (walkChild place state).Forgets plainly (walkChild' place state.1))
    (place : Place) (state : σ × τ) :
    (below walkChild place state).Forgets plainly (below walkChild' place state.1) := by
  refine .bind (.same _) fun node => .bind (forgets_row hchild place _ state)
    fun ⟨answer, state⟩ => ?_
  refine .bind (.same _) fun outcome => ?_
  rcases outcome with fault | _ | ⟨key, keys⟩
  · exact .pure _
  · exact .pure _
  · cases answer with
    | error fault => exact .pure _
    | ok _ => exact .bind (.same _) fun _ => .pure _

/-- If taking notes changes nothing about the visits, it changes nothing about the walk. -/
theorem Walk.forgets_of_visits {visit' : Place → σ × τ → Program (Traversal × σ × τ)}
    (hvisit : ∀ place state, (visit' place state).Forgets plainly (visit place state.1))
    (exceptions : List String) (reach : Nat) (place : Place) (state : σ × τ) :
    (run visit' exceptions reach place state).Forgets plainly
      (run visit exceptions reach place state.1) := by
  induction reach generalizing place state with
  | zero =>
      refine .bind (.same _) fun key => .ite (.pure _) ?_
      exact .bind (hvisit place state) fun _ => .pure _
  | succ reach ih =>
      refine .bind (.same _) fun key => .ite (.pure _) ?_
      refine .bind (hvisit place state) fun ⟨traversal, state⟩ => ?_
      cases traversal with
      | skipBelow => exact .pure _
      | goOn => exact forgets_below (fun place state => ih place state) place state

end Notes

end KeyedTree
