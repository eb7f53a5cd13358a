import KeyedTree.Proofs.Workspace.Watching

/-! # Rules for nodes and for changes

Some rules hold of every node at every moment of a run, also of a node that is out of step with its
children because one of them is being edited. What makes them hold at the moments in between is that
such a node has its old head and as many children as before. When every decision on a node that
keeps the rule asks for changes of a certain form only, then all changes of all programs made of
operations are of that form.
-/

namespace KeyedTree

variable {α : Type}

/-- A rule for nodes, and one for the changes of nodes that keep the first. -/
structure Discipline (holds : Outline → Prop) (allows : Outline → Change Origin → Prop) : Prop where
  /-- Nodes that are in step with their children keep the rule. -/
  of_wellFormed : ∀ {node : Outline}, node.WellFormed → holds node
  /-- The rule does not look at the keys of the children. -/
  congr : ∀ {node other : Outline}, holds node → other.head = node.head →
    other.keys.length = node.keys.length → holds other
  attach : ∀ {node : Outline}, holds node → ∀ operation renamed child guest,
    (node.attach operation renamed child guest).Makes (allows node)
  attachOver : ∀ {node : Outline}, holds node → ∀ key child guest,
    (node.attachOver key child guest).Makes (allows node)
  append : ∀ {node : Outline}, holds node →
    ∀ child guest, (node.append child guest).Makes (allows node)
  entry : ∀ {node : Outline}, holds node → ∀ key blank, (node.entry key blank).Makes (allows node)
  edit : ∀ {node : Outline}, holds node → ∀ edit : Edit,
    (edit.decide node : Verdict Origin Unit).Makes (allows node)
  settle : ∀ {node : Outline}, holds node → ∀ pos old,
    (node.settle pos old : Verdict Origin Unit).Makes (allows node)
  resettle : ∀ {node : Outline}, holds node → ∀ {old : List String}, old.length = node.keys.length →
    (node.resettle old : Verdict Origin (List String)).Makes (allows node)
  /-- A node takes over the head of another, and has as many children then. -/
  refill : ∀ {node other : Outline}, holds other → ∀ children : List Origin,
    children.length = other.keys.length → allows node ⟨other.head, .refill children⟩

/-- In every node a rule holds. -/
def PrivateStore.All (holds : Outline → Prop) (store : PrivateStore) : Prop :=
  ∀ place node, store.view? place = some node → holds node.outline

/-- A change is allowed in the node that it is asked for, where `view?` shows the nodes. -/
def Request.Meets (allows : Outline → Change Origin → Prop) (view? : Place → Option Tree) :
    Request α → Prop
  | .change place made => ∀ node, view? place = some node → allows node.outline made
  | _ => True

/-- A request finds a rule in force, and asks for no change that is not allowed. -/
def Request.Obeys (holds : Outline → Prop) (allows : Outline → Change Origin → Prop)
    (request : Request α) (store : PrivateStore) : Prop :=
  store.All holds ∧ request.Meets allows store.view?

/-- At every request of a program, on whatever sound workspace it begins, a rule is obeyed. -/
def Program.Disciplined (holds : Outline → Prop) (allows : Outline → Change Origin → Prop)
    (guards : Guards) (program : Program α) : Prop :=
  ∀ before, guards.Sound before → before.All holds →
    program.Watched (Request.Obeys holds allows) before

variable {holds : Outline → Prop} {allows : Outline → Change Origin → Prop}

/-! ## Above an edit -/

/-- A node that is not at or below an edit keeps its head and the number of its children. -/
theorem Tree.of_subtree?_editAt {edit : Tree → Tree} {path other : List Nat} {tree node : Tree}
    (habove : ¬path <+: other) (hnode : (editAt edit path tree).subtree? other = some node) :
    ∃ old, tree.subtree? other = some old ∧ node.head = old.head ∧
      node.children.length = old.children.length := by
  induction path generalizing other tree with
  | nil => exact absurd List.nil_prefix habove
  | cons pos path ih =>
      rw [editAt_cons] at hnode
      cases other with
      | nil =>
          rw [subtree?_nil, Option.some.injEq] at hnode
          subst hnode
          exact ⟨tree, subtree?_nil tree, rfl, List.length_modify _ _ _⟩
      | cons pos' other =>
          rw [subtree?_cons, children_node] at hnode
          rw [subtree?_cons]
          by_cases hpos : pos = pos'
          · subst hpos
            rw [List.prefix_cons_inj] at habove
            rw [List.getElem?_modify_eq] at hnode
            cases hchild : tree.children[pos]? with
            | none =>
                rw [hchild] at hnode
                cases hnode
            | some child =>
                rw [hchild] at hnode
                exact ih habove hnode
          · rw [List.getElem?_modify_ne _ _ hpos] at hnode
            exact ⟨node, hnode, rfl, rfl⟩

namespace Discipline

variable {guards : Guards} {before after : PrivateStore} {place : Place}

/-- A rule stays in force above an edit. -/
theorem above (hrule : Discipline holds allows) {edit : Tree → Tree} {slot : Slot}
    {edited path : List Nat} {node : Tree}
    (hmoved : after.shelf.get? slot = (before.shelf.get? slot).map (Tree.editAt edit edited))
    (hall : before.All holds) (habove : ¬edited <+: path)
    (hnode : after.view? ⟨slot, path⟩ = some node) :
    holds node.outline := by
  rw [PrivateStore.view?, hmoved] at hnode
  cases hheld : before.shelf.get? slot with
  | none =>
      rw [hheld] at hnode
      cases hnode
  | some tree =>
      rw [hheld] at hnode
      obtain ⟨old, hold, hhead, hlength⟩ := Tree.of_subtree?_editAt habove hnode
      have hview : before.view? ⟨slot, path⟩ = some old := by
        rw [PrivateStore.view?, hheld]
        exact hold
      have hkeys : node.keys.length = old.keys.length := by
        rw [Tree.length_keys, Tree.length_keys, hlength]
      exact hrule.congr (hall _ old hview) hhead hkeys

/-- What is neither at nor below a node that is being edited is above or beside it. -/
theorem exists_of_not_readable {slot : Slot} {path : List Nat}
    (hread : ¬guards.Readable ⟨slot, path⟩) :
    ∃ edited, guards slot = some edited ∧ ¬edited <+: path := by
  rw [Guards.Readable, Guards.reach] at hread
  cases hguard : guards slot with
  | none =>
      rw [hguard] at hread
      exact absurd List.nil_prefix hread
  | some edited =>
      rw [hguard] at hread
      exact ⟨edited, rfl, hread⟩

/-- A rule stays in force, whatever a program does under guards. -/
theorem all_of_kept (hrule : Discipline holds allows) (hkept : guards.Kept before after)
    (hall : before.All holds) : after.All holds := by
  rintro ⟨slot, path⟩ node hnode
  by_cases hread : guards.Readable ⟨slot, path⟩
  · exact hrule.of_wellFormed (hkept.sound.readable hread hnode).outline
  · obtain ⟨edited, hguard, habove⟩ := exists_of_not_readable hread
    obtain ⟨edit, hmoved⟩ := hkept.moved slot edited hguard
    exact hrule.above hmoved hall habove hnode

/-- A rule stays in force while children are edited. -/
theorem all_of_childrenKept (hrule : Discipline holds allows) {positions : List Nat}
    (hkept : guards.ChildrenKept place positions before after) (hwrite : guards.Writable place)
    (hall : before.All holds) : after.All holds := by
  rintro ⟨slot, path⟩ node hnode
  by_cases hread : guards.Readable ⟨slot, path⟩
  · by_cases hslot : slot = place.slot
    · subst hslot
      rw [Guards.Readable, ← hwrite] at hread
      obtain ⟨below, rfl⟩ := hread
      cases below with
      | nil =>
          -- the parent has its old head, and as many children
          rw [List.append_nil] at hnode
          rcases optionRel_cases hkept.node with ⟨old, new, hold, hnew, hedited⟩ | ⟨_, hnone⟩
          · obtain rfl := Option.some.inj (hnew.symm.trans hnode)
            exact hrule.congr (hall place old hold) hedited.head_eq hedited.length_keys
          · rw [hnone] at hnode
            cases hnode
      | cons pos below =>
          have hbelow : (guards.guard (place.child pos)).Readable
              ⟨place.slot, place.path ++ pos :: below⟩ := by
            refine (Guards.readable_guard_same _ ?_).mpr ⟨below, ?_⟩
            · rfl
            · simp [Place.child]
          exact hrule.of_wellFormed ((hkept.sound_child pos).readable hbelow hnode).outline
    · have hother := (Guards.readable_guard_other (place.child 0) hslot).mpr hread
      exact hrule.of_wellFormed ((hkept.sound_child 0).readable hother hnode).outline
  · obtain ⟨edited, hguard, habove⟩ := exists_of_not_readable hread
    obtain ⟨edit, hmoved⟩ := hkept.moved slot edited hguard
    exact hrule.above hmoved hall habove hnode

/-! ## Operations -/

variable {store : PrivateStore}

theorem obeys_of_asks {request : Request α} (hasks : request.Asks) (hall : store.All holds) :
    request.Obeys holds allows store := by
  refine ⟨hall, ?_⟩
  cases request <;> trivial

/-- An operation whose change is allowed, and which leaves the rule in force. -/
theorem watched_perform {decide : Outline → Verdict Origin α} (hall : store.All holds)
    (hafter : ∀ result after, Course (place.perform decide).run store result after →
      after.All holds)
    (hmakes : ∀ node, store.view? place = some node →
      (decide node.outline).Makes (allows node.outline)) :
    (place.perform decide).run.Watched (Request.Obeys holds allows) store := by
  have hcourse := Course.of_run (place.perform decide).run store
  have hthen := hafter _ _ hcourse
  rw [(Course.perform hcourse).2] at hthen
  refine .perform (fun request hasks => obeys_of_asks hasks hall) ?_
    fun request hasks => obeys_of_asks hasks hthen
  intro made hmade
  refine ⟨hall, fun node hnode => ?_⟩
  rw [hnode, Option.map_some, Option.getD_some] at hmade
  exact hmakes node hnode made hmade

theorem consult (hrule : Discipline holds allows) {decide : Outline → Verdict Origin α}
    (place : Place) (hasks : ∀ node, (decide node).change = none) :
    (place.perform decide).run.Disciplined holds allows guards := by
  intro before hsound hall
  exact watched_perform hall
    (fun result after hcourse =>
      hrule.all_of_kept (Program.safe_consult place hasks before hsound result after hcourse) hall)
    fun node _ => Verdict.makes_of_change_eq_none (hasks node.outline)

theorem performed_edit (hrule : Discipline holds allows) (hwrite : guards.Writable place)
    (edit : Edit) :
    (place.perform edit.decide).run.Disciplined holds allows guards := by
  intro before hsound hall
  exact watched_perform hall
    (fun result after hcourse =>
      hrule.all_of_kept (Program.safe_edit hwrite edit before hsound result after hcourse) hall)
    fun node hnode => hrule.edit (hall place node hnode) edit

theorem watched_argumentHead (operation : Operation) (hall : store.All holds) :
    (argumentHead operation).run.Watched (Request.Obeys holds allows) store := by
  refine .run_bind (.run_liftM (.request (obeys_of_asks trivial hall))) fun found _ _ => ?_
  cases found <;> trivial

theorem watched_argumentTree (hall : store.All holds) :
    argumentTree.run.Watched (Request.Obeys holds allows) store := by
  refine .run_bind (.run_liftM (.request (obeys_of_asks trivial hall))) fun found _ _ => ?_
  cases found <;> trivial

/-- An operation that takes in the argument. -/
theorem watched_takeIn (hrule : Discipline holds allows) {decide : Outline → Verdict Origin α}
    (hwrite : guards.Writable place) (hfree : guards .argument = none) (hsound : guards.Sound store)
    (hall : store.All holds)
    (hkeeps : ∀ node, Outline.WellFormed node →
      (decide node).Keeps store.keyOf [.held .argument] node)
    (hmakes : ∀ node, holds node → (decide node).Makes (allows node)) :
    (place.perform decide).run.Watched (Request.Obeys holds allows) store :=
  watched_perform hall
    (fun _ _ hcourse =>
      hrule.all_of_kept (Program.kept_takeIn hwrite hfree hsound hkeeps hcourse) hall)
    fun node hnode => hmakes _ (hall place node hnode)

theorem opener (hrule : Discipline holds allows) (hwrite : guards.Writable place)
    (hfree : guards .argument = none) (opener : Opener) :
    (opener.run place).run.Disciplined holds allows guards := by
  intro before hsound hall
  cases opener with
  | attach child =>
      refine .run_bind (watched_argumentHead _ hall) fun guest middle hhead => ?_
      obtain ⟨rfl, hkey⟩ := Program.keyOf_argument hhead
      exact hrule.watched_takeIn hwrite hfree hsound hall
        (fun node hnode => Outline.keeps_attach hnode _ _ hkey List.mem_cons_self)
        fun node hnode => hrule.attach hnode _ _ _ guest
  | attachKeyed key child =>
      refine .run_bind (watched_argumentHead _ hall) fun guest middle hhead => ?_
      obtain ⟨rfl, hkey⟩ := Program.keyOf_argument hhead
      exact hrule.watched_takeIn hwrite hfree hsound hall
        (fun node hnode => Outline.keeps_attach hnode _ _ hkey List.mem_cons_self)
        fun node hnode => hrule.attach hnode _ _ _ guest
  | append child =>
      refine .run_bind (watched_argumentHead _ hall) fun guest middle hhead => ?_
      obtain ⟨rfl, _⟩ := Program.keyOf_argument hhead
      exact hrule.watched_takeIn hwrite hfree hsound hall
        (fun node hnode => Outline.keeps_append hnode guest List.mem_cons_self)
        fun node hnode => hrule.append hnode _ guest
  | entry key =>
      exact watched_perform hall
        (fun result after hcourse => hrule.all_of_kept
          (Program.safe_opener hwrite hfree (.entry key) before hsound result after hcourse) hall)
        fun node hnode => hrule.entry (hall place node hnode) key _
  | child pos => exact hrule.consult place (Program.child_change _ pos) before hsound hall
  | childOf key => exact hrule.consult place (Program.childOf_change _ key) before hsound hall
  | lastChild => exact hrule.consult place (Program.lastChild_change _) before hsound hall
  | assign key child =>
      refine .run_bind (watched_argumentHead _ hall) fun guest middle hhead => ?_
      obtain ⟨rfl, hkey⟩ := Program.keyOf_argument hhead
      have hkeeps : ∀ node, Outline.WellFormed node →
          (Outline.attachOver key (.held .argument) guest node).Keeps before.keyOf
            [.held .argument] node :=
        fun node hnode => Outline.keeps_attachOver hnode key hkey List.mem_cons_self
      refine .run_bind (hrule.watched_takeIn hwrite hfree hsound hall hkeeps
        fun node hnode => hrule.attachOver hnode _ _ guest) fun _ middle hattach => ?_
      have hkept := Program.kept_takeIn hwrite hfree hsound hkeeps hattach
      exact hrule.consult place (Program.childOf_change _ key) middle hkept.sound
        (hrule.all_of_kept hkept hall)

/-! ## Copies and clones -/

theorem copy (slot : Slot) : (Kept.copy.store place slot).run.Disciplined holds allows guards := by
  intro before _ hall
  refine .run_bind (.run_liftM (.view (fun _ hasks => obeys_of_asks hasks hall) place))
    fun tree middle hview => ?_
  obtain ⟨_, _, hview⟩ := Course.run_liftM_iff.mp hview
  obtain ⟨_, rfl⟩ := Course.view_iff.mp hview
  exact .run_liftM (.request ⟨hall, trivial⟩)

theorem copyFrom (hrule : Discipline holds allows) (hfree : guards .argument = none) :
    (do place.copyFrom (← argumentTree) : Attempt Unit).run.Disciplined holds allows guards := by
  intro before hsound hall
  refine .run_bind (watched_argumentTree hall) fun source middle hsource => ?_
  obtain ⟨rfl, hwf⟩ := Program.wellFormed_argument hfree hsound hsource
  refine .run_bind (.run_liftM (.view (fun _ hasks => obeys_of_asks hasks hall) place))
    fun tree middle hview => ?_
  obtain ⟨_, _, hview⟩ := Course.run_liftM_iff.mp hview
  obtain ⟨_, rfl⟩ := Course.view_iff.mp hview
  have hcopied := hwf.copyFrom tree
  simp only
  generalize tree.copyFrom source = copied at hcopied
  obtain ⟨result, copied⟩ := copied
  -- whatever is copied takes the place of all children
  have hallowed : ∀ node, allows node ⟨copied.head, .refill (copied.children.map .fresh)⟩ :=
    fun node => hrule.refill (hrule.of_wellFormed hcopied.outline) _
      ((List.length_map _).trans copied.length_keys.symm)
  refine .run_bind (.run_liftM (.request ⟨hall, fun node _ => hallowed node.outline⟩))
    fun _ _ _ => ?_
  cases result <;> trivial

theorem become (hrule : Discipline holds allows) (source : Place) :
    (place.become source).Disciplined holds allows guards := by
  intro before _ hall
  refine .bind (.outline (fun _ hasks => obeys_of_asks hasks hall) source)
    fun node middle hnode => ?_
  obtain ⟨rfl, rfl⟩ := Course.outline_iff.mp hnode
  refine .request ⟨hall, fun _ _ => hrule.refill ?_ _ (by simp)⟩
  cases hview : before.view? source with
  | none => exact hrule.of_wellFormed (.of_nil rfl rfl)
  | some node => exact hall source node hview

/-! ## Guards and walks -/

theorem guarded (hrule : Discipline holds allows) {pos : Nat} {edit : Place → Program α}
    (hwrite : guards.Writable place)
    (hsafe : (edit (place.child pos)).Safe (guards.guard (place.child pos)))
    (hedit : (edit (place.child pos)).Disciplined holds allows (guards.guard (place.child pos))) :
    (place.guarded pos edit).Disciplined holds allows guards := by
  intro before hsound hall
  refine .bind (.key (fun _ hasks => obeys_of_asks hasks hall) _) fun old middle hkey => ?_
  obtain ⟨hold, rfl⟩ := Course.key_iff.mp hkey
  refine .bind (.request ⟨hall, trivial⟩) fun _ middle hown => ?_
  obtain rfl := Course.own_iff.mp hown
  have hchild := (Guards.ChildrenKept.refl hsound hwrite).sound_child pos
  refine .bind (hedit _ hchild hall) fun result middle hinner => ?_
  have hkept := hsafe _ hchild _ _ hinner
  have hmiddle := hrule.all_of_kept hkept hall
  refine .bind ?_ fun _ _ _ => trivial
  exact watched_perform hmiddle
    (fun _ _ hsettle =>
      hrule.all_of_kept (Program.kept_settled hwrite hsound hold hkept hsettle) hall)
    fun node hnode => hrule.settle (hmiddle place node hnode) pos old

section

variable {σ : Type} {walkChild : Place → σ → Program (Except Fault Unit × σ)}

theorem watched_row (hrule : Discipline holds allows) (hwrite : guards.Writable place)
    (hsafe : ∀ pos state, (walkChild (place.child pos) state).Safe (guards.guard (place.child pos)))
    (hchildren : ∀ pos state,
      (walkChild (place.child pos) state).Disciplined holds allows (guards.guard (place.child pos)))
    {before : PrivateStore} (rest : List Nat) :
    ∀ (visited : List Nat) (state : σ) (middle : PrivateStore),
      guards.ChildrenKept place visited before middle → middle.All holds →
        (Walk.row walkChild place rest state).Watched (Request.Obeys holds allows) middle := by
  induction rest with
  | nil =>
      intro visited state middle _ _
      trivial
  | cons pos rest ih =>
      intro visited state middle hkept hall
      refine .bind (.request ⟨hall, trivial⟩) fun _ _ hown => ?_
      obtain rfl := Course.own_iff.mp hown
      have hchild := hkept.sound_child pos
      refine .bind (hchildren pos state _ hchild hall) fun walked last hvisit => ?_
      have hnext := hsafe pos state _ hchild _ _ hvisit
      obtain ⟨_ | _, state⟩ := walked
      · trivial
      · exact ih _ state last (hkept.step hwrite hnext) (hrule.all_of_kept hnext hall)

theorem below (hrule : Discipline holds allows) (hwrite : guards.Writable place)
    (hsafe : ∀ pos state, (walkChild (place.child pos) state).Safe (guards.guard (place.child pos)))
    (hchildren : ∀ pos state,
      (walkChild (place.child pos) state).Disciplined holds allows (guards.guard (place.child pos)))
    (state : σ) : (Walk.below walkChild place state).Disciplined holds allows guards := by
  intro before hsound hall
  refine .bind (.outline (fun _ hasks => obeys_of_asks hasks hall) place) fun node _ houtline => ?_
  obtain ⟨rfl, rfl⟩ := Course.outline_iff.mp houtline
  have hrefl := Guards.ChildrenKept.refl hsound hwrite
  refine .bind (hrule.watched_row hwrite hsafe hchildren _ _ _ _ hrefl hall)
    fun walked middle hrow => ?_
  obtain ⟨visited, hkept⟩ := Program.kept_row hwrite hsafe _ _ _ _ _ _ hrefl hrow
  have hmiddle := hrule.all_of_childrenKept hkept hwrite hall
  have hsettled : ∀ outcome after, Course (place.perform (Outline.resettle
      (((before.view? place).map Tree.outline).getD default).keys)).run middle outcome after →
        after.All holds :=
    fun _ _ hresettle =>
      hrule.all_of_kept (Program.kept_resettled hwrite hsound hkept hresettle) hall
  have hmakes : ∀ node, middle.view? place = some node → (Outline.resettle
      (((before.view? place).map Tree.outline).getD default).keys node.outline :
        Verdict Origin (List String)).Makes (allows node.outline) := by
    intro node hnode
    refine hrule.resettle (hmiddle place node hnode) ?_
    rcases optionRel_cases hkept.node with ⟨old, new, hold, hnew, hedited⟩ | ⟨_, hnone⟩
    · obtain rfl := Option.some.inj (hnew.symm.trans hnode)
      rw [hold]
      exact hedited.length_keys.symm
    · rw [hnone] at hnode
      cases hnode
  refine .bind (watched_perform hmiddle hsettled hmakes) fun settled last hsettle => ?_
  have hlast := hsettled _ _ hsettle
  split
  next => trivial
  next => trivial
  next =>
    split
    next => trivial
    next =>
      exact .bind (.refuse (fun _ hasks => obeys_of_asks hasks hlast) place _) fun _ _ _ => trivial

end

theorem walk (hrule : Discipline holds allows) {σ : Type}
    {visit : Place → σ → Program (Traversal × σ)} {slot : Slot} {base : List Nat}
    (exceptions : List String)
    (hsafe : ∀ path state,
      (visit ⟨slot, base ++ path⟩ state).Safe (guards.guard ⟨slot, base ++ path⟩))
    (hvisit : ∀ path state, (visit ⟨slot, base ++ path⟩ state).Disciplined holds allows
      (guards.guard ⟨slot, base ++ path⟩))
    (reach : Nat) :
    ∀ (path : List Nat) (state : σ),
      (Walk.run visit exceptions reach ⟨slot, base ++ path⟩ state).Disciplined holds allows
        (guards.guard ⟨slot, base ++ path⟩) := by
  induction reach with
  | zero =>
      intro path state before hsound hall
      rw [Walk.run]
      refine .bind (.key (fun _ hasks => obeys_of_asks hasks hall) _) fun key _ hkey => ?_
      obtain ⟨_, rfl⟩ := Course.key_iff.mp hkey
      split
      next => trivial
      next => exact .bind (hvisit path state before hsound hall) fun _ _ _ => trivial
  | succ reach ih =>
      intro path state before hsound hall
      rw [Walk.run]
      refine .bind (.key (fun _ hasks => obeys_of_asks hasks hall) _) fun key _ hkey => ?_
      obtain ⟨_, rfl⟩ := Course.key_iff.mp hkey
      split
      next => trivial
      next =>
        refine .bind (hvisit path state before hsound hall) fun visited middle hvisited => ?_
        have hkept := hsafe path state before hsound _ _ hvisited
        obtain ⟨traversal, state⟩ := visited
        cases traversal with
        | skipBelow => trivial
        | goOn =>
            have hself : (guards.guard ⟨slot, base ++ path⟩).Writable ⟨slot, base ++ path⟩ :=
              (Guards.writable_guard_same rfl).mpr rfl
            have hbelow : ∀ pos, (guards.guard ⟨slot, base ++ path⟩).guard
                (Place.child ⟨slot, base ++ path⟩ pos) =
                  guards.guard ⟨slot, base ++ (path ++ [pos])⟩ := by
              intro pos
              rw [guards.guard_guard ⟨slot,
                base ++ path⟩ (Place.child ⟨slot, base ++ path⟩ pos) rfl, ← List.append_assoc]
              rfl
            refine hrule.below hself (fun pos state => ?_) (fun pos state => ?_) state middle
              hkept.sound (hrule.all_of_kept hkept hall)
            · have hwalk := Program.safe_walk exceptions hsafe reach (path ++ [pos]) state
              rw [hbelow]
              rwa [← List.append_assoc] at hwalk ⊢
            · have hwalk := ih (path ++ [pos]) state
              rw [hbelow]
              rwa [← List.append_assoc] at hwalk ⊢

/-! ## All programs made of operations -/

/-- Wherever it begins, a program made of operations obeys the rule at every moment. -/
theorem operates (hrule : Discipline holds allows) {program : Program α}
    (hprogram : program.Operates guards) : program.Disciplined holds allows guards := by
  induction hprogram with
  | done result => exact fun _ _ _ => trivial
  | bind hfirst _ ihfirst ihnext =>
      intro before hsound hall
      refine .bind (ihfirst before hsound hall) fun value middle hcourse => ?_
      have hkept := hfirst.safe before hsound value middle hcourse
      exact ihnext value middle hkept.sound (hrule.all_of_kept hkept hall)
  | look hasks => exact fun _ _ hall => .request (obeys_of_asks hasks hall)
  | consult place hasks => exact hrule.consult place hasks
  | own place => exact fun _ _ hall => .request ⟨hall, trivial⟩
  | touch slot => exact fun _ _ hall => .request ⟨hall, trivial⟩
  | hold hfree hmade => exact fun _ _ hall => .request ⟨hall, trivial⟩
  | share hread hfree => exact fun _ _ hall => .request ⟨hall, trivial⟩
  | take hsource htarget => exact fun _ _ hall => .request ⟨hall, trivial⟩
  | release hfree => exact fun _ _ hall => .request ⟨hall, trivial⟩
  | copy hread hfree => exact copy _
  | edit hwrite edit => exact hrule.performed_edit hwrite edit
  | opener hwrite hfree opener => exact hrule.opener hwrite hfree opener
  | copyFrom hwrite hfree => exact hrule.copyFrom hfree
  | become hwrite hread => exact hrule.become _
  | guarded hwrite hedit ih => exact hrule.guarded hwrite hedit.safe ih
  | @walk guards _ visit place exceptions reach state hwrite hvisit ih =>
      have hwalk :=
        hrule.walk exceptions (fun path state => (hvisit path state).safe) ih reach [] state
      rw [List.append_nil] at hwalk
      exact fun before hsound hall => hwalk before (hsound.guard hwrite) hall

/-- From an empty workspace a rule is in force at every moment of a run on shared nodes and at its
end, and every change that is asked for is allowed. -/
theorem always (hrule : Discipline holds allows) {program : Program α}
    (hprogram : program.Operates .free) {holds' : SharedStore → Prop}
    (himp : ∀ store plain, Mirrors store plain [] → plain.All holds → holds' store) :
    program.Always (fun request store => holds' store ∧ request.Meets allows store.view?)
      ({} : SharedStore) ∧ holds' (program.run ({} : SharedStore)).2 := by
  have hsound := Guards.sound_empty .free
  have hall : PrivateStore.All holds {} := by
    intro place node hnode
    cases hnode
  constructor
  · refine Mirrors.empty.always (fun request store plain hmirrors hobeys => ?_)
      (hrule.operates hprogram {} hsound hall)
    refine ⟨himp store plain hmirrors hobeys.1, ?_⟩
    rw [funext hmirrors.view?_eq]
    exact hobeys.2
  · obtain ⟨after, hcourse, hmirrors⟩ := Mirrors.empty.run program
    exact himp _ after hmirrors (hrule.all_of_kept (hprogram.safe {} hsound _ _ hcourse) hall)

end Discipline

end KeyedTree
