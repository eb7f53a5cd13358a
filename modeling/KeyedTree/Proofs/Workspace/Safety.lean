import KeyedTree.Proofs.Workspace.Guarding

/-! # Programs made of operations are safe

Every program made of operations keeps a sound workspace sound, whatever it does and whether its
operations are refused or not. From an empty workspace it leaves well-formed trees only, also when
its nodes are shared.
-/

namespace KeyedTree

theorem Tree.Made.wellFormed {tree : Tree} (hmade : tree.Made) : tree.WellFormed := by
  induction hmade with
  | leaf payload => exact .leaf payload
  | keyed key _ ih => exact ih.with_key key
  | read hread => exact wellFormed_of_decode hread
  | converted hconverted => exact Json.wellFormed_of_toTree _ hconverted
  | built hbuilt => exact Blueprint.wellFormed_of_build _ hbuilt

/-- A program keeps every sound workspace sound. -/
def Program.Safe {α : Type} (guards : Guards) (program : Program α) : Prop :=
  ∀ before, guards.Sound before → ∀ result after, Course program before result after →
    guards.Kept before after

namespace Program

variable {guards : Guards} {α β : Type}

theorem safe_done (result : α) : Safe guards (.done result) := by
  intro before hsound value after hcourse
  obtain ⟨_, rfl⟩ := Course.done_iff.mp hcourse
  exact .refl hsound

theorem Safe.bind {program : Program α} {next : α → Program β} (hprogram : program.Safe guards)
    (hnext : ∀ value, (next value).Safe guards) : (program >>= next).Safe guards := by
  intro before hsound result after hcourse
  obtain ⟨value, middle, hfirst, hsecond⟩ := Course.bind_iff.mp hcourse
  have hkept := hprogram before hsound value middle hfirst
  exact hkept.trans (hnext value middle hkept.sound result after hsecond)

/-- A request is safe when the store that answers it is kept. -/
theorem safe_request {request : Request α}
    (hkept : ∀ store, guards.Sound store →
      guards.Kept store (PrivateStore.answer request store).2) :
    (Program.request request).Safe guards := by
  intro before hsound result after hcourse
  obtain ⟨_, rfl⟩ := Course.request_iff.mp hcourse
  exact hkept before hsound

theorem safe_look {request : Request α} (hasks : request.Asks) :
    (Program.request request).Safe guards := by
  apply safe_request
  intro store hsound
  cases request with
  | outline place => exact .refl hsound
  | view place => exact .refl hsound
  | alike first second => exact .refl hsound
  | holders slot => exact .refl hsound
  | same first second => exact .refl hsound
  | registers => exact .refl hsound
  | own place => exact hasks.elim
  | change place change => exact hasks.elim
  | hold slot tree => exact hasks.elim
  | share place slot => exact hasks.elim
  | take source target => exact hasks.elim
  | release slot => exact hasks.elim
  | touch slot => exact hasks.elim

theorem safe_key (place : Place) : place.key.Safe guards := by
  intro before hsound result after hcourse
  obtain ⟨_, rfl⟩ := Course.key_iff.mp hcourse
  exact .refl hsound

theorem safe_own (place : Place) : (Program.request (.own place)).Safe guards :=
  safe_request fun _ hsound => .refl hsound

theorem safe_touch (slot : Slot) : (Program.request (.touch slot)).Safe guards := by
  apply safe_request
  intro store hsound
  have hkept := Guards.Kept.refl hsound
  refine ⟨fun place hwrite node hnode => ?_, fun other path hpath => ?_⟩
  · refine hsound place hwrite node ?_
    rw [← hnode]
    simp only [PrivateStore.answer, PrivateStore.view?, Shelf.get?_touch]
  · simp only [PrivateStore.answer, Shelf.get?_touch]
    exact hkept.moved other path hpath

theorem safe_hold {slot : Slot} {tree : Tree} (hfree : guards slot = none)
    (htree : tree.WellFormed) : (Program.request (.hold slot tree)).Safe guards :=
  safe_request fun _ hsound => hsound.set hfree fun _ hroot => Option.some.inj hroot ▸ htree

theorem safe_share {place : Place} {slot : Slot} (hread : guards.Readable place)
    (hfree : guards slot = none) : (Program.request (.share place slot)).Safe guards :=
  safe_request fun _ hsound => hsound.set hfree fun _ hroot => hsound.readable hread hroot

theorem safe_release {slot : Slot} (hfree : guards slot = none) :
    (Program.request (.release slot)).Safe guards :=
  safe_request fun _ hsound => hsound.set hfree (by simp)

theorem safe_take {source target : Slot} (hsource : guards source = none)
    (htarget : guards target = none) : (Program.request (.take source target)).Safe guards := by
  apply safe_request
  intro store hsound
  have hemptied : guards.Kept store ⟨store.shelf.set source none⟩ := hsound.set hsource (by simp)
  exact hemptied.trans (hemptied.sound.set htarget fun _ hroot => hsound.root hsource hroot)

/-! ## Attempts -/

/-- A slot comes to hold a copy of what is at a place. -/
theorem course_copy {place : Place} {slot : Slot} {before after : PrivateStore}
    {result : Except Fault Unit}
    (hcourse : Course (Kept.copy.store place slot).run before result after) :
    result = .ok () ∧
      after = ⟨before.shelf.set slot (some ((before.view? place).getD default).copy)⟩ := by
  rw [KeyedTree.Kept.store, Course.run_lift_bind_iff] at hcourse
  obtain ⟨tree, middle, hview, hhold⟩ := hcourse
  obtain ⟨rfl, rfl⟩ := Course.view_iff.mp hview
  obtain ⟨_, hok, _, hafter⟩ := Course.run_request_iff.mp hhold
  exact ⟨hok, hafter⟩

theorem safe_copy {place : Place} {slot : Slot} (hread : guards.Readable place)
    (hfree : guards slot = none) : (Kept.copy.store place slot).run.Safe guards := by
  intro before hsound result after hcourse
  obtain ⟨_, rfl⟩ := course_copy hcourse
  apply hsound.set hfree
  intro root hroot
  obtain rfl := Option.some.inj hroot
  cases hnode : before.view? place with
  | none => exact Tree.WellFormed.copy (.node (.of_nil rfl rfl) (by simp))
  | some node => exact (hsound.readable hread hnode).copy

/-- An operation that keeps nodes well-formed, taking in one welcome node at most. -/
theorem safe_perform {place : Place} (hwrite : guards.Writable place)
    {decide : Outline → Verdict Origin α} {offered : List Origin}
    (hwelcome : ∀ origin ∈ offered, guards.Welcomes origin) (hfew : offered.length ≤ 1)
    (hkeeps : ∀ (store : PrivateStore) node, Outline.WellFormed node →
      (decide node).Keeps store.keyOf offered node) :
    (place.perform decide).run.Safe guards := by
  intro before hsound result after hcourse
  rw [(Course.perform hcourse).2]
  exact hsound.changed hwrite hwelcome hfew (hkeeps before)

theorem safe_consult {decide : Outline → Verdict Origin α} (place : Place)
    (hasks : ∀ node, (decide node).change = none) : (place.perform decide).run.Safe guards := by
  intro before hsound result after hcourse
  rw [(Course.perform hcourse).2, hasks]
  exact .refl hsound

theorem safe_edit {place : Place} (hwrite : guards.Writable place) (edit : Edit) :
    (place.perform edit.decide).run.Safe guards :=
  safe_perform hwrite (List.forall_mem_nil guards.Welcomes) (Nat.zero_le 1)
    fun _ _ hnode => Guards.keeps_edit hnode edit

theorem child_change (operation : Operation) (pos : Nat) (node : Outline) :
    (Outline.child operation pos node : Verdict Origin Nat).change = none := by
  unfold Outline.child
  split <;> rfl

theorem childOf_change {ι : Type} (operation : Operation) (key : String) (node : Outline) :
    (Outline.childOf operation key node : Verdict ι Nat).change = none := by
  unfold Outline.childOf
  repeat' split <;> try rfl

theorem lastChild_change (operation : Operation) (node : Outline) :
    (Outline.lastChild operation node : Verdict Origin Nat).change = none := by
  unfold Outline.lastChild
  split <;> rfl

/-- Asking for the head of the argument answers it, as long as there is an argument. -/
theorem course_argumentHead {operation : Operation} {before after : PrivateStore}
    {result : Except Fault Head}
    (hcourse : Course (argumentHead operation).run before result after) :
    result = (before.view? .argument).elim (.error (.emptyHandle operation)) (.ok ·.head) ∧
      before = after := by
  have hvisible : (Request.outline .argument).Visible := trivial
  rw [argumentHead, Course.run_visible_bind_iff hvisible] at hcourse
  simp only [PrivateStore.answer] at hcourse
  cases hview : before.view? .argument with
  | none =>
      rw [hview] at hcourse
      exact Course.run_throw_iff.mp hcourse
  | some tree =>
      rw [hview] at hcourse
      exact Course.run_pure_iff.mp hcourse

/-- Asking for the argument answers it, as long as there is one. -/
theorem course_argumentTree {before after : PrivateStore} {result : Except Fault Tree}
    (hcourse : Course argumentTree.run before result after) :
    result = (before.view? .argument).elim (.error (.emptyHandle .look)) .ok ∧ before = after := by
  have hvisible : (Request.view .argument).Visible := trivial
  rw [argumentTree, Course.run_visible_bind_iff hvisible] at hcourse
  simp only [PrivateStore.answer] at hcourse
  cases hview : before.view? .argument with
  | none =>
      rw [hview] at hcourse
      exact Course.run_throw_iff.mp hcourse
  | some tree =>
      rw [hview] at hcourse
      exact Course.run_pure_iff.mp hcourse

/-- Taking in the argument takes in the node that is there. -/
theorem resolve_argument {store : PrivateStore} {tree : Tree}
    (hview : store.view? .argument = some tree) :
    (PrivateStore.resolve (.held .argument) store).1 = tree := by
  obtain ⟨root, hroot, hsub⟩ := Option.bind_eq_some_iff.mp hview
  rw [Place.argument] at hroot hsub
  rw [Tree.subtree?_nil, Option.some.injEq] at hsub
  rw [PrivateStore.resolve, hroot]
  exact hsub

/-- The head that is answered for the argument is that of the node that comes in from there. -/
theorem keyOf_argument {operation : Operation} {before after : PrivateStore} {guest : Head}
    (hcourse : Course (argumentHead operation).run before (.ok guest) after) :
    before = after ∧ before.keyOf (.held .argument) = guest.key := by
  obtain ⟨hguest, hstore⟩ := course_argumentHead hcourse
  refine ⟨hstore, ?_⟩
  cases hview : before.view? .argument with
  | none =>
      rw [hview] at hguest
      cases hguest
  | some tree =>
      rw [hview] at hguest
      cases hguest
      exact congrArg Tree.key (resolve_argument hview)

/-- What is done with the head of the argument may rely on it. -/
theorem safe_withArgument {operation : Operation} {next : Head → Attempt α}
    (hnext : ∀ before guest, guards.Sound before → before.keyOf (.held .argument) = guest.key →
      ∀ result after, Course (next guest).run before result after → guards.Kept before after) :
    (argumentHead operation >>= next).run.Safe guards := by
  intro before hsound result after hcourse
  rcases Course.run_bind_iff.mp hcourse with ⟨guest, middle, hhead, hrest⟩ | ⟨_, hhead, _⟩
  · obtain ⟨rfl, hkey⟩ := keyOf_argument hhead
    exact hnext before guest hsound hkey result after hrest
  · obtain ⟨_, rfl⟩ := course_argumentHead hhead
    exact .refl hsound

/-- An operation that takes in the argument. -/
theorem kept_takeIn {before after : PrivateStore} {place : Place} (hwrite : guards.Writable place)
    (hfree : guards .argument = none) (hsound : guards.Sound before)
    {decide : Outline → Verdict Origin α}
    (hkeeps : ∀ node, Outline.WellFormed node →
      (decide node).Keeps before.keyOf [.held .argument] node)
    {result : Except Fault α} (hcourse : Course (place.perform decide).run before result after) :
    guards.Kept before after := by
  have hwelcome : guards.Welcomes (.held .argument) := hfree
  rw [(Course.perform hcourse).2]
  exact hsound.changed hwrite (List.forall_mem_singleton.mpr hwelcome) (Nat.le_refl 1) hkeeps

theorem safe_opener {place : Place} (hwrite : guards.Writable place)
    (hfree : guards .argument = none) (opener : Opener) :
    (opener.run place).run.Safe guards := by
  cases opener with
  | attach child =>
      apply safe_withArgument
      intro before guest hsound hkey result after hcourse
      exact kept_takeIn hwrite hfree hsound
        (fun node hnode => Outline.keeps_attach hnode _ _ hkey List.mem_cons_self) hcourse
  | attachKeyed key child =>
      apply safe_withArgument
      intro before guest hsound hkey result after hcourse
      exact kept_takeIn hwrite hfree hsound
        (fun node hnode => Outline.keeps_attach hnode _ _ hkey List.mem_cons_self) hcourse
  | append child =>
      apply safe_withArgument
      intro before guest hsound _ result after hcourse
      exact kept_takeIn hwrite hfree hsound
        (fun node hnode => Outline.keeps_append hnode _ List.mem_cons_self) hcourse
  | entry key =>
      have hwelcome : guards.Welcomes (.fresh .blank) := Tree.WellFormed.leaf _
      exact safe_perform hwrite (List.forall_mem_singleton.mpr hwelcome) (Nat.le_refl 1)
        fun store node hnode => Outline.keeps_entry hnode key rfl List.mem_cons_self
  | child pos => exact safe_consult place (child_change _ pos)
  | childOf key => exact safe_consult place (childOf_change _ key)
  | lastChild => exact safe_consult place (lastChild_change _)
  | assign key child =>
      apply safe_withArgument
      intro before guest hsound hkey result after hcourse
      have hattached : ∀ result middle,
          Course (place.perform (Outline.attachOver key (.held .argument) guest)).run before result
            middle → guards.Kept before middle := fun _ _ =>
        kept_takeIn hwrite hfree hsound
          fun node hnode => Outline.keeps_attachOver hnode key hkey List.mem_cons_self
      rcases Course.run_bind_iff.mp hcourse with ⟨_, middle, hattach, hfind⟩ | ⟨_, hattach, _⟩
      · have hkept := hattached _ _ hattach
        exact hkept.trans
          (safe_consult place (childOf_change _ key) middle hkept.sound result after hfind)
      · exact hattached _ _ hattach

/-! ## Copies and clones -/

theorem resolveAll_fresh (trees : List Tree) (store : PrivateStore) :
    RowChange.resolveAll PrivateStore.resolve (trees.map .fresh) store = (trees, store) := by
  induction trees with
  | nil => rfl
  | cons tree rest ih =>
      rw [List.map_cons, RowChange.resolveAll, PrivateStore.resolve]
      simp only [ih]

/-- What is answered for the argument is well-formed, unless something is being edited there. -/
theorem wellFormed_argument (hfree : guards .argument = none) {before after : PrivateStore}
    (hsound : guards.Sound before) {source : Tree}
    (hcourse : Course argumentTree.run before (.ok source) after) :
    before = after ∧ source.WellFormed := by
  obtain ⟨hsource, hstore⟩ := course_argumentTree hcourse
  have hread : guards.Readable .argument := by
    rw [Guards.Readable, Guards.reach, Place.argument, hfree]
    exact List.nil_prefix
  refine ⟨hstore, ?_⟩
  cases hargument : before.view? .argument with
  | none =>
      rw [hargument] at hsource
      cases hsource
  | some tree =>
      rw [hargument] at hsource
      cases hsource
      exact hsound.readable hread hargument

/-- A node takes over the content of a tree as a tree of one's own does. -/
theorem course_copyFrom {place : Place} {source : Tree} {before after : PrivateStore}
    {result : Except Fault Unit}
    (hcourse : Course (place.copyFrom source).run before result after) :
    let copied := ((before.view? place).getD default).copyFrom source
    result = copied.1 ∧ after = before.editAt place fun _ => copied.2 := by
  rw [Place.copyFrom, Course.run_lift_bind_iff] at hcourse
  obtain ⟨tree, middle, hview, hcopy⟩ := hcourse
  obtain ⟨rfl, rfl⟩ := Course.view_iff.mp hview
  simp only
  generalize ((before.view? place).getD default).copyFrom source = copied at hcopy ⊢
  obtain ⟨answer, copied⟩ := copied
  rcases Course.run_bind_iff.mp hcopy with ⟨_, last, hrequest, hrest⟩ | ⟨_, hrequest, _⟩
  · obtain ⟨_, _, _, rfl⟩ := Course.run_request_iff.mp hrequest
    rw [PrivateStore.answer, RowChange.resolve, resolveAll_fresh] at hrest
    simp only [Tree.apply, RowChange.apply, Tree.node_head_children] at hrest
    split at hrest
    · obtain ⟨rfl, rfl⟩ := Course.run_pure_iff.mp hrest
      exact ⟨rfl, rfl⟩
    · obtain ⟨rfl, rfl⟩ := Course.run_throw_iff.mp hrest
      exact ⟨rfl, rfl⟩
  · obtain ⟨_, hok, _⟩ := Course.run_request_iff.mp hrequest
    cases hok

theorem safe_copyFrom {place : Place} (hwrite : guards.Writable place)
    (hfree : guards .argument = none) :
    (do place.copyFrom (← argumentTree) : Attempt Unit).run.Safe guards := by
  intro before hsound result after hcourse
  rcases Course.run_bind_iff.mp hcourse with ⟨source, middle, htree, hcopy⟩ | ⟨_, htree, _⟩
  · obtain ⟨rfl, hwf⟩ := wellFormed_argument hfree hsound htree
    obtain ⟨_, rfl⟩ := course_copyFrom hcopy
    exact hsound.editAt hwrite fun _ _ => hwf.copyFrom _
  · obtain ⟨_, rfl⟩ := course_argumentTree htree
    exact .refl hsound

theorem resolveAll_shared (places : List Place) (store : PrivateStore) :
    RowChange.resolveAll PrivateStore.resolve (places.map .shared) store =
      (places.map fun place => (store.view? place).getD .blank, store) := by
  induction places with
  | nil => rfl
  | cons place rest ih =>
      rw [List.map_cons, RowChange.resolveAll, PrivateStore.resolve]
      simp only [ih, List.map_cons]

/-- The children of a node, one place after the other. -/
theorem map_view?_child {store : PrivateStore} {source : Place} {node : Tree}
    (hnode : store.view? source = some node) :
    (List.range node.children.length).map
      (fun pos => (store.view? (source.child pos)).getD .blank) = node.children := by
  apply List.ext_getElem (by simp)
  intro pos hpos hpos'
  rw [List.getElem_map, List.getElem_range, Guards.view?_child, hnode, Option.bind_some,
    List.getElem?_eq_getElem hpos', Option.getD_some]

theorem safe_become {place source : Place} (hwrite : guards.Writable place)
    (hread : guards.Readable source) : (place.become source).Safe guards := by
  intro before hsound result after hcourse
  obtain ⟨node, middle, houtline, hrequest⟩ := Course.bind_iff.mp hcourse
  obtain ⟨rfl, rfl⟩ := Course.outline_iff.mp houtline
  obtain ⟨_, rfl⟩ := Course.request_iff.mp hrequest
  have hplaces : ∀ count : Nat,
      (List.range count).map (fun pos => Origin.shared (source.child pos)) =
        ((List.range count).map source.child).map .shared := by
    intro count
    rw [List.map_map]
    rfl
  rw [PrivateStore.answer, RowChange.resolve, hplaces, resolveAll_shared, List.map_map]
  apply hsound.editAt hwrite
  intro _ _
  cases hnode : before.view? source with
  | none =>
      change (Tree.node (default : Outline).head []).WellFormed
      exact .node (.of_nil rfl rfl) (by simp)
  | some node =>
      have hchildren := map_view?_child hnode
      have hlength : node.outline.keys.length = node.children.length := List.length_map _
      have hwf : (Tree.node node.head node.children).WellFormed := by
        rw [Tree.node_head_children]
        exact hsound.readable hread hnode
      simp only [Option.map_some, Option.getD_some, Tree.apply, RowChange.apply, hlength]
      rw [show (fun place => (before.view? place).getD Tree.blank) ∘ source.child =
        fun pos => (before.view? (source.child pos)).getD Tree.blank from rfl, hchildren]
      exact hwf

/-! ## Guards and walks -/

theorem settle_guests {pos : Nat} {old : String} (node : Outline) (change : Change Origin)
    (hchange : (Outline.settle pos old node : Verdict Origin Unit).change = some change) :
    change.row.guests = [] := by
  unfold Outline.settle at hchange
  simp only at hchange
  split at hchange
  next =>
    split at hchange
    next =>
      cases hchange
      rfl
    next =>
      cases hchange
      rfl
  next => cases hchange

theorem resettle_guests {old : List String} (node : Outline) (change : Change Origin)
    (hchange : (Outline.resettle old node : Verdict Origin (List String)).change = some change) :
    change.row.guests = [] := by
  unfold Outline.resettle at hchange
  split at hchange
  next =>
    split at hchange
    next =>
      cases hchange
      rfl
    next =>
      cases hchange
      rfl
  next =>
    cases hchange
    rfl

/-- A node whose child was edited under a guard is in order again once it has settled. -/
theorem kept_settled {place : Place} {pos : Nat} {old : String} {before middle after : PrivateStore}
    {result : Except Fault Unit} (hwrite : guards.Writable place) (hsound : guards.Sound before)
    (hold : old = (((before.view? (place.child pos)).map Tree.outline).getD default).head.key)
    (hedited : (guards.guard (place.child pos)).Kept before middle)
    (hsettle : Course (place.perform (Outline.settle pos old)).run middle result after) :
    guards.Kept before after := by
  -- in between, the child may have any key, and the parent need not be in order
  have hkept := (Guards.ChildrenKept.refl hsound hwrite).step hwrite hedited
  rw [(Course.perform hsettle).2]
  apply hkept.settled hwrite settle_guests
  intro parent new hparent hedited
  have hnode := (hsound place hwrite parent hparent).outline
  rw [Guards.view?_child, hparent, Option.bind_some] at hold
  rw [hedited.outline_eq_set]
  cases hchild : parent.keys[pos]? with
  | none =>
      have hout : parent.keys.length ≤ pos := List.getElem?_eq_none_iff.mp hchild
      rw [List.set_eq_of_length_le hout, Outline.settle_of_length_le hout]
      exact hnode
  | some key =>
      have hkeys := hchild
      rw [Tree.keys, List.getElem?_map] at hkeys
      obtain ⟨child, hget, rfl⟩ := Option.map_eq_some_iff.mp hkeys
      rw [hget] at hold
      subst hold
      exact hnode.settle hchild _

/-- Editing a child under a guard is the edit, and then the parent settles. -/
theorem course_guarded {place : Place} {pos : Nat} {edit : Place → Program α}
    {before after : PrivateStore} {result : α}
    (hcourse : Course (place.guarded pos edit) before result after) :
    ∃ old middle outcome,
      old = (((before.view? (place.child pos)).map Tree.outline).getD default).head.key ∧
      Course (edit (place.child pos)) before result middle ∧
      Course (place.perform (Outline.settle pos old)).run middle outcome after := by
  obtain ⟨old, _, hkey, howning⟩ := Course.bind_iff.mp hcourse
  obtain ⟨hold, rfl⟩ := Course.key_iff.mp hkey
  obtain ⟨_, _, hown, hediting⟩ := Course.bind_iff.mp howning
  obtain rfl := Course.own_iff.mp hown
  obtain ⟨_, middle, hinner, hsettling⟩ := Course.bind_iff.mp hediting
  obtain ⟨_, _, hsettle, hdone⟩ := Course.bind_iff.mp hsettling
  obtain ⟨rfl, rfl⟩ := Course.pure_iff.mp hdone
  exact ⟨old, middle, _, hold, hinner, hsettle⟩

/-- Editing a child under a guard. -/
theorem safe_guarded {place : Place} {pos : Nat} {edit : Place → Program α}
    (hwrite : guards.Writable place)
    (hedit : (edit (place.child pos)).Safe (guards.guard (place.child pos))) :
    (place.guarded pos edit).Safe guards := by
  intro before hsound result after hcourse
  obtain ⟨old, middle, _, hold, hinner, hsettle⟩ := course_guarded hcourse
  have hchild := (Guards.ChildrenKept.refl hsound hwrite).sound_child pos
  exact kept_settled hwrite hsound hold (hedit _ hchild _ _ hinner) hsettle

/-- What holds while children are edited goes on to hold in a walk over them. -/
theorem kept_row {σ : Type} {walkChild : Place → σ → Program (Except Fault Unit × σ)}
    {place : Place} (hwrite : guards.Writable place)
    (hchild : ∀ pos state,
      (walkChild (place.child pos) state).Safe (guards.guard (place.child pos)))
    {before : PrivateStore} :
    ∀ (rest visited : List Nat) (state : σ) (middle after : PrivateStore)
      (result : Except Fault Unit × σ), guards.ChildrenKept place visited before middle →
      Course (Walk.row walkChild place rest state) middle result after →
        ∃ visited, guards.ChildrenKept place visited before after := by
  intro rest
  induction rest with
  | nil =>
      intro visited state middle after result hkept hcourse
      obtain ⟨_, rfl⟩ := Course.pure_iff.mp hcourse
      exact ⟨visited, hkept⟩
  | cons pos rest ih =>
      intro visited state middle after result hkept hcourse
      obtain ⟨_, _, hown, hvisiting⟩ := Course.bind_iff.mp hcourse
      obtain rfl := Course.own_iff.mp hown
      obtain ⟨answer, last, hvisit, hgoing⟩ := Course.bind_iff.mp hvisiting
      have hnext := hkept.step hwrite (hchild pos state _ (hkept.sound_child pos) _ _ hvisit)
      obtain ⟨_ | _, state⟩ := answer
      · obtain ⟨_, rfl⟩ := Course.pure_iff.mp hgoing
        exact ⟨_, hnext⟩
      · exact ih _ state last after result hnext hgoing

/-- A node whose children were edited is in order again once it has resettled. -/
theorem kept_resettled {place : Place} {visited : List Nat} {before middle after : PrivateStore}
    {outcome : Except Fault (List String)} (hwrite : guards.Writable place)
    (hsound : guards.Sound before) (hkept : guards.ChildrenKept place visited before middle)
    (hresettle : Course
      (place.perform (Outline.resettle
        (((before.view? place).map Tree.outline).getD default).keys)).run middle outcome after) :
    guards.Kept before after := by
  rw [(Course.perform hresettle).2]
  apply hkept.settled hwrite resettle_guests
  intro old new hold hedited
  rw [hold, Option.map_some, Option.getD_some, Tree.outline, hedited.head_eq]
  exact (hsound place hwrite old hold).outline.resettle hedited.length_keys

/-- A node whose children are walked over is in order again at the end. -/
theorem safe_below {σ : Type} {walkChild : Place → σ → Program (Except Fault Unit × σ)}
    {place : Place} (hwrite : guards.Writable place)
    (hchild : ∀ pos state,
      (walkChild (place.child pos) state).Safe (guards.guard (place.child pos)))
    (state : σ) : (Walk.below walkChild place state).Safe guards := by
  intro before hsound result after hcourse
  obtain ⟨node, _, houtline, hrowing⟩ := Course.bind_iff.mp hcourse
  obtain ⟨rfl, rfl⟩ := Course.outline_iff.mp houtline
  obtain ⟨⟨answer, state⟩, middle, hrow, hsettling⟩ := Course.bind_iff.mp hrowing
  obtain ⟨outcome, last, hsettle, hdone⟩ := Course.bind_iff.mp hsettling
  obtain ⟨visited, hkept⟩ :=
    kept_row hwrite hchild _ _ _ _ _ _ (Guards.ChildrenKept.refl hsound hwrite) hrow
  have hsettled : guards.Kept before last := kept_resettled hwrite hsound hkept hsettle
  -- however the walk ends, nothing is changed any more once the parent is in order
  have hend : last = after := by
    split at hdone
    next => exact (Course.pure_iff.mp hdone).2
    next => exact (Course.pure_iff.mp hdone).2
    next =>
      split at hdone
      next => exact (Course.pure_iff.mp hdone).2
      next =>
        obtain ⟨_, _, hrefuse, hpure⟩ := Course.bind_iff.mp hdone
        rw [(Course.refuse hrefuse).2]
        exact (Course.pure_iff.mp hpure).2
  exact hend ▸ hsettled

/-- A walk whose visits are safe with just the visited node in their hands. -/
theorem safe_walk {σ : Type} {visit : Place → σ → Program (Traversal × σ)} {slot : Slot}
    {base : List Nat} (exceptions : List String)
    (hvisit : ∀ path state, (visit ⟨slot, base ++ path⟩ state).Safe
      (guards.guard ⟨slot, base ++ path⟩)) (reach : Nat) :
    ∀ (path : List Nat) (state : σ),
      (Walk.run visit exceptions reach ⟨slot, base ++ path⟩ state).Safe
        (guards.guard ⟨slot, base ++ path⟩) := by
  induction reach with
  | zero =>
      intro path state
      rw [Walk.run]
      apply Safe.bind (safe_key _)
      intro key
      split
      · exact safe_done _
      · exact (hvisit path state).bind fun _ => safe_done _
  | succ reach ih =>
      intro path state
      rw [Walk.run]
      apply Safe.bind (safe_key _)
      intro key
      split
      · exact safe_done _
      · refine (hvisit path state).bind fun ⟨traversal, state⟩ => ?_
        cases traversal with
        | skipBelow => exact safe_done _
        | goOn =>
            have hself : (guards.guard ⟨slot, base ++ path⟩).Writable ⟨slot, base ++ path⟩ :=
              (Guards.writable_guard_same rfl).mpr rfl
            refine safe_below hself (fun pos state => ?_) state
            have hbelow := ih (path ++ [pos]) state
            rw [← List.append_assoc] at hbelow
            rwa [guards.guard_guard ⟨slot, base ++ path⟩ (Place.child ⟨slot, base ++ path⟩ pos) rfl]

/-! ## All programs made of operations -/

theorem Operates.safe {program : Program α} (hprogram : program.Operates guards) :
    program.Safe guards := by
  induction hprogram with
  | done result => exact safe_done result
  | bind _ _ ihfirst ihnext => exact ihfirst.bind ihnext
  | look hasks => exact safe_look hasks
  | consult place hasks => exact safe_consult place hasks
  | own place => exact safe_own place
  | touch slot => exact safe_touch slot
  | hold hfree hmade => exact safe_hold hfree hmade.wellFormed
  | share hread hfree => exact safe_share hread hfree
  | take hsource htarget => exact safe_take hsource htarget
  | release hfree => exact safe_release hfree
  | copy hread hfree => exact safe_copy hread hfree
  | edit hwrite edit => exact safe_edit hwrite edit
  | opener hwrite hfree opener => exact safe_opener hwrite hfree opener
  | copyFrom hwrite hfree => exact safe_copyFrom hwrite hfree
  | become hwrite hread => exact safe_become hwrite hread
  | guarded hwrite _ ih => exact safe_guarded hwrite ih
  | @walk guards _ visit place exceptions reach state hwrite _ ih =>
      have hwalk := safe_walk exceptions ih reach [] state
      rw [List.append_nil] at hwalk
      intro before hsound result after hcourse
      exact (hwalk before (hsound.guard hwrite) result after hcourse).unguard hwrite

/-- From an empty workspace of shared nodes a program leaves well-formed trees only. -/
theorem Operates.wellFormed {program : Program α} (hprogram : program.Operates .free) {slot : Slot}
    {tree : Tree} (hheld : (program.run ({} : SharedStore)).2.view? ⟨slot, []⟩ = some tree) :
    tree.WellFormed := by
  obtain ⟨after, hcourse, hmirrors⟩ := Mirrors.empty.run program
  have hkept := hprogram.safe {} (Guards.sound_empty _) _ after hcourse
  rw [hmirrors.view?_eq] at hheld
  exact hkept.sound ⟨slot, []⟩ rfl tree hheld

end Program

end KeyedTree
