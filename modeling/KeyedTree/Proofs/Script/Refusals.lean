import KeyedTree.Proofs.Script.Sharing
import KeyedTree.Proofs.WellFormed.Lookup

/-! # Refused operations

An operation that a node refuses changes nothing, neither the node nor any other one, and a handle
that was given to it is let go. Where a node has to become a container before an operation can check
anything else, no check fails afterwards. A node that takes over the content of another is cleared
first, and then it takes in all that the other holds: nothing of a well-formed tree is refused.
-/

namespace KeyedTree

variable {ι α : Type}

/-! ## Verdicts -/

/-- A verdict that makes no change if it refuses. -/
def Verdict.Atomic (verdict : Verdict ι α) : Prop :=
  ∀ refusal, verdict.answer = .error refusal → verdict.change = none

namespace Verdict

@[simp] theorem atomic_refuse (operation : Operation) (objection : Objection) :
    (refuse operation objection : Verdict ι α).Atomic :=
  fun _ _ => rfl

@[simp] theorem atomic_answered (value : α) : (answered value : Verdict ι α).Atomic :=
  fun _ _ => rfl

@[simp] theorem atomic_changed (change : Change ι) (value : α) : (changed change value).Atomic :=
  nofun

end Verdict

namespace Outline

theorem atomic_attach (operation : Operation) (renamed : Option String) (child : ι) (guest : Head)
    (node : Outline) : (node.attach operation renamed child guest).Atomic := by
  unfold attach
  simp only
  repeat' split
  all_goals simp

theorem atomic_append (child : ι) (guest : Head) (node : Outline) :
    (node.append child guest).Atomic := by
  unfold append
  split <;> simp

theorem atomic_entry (key : String) (blank : ι) (node : Outline) :
    (node.entry key blank).Atomic := by
  unfold entry
  repeat' split
  all_goals simp [atomic_attach]

theorem atomic_assign (operation : Operation) (value : Payload) (node : Outline) :
    (node.assign operation value : Verdict ι Unit).Atomic := by
  unfold assign
  simp only
  repeat' split
  all_goals simp

end Outline

/-- An edit that is refused makes no change. -/
theorem Edit.atomic_decide (edit : Edit) (node : Outline) :
    (edit.decide node : Verdict ι Unit).Atomic := by
  cases edit with
  | setString value => exact Outline.atomic_assign _ _ node
  | setInteger value => exact Outline.atomic_assign _ _ node
  | setBool value => exact Outline.atomic_assign _ _ node
  | appendText text =>
      simp only [decide, Outline.appendText]
      split <;> simp
  | addInteger amount =>
      simp only [decide, Outline.addInteger]
      split <;> simp
  | setKey key => exact Verdict.atomic_changed _ _
  | appendKey text => exact Verdict.atomic_changed _ _
  | setAutosort autosort => exact Verdict.atomic_changed _ _
  | setOverwrite overwrite => exact Verdict.atomic_changed _ _
  | clear kind => exact Verdict.atomic_changed _ _
  | remove key =>
      simp only [decide, Outline.remove]
      repeat' split
      all_goals simp
  | rename old new =>
      simp only [decide, Outline.rename]
      repeat' split
      all_goals simp
  | rekey pos key =>
      simp only [decide, Outline.rekey]
      repeat' split
      all_goals simp
  | relocate key pos =>
      simp only [decide, Outline.relocate]
      repeat' split
      all_goals simp

/-! ## Operations at places -/

/-- An attempt that leaves the workspace as it is where it ends with a fault. -/
def Attempt.Atomic (attempt : Attempt α) : Prop :=
  ∀ (store after : SharedStore) (fault : Fault),
    attempt.run.run store = (.error fault, after) → after = store

namespace Attempt.Atomic

variable {β : Type}

/-- An operation whose verdicts make no change if they refuse. -/
theorem perform {decide : Outline → Verdict Origin α} (place : Place)
    (hatomic : ∀ node, (decide node).Atomic) : (place.perform decide).Atomic := by
  intro store after fault hrun
  rw [Place.perform, Attempt.run_liftM_bind] at hrun
  have hsame : (place.outline.run store).2 = store := rfl
  rw [hsame] at hrun
  have hverdict := hatomic (place.outline.run store).1
  generalize decide (place.outline.run store).1 = verdict at hrun hverdict
  obtain ⟨change, answer⟩ := verdict
  cases answer with
  | ok value =>
      cases change with
      | none => cases hrun
      | some change =>
          have hdone := (Attempt.run_liftM_bind (Program.request (.change place change))
            (fun _ => pure value) store).symm.trans hrun
          cases hdone
  | error refusal =>
      obtain rfl : change = none := hverdict refusal rfl
      cases hrun
      rfl

/-- Looking at the argument changes nothing. -/
theorem run_argumentHead (operation : Operation) (store : SharedStore) :
    ((argumentHead operation).run.run store).2 = store := by
  rw [argumentHead]
  refine (congrArg Prod.snd
    (Attempt.run_liftM_bind (Program.request (.outline .argument)) _ store)).trans ?_
  have hsame : ((Program.request (.outline .argument)).run store).2 = store := rfl
  rw [hsame]
  cases ((Program.request (.outline .argument)).run store).1 <;> rfl

/-- Something that takes in the argument and is refused, or that finds no argument. -/
theorem takeIn {operation : Operation} {next : Head → Attempt α}
    (hnext : ∀ guest, (next guest).Atomic) : (argumentHead operation >>= next).Atomic := by
  intro store after fault hrun
  have hhead := run_argumentHead operation store
  rw [Attempt.run_bind] at hrun
  generalize (argumentHead operation).run.run store = looked at hrun hhead
  obtain ⟨guest, middle⟩ := looked
  obtain rfl : middle = store := hhead
  cases guest with
  | ok guest => exact hnext guest middle after fault hrun
  | error fault =>
      cases hrun
      rfl

theorem opener (opener : Opener) (hsingle : ∀ key child, opener ≠ .assign key child)
    (place : Place) :
    (opener.run place).Atomic := by
  cases opener with
  | attach child => exact takeIn fun guest => perform place (Outline.atomic_attach _ _ _ _)
  | attachKeyed key child => exact takeIn fun guest => perform place (Outline.atomic_attach _ _ _ _)
  | append child => exact takeIn fun guest => perform place (Outline.atomic_append _ _)
  | entry key => exact perform place (Outline.atomic_entry _ _)
  | child pos => exact perform place fun node refusal _ => Program.child_change ..
  | childOf key => exact perform place fun node refusal _ => Program.childOf_change ..
  | lastChild => exact perform place fun node refusal _ => Program.lastChild_change ..
  | assign key child => exact absurd rfl (hsingle key child)

end Attempt.Atomic

/-- Takes a handle and lets it go again. -/
def Argument.passBy (argument : Argument) : Program Unit := do
  let _ ← argument.prepare.run
  Program.request (.release .argument)

/-- An attempt that is refused leaves of its handle no more than if it had not been made. -/
theorem Attempt.Atomic.run_holding {attempt : Attempt α} (hatomic : attempt.Atomic)
    (argument : Argument) {store after : SharedStore} {fault : Fault}
    (hrun : (argument.holding attempt).run.run store = (.error fault, after)) :
    after = (argument.passBy.run store).2 := by
  have hholding : (argument.holding attempt).run.run store =
      ((do argument.prepare; attempt : Attempt α).run.run store).map id fun middle =>
        ((Program.request (.release .argument)).run middle).2 := by
    change ((do argument.prepare; attempt : Attempt α).run >>= fun result => (do
      Program.request (.release .argument); return result)).run store = _
    rw [Program.run_bind, Program.run_bind]
    rfl
  rw [hholding, Attempt.run_bind] at hrun
  rw [Argument.passBy, Program.run_bind]
  generalize argument.prepare.run.run store = prepared at hrun ⊢
  obtain ⟨ready, middle⟩ := prepared
  cases ready with
  | error fault =>
      cases hrun
      rfl
  | ok ready =>
      simp only at hrun ⊢
      cases hattempt : attempt.run.run middle with
      | mk result last =>
          rw [hattempt] at hrun
          cases hrun
          rw [hatomic middle last fault hattempt]

/-- A handle that is taken and let go again leaves everything as it is that is held elsewhere. -/
theorem Mirrors.view?_passBy {store : SharedStore} {plain : PrivateStore}
    (hmirrors : Mirrors store plain []) (argument : Argument) {other : Place}
    (hslot : other.slot ≠ .argument) :
    (argument.passBy.run store).2.view? other = store.view? other := by
  have haway : Slot.argument.AwayFrom [other] := List.forall_mem_singleton.mpr hslot.symm
  have hminds : argument.passBy.Minds False [other] :=
    .bind (Program.Minds.prepare haway argument) fun _ => Program.Minds.release haway
  exact hmirrors.view?_run
    (hminds.imp fun request hrequest => hrequest.2 other (List.mem_singleton_self other))

/-! ## Nodes that become containers -/

namespace Outline

variable {node : Outline}

/-- A node that is or becomes an object takes in a child under a key that no other has. -/
theorem attach_of_new (hnode : node.WellFormed) (operation : Operation) (renamed : Option String)
    (child : ι) (guest : Head)
    (hkind : node.head.kind = .uninitialized ∨ node.head.kind = .object)
    (hnew : renamed.getD guest.key = "" ∨ renamed.getD guest.key ∉ node.keys) :
    ∃ change pos, node.attach operation renamed child guest = .changed change pos ∧
      change.head.kind = .object ∧
      ∀ keyOf : ι → String, keyOf child = guest.key →
        (change.row.keys keyOf node.keys).Perm (renamed.getD guest.key :: node.keys) := by
  have hmissing := ((hnode.names_of_blank_or_object hkind).get?_eq_none_iff _).mpr hnew
  rw [attach_of_blank_or_object _ _ _ _ hkind]
  simp only [hmissing]
  refine ⟨_, _, rfl, rfl, fun keyOf hguest => ?_⟩
  have hpos : (if renamed.getD guest.key = "" ∨ !node.head.autosort then node.keys.length
      else sortedPlace (renamed.getD guest.key) node.keys) ≤ node.keys.length := by
    split
    next => exact Nat.le_refl _
    next => exact sortedPlace_le_length _ _
  simp only [RowChange.keys, key_stampFor hguest, insertInto_of_le hpos]
  exact List.perm_insertIdx _ _ hpos

/-- A node that has to become a container first refuses nothing that it is to take in. -/
theorem takes_in_of_uninitialized (hnode : node.WellFormed)
    (hblank : node.head.kind = .uninitialized) (child : ι) (guest : Head) :
    (∀ operation renamed, ∃ change pos,
        node.attach operation renamed child guest = .changed change pos) ∧
      (∀ key, ∃ change pos, node.entry key child = .changed change pos) ∧
      ∃ change pos, node.append child guest = .changed change pos := by
  have hkeys : node.keys = [] := hnode.childless (by rw [hblank]; rfl)
  have hattach : ∀ operation renamed guest, ∃ change pos,
      node.attach operation renamed child guest = .changed change pos := by
    intro operation renamed guest
    obtain ⟨change, pos, hchanged, _⟩ := attach_of_new hnode operation renamed child guest
      (.inl hblank) (.inr (by rw [hkeys]; exact List.not_mem_nil))
    exact ⟨change, pos, hchanged⟩
  refine ⟨fun operation renamed => hattach operation renamed guest, fun key => ?_, ?_⟩
  · have hmissing : node.head.index.get? key = none := hnode.get?_eq_none (by simp [hblank]) key
    obtain ⟨change, pos, hchanged⟩ := hattach .entry (some key) {}
    exact ⟨change, pos, by rw [← hchanged, entry]; simp only [hblank, hmissing]⟩
  · unfold append
    rw [hblank]
    exact ⟨_, _, rfl⟩

end Outline

/-! ## Taking over the content of another node -/

namespace Tree

/-- An object takes in a child whose key is new. -/
theorem attach_of_new {tree child : Tree} (htree : tree.outline.WellFormed)
    (hobject : tree.kind = .object) (hnew : child.key = "" ∨ child.key ∉ tree.keys) :
    ∃ pos joined, tree.attach child = (.ok pos, joined) ∧ joined.outline.WellFormed ∧
      joined.kind = .object ∧ joined.keys.Perm (child.key :: tree.keys) := by
  obtain ⟨change, pos, hchanged, hkind, hkeys⟩ :=
    Outline.attach_of_new htree .attach none child child.head (.inr hobject) hnew
  have hkeeps :
      (tree.outline.attach .attach none child child.head).Keeps key [child] tree.outline :=
    Outline.keeps_attach htree .attach none rfl List.mem_cons_self
  have hafter := outline_apply tree change
  refine ⟨pos, tree.apply change, perform_changed hchanged, ?_, hkind, ?_⟩
  · rw [hafter]
    exact (hkeeps change (by rw [hchanged]; rfl)).1
  · have hsame : (tree.apply change).keys = change.row.keys key tree.keys :=
      congrArg Outline.keys hafter
    rw [hsame]
    exact hkeys key rfl

/-- An object takes in children whose keys are new. -/
theorem takeIn_attach {tree : Tree} (htree : tree.outline.WellFormed)
    (hobject : tree.kind = .object) {row : List Tree}
    (hkeys : Distinct (tree.keys ++ row.map key)) :
    (takeIn attach tree row).1 = .ok () := by
  induction row generalizing tree with
  | nil => rfl
  | cons child rest ih =>
      have hfront : Distinct (child.key :: (tree.keys ++ rest.map key)) :=
        hkeys.perm List.perm_middle
      have hnew : child.key = "" ∨ child.key ∉ tree.keys := by
        refine or_iff_not_imp_left.mpr fun hkey hmem => ?_
        exact List.rel_of_pairwise_cons hfront (List.mem_append_left _ hmem) hkey rfl
      obtain ⟨pos, joined, hjoined, hwf, hkind, hperm⟩ := attach_of_new htree hobject hnew
      rw [takeIn, hjoined]
      exact ih hwf hkind (hfront.perm (hperm.symm.append_right _))

theorem takeIn_append {tree : Tree} (harray : tree.kind = .array) (row : List Tree) :
    (takeIn append tree row).1 = .ok () := by
  induction row generalizing tree with
  | nil => rfl
  | cons child rest ih =>
      have hdecide : Outline.append child child.head tree.outline =
          .changed
            { head := { tree.head with kind := .array }
              row := .insert tree.keys.length
                ⟨child, Outline.stampFor child.head child.key tree.head.autosort⟩ }
            tree.keys.length := by
        unfold Outline.append
        split
        next => rfl
        next => rfl
        next hother hblank => exact absurd harray hblank
      rw [takeIn, append, perform_changed hdecide]
      exact @ih (tree.apply _) rfl

/-- A node takes over the content of a well-formed tree in any case. -/
theorem copyFrom_ok (tree : Tree) {source : Tree} (hsource : source.WellFormed) :
    (tree.copyFrom source).1 = .ok () := by
  unfold copyFrom
  simp only
  generalize (if source.key = "" then tree.key else source.key) = own
  by_cases harray : source.kind = .array
  · rw [if_pos harray]
    apply takeIn_append
    exact harray
  · rw [if_neg harray]
    by_cases hobject : source.kind = .object
    · have hkeys : (copyRow source.children).map key = source.keys := by
        simp [copyRow_eq_map, Function.comp_def, keys]
      apply takeIn_attach
      · exact .of_nil rfl hsource.outline.suits
      · exact hobject
      · rw [hkeys]
        exact (hsource.outline.names hobject).distinct
    · have hleaf : source.head.kind.isContainer = false := Kind.isContainer_eq_false harray hobject
      have hkeys : source.children.map key = [] := hsource.outline.childless hleaf
      rw [List.map_eq_nil_iff.mp hkeys]
      rfl

end Tree

theorem Place.run_copyFrom (place : Place) {source : Tree} (hsource : source.WellFormed)
    (store : SharedStore) : ((place.copyFrom source).run.run store).1 = .ok () := by
  rw [Place.copyFrom, Attempt.run_liftM_bind]
  have hcopied := Tree.copyFrom_ok (place.view.run store).1 hsource
  generalize (place.view.run store).1.copyFrom source = outcome at hcopied ⊢
  obtain ⟨result, copied⟩ := outcome
  obtain rfl : result = .ok () := hcopied
  rfl

/-! ## Whole runs -/

/-- What is refused changes nothing. The workspace may be any that a program leaves, and the node
may have other holders. If an edit of the node is refused, nothing in the workspace has changed at
all. If the node does not give a child to edit, or does not take in what a handle holds, then it is
as it was when the handle is let go, and so is every other node, among them the one behind the
handle. A node that has to become a container before anything else is checked takes in whatever it
is given. Copying the content of a well-formed tree, for which the node is cleared first, always
succeeds. -/
theorem refusals_change_nothing (program : Program α) {place : Place}
    (hslot : place.slot ≠ .argument) {tree : Tree}
    (hview : (program.run ({} : SharedStore)).2.view? place = some tree) (hroot : tree.WellFormed) :
    let store := (program.run ({} : SharedStore)).2
    (∀ (edit : Edit) (fault : Fault) (after : SharedStore),
      (place.perform edit.decide).run.run store = (.error fault, after) → after = store) ∧
    (∀ opener : Opener, (∀ key child, opener ≠ .assign key child) →
      ∀ (fault : Fault) (after : SharedStore),
        (opener.argument.holding (opener.run place)).run.run store = (.error fault, after) →
          after.view? place = some tree ∧
            ∀ other : Place, other.slot ≠ .argument → after.view? other = store.view? other) ∧
    (tree.kind = .uninitialized → ∀ (child : Origin) (guest : Head),
      (∀ operation renamed, ∃ change pos,
        tree.outline.attach operation renamed child guest = .changed change pos) ∧
      (∀ key, ∃ change pos, tree.outline.entry key child = .changed change pos) ∧
      ∃ change pos, tree.outline.append child guest = .changed change pos) ∧
    ∀ source : Tree, source.WellFormed → ((place.copyFrom source).run.run store).1 = .ok () := by
  obtain ⟨plain, _, hmirrors⟩ := Mirrors.empty.run program
  refine ⟨fun edit fault after hrun => ?_, fun opener hsingle fault after hrun => ?_,
    fun hblank => ?_, fun source hsource => place.run_copyFrom hsource _⟩
  · exact Attempt.Atomic.perform place edit.atomic_decide _ after fault hrun
  · obtain rfl := (Attempt.Atomic.opener opener hsingle place).run_holding opener.argument hrun
    have hspared : ∀ other : Place, other.slot ≠ .argument → _ :=
      fun other hother => hmirrors.view?_passBy opener.argument hother
    exact ⟨(hspared place hslot).trans hview, hspared⟩
  · exact Outline.takes_in_of_uninitialized hroot.outline hblank

/-- An object with one child. -/
def sharedParent : Tree :=
  ((Tree.leaf .object).attachKeyed "b" (.leaf (.integer 1))).2

/-- An object with a child that a register of its own holds, too. -/
def sharedChild : Program Unit := do
  Program.request (.hold (.register "a") sharedParent)
  Program.request (.share ⟨.register "a", [0]⟩ (.register "b"))

theorem eq_error_of_isOk {σ : Type} {run : Except Fault α × σ} (hfailed : run.1.isOk = false) :
    ∃ fault, run = (.error fault, run.2) := by
  obtain ⟨result, after⟩ := run
  cases result with
  | ok value => cases hfailed
  | error fault => exact ⟨fault, rfl⟩

/-- The object takes in no other child under the key, and it keeps the one that it has, and so does
the other register. It does not become a string either. -/
theorem sharedParent_refuses :
    let store := (sharedChild.run ({} : SharedStore)).2
    let place : Place := ⟨.register "a", []⟩
    let opener : Opener := .attachKeyed "b" (.register "b")
    let attached := (opener.argument.holding (opener.run place)).run.run store
    let assigned := (place.perform (Edit.setString "b").decide).run.run store
    place.slot ≠ .argument ∧ store.view? place = some sharedParent ∧ sharedParent.WellFormed ∧
      attached.1.isOk = false ∧ attached.2.view? place = some sharedParent ∧
      attached.2.view? (.register "b") = some ((Tree.leaf (.integer 1)).withKey "b") ∧
      assigned.1.isOk = false ∧ assigned.2 = store ∧
      ((place.copyFrom sharedParent).run.run store).1 = .ok () := by
  have hview :
      (sharedChild.run ({} : SharedStore)).2.view? ⟨.register "a", []⟩ = some sharedParent := by
    cbv
  have hother : (sharedChild.run ({} : SharedStore)).2.view? (.register "b") =
      some ((Tree.leaf (.integer 1)).withKey "b") := by
    cbv
  have hroot : sharedParent.WellFormed := (Tree.WellFormed.leaf .object).attachKeyed _ (.leaf _)
  have hslot : (⟨.register "a", []⟩ : Place).slot ≠ .argument := by decide
  obtain ⟨hedit, hopener, _, hcopy⟩ := refusals_change_nothing sharedChild hslot hview hroot
  have hvisible : sharedChild.Each Request.Visible :=
    ⟨trivial, fun _ => ⟨trivial, fun _ => trivial⟩⟩
  have hmirrors := (Mirrors.empty.run_visible hvisible).2
  have hassigned : ((Place.perform ⟨.register "a", []⟩ (Edit.setString "b").decide).run.run
      (sharedChild.run ({} : SharedStore)).2).1.isOk = false := by
    cbv
  intro store place opener attached assigned
  have hattached : attached.1.isOk = false := by
    have hminds : (opener.argument.holding (opener.run place)).run.Minds True [] :=
      Program.Minds.holding (List.forall_mem_nil _) _
        (Program.Minds.opener (List.forall_mem_nil _) (List.forall_mem_nil _) opener)
    have hsame := (hmirrors.run_visible (hminds.imp fun request hrequest => hrequest.1 trivial)).1
    change Except.isOk ((opener.argument.holding (opener.run place)).run.run store).1 = false
    rw [hsame]
    cbv
  obtain ⟨fault, hfailed⟩ := eq_error_of_isOk hattached
  obtain ⟨fault', hfailed'⟩ := eq_error_of_isOk hassigned
  obtain ⟨hplace, hothers⟩ :=
    hopener opener (fun _ _ => Opener.noConfusion) fault attached.2 hfailed
  exact ⟨hslot, hview, hroot, hattached, hplace, (hothers (.register "b") (by decide)).trans hother,
    hassigned, hedit _ fault' assigned.2 hfailed', hcopy _ hroot⟩

end KeyedTree
