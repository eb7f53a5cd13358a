import KeyedTree.Proofs.Plain.Operations
import KeyedTree.Proofs.Workspace.Performing

/-! # Sequences of calls

A node of a workspace and a plain container are given the same calls one after the other. As long as
the node was well-formed at first, each call answers the same on both, and the children stay the
same.
-/

namespace KeyedTree

/-- A call of a container, with the handle that it is given. -/
inductive Call
  | attach (child : Option Tree)
  | attachKeyed (key : String) (child : Option Tree)
  | append (child : Option Tree)
  | assign (key : String) (child : Option Tree)
  | entry (key : String)
  | remove (key : String)
  | rename (old new : String)
  | rekey (pos : Nat) (key : String)
  | relocate (key : String) (pos : Nat)
  | childOf (key : String)
  | containsKey (key : String)
  | keyIndex

/-- What a call answers: the position of a child to be edited, or what was asked for. -/
inductive Answer
  | nothing
  | position (pos : Nat)
  | child (child : Tree)
  | flag (present : Bool)
  | listing (children : List (String × Tree))

/-- What a run comes to when its answer is one of many kinds. -/
def answering {α β : Type} (answer : α → Answer) (run : Except Fault α × β) :
    Except Fault Answer × β :=
  (run.1.map answer, run.2)

/-! ## Calls of plain containers -/

namespace Plain

/-- Takes in the node of a handle; an empty handle is a fault of its own. -/
def takeIn (node : Plain) (operation : Operation) (child : Option Tree)
    (take : Tree → Except Fault Nat × Plain) : Except Fault Answer × Plain :=
  match child with
  | none => (.error (.emptyHandle operation), node)
  | some child => answering .position (take child)

/-- Answers a call. -/
def call (node : Plain) : Call → Except Fault Answer × Plain
  | .attach child => node.takeIn .attach child fun child => node.attach .attach child.key child
  | .attachKeyed key child => node.takeIn .attachKeyed child (node.attach .attachKeyed key)
  | .append child => node.takeIn .append child node.append
  | .assign key child => node.takeIn .assign child (node.assign key)
  | .entry key => answering .position (node.entry key)
  | .remove key => answering (fun _ => .nothing) (node.remove key)
  | .rename old new => answering (fun _ => .nothing) (node.rename old new)
  | .rekey pos key => answering (fun _ => .nothing) (node.rekey pos key)
  | .relocate key pos => answering (fun _ => .nothing) (node.relocate key pos)
  | .childOf key => ((node.childOf key).map .child, node)
  | .containsKey key => (.ok (.flag (node.containsKey key)), node)
  | .keyIndex => (.ok (.listing node.keyIndex), node)

/-- Answers calls one after the other. -/
def calls (node : Plain) : List Call → List (Except Fault Answer) × Plain
  | [] => ([], node)
  | call :: rest =>
      let (answer, node) := node.call call
      let (answers, node) := node.calls rest
      (answer :: answers, node)

end Plain

/-! ## Calls at places -/

namespace Call

/-- The handle that a call is given. -/
def handle : Call → Option Tree
  | .attach child => child
  | .attachKeyed _ child => child
  | .append child => child
  | .assign _ child => child
  | _ => none

/-- Puts the handle that a call is given into the argument slot. -/
def prepare (call : Call) : Attempt Unit :=
  match call.handle with
  | some tree => Attempt.request (.hold .argument tree)
  | none => Attempt.request (.release .argument)

/-- Gets hold of a child; answers its position. -/
def obtain (opener : Opener) (place : Place) : Attempt Answer := do
  return .position (← opener.run place)

/-- Rearranges the children. -/
def rearrange (edit : Edit) (place : Place) : Attempt Answer := do
  place.perform edit.decide
  return .nothing

/-- Makes a call of the node at a place; the handle that it is given is in the argument slot. -/
def act (place : Place) : Call → Attempt Answer
  | .attach _ => obtain (.attach .empty) place
  | .attachKeyed key _ => obtain (.attachKeyed key .empty) place
  | .append _ => obtain (.append .empty) place
  | .assign key _ => obtain (.assign key .empty) place
  | .entry key => obtain (.entry key) place
  | .remove key => rearrange (.remove key) place
  | .rename old new => rearrange (.rename old new) place
  | .rekey pos key => rearrange (.rekey pos key) place
  | .relocate key pos => rearrange (.relocate key pos) place
  | .childOf key => do
      match (← place.view).childOf key with
      | .ok child => return .child child
      | .error fault => throw fault
  | .containsKey key => do
      return .flag ((← place.view).index.contains key)
  | .keyIndex => do
      return .listing (← place.view).indexed

/-- Makes a call of the node at a place. -/
def run (place : Place) (call : Call) : Attempt Answer := do
  call.prepare
  call.act place

/-- Makes calls of the node at a place one after the other, whether they fail or not. -/
def runAll (place : Place) : List Call → Program (List (Except Fault Answer))
  | [] => return []
  | call :: rest => do
      let answer ← (call.run place).run
      let answers ← runAll place rest
      return answer :: answers

end Call

/-! ## Single calls -/

/-- At a place stands a well-formed node that is the plain container but for its index. -/
def PrivateStore.Presents (store : PrivateStore) (place : Place) (node : Plain) : Prop :=
  ∃ tree, store.view? place = some tree ∧ tree.outline.WellFormed ∧ tree.plain = node

namespace Course

variable {α : Type} {store after : PrivateStore} {place : Place} {tree : Tree}

/-- An operation at a place comes to what the plain container comes to, if it does so on trees. -/
theorem presents {decide : Outline → Verdict Origin α} {decide' : Outline → Verdict Tree α}
    {offered : List Origin} {offered' : List Tree} {expected : Except Fault α × Plain}
    {result : Except Fault α} (hview : store.view? place = some tree)
    (hroot : tree.outline.WellFormed) (hplain : Tree.plainly (tree.perform decide') = expected)
    (hgrant : store.grant (decide tree.outline) = decide' tree.outline)
    (hkeeps : (decide tree.outline).Keeps store.keyOf offered tree.outline)
    (hkeeps' : (decide' tree.outline).Keeps Tree.key offered' tree.outline)
    (haway : ∀ slot, .held slot ∈ offered → slot ≠ place.slot)
    (hcourse : Course (place.perform decide).run store result after) :
    result = expected.1 ∧ after.Presents place expected.2 := by
  obtain ⟨hresult, hafter⟩ := performs hview hgrant hkeeps haway hcourse
  subst hplain
  exact ⟨hresult, _, hafter, Tree.outline_perform hroot hkeeps', rfl⟩

/-- An attempt whose answer is dressed up takes the course that it takes without. -/
theorem of_map {attempt : Attempt α} {answer : α → Answer} {result : Except Fault Answer}
    (hcourse : Course (do return answer (← attempt) : Attempt Answer).run store result after) :
    ∃ inner, Course attempt.run store inner after ∧ result = inner.map answer := by
  rcases run_bind_iff.mp hcourse with ⟨value, middle, hfirst, hpure⟩ | ⟨fault, hfirst, rfl⟩
  · obtain ⟨rfl, rfl⟩ := run_pure_iff.mp hpure
    exact ⟨.ok value, hfirst, rfl⟩
  · exact ⟨.error fault, hfirst, rfl⟩

end Course

namespace Call

variable {store after : PrivateStore} {place : Place} {node : Plain}

/-- A call begins with its handle in the argument slot. -/
theorem course_run {call : Call} {result : Except Fault Answer}
    (hcourse : Course (call.run place).run store result after) :
    Course (call.act place).run ⟨store.shelf.set .argument call.handle⟩ result after := by
  unfold run prepare at hcourse
  cases hhandle : call.handle with
  | none =>
      rw [hhandle] at hcourse
      have hvisible : (Request.release .argument).Visible := trivial
      exact (Course.run_visible_bind_iff hvisible).mp hcourse
  | some tree =>
      rw [hhandle] at hcourse
      have hvisible : (Request.hold .argument tree).Visible := trivial
      exact (Course.run_visible_bind_iff hvisible).mp hcourse

/-- Handing over a handle does not touch the node at a place elsewhere. -/
theorem presents_prepared (hslot : place.slot ≠ .argument) (handle : Option Tree)
    (hnode : store.Presents place node) :
    PrivateStore.Presents ⟨store.shelf.set .argument handle⟩ place node := by
  obtain ⟨tree, hview, hroot, hplain⟩ := hnode
  exact ⟨tree, by rwa [PrivateStore.view?_set, if_neg hslot], hroot, hplain⟩

theorem view?_prepared (store : PrivateStore) (handle : Option Tree) :
    PrivateStore.view? ⟨store.shelf.set .argument handle⟩ .argument = handle := by
  rw [PrivateStore.view?_set]
  cases handle <;> rfl

/-- A call that takes in a node, or fails on an empty handle. -/
theorem course_takeIn {operation : Operation} {next : Head → Attempt Nat}
    {take : Tree → Except Fault Nat × Plain} {handle : Option Tree} {result : Except Fault Answer}
    (hnode : store.Presents place node) (hhandle : store.view? .argument = handle)
    (hnext : ∀ child result after, store.view? .argument = some child →
      Course (next child.head).run store result after →
        result = (take child).1 ∧ after.Presents place (take child).2)
    (hcourse : Course (do return .position (← argumentHead operation >>= next) : Attempt Answer).run
      store result after) :
    result = (node.takeIn operation handle take).1 ∧
      after.Presents place (node.takeIn operation handle take).2 := by
  obtain ⟨inner, hinner, rfl⟩ := Course.of_map hcourse
  rcases Course.of_argumentHead hinner with ⟨hnone, rfl, rfl⟩ | ⟨child, hsome, htake⟩
  · obtain rfl : none = handle := hnone.symm.trans hhandle
    exact ⟨rfl, hnode⟩
  · obtain rfl : some child = handle := hsome.symm.trans hhandle
    obtain ⟨rfl, hafter⟩ := hnext child inner after hsome htake
    exact ⟨rfl, hafter⟩

/-- A call that rearranges the children. -/
theorem course_rearrange {edit : Edit} {rearranged : Except Fault Unit × Plain}
    {result : Except Fault Answer}
    (hnode : store.Presents place node)
    (hplain : ∀ tree : Tree, tree.outline.WellFormed → tree.plain = node →
      Tree.plainly (tree.perform edit.decide) = rearranged)
    (hcourse : Course (rearrange edit place).run store result after) :
    result = (answering (fun _ => .nothing) rearranged).1 ∧ after.Presents place rearranged.2 := by
  obtain ⟨tree, hview, hroot, htree⟩ := hnode
  obtain ⟨inner, hinner, rfl⟩ := Course.of_map hcourse
  have hkeeps :
      (edit.decide tree.outline : Verdict Origin Unit).Keeps store.keyOf [] tree.outline :=
    Guards.keeps_edit hroot edit
  have hkeeps' : (edit.decide tree.outline : Verdict Tree Unit).Keeps Tree.key [] tree.outline :=
    Guards.keeps_edit hroot edit
  obtain ⟨rfl, hafter⟩ := Course.presents hview hroot (hplain tree hroot htree)
    (store.grant_edit edit tree.outline) hkeeps hkeeps'
    (fun slot hslot => absurd hslot List.not_mem_nil) hinner
  exact ⟨rfl, hafter⟩

theorem away_of_ne (hslot : place.slot ≠ .argument) (slot : Slot)
    (hmem : Origin.held slot ∈ [Origin.held .argument]) : slot ≠ place.slot := by
  obtain rfl : slot = .argument := by simpa using hmem
  exact hslot.symm

theorem course_attach {operation : Operation} {renamed : Option String} {child : Tree}
    {result : Except Fault Nat} (hslot : place.slot ≠ .argument) (hnode : store.Presents place node)
    (hchild : store.view? .argument = some child)
    (hcourse : Course (place.perform (Outline.attach operation renamed (.held .argument)
      child.head)).run store result after) :
    result = (node.attach operation (renamed.getD child.key) child).1 ∧
      after.Presents place (node.attach operation (renamed.getD child.key) child).2 := by
  obtain ⟨tree, hview, hroot, rfl⟩ := hnode
  have hguest : store.guest (.held .argument) = child := Program.resolve_argument hchild
  have hkey : store.keyOf (.held .argument) = child.head.key := congrArg Tree.key hguest
  have hgrant := store.grant_attach operation renamed (.held .argument) child.head tree.outline
  rw [hguest] at hgrant
  exact Course.presents hview hroot (Tree.plainly_attach hroot operation renamed child) hgrant
    (Outline.keeps_attach hroot operation renamed hkey (List.mem_singleton_self _))
    (Outline.keeps_attach hroot operation renamed rfl (List.mem_singleton_self _))
    (away_of_ne hslot) hcourse

theorem course_append {child : Tree} {result : Except Fault Nat} (hslot : place.slot ≠ .argument)
    (hnode : store.Presents place node) (hchild : store.view? .argument = some child)
    (hcourse : Course (place.perform (Outline.append (.held .argument) child.head)).run store result
      after) :
    result = (node.append child).1 ∧ after.Presents place (node.append child).2 := by
  obtain ⟨tree, hview, hroot, rfl⟩ := hnode
  have hguest : store.guest (.held .argument) = child := Program.resolve_argument hchild
  have hgrant := store.grant_append (.held .argument) child.head tree.outline
  rw [hguest] at hgrant
  exact Course.presents hview hroot (Tree.plainly_append child) hgrant
    (Outline.keeps_append hroot _ (List.mem_singleton_self _))
    (Outline.keeps_append hroot _ (List.mem_singleton_self _))
    (away_of_ne hslot) hcourse

theorem course_entry {key : String} {result : Except Fault Nat} (hnode : store.Presents place node)
    (hcourse : Course (place.perform (Outline.entry key (.fresh .blank))).run store result after) :
    result = (node.entry key).1 ∧ after.Presents place (node.entry key).2 := by
  obtain ⟨tree, hview, hroot, rfl⟩ := hnode
  exact Course.presents hview hroot (Tree.plainly_entry hroot key)
    (store.grant_entry key (.fresh .blank) tree.outline)
    (Outline.keeps_entry hroot key rfl (List.mem_singleton_self _))
    (Outline.keeps_entry hroot key rfl (List.mem_singleton_self _))
    (fun slot hmem => by simp at hmem) hcourse

theorem course_locate {operation : Operation} {key : String} {result : Except Fault Nat}
    (hnode : store.Presents place node)
    (hcourse : Course (place.perform (Outline.childOf operation key)).run store result after) :
    result = (node.locate operation key).1 ∧
      after.Presents place (node.locate operation key).2 := by
  obtain ⟨tree, hview, hroot, rfl⟩ := hnode
  have hkeeps {ι : Type} (keyOf : ι → String) : (tree.outline.childOf operation key :
      Verdict ι Nat).Keeps keyOf [] tree.outline := by
    intro change hchange
    rw [Program.childOf_change] at hchange
    cases hchange
  exact Course.presents hview hroot (Tree.plainly_locate hroot operation key)
    (store.grant_childOf operation key tree.outline) (hkeeps store.keyOf) (hkeeps Tree.key)
    (fun slot hslot => absurd hslot List.not_mem_nil) hcourse

/-- Attaching a child as if the container were overwritable. -/
theorem course_attachOver {key : String} {child : Tree} {result : Except Fault Nat}
    (hslot : place.slot ≠ .argument) (hnode : store.Presents place node)
    (hchild : store.view? .argument = some child)
    (hcourse : Course (place.perform (Outline.attachOver key (.held .argument) child.head)).run
      store result after) :
    result = ({ node with overwrite := true }.attach .attachKeyed key child).1 ∧
      after.Presents place { ({ node with overwrite := true }.attach .attachKeyed key child).2 with
        overwrite := node.overwrite } := by
  obtain ⟨tree, hview, hroot, rfl⟩ := hnode
  have hguest : store.guest (.held .argument) = child := Program.resolve_argument hchild
  have hkey : store.keyOf (.held .argument) = child.head.key := congrArg Tree.key hguest
  have hgrant := store.grant_attachOver key (.held .argument) child.head tree.outline
  rw [hguest] at hgrant
  exact Course.presents hview hroot (Tree.plainly_attachOver hroot key child) hgrant
    (Outline.keeps_attachOver hroot key hkey (List.mem_singleton_self _))
    (Outline.keeps_attachOver hroot key rfl (List.mem_singleton_self _))
    (away_of_ne hslot) hcourse

theorem course_assign {key : String} {child : Tree} {result : Except Fault Nat}
    (hslot : place.slot ≠ .argument) (hnode : store.Presents place node)
    (hchild : store.view? .argument = some child)
    (hcourse : Course (do
      let _ ← place.perform (Outline.attachOver key (.held .argument) child.head)
      place.perform (Outline.childOf .editChildOf key) : Attempt Nat).run store result after) :
    result = (node.assign key child).1 ∧ after.Presents place (node.assign key child).2 := by
  unfold Plain.assign
  rcases Course.run_bind_iff.mp hcourse with ⟨pos, middle, hattach, hlocate⟩ | ⟨fault, hattach, rfl⟩
  · obtain ⟨hpos, hmiddle⟩ := course_attachOver hslot hnode hchild hattach
    generalize { node with overwrite := true }.attach .attachKeyed key child = run at hpos hmiddle ⊢
    obtain ⟨answer, attached⟩ := run
    obtain rfl : .ok pos = answer := hpos
    exact course_locate hmiddle hlocate
  · obtain ⟨hfault, hafter⟩ := course_attachOver hslot hnode hchild hattach
    generalize { node with overwrite := true }.attach .attachKeyed key child =
      run at hfault hafter ⊢
    obtain ⟨answer, attached⟩ := run
    obtain rfl : .error fault = answer := hfault
    exact ⟨rfl, hafter⟩

/-- A question is asked of the tree that stands at the place. -/
theorem course_view {tree : Tree} {next : Tree → Attempt Answer} {result : Except Fault Answer}
    (hview : store.view? place = some tree)
    (hcourse : Course ((liftM place.view : Attempt Tree) >>= next).run store result after) :
    Course (next tree).run store result after := by
  obtain ⟨found, middle, hfound, hnext⟩ := Course.run_lift_bind_iff.mp hcourse
  obtain ⟨rfl, rfl⟩ := Course.view_iff.mp hfound
  rwa [hview, Option.getD_some] at hnext

/-- Each call of the node at a place answers as the plain container does, and leaves a node that is
the container that is left. -/
theorem course_call (hslot : place.slot ≠ .argument) (hnode : store.Presents place node)
    {call : Call} {result : Except Fault Answer}
    (hcourse : Course (call.run place).run store result after) :
    result = (node.call call).1 ∧ after.Presents place (node.call call).2 := by
  have hprepared := presents_prepared hslot call.handle hnode
  have hhandle := view?_prepared store call.handle
  have hact := course_run hcourse
  clear hcourse hnode
  generalize (⟨store.shelf.set .argument call.handle⟩ : PrivateStore) = ready at *
  -- calls that take a handle, then changes of the row, then questions
  cases call with
  | attach child =>
      exact course_takeIn hprepared hhandle
        (fun _ _ _ hchild => course_attach hslot hprepared hchild) hact
  | attachKeyed key child =>
      exact course_takeIn hprepared hhandle
        (fun _ _ _ hchild => course_attach hslot hprepared hchild) hact
  | append child =>
      exact course_takeIn hprepared hhandle
        (fun _ _ _ hchild => course_append hslot hprepared hchild) hact
  | assign key child =>
      exact course_takeIn hprepared hhandle
        (fun _ _ _ hchild => course_assign hslot hprepared hchild) hact
  | entry key =>
      obtain ⟨inner, hinner, rfl⟩ := Course.of_map hact
      obtain ⟨rfl, hafter⟩ := course_entry hprepared hinner
      exact ⟨rfl, hafter⟩
  | remove key =>
      exact course_rearrange hprepared (fun _ hroot htree => htree ▸ Tree.plainly_remove hroot key)
        hact
  | rename old new =>
      exact course_rearrange hprepared
        (fun _ hroot htree => htree ▸ Tree.plainly_rename hroot old new) hact
  | rekey pos key =>
      exact course_rearrange hprepared
        (fun _ hroot htree => htree ▸ Tree.plainly_rekey hroot pos key) hact
  | relocate key pos =>
      exact course_rearrange hprepared
        (fun _ hroot htree => htree ▸ Tree.plainly_relocate hroot key pos) hact
  | childOf key =>
      obtain ⟨tree, hview, hroot, rfl⟩ := hprepared
      have hcourse := course_view hview hact
      rw [← Tree.plain_childOf hroot key] at hcourse
      change result = ((tree.plain.childOf key).map .child) ∧ after.Presents place tree.plain
      cases hfound : tree.plain.childOf key with
      | ok child =>
          rw [hfound] at hcourse
          obtain ⟨rfl, rfl⟩ := Course.run_pure_iff.mp hcourse
          exact ⟨rfl, tree, hview, hroot, rfl⟩
      | error fault =>
          rw [hfound] at hcourse
          obtain ⟨rfl, rfl⟩ := Course.run_throw_iff.mp hcourse
          exact ⟨rfl, tree, hview, hroot, rfl⟩
  | containsKey key =>
      obtain ⟨tree, hview, hroot, rfl⟩ := hprepared
      obtain ⟨rfl, rfl⟩ := Course.run_pure_iff.mp (course_view hview hact)
      refine ⟨?_, tree, hview, hroot, rfl⟩
      rw [← Tree.plain_find?_isSome hroot]
      rfl
  | keyIndex =>
      obtain ⟨tree, hview, hroot, rfl⟩ := hprepared
      obtain ⟨rfl, rfl⟩ := Course.run_pure_iff.mp (course_view hview hact)
      refine ⟨?_, tree, hview, hroot, rfl⟩
      rw [← Tree.plain_keyIndex hroot]
      rfl

/-- Calls one after the other answer as the plain container does. -/
theorem course_runAll (hslot : place.slot ≠ .argument) (hnode : store.Presents place node)
    {calls : List Call} {results : List (Except Fault Answer)}
    (hcourse : Course (runAll place calls) store results after) :
    results = (node.calls calls).1 ∧ after.Presents place (node.calls calls).2 := by
  induction calls generalizing store node results with
  | nil =>
      obtain ⟨rfl, rfl⟩ := Course.pure_iff.mp hcourse
      exact ⟨rfl, hnode⟩
  | cons call rest ih =>
      obtain ⟨answer, middle, hcall, hcourse⟩ := Course.bind_iff.mp hcourse
      obtain ⟨rfl, hmiddle⟩ := course_call hslot hnode hcall
      obtain ⟨answers, last, hrest, hpure⟩ := Course.bind_iff.mp hcourse
      obtain ⟨rfl, rfl⟩ := Course.pure_iff.mp hpure
      obtain ⟨rfl, hlast⟩ := ih hmiddle hrest
      exact ⟨rfl, hlast⟩

end Call

/-! ## Whole runs -/

/-- Whatever calls are made one after the other of a well-formed node of a workspace, whether they
are allowed or not: every call answers as it does on a plain container that has the same children,
and the container that is left has the children that the node has then. The workspace may be any
that a program leaves, and the node may have other holders. -/
theorem calls_answer_as_plain {α : Type} (program : Program α) {place : Place}
    (hslot : place.slot ≠ .argument) {tree : Tree}
    (hview : (program.run ({} : SharedStore)).2.view? place = some tree)
    (hroot : tree.outline.WellFormed) (calls : List Call) :
    ((Call.runAll place calls).run (program.run ({} : SharedStore)).2).1 =
        (tree.plain.calls calls).1 ∧
      (((Call.runAll place calls).run (program.run ({} : SharedStore)).2).2.view? place).map
        Tree.plain = some (tree.plain.calls calls).2 := by
  obtain ⟨before, _, hbefore⟩ := Mirrors.empty.run program
  obtain ⟨after, hcourse, hafter⟩ := hbefore.run (Call.runAll place calls)
  have hnode : before.Presents place tree.plain :=
    ⟨tree, (hbefore.view?_eq place).symm.trans hview, hroot, rfl⟩
  obtain ⟨hanswers, left, hleft, _, hplain⟩ := Call.course_runAll hslot hnode hcourse
  exact ⟨hanswers, by rw [hafter.view?_eq, hleft, Option.map_some, hplain]⟩

/-- An autosorted object with two children. -/
def sortedPair : Tree :=
  ((((Tree.leaf .object).withAutosort true).attachKeyed "b" (.leaf (.integer 1))).2.attachKeyed "d"
    (.leaf (.bool true))).2

theorem sortedPair_wellFormed : sortedPair.WellFormed := by
  have hobject : ((Tree.leaf .object).withAutosort true).WellFormed :=
    (Tree.WellFormed.leaf .object).with_head rfl rfl rfl
  exact (hobject.attachKeyed _ (.leaf _)).attachKeyed _ (.leaf _)

/-- A child that comes in between the two, one that may not replace the first, and a move. -/
def pairCalls : List Call :=
  [.attachKeyed "c" (some (.leaf .null)), .attachKeyed "b" (some .blank), .relocate "d" 0,
    .containsKey "c"]

theorem sortedPair_answers_as_plain :
    let before := (Program.request (.hold (.register "a") sortedPair)).run ({} : SharedStore)
    let place : Place := ⟨.register "a", []⟩
    place.slot ≠ .argument ∧ before.2.view? place = some sortedPair ∧
      sortedPair.outline.WellFormed ∧
      ((Call.runAll place pairCalls).run before.2).1 = (sortedPair.plain.calls pairCalls).1 ∧
      (((Call.runAll place pairCalls).run before.2).2.view? place).map
        (fun tree => tree.children.map Tree.key) = some ["d", "b", "c"] := by
  have hview : ((Program.request (.hold (.register "a") sortedPair)).run
      ({} : SharedStore)).2.view? ⟨.register "a", []⟩ = some sortedPair :=
    (Mirrors.empty.answer (.hold (.register "a") sortedPair)).view?_eq _
  have hroot : sortedPair.outline.WellFormed := sortedPair_wellFormed.outline
  obtain ⟨hanswers, hnode⟩ := calls_answer_as_plain _ (by decide) hview hroot pairCalls
  refine ⟨by decide, hview, hroot, hanswers, ?_⟩
  have hkeys : (sortedPair.plain.calls pairCalls).2.children.map Tree.key = ["d", "b", "c"] := by
    cbv
  rw [← hkeys]
  obtain ⟨tree, htree, hplain⟩ := Option.map_eq_some_iff.mp hnode
  rw [htree, ← hplain]
  rfl

end KeyedTree
