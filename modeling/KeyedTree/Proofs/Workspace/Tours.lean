import KeyedTree.Proofs.Tree.Tours
import KeyedTree.Proofs.Tree.Trips
import KeyedTree.Proofs.Workspace.Walks

/-! # Walks in pre-order

The visits of a walk may change what they like about the nodes, but for the keys and the children.
The walk then visits the nodes that it is permitted to visit, one after the other in pre-order, and
each as it was before. Every visit is recorded with what it found and what it made of it, and the
tree that the walk leaves is read off the records.
-/

namespace KeyedTree

variable {σ : Type}

/-! ## Recording visits -/

/-- Visits a node and records the visit. -/
def Walk.recording (visit : Place → σ → Program (Traversal × σ)) (place : Place)
    (recorded : σ × List (Record σ)) :
    Program (Traversal × σ × List (Record σ)) := do
  let found ← place.view
  let (traversal, state) ← visit place recorded.1
  let left ← place.view
  return (traversal, state, recorded.2 ++ [⟨place.path, found, recorded.1, traversal, left, state⟩])

variable {visit : Place → σ → Program (Traversal × σ)} {exceptions : List String} {reach : Nat}
  {place : Place} {guards : Guards} {before middle after : PrivateStore} {old left : Tree}
  {state : σ × List (Walk.Record σ)} {result : Except Fault Unit × σ × List (Walk.Record σ)}

/-- A visit that is recorded does and answers what the visit does. -/
theorem Walk.forgets_recording (visit : Place → σ → Program (Traversal × σ)) (place : Place)
    (state : σ × List (Record σ)) :
    (recording visit place state).Forgets plainly (visit place state.1) := by
  intro store
  simp only [recording, Program.run_bind]
  rfl

theorem Walk.safe_recording (hvisit : (visit place state.1).Safe guards) :
    (recording visit place state).Safe guards := by
  have hview : place.view.Safe guards :=
    Program.Safe.bind (Program.safe_look trivial) fun _ => Program.safe_done _
  exact hview.bind fun _ => hvisit.bind fun _ => hview.bind fun _ => Program.safe_done _

/-- A visit finds what is there and leaves a well-formed tree, and both are recorded. -/
theorem Course.recording {recorded : Traversal × σ × List (Walk.Record σ)}
    (hvisit : (visit place state.1).Safe (guards.guard place))
    (hsound : (guards.guard place).Sound before) (hold : before.view? place = some old)
    (hcourse : Course (Walk.recording visit place state) before recorded after) :
    ∃ left, after.view? place = some left ∧ (guards.guard place).Sound after ∧ left.WellFormed ∧
      recorded.2.2 = state.2 ++ [⟨place.path, old, state.1, recorded.1, left, recorded.2.1⟩] := by
  obtain ⟨found, _, hfound, hcourse⟩ := bind_iff.mp hcourse
  obtain ⟨rfl, rfl⟩ := view_iff.mp hfound
  obtain ⟨⟨traversal, state'⟩, middle, hinner, hcourse⟩ := bind_iff.mp hcourse
  obtain ⟨shown, _, hview, hpure⟩ := bind_iff.mp hcourse
  obtain ⟨rfl, rfl⟩ := view_iff.mp hview
  obtain ⟨rfl, rfl⟩ := pure_iff.mp hpure
  have hkept := hvisit before hsound _ _ hinner
  obtain ⟨left, hleft, hwell⟩ := hkept.view?_guarded hold
  refine ⟨left, hleft, hkept.sound, hwell, ?_⟩
  rw [hold, hleft, Option.getD_some, Option.getD_some]

/-! ## Courses of walks -/

namespace Walk

/-- A walk toured the node at a place, which was a tree and has kept its key. -/
structure Completed (exceptions : List String) (reach : Nat) (path : List Nat) (old : Tree)
    (state : σ) (result : Except Fault Unit × σ) (records : List (Record σ)) (final : Tree) :
    Prop where
  answer : result.1 = .ok ()
  threads : Threads state records result.2
  key : final.key = old.key
  toured : Toured exceptions reach path old records final

/-- A walk over the node at a place, which was a tree, recorded its visits and left a tree. If all
visits kept keys and children, it toured the node. -/
structure Recorded (exceptions : List String) (reach : Nat) (place : Place) (old : Tree)
    (state : σ × List (Record σ)) (result : Except Fault Unit × σ × List (Record σ))
    (records : List (Record σ)) (final : Tree) (after : PrivateStore) : Prop where
  recorded : result.2.2 = state.2 ++ records
  left : after.view? place = some final
  completed : (∀ record ∈ records, record.Keeps) →
    Completed exceptions reach place.path old state.1 (plainly result) records final

/-- A walk over children of a node that stand behind others recorded its visits. If all of them kept
keys and children, it toured each child. -/
structure RowRecorded (exceptions : List String) (reach : Nat) (place : Place) (head : Head)
    (done rest : List Tree) (state : σ × List (Record σ))
    (result : Except Fault Unit × σ × List (Record σ)) (records : List (Record σ))
    (finals : List Tree) (after : PrivateStore) : Prop where
  recorded : result.2.2 = state.2 ++ records
  left : after.view? place = some (.node head (done ++ finals))
  completed : (∀ record ∈ records, record.Keeps) → result.1 = .ok () ∧
    Threads state.1 records result.2.1 ∧
    RowToured exceptions reach place.path done.length rest records finals

variable {records more : List (Record σ)} {head : Head} {child final : Tree}
  {done rest finals : List Tree}

theorem RowRecorded.nil (hview : after.view? place = some (.node head done)) :
    RowRecorded exceptions reach place head done [] state (.ok (), state) [] [] after where
  recorded := (List.append_nil _).symm
  left := by rwa [List.append_nil]
  completed _ := ⟨rfl, rfl, .nil _⟩

/-- The walk goes on behind a child. -/
theorem RowRecorded.cons {state' : σ × List (Record σ)}
    (hchild : Recorded exceptions reach (place.child done.length) child state (.ok (), state')
      records final middle)
    (hrow : RowRecorded exceptions reach place head (done ++ [final]) rest state' result more finals
      after) :
    RowRecorded exceptions reach place head done (child :: rest) state result (records ++ more)
      (final :: finals)
      after where
  recorded := by
    have hfirst : state'.2 = state.2 ++ records := hchild.recorded
    rw [hrow.recorded, hfirst, List.append_assoc]
  left := by rw [hrow.left, List.append_assoc, List.singleton_append]
  completed hkeeps := by
    obtain ⟨hfirst, hmore⟩ := List.forall_mem_append.mp hkeeps
    have hcompleted := hchild.completed hfirst
    obtain ⟨hanswer, hthreads, htoured⟩ := hrow.completed hmore
    rw [List.length_append] at htoured
    exact ⟨hanswer, threads_append hcompleted.threads hthreads,
      .cons hcompleted.toured hcompleted.key htoured⟩

/-- A walk that ends with a fault was not made by visits that keep keys and children. -/
theorem RowRecorded.failed {fault : Fault} {state' : σ × List (Record σ)}
    (hchild : Recorded exceptions reach (place.child done.length) child state (.error fault, state')
      records final middle)
    (hview : after.view? place = some (.node head (done ++ final :: rest))) :
    RowRecorded exceptions reach place head done (child :: rest) state (.error fault, state')
      records (final :: rest)
      after where
  recorded := hchild.recorded
  left := hview
  completed hkeeps := nomatch (hchild.completed hkeeps).answer

/-- A walk over the node at a place is safe under a guard of it, and it records its visits. -/
structure MakesRecords (guards : Guards) (exceptions : List String) (reach : Nat)
    (walk : Place → σ × List (Record σ) → Program (Except Fault Unit × σ × List (Record σ)))
    (place : Place) :
    Prop where
  safe : ∀ state, (walk place state).Safe (guards.guard place)
  made : ∀ {state : σ × List (Record σ)} {before after : PrivateStore} {old : Tree}
    {result : Except Fault Unit × σ × List (Record σ)}, (guards.guard place).Sound before →
      before.view? place = some old → Course (walk place state) before result after →
        ∃ records final, Recorded exceptions reach place old state result records final after

end Walk

namespace Course

variable {walkChild : Place → σ × List (Walk.Record σ) →
  Program (Except Fault Unit × σ × List (Walk.Record σ))}

/-- A walk over the rest of a row records its visits. -/
theorem row_recorded {visited : List Nat} {head : Head} {done rest : List Tree}
    (hwrite : guards.Writable place)
    (hchild : ∀ pos, Walk.MakesRecords guards exceptions reach walkChild (place.child pos))
    (hkept : guards.ChildrenKept place visited before middle)
    (hview : middle.view? place = some (.node head (done ++ rest)))
    (hcourse : Course (Walk.row walkChild place (List.range' done.length rest.length) state) middle
      result after) :
    ∃ records finals, Walk.RowRecorded exceptions reach place head done rest state result records
      finals after := by
  induction rest generalizing done middle visited state with
  | nil =>
      obtain ⟨rfl, rfl⟩ := pure_iff.mp hcourse
      rw [List.append_nil] at hview
      exact ⟨[], [], .nil hview⟩
  | cons child rest ih =>
      obtain ⟨hsound, hthere, answer, state', last, hwalk, hnext⟩ :=
        walk_row hwrite (fun pos => (hchild pos).safe) hkept hview hcourse
      obtain ⟨records, final, hrecorded⟩ := (hchild _).made hsound hthere hwalk
      obtain ⟨hlast, ⟨fault, rfl, rfl, rfl⟩ | ⟨rfl, ⟨_, hkept⟩, hrest⟩⟩ := hnext _ hrecorded.left
      · exact ⟨_, _, .failed hrecorded hlast⟩
      · rw [List.append_cons] at hlast
        obtain ⟨more, finals, hrow⟩ := ih hkept hlast hrest
        exact ⟨_, _, .cons hrecorded hrow⟩

/-- When the walk over the children of a visited node is over and all of them have kept their keys,
the node resettles as it is. -/
theorem below_recorded (hwrite : guards.Writable place) (hsound : guards.Sound before)
    (hchild : ∀ pos, Walk.MakesRecords guards exceptions reach walkChild (place.child pos))
    (hview : before.view? place = some left) (hleft : left.WellFormed)
    (hcourse : Course (Walk.below walkChild place state) before result after) :
    ∃ records final, result.2.2 = state.2 ++ records ∧ after.view? place = some final ∧
      ((∀ record ∈ records, record.Keeps) → result.1 = .ok () ∧
        Walk.Threads state.1 records result.2.1 ∧
        ∃ finals, Walk.RowToured exceptions reach place.path 0 left.children records finals ∧
          final = .node left.head finals) := by
  obtain ⟨answer, middle, hwalk, hsettled⟩ := walk_below hview hcourse
  have hstart : before.view? place = some (.node left.head ([] ++ left.children)) := by
    rw [hview, List.nil_append, Tree.node_head_children]
  obtain ⟨records, finals, hrow⟩ := row_recorded hwrite hchild (.refl hsound hwrite) hstart hwalk
  obtain ⟨hfinal, hquiet, _⟩ := hsettled _ hrow.left
  rw [List.nil_append] at hfinal hquiet
  refine ⟨records, _, hrow.recorded, hfinal, fun hkeeps => ?_⟩
  obtain ⟨hanswer, hthreads, htoured⟩ := hrow.completed hkeeps
  -- the node has the keys that it had when the visit left it, so its index is right still
  have hkeys : (Tree.node left.head finals).keys = left.keys := htoured.keys
  have hsame : (Tree.node left.head finals).perform (Outline.resettle left.keys) =
      (.ok [], .node left.head finals) := by
    rw [← hkeys]
    refine Tree.perform_resettle_self ?_
    rw [Tree.outline, hkeys]
    exact hleft.outline
  exact ⟨(hquiet (congrArg Prod.fst hsame)).trans hanswer, hthreads, finals, htoured,
    congrArg Prod.snd hsame⟩

end Course

namespace Walk

theorem Recorded.passed (hkey : old.key ∈ exceptions) (hview : before.view? place = some old) :
    Recorded exceptions reach place old state (.ok (), state) [] old before where
  recorded := (List.append_nil _).symm
  left := hview
  completed _ := ⟨rfl, rfl, rfl, .passed hkey⟩

/-- A walk that goes no further records the visit of the node. -/
theorem Recorded.stopped {traversal : Traversal} {state' : σ × List (Record σ)}
    (hkey : old.key ∉ exceptions) (hview : after.view? place = some left)
    (hrecorded : state'.2 = state.2 ++ [⟨place.path, old, state.1, traversal, left, state'.1⟩])
    (hstop : reach = 0 ∨ traversal = .skipBelow) :
    Recorded exceptions reach place old state (.ok (), state')
      [⟨place.path, old, state.1, traversal, left, state'.1⟩] left after where
  recorded := hrecorded
  left := hview
  completed hkeeps := by
    have hself := hkeeps _ (List.mem_singleton_self _)
    exact ⟨rfl, ⟨rfl, rfl⟩, hself.1, .stopped hkey rfl rfl hself hstop⟩

/-- Guards of a node do not matter for its children. -/
theorem MakesRecords.guard
    {walk : Place → σ × List (Record σ) → Program (Except Fault Unit × σ × List (Record σ))}
    {pos : Nat} (hwalk : MakesRecords guards exceptions reach walk (place.child pos)) :
    MakesRecords (guards.guard place) exceptions reach walk (place.child pos) := by
  have hguard := guards.guard_guard place (place.child pos) rfl
  exact ⟨hguard ▸ hwalk.safe, fun hsound => hwalk.made (hguard ▸ hsound)⟩

/-- A walk records its visits, if the walks over the children that go one level less far do. -/
theorem makesRecords_step
    (hvisit : ∀ path state, (visit (place.below path) state).Safe (guards.guard (place.below path)))
    (hchild : ∀ further, reach = further + 1 → ∀ pos, MakesRecords guards exceptions further
      (run (recording visit) exceptions further) (place.child pos)) :
    MakesRecords guards exceptions reach (run (recording visit) exceptions reach) place := by
  refine ⟨fun _ => safe_run fun path state => safe_recording (hvisit path state.1), ?_⟩
  intro state before after old result hsound hold hcourse
  obtain ⟨hkey, rfl, rfl⟩ | ⟨hkey, traversal, state', _, hrecording, hwalk⟩ :=
    Course.walk_run hold hcourse
  · exact ⟨_, _, .passed hkey hold⟩
  · obtain ⟨left, hleft, hmiddle, hwell, hrecorded⟩ :=
      Course.recording (safe_self hvisit _) hsound hold hrecording
    obtain ⟨hstop, rfl, rfl⟩ | ⟨rfl, further, rfl, hwalk⟩ := hwalk
    · exact ⟨_, _, .stopped hkey hleft hrecorded hstop⟩
    · have hwrite : (guards.guard place).Writable place := (Guards.writable_guard_same rfl).mpr rfl
      obtain ⟨records, final, hmore, hafter, hbelow⟩ :=
        Course.below_recorded hwrite hmiddle (fun pos => (hchild further rfl pos).guard) hleft
          hwell hwalk
      refine ⟨⟨place.path, old, state.1, .goOn, left, state'.1⟩ :: records, final, ?_, hafter,
        fun hkeeps => ?_⟩
      · rw [hmore, hrecorded, List.append_assoc, List.singleton_append]
      · -- the row that is toured is that of the old node, whose children the visit kept
        obtain ⟨hself, hrest⟩ := List.forall_mem_cons.mp hkeeps
        obtain ⟨hanswer, hthreads, finals, hrow, rfl⟩ := hbelow hrest
        exact ⟨hanswer, ⟨rfl, hthreads⟩, hself.1, .of_row hkey rfl rfl rfl (hself.2 ▸ hrow)⟩

/-- Every walk records its visits. -/
theorem makesRecords_run (exceptions : List String) (reach : Nat)
    (hvisit : ∀ path state,
      (visit (place.below path) state).Safe (guards.guard (place.below path))) :
    MakesRecords guards exceptions reach (run (recording visit) exceptions reach) place := by
  induction reach generalizing place with
  | zero => exact makesRecords_step hvisit nofun
  | succ reach ih =>
      refine makesRecords_step hvisit fun further hreach pos => ?_
      obtain rfl := Nat.succ.inj hreach
      exact ih (safe_child hvisit pos)

end Walk

/-! ## Walks over shared nodes -/

/-- At any time, a walk may be made over a node that may be written to, with any exceptions and with
any visits that leave well-formed what they can write to and leave every node that they visit its
key and its children. Recording the visits changes nothing. The walk ends without a fault, and the
state goes from visit to visit. It visits in pre-order, and once each, all nodes that are within
reach, but for those at and below exceptional keys and those below nodes whose visits kept it out.
Each is visited as it was before the walk and left as its visit left it, and all other nodes stay as
they were. -/
theorem walks_tour_in_preorder {α : Type} (program : Program α) (hwrite : guards.Writable place)
    (hsound : ∀ other, guards.Writable other → ∀ node,
      (program.run ({} : SharedStore)).2.view? other = some node → node.WellFormed)
    (hold : (program.run ({} : SharedStore)).2.view? place = some old)
    (hvisit : ∀ path state, (visit (place.below path) state).Safe (guards.guard (place.below path)))
    (exceptions : List String) (reach : Nat) (state : σ) :
    let before := (program.run ({} : SharedStore)).2
    let walk := (Walk.run visit exceptions reach place state).run before
    let recorded := (Walk.run (Walk.recording visit) exceptions reach place (state, [])).run before
    (∀ record ∈ recorded.1.2.2, record.Keeps) →
      walk = ((recorded.1.1, recorded.1.2.1), recorded.2) ∧ walk.1.1 = .ok () ∧
        Walk.Threads state recorded.1.2.2 walk.1.2 ∧
        ∃ final, walk.2.view? place = some final ∧ final.WellFormed ∧
          Walk.Toured exceptions reach place.path old recorded.1.2.2 final := by
  intro before walk recorded hkeeps
  have hsame : walk = ((recorded.1.1, recorded.1.2.1), recorded.2) :=
    Walk.forgets_of_visits (Walk.forgets_recording visit) exceptions reach place (state, []) before
  refine ⟨hsame, ?_⟩
  rw [hsame]
  obtain ⟨plain, _, hplain⟩ := Mirrors.empty.run program
  have hsound' : guards.Sound plain := fun other hother node hnode =>
    hsound other hother node ((hplain.view?_eq other).trans hnode)
  obtain ⟨after, hcourse, hafter⟩ :=
    hplain.run (Walk.run (Walk.recording visit) exceptions reach place (state, []))
  have hthere : plain.view? place = some old := (hplain.view?_eq place).symm.trans hold
  have hwalk := Walk.makesRecords_run exceptions reach hvisit
  obtain ⟨records, final, hrecorded⟩ := hwalk.made (hsound'.guard hwrite) hthere hcourse
  have hkept := hwalk.safe _ plain (hsound'.guard hwrite) _ _ hcourse
  have hwell := hkept.sound place ((Guards.writable_guard_same rfl).mpr rfl) _ hrecorded.left
  obtain rfl : recorded.1.2.2 = records := hrecorded.recorded
  have hcompleted := hrecorded.completed hkeeps
  exact ⟨hcompleted.answer, hcompleted.threads, final,
    (hafter.view?_eq place).trans hrecorded.left, hwell, hcompleted.toured⟩

/-- Three members, each of which has a member of its own. -/
def threeBoxes : Tree :=
  Grammar.objectOf [(Grammar.objectOf [(Tree.leaf (.integer 1)).withKey "p"]).withKey "a",
    (Grammar.objectOf [(Tree.leaf (.integer 2)).withKey "q"]).withKey "b",
    (Grammar.objectOf [(Tree.leaf (.integer 3)).withKey "r"]).withKey "c"]

/-- Visits that are counted and make nodes overwritable; they keep the walk out of `b`. -/
def marking (place : Place) (count : Nat) : Program (Traversal × Nat) := do
  let _ ← (place.perform (Edit.setOverwrite true).decide).run
  return (if (← place.key) = "b" then .skipBelow else .goOn, count + 1)

/-- One member is toured, one is visited without what is below it, and one is left out. -/
theorem threeBoxes_toured :
    let program := Program.request (.hold (.register "r") threeBoxes)
    let place : Place := ⟨.register "r", []⟩
    let before := (program.run ({} : SharedStore)).2
    let walk := (Walk.run marking ["c"] 2 place 0).run before
    let recorded := (Walk.run (Walk.recording marking) ["c"] 2 place (0, [])).run before
    (recorded.1.2.2.map Walk.Record.path = [[], [0], [0, 0], [1]] ∧
      ∀ record ∈ recorded.1.2.2, record.Keeps) ∧
      walk = ((recorded.1.1, recorded.1.2.1), recorded.2) ∧ walk.1.1 = .ok () ∧
      Walk.Threads 0 recorded.1.2.2 walk.1.2 ∧
      ∃ final, walk.2.view? place = some final ∧ final.WellFormed ∧
        Walk.Toured ["c"] 2 [] threeBoxes recorded.1.2.2 final := by
  intro program place
  have hjson : (Json.object [("a", .object [("p", .number (.integer 1))]),
      ("b", .object [("q", .number (.integer 2))]),
      ("c", .object [("r", .number (.integer 3))])]).toTree = .ok threeBoxes := by rfl
  have hview : (program.run ({} : SharedStore)).2.view? place = some threeBoxes :=
    (Mirrors.empty.answer (.hold (.register "r") threeBoxes)).view?_eq place
  have hwrite : Guards.free.Writable place := rfl
  have hkeeps : ∀ record ∈ ((Walk.run (Walk.recording marking) ["c"] 2 place (0, [])).run
      (program.run ({} : SharedStore)).2).1.2.2, record.Keeps := by
    refine Walk.forall_keeps_iff.mpr ?_
    cbv
  refine ⟨⟨by cbv, hkeeps⟩, ?_⟩
  refine walks_tour_in_preorder program hwrite (fun other hroot node hnode => ?_) hview
    (fun path state => ?_) ["c"] 2
    0 hkeeps
  · obtain ⟨slot, path⟩ := other
    obtain rfl : path = [] := hroot
    exact Program.Operates.wellFormed (.hold rfl (.converted hjson)) hnode
  · refine (Program.safe_edit ((Guards.writable_guard_same rfl).mpr rfl) _).bind fun _ => ?_
    exact (Program.safe_key _).bind fun _ => Program.safe_done _

end KeyedTree
