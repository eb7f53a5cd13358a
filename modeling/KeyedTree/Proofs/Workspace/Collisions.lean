import KeyedTree.Proofs.Tree.Trips
import KeyedTree.Proofs.Workspace.Walks

/-! # Walks that leave a key twice

The visits of a walk may change keys as they like. When the walk over the children of an object is
over, and two of them have the same key, all of them take their old keys back and the walk ends with
a fault; what else the visits did stays. Every walk makes a trip, and what it leaves and answers is
read off the trip.
-/

namespace KeyedTree

variable {σ : Type}

/-! ## Noting visits -/

/-- Visits a node and notes the tree that is left there. -/
def Walk.noting (visit : Place → σ → Program (Traversal × σ)) (place : Place)
    (noted : σ × List Stay) :
    Program (Traversal × σ × List Stay) := do
  let (traversal, state) ← visit place noted.1
  return (traversal, state, noted.2 ++ [⟨place.path, ← place.view⟩])

variable {visit : Place → σ → Program (Traversal × σ)} {exceptions : List String} {reach : Nat}
  {place : Place} {guards : Guards} {before middle after : PrivateStore} {old left : Tree}
  {state : σ × List Stay} {result : Except Fault Unit × σ × List Stay}

theorem Walk.safe_noting (hvisit : (visit place state.1).Safe guards) :
    (noting visit place state).Safe guards := by
  refine hvisit.bind fun _ => Program.Safe.bind ?_ fun _ => Program.safe_done _
  exact Program.Safe.bind (Program.safe_look trivial) fun _ => Program.safe_done _

/-- A visit that is noted does and answers what the visit does. -/
theorem Walk.forgets_noting (visit : Place → σ → Program (Traversal × σ)) (place : Place)
    (state : σ × List Stay) :
    (noting visit place state).Forgets plainly (visit place state.1) := by
  intro store
  simp only [noting, Program.run_bind]
  rfl

/-- A walk that notes its visits does and answers what the walk does. -/
theorem Walk.forgets_run (visit : Place → σ → Program (Traversal × σ)) (exceptions : List String)
    (reach : Nat) (place : Place) (state : σ × List Stay) :
    (run (noting visit) exceptions reach place state).Forgets plainly
      (run visit exceptions reach place state.1) :=
  forgets_of_visits (forgets_noting visit) exceptions reach place state

/-! ## Trips made by walks -/

namespace Trip

/-- A walk over the node at a place, which was a tree, made a trip. -/
structure Made (trip : Trip) (place : Place) (old : Tree) (noted : List Stay)
    (result : Except Fault Unit × σ × List Stay) (after : PrivateStore) : Prop where
  proper : trip.Proper
  starts : trip.StartsFrom old
  left : after.view? place = some trip.final
  noted : result.2.2 = noted ++ trip.stays place.path
  ends : trip.Ends result.1

/-- The answer of a walk over a row of children. -/
def RowEnds (row : List Trip) : Except Fault Unit → Prop
  | .ok () => ∀ trip ∈ row, ¬ trip.Fails
  | .error fault => ∃ trip ∈ row, trip.Reports fault

/-- A walk over the children of a node that stand behind others made a row of trips. -/
structure RowMade (row : List Trip) (place : Place) (head : Head) (done rest : List Tree)
    (noted : List Stay) (result : Except Fault Unit × σ × List Stay) (after : PrivateStore) :
    Prop where
  proper : ∀ trip ∈ row, trip.Proper
  stops : row.Pairwise fun first second => first.Fails → second.left? = none
  starts : List.Forall₂ StartsFrom row rest
  left : after.view? place = some (.node head (done ++ row.map final))
  noted : result.2.2 = noted ++ rowStays place.path done.length row
  ends : RowEnds row result.1

variable {trip : Trip} {row : List Trip} {head : Head} {child : Tree} {done rest : List Tree}
  {noted : List Stay}

theorem RowMade.nil (hview : after.view? place = some (.node head done)) :
    RowMade [] place head done [] state.2 (.ok (), state) after where
  proper := nofun
  stops := .nil
  starts := .nil
  left := by rwa [List.map_nil, List.append_nil]
  noted := by rw [rowStays, List.append_nil]
  ends := nofun

/-- A child with a fault is the last one. -/
theorem RowMade.failed {fault : Fault}
    (htrip : trip.Made (place.child done.length) child noted (.error fault, state) after)
    (hview : after.view? place = some (.node head (done ++ trip.final :: rest))) :
    RowMade (trip :: rest.map passed) place head done (child :: rest) noted (.error fault, state)
      after where
  proper := List.forall_mem_cons.mpr ⟨htrip.proper, forall_mem_passed rest .passed⟩
  stops := List.pairwise_cons.mpr ⟨forall_mem_passed rest fun _ _ => rfl, pairwise_passed rest⟩
  starts := .cons htrip.starts (forall₂_startsFrom_passed rest)
  left := by rwa [List.map_cons, map_final_passed]
  noted := by
    rw [rowStays, rowStays_passed, List.append_nil]
    exact htrip.noted
  ends := ⟨trip, List.mem_cons_self, htrip.ends⟩

/-- After a child without a fault the walk goes on behind it. -/
theorem RowMade.cons
    (htrip : trip.Made (place.child done.length) child noted (.ok (), state) middle)
    (hrow : RowMade row place head (done ++ [trip.final]) rest state.2 result after) :
    RowMade (trip :: row) place head done (child :: rest) noted result after where
  proper := List.forall_mem_cons.mpr ⟨htrip.proper, hrow.proper⟩
  stops := List.pairwise_cons.mpr ⟨fun _ _ hfails => absurd hfails htrip.ends, hrow.stops⟩
  starts := .cons htrip.starts hrow.starts
  left := by rw [hrow.left, List.map_cons, List.append_assoc, List.singleton_append]
  noted := by
    have hnoted : state.2 = noted ++ trip.stays (place.path ++ [done.length]) := htrip.noted
    rw [hrow.noted, hnoted, rowStays, List.append_assoc, List.length_append]
    rfl
  ends := by
    have hends := hrow.ends
    cases hresult : result.1 with
    | ok _ =>
        rw [hresult] at hends
        exact List.forall_mem_cons.mpr ⟨htrip.ends, hends⟩
    | error fault =>
        rw [hresult] at hends
        obtain ⟨failed, hmem, hreports⟩ := hends
        exact ⟨failed, List.mem_cons_of_mem _ hmem, hreports⟩

theorem RowEnds.of_not_clash {answer : Except Fault Unit} (hends : RowEnds row answer)
    (hclash : ¬ (visited left row).Clash) : (visited left row).Ends answer := by
  cases answer with
  | ok _ =>
      intro hfails
      obtain hroot | ⟨child, hchild, hchild'⟩ := fails_visited.mp hfails
      · exact hclash hroot
      · exact hends child hchild hchild'
  | error fault =>
      obtain ⟨child, hchild, hreports⟩ := hends
      exact hreports.of_child hchild

/-- A node that is an exception is passed. -/
theorem Made.passed {old : Tree} (hview : after.view? place = some old) :
    (Trip.passed old).Made place old state.2 (.ok (), state) after where
  proper := .passed old
  starts _ hsame := (Trip.passed.inj hsame).symm
  left := by rw [hview, final]
  noted := by rw [stays, List.append_nil]
  ends := fails_passed old

/-- A walk that goes no further ends with the visit. -/
theorem Made.stopped {old : Tree} (hview : after.view? place = some left) (hleft : left.WellFormed)
    (hnoted : state.2 = noted ++ [⟨place.path, left⟩]) :
    (Trip.stopped left).Made place old noted (.ok (), state) after where
  proper := proper_stopped left
  starts := nofun
  left := by rw [hview, final_stopped hleft.outline]
  noted := by rw [stays_stopped, hnoted]
  ends := not_fails_stopped hleft.outline

end Trip

/-! ## Courses of walks -/

/-- A walk over the node at a place is safe under a guard of it, and makes a trip. -/
structure Walk.MakesTrips (guards : Guards)
    (walk : Place → σ × List Stay → Program (Except Fault Unit × σ × List Stay)) (place : Place) :
    Prop where
  safe : ∀ state, (walk place state).Safe (guards.guard place)
  made : ∀ {state : σ × List Stay} {before after : PrivateStore} {old : Tree}
    {result : Except Fault Unit × σ × List Stay}, (guards.guard place).Sound before →
      before.view? place = some old →
      Course (walk place state) before result after →
        ∃ trip : Trip, trip.Made place old state.2 result after

namespace Course

variable {walkChild : Place → σ × List Stay → Program (Except Fault Unit × σ × List Stay)}

/-- A walk over the rest of a row makes a trip for every child. -/
theorem row_made {visited : List Nat} {head : Head} {done rest : List Tree}
    (hwrite : guards.Writable place)
    (hchild : ∀ pos, Walk.MakesTrips guards walkChild (place.child pos))
    (hkept : guards.ChildrenKept place visited before middle)
    (hview : middle.view? place = some (.node head (done ++ rest)))
    (hcourse : Course (Walk.row walkChild place (List.range' done.length rest.length) state) middle
      result after) :
    ∃ row, Trip.RowMade row place head done rest state.2 result after := by
  induction rest generalizing done middle visited state with
  | nil =>
      obtain ⟨rfl, rfl⟩ := pure_iff.mp hcourse
      rw [List.append_nil] at hview
      exact ⟨[], .nil hview⟩
  | cons child rest ih =>
      obtain ⟨hsound, hthere, answer, state', last, hwalk, hnext⟩ :=
        walk_row hwrite (fun pos => (hchild pos).safe) hkept hview hcourse
      obtain ⟨trip, htrip⟩ := (hchild _).made hsound hthere hwalk
      obtain ⟨hlast, ⟨fault, rfl, rfl, rfl⟩ | ⟨rfl, ⟨_, hkept⟩, hrest⟩⟩ := hnext _ htrip.left
      · exact ⟨_, .failed htrip hlast⟩
      · rw [List.append_cons] at hlast
        obtain ⟨row, hrow⟩ := ih hkept hlast hrest
        exact ⟨_, .cons htrip hrow⟩

/-- When the walk over the children of a visited node is over, the node resettles. -/
theorem below_made (hwrite : guards.Writable place) (hsound : guards.Sound before)
    (hchild : ∀ pos, Walk.MakesTrips guards walkChild (place.child pos))
    (hview : before.view? place = some left)
    (hcourse : Course (Walk.below walkChild place state) before result after) :
    ∃ row : List Trip, (Trip.visited left row).Proper ∧
      after.view? place = some (Trip.visited left row).final ∧
      result.2.2 = state.2 ++ Trip.rowStays place.path 0 row ∧
        (Trip.visited left row).Ends result.1 := by
  obtain ⟨answer, middle, hwalk, hsettled⟩ := walk_below hview hcourse
  have hstart : before.view? place = some (.node left.head ([] ++ left.children)) := by
    rw [hview, List.nil_append, Tree.node_head_children]
  obtain ⟨row, hrow⟩ := row_made hwrite hchild (.refl hsound hwrite) hstart hwalk
  have hproper : (Trip.visited left row).Proper := .visited hrow.starts hrow.stops hrow.proper
  obtain ⟨hfinal, hquiet, hrepeated⟩ := hsettled _ hrow.left
  rw [List.nil_append] at hfinal hquiet hrepeated
  rw [← Trip.final_visited] at hfinal hrepeated
  refine ⟨row, hproper, hfinal, hrow.noted, ?_⟩
  -- what is reported depends on whether the row clashes, and then on whether there was a fault
  -- before
  by_cases hclash : (Trip.visited left row).Clash
  · obtain ⟨index, hperform⟩ := Trip.perform_of_clash hclash
    have hends := hrow.ends
    cases hkeys : (KeyIndex.ofKeys (row.map Trip.key)).2 with
    | nil => exact absurd (KeyIndex.repeated_eq_nil_iff.mp hkeys) hclash.2
    | cons key keys =>
        rw [hkeys] at hperform
        rw [hrepeated key keys (congrArg Prod.fst hperform)]
        cases answer with
        | error fault =>
            obtain ⟨child, hmem, hreports⟩ := hends
            exact hreports.of_child hmem
        | ok _ =>
            refine ⟨[], left, row, Trip.at?_nil _, hclash, hends, ?_⟩
            rw [hkeys]
  · obtain ⟨index, hperform⟩ := Trip.perform_of_not_clash hclash
    rw [hquiet (congrArg Prod.fst hperform)]
    exact hrow.ends.of_not_clash hclash

/-- A visit leaves a well-formed tree, which is noted. -/
theorem noting {traversal : Traversal} {noted : σ × List Stay}
    (hvisit : (visit place state.1).Safe (guards.guard place))
    (hsound : (guards.guard place).Sound before) (hold : before.view? place = some old)
    (hcourse : Course (Walk.noting visit place state) before (traversal, noted) after) :
    ∃ left, after.view? place = some left ∧ (guards.guard place).Sound after ∧ left.WellFormed ∧
      noted.2 = state.2 ++ [⟨place.path, left⟩] := by
  obtain ⟨⟨_, state'⟩, middle, hinner, hcourse⟩ := bind_iff.mp hcourse
  obtain ⟨shown, _, hview, hpure⟩ := bind_iff.mp hcourse
  obtain ⟨rfl, rfl⟩ := view_iff.mp hview
  obtain ⟨hresult, rfl⟩ := pure_iff.mp hpure
  have hkept := hvisit before hsound _ _ hinner
  obtain ⟨left, hleft, hwell⟩ := hkept.view?_guarded hold
  refine ⟨left, hleft, hkept.sound, hwell, ?_⟩
  rw [(Prod.mk.inj hresult).2, hleft, Option.getD_some]

end Course

namespace Walk

/-- Guards of a node do not matter for its children. -/
theorem MakesTrips.guard
    {walk : Place → σ × List Stay → Program (Except Fault Unit × σ × List Stay)} {pos : Nat}
    (hwalk : MakesTrips guards walk (place.child pos)) :
    MakesTrips (guards.guard place) walk (place.child pos) := by
  have hguard := guards.guard_guard place (place.child pos) rfl
  exact ⟨hguard ▸ hwalk.safe, fun hsound => hwalk.made (hguard ▸ hsound)⟩

/-- A walk makes a trip, if the walks over the children that go one level less far do. -/
theorem makesTrips_step
    (hvisit : ∀ path state, (visit (place.below path) state).Safe (guards.guard (place.below path)))
    (hchild : ∀ further, reach = further + 1 →
      ∀ pos, MakesTrips guards (run (noting visit) exceptions further) (place.child pos)) :
    MakesTrips guards (run (noting visit) exceptions reach) place := by
  refine ⟨fun _ => safe_run fun path state => safe_noting (hvisit path state.1),
    fun hsound hold hcourse => ?_⟩
  obtain ⟨_, rfl, rfl⟩ | ⟨_, traversal, state', _, hnoting, hcourse⟩ := Course.walk_run hold hcourse
  · exact ⟨_, .passed hold⟩
  · obtain ⟨left, hleft, hmiddle, hwell, hnoted⟩ :=
      Course.noting (safe_self hvisit _) hsound hold hnoting
    obtain ⟨_, rfl, rfl⟩ | ⟨_, further, hreach, hcourse⟩ := hcourse
    · exact ⟨_, .stopped hleft hwell hnoted⟩
    · have hwrite : (guards.guard place).Writable place := (Guards.writable_guard_same rfl).mpr rfl
      obtain ⟨row, hproper, hafter, hstays, hends⟩ :=
        Course.below_made hwrite hmiddle (fun pos => (hchild further hreach pos).guard)
          hleft hcourse
      refine ⟨.visited left row, hproper, nofun, hafter, ?_, hends⟩
      rw [hstays, hnoted, Trip.stays, List.append_assoc, List.singleton_append]

/-- Every walk makes a trip. -/
theorem makesTrips_run (exceptions : List String) (reach : Nat)
    (hvisit : ∀ path state,
      (visit (place.below path) state).Safe (guards.guard (place.below path))) :
    MakesTrips guards (run (noting visit) exceptions reach) place := by
  induction reach generalizing place with
  | zero => exact makesTrips_step hvisit nofun
  | succ reach ih =>
      refine makesTrips_step hvisit fun further hreach pos => ?_
      obtain rfl := Nat.succ.inj hreach
      exact ih (safe_child hvisit pos)

end Walk

/-! ## Walks over shared nodes -/

/-- At any time, a walk may be made over a node that may be written to; with any visits that leave
well-formed what they can write to, and any exceptions. Noting the visits changes nothing. The walk
ends with a fault exactly if there is an object that was visited two children of which have the same
key when the walk over them is over. The children of such objects get the keys back that they had
before; all else is as the visits left it, and nothing was visited later that is not below. -/
theorem collisions_roll_back {α : Type} (program : Program α)
    (hwrite : guards.Writable place)
    (hsound : ∀ other, guards.Writable other → ∀ node,
      (program.run ({} : SharedStore)).2.view? other = some node → node.WellFormed)
    (hold : (program.run ({} : SharedStore)).2.view? place = some old)
    (hvisit : ∀ path state, (visit (place.below path) state).Safe (guards.guard (place.below path)))
    (exceptions : List String) (reach : Nat) (state : σ) :
    let before := (program.run ({} : SharedStore)).2
    let walk := (Walk.run visit exceptions reach place state).run before
    let noted := (Walk.run (Walk.noting visit) exceptions reach place (state, [])).run before
    walk = ((noted.1.1, noted.1.2.1), noted.2) ∧
      ∃ final, walk.2.view? place = some final ∧
        Walk.Settled place.path old noted.1.2.2 walk.1.1 final := by
  intro before walk noted
  have hsame : walk = ((noted.1.1, noted.1.2.1), noted.2) :=
    Walk.forgets_run visit exceptions reach place (state, []) before
  refine ⟨hsame, ?_⟩
  rw [hsame]
  obtain ⟨plain, _, hplain⟩ := Mirrors.empty.run program
  have hsound' : guards.Sound plain := fun other hother node hnode =>
    hsound other hother node ((hplain.view?_eq other).trans hnode)
  obtain ⟨after, hcourse, hafter⟩ :=
    hplain.run (Walk.run (Walk.noting visit) exceptions reach place (state, []))
  have hthere : plain.view? place = some old := (hplain.view?_eq place).symm.trans hold
  have hwalk := Walk.makesTrips_run exceptions reach hvisit
  obtain ⟨trip, htrip⟩ := hwalk.made (hsound'.guard hwrite) hthere hcourse
  have hkept := hwalk.safe _ plain (hsound'.guard hwrite) _ _ hcourse
  have hfinal := hkept.sound place ((Guards.writable_guard_same rfl).mpr rfl) _ htrip.left
  have hstays : noted.1.2.2 = trip.stays place.path := htrip.noted
  exact ⟨trip.final, (hafter.view?_eq place).trans htrip.left,
    hstays ▸ htrip.proper.settled htrip.starts hfinal htrip.ends⟩

/-- Two members, one of which is an object with two members. -/
def pairInPair : Tree :=
  Grammar.objectOf [(Grammar.objectOf [(Tree.leaf (.integer 1)).withKey "p",
    (Tree.leaf (.integer 2)).withKey "q"]).withKey "a", (Tree.leaf (.integer 3)).withKey "b"]

/-- Visits that exchange two keys and take over a third one. -/
def exchanging (place : Place) (_ : Unit) : Program (Traversal × Unit) := do
  let key := match ← place.key with
    | "a" => "b"
    | "b" => "a"
    | "p" => "q"
    | key => key
  let _ ← (place.perform (Edit.setKey key).decide).run
  return (.goOn, ())

/-- The exchange is given up halfway because of a clash further below, and both objects are rolled
back. -/
theorem pairInPair_rolls_back :
    let program := Program.request (.hold (.register "r") pairInPair)
    let place : Place := ⟨.register "r", []⟩
    let before := (program.run ({} : SharedStore)).2
    let walk := (Walk.run exchanging [] 2 place ()).run before
    let noted := (Walk.run (Walk.noting exchanging) [] 2 place ((), [])).run before
    walk.1.1.isOk = false ∧ noted.1.2.2.map Stay.path = [[], [0], [0, 0], [0, 1]] ∧
      walk = ((noted.1.1, noted.1.2.1), noted.2) ∧
      ∃ final, walk.2.view? place = some final ∧
        Walk.Settled [] pairInPair noted.1.2.2 walk.1.1 final := by
  intro program place
  have hjson :
      (Json.object [("a", .object [("p", .number (.integer 1)), ("q", .number (.integer 2))]),
        ("b", .number (.integer 3))]).toTree = .ok pairInPair := by rfl
  have hview : (program.run ({} : SharedStore)).2.view? place = some pairInPair :=
    (Mirrors.empty.answer (.hold (.register "r") pairInPair)).view?_eq place
  have hwrite : Guards.free.Writable place := rfl
  refine ⟨by cbv, by cbv, ?_⟩
  refine collisions_roll_back program hwrite (fun other hroot node hnode => ?_) hview
    (fun path state => ?_) [] 2 ()
  · obtain ⟨slot, path⟩ := other
    obtain rfl : path = [] := hroot
    exact Program.Operates.wellFormed (.hold rfl (.converted hjson)) hnode
  · refine (Program.safe_key _).bind fun key => ?_
    refine (Program.safe_edit ((Guards.writable_guard_same rfl).mpr rfl) _).bind fun _ => ?_
    exact Program.safe_done _

end KeyedTree
