import KeyedTree.Proofs.Plain.Visits

/-! # Assigning under a key

An assignment has two halves: a child is taken in under a key, and then the key is looked up. The
second half can fail behind the first. An array has no children under keys, and no child is found
under the empty key, so an assignment of that kind ends with a fault and has taken the child in.
Every other one is made as a whole or not at all.
-/

namespace KeyedTree

namespace Plain

variable {node after : Plain} {key : String} {child : Tree} {pos : Nat}

/-- A container after a child came in under a key: in the place of the child that stands under the
key, or as one more child. It is an array if it was one, and an object else. -/
structure TakesIn (node : Plain) (key : String) (child : Tree) (pos : Nat) (after : Plain) :
    Prop where
  key_eq : after.key = node.key
  autosort_eq : after.autosort = node.autosort
  overwrite_eq : after.overwrite = node.overwrite
  kind_eq : after.kind = if node.kind = .array then .array else .object
  scalar_eq : after.scalar = node.scalar
  row :
    (node.find? key = some pos ∧ after.children = node.children.set pos (node.adopt key child)) ∨
      (node.find? key = none ∧ pos ≤ node.children.length ∧
        after.children = node.children.insertIdx pos (node.adopt key child))

namespace TakesIn

/-- The child stands at its place, whatever stands around it. -/
theorem getElem? (htakes : node.TakesIn key child pos after) :
    after.children[pos]? = some (node.adopt key child) := by
  rcases htakes.row with ⟨hfound, hrow⟩ | ⟨_, hpos, hrow⟩
  · have hpos : pos < node.children.length := by
      have hkey := (getElem?_of_find? hfound).2
      simpa using (List.getElem?_eq_some_iff.mp hkey).1
    rw [hrow, List.getElem?_set_self hpos]
  · rw [hrow, List.getElem?_insertIdx_self, if_pos hpos]

end TakesIn

/-- A node that cannot have children refuses an assignment. -/
theorem assign_of_leaf
    (hleaf : ¬ (node.kind = .array ∨ node.kind = .uninitialized ∨ node.kind = .object)) :
    node.assign key child = node.refuse .attachKeyed (.mismatch .container) := by
  obtain ⟨harray, hopen⟩ := not_or.mp hleaf
  rw [assign, attach, if_neg harray, if_neg hopen]
  exact congrArg (fun fault => (Except.error fault, node))
    (congrArg (Fault.refused _) (Snapshot.of_congr rfl rfl rfl rfl))

/-- Any other node takes the child in, and then the key is looked up. -/
theorem assign_of_container
    (hkind : node.kind = .array ∨ node.kind = .uninitialized ∨ node.kind = .object) (key : String)
    (child : Tree) :
    ∃ pos after, node.TakesIn key child pos after ∧
      node.assign key child = after.locate .editChildOf key := by
  rcases hkind with harray | hopen
  · have hmissing : node.find? key = none := if_neg fun hkeyed => by simp [harray] at hkeyed
    refine ⟨node.children.length,
      { node with children := node.children ++ [node.adopt key child] }, ?_, ?_⟩
    · exact ⟨rfl, rfl, rfl, by simp [harray], rfl, .inr ⟨hmissing, Nat.le_refl _, by simp⟩⟩
    · rw [assign, attach, if_pos harray]
      rfl
  · have harray : node.kind ≠ .array := by rcases hopen with hblank | hobject <;> simp [*]
    have hsame : ({ node with overwrite := true } : Plain).find? key = node.find? key := rfl
    rw [assign, attach, if_neg harray, if_pos hopen, attachTo, hsame]
    cases hfind : node.find? key with
    | some pos =>
        have hobject : node.kind = .object := by
          unfold find? at hfind
          grind
        refine ⟨pos, { node with children := node.children.set pos (node.adopt key child) },
          ?_, rfl⟩
        exact ⟨rfl, rfl, rfl, by simp [hobject], rfl, .inl ⟨hfind, rfl⟩⟩
    | none =>
        refine ⟨node.placeFor key, { node with
          kind := .object
          children := node.children.insertIdx (node.placeFor key) (node.adopt key child) }, ?_, rfl⟩
        exact ⟨rfl, rfl, rfl, by simp [harray], rfl, .inr ⟨hfind, node.placeFor_le_length key, rfl⟩⟩

/-- Looking a key up changes nothing. -/
theorem locate_snd (node : Plain) (operation : Operation) (key : String) :
    (node.locate operation key).2 = node := by
  unfold locate
  split <;> rfl

end Plain

/-- A well-formed node finds a child under a key where the only child with that key stands. -/
theorem Tree.locate_taken {tree : Tree} (hroot : tree.outline.WellFormed) {node : Plain}
    {key : String} {child : Tree} {pos : Nat} (htakes : node.TakesIn key child pos tree.plain) :
    (tree.plain.locate .editChildOf key).1 =
        (if key ≠ "" ∧ node.kind ≠ .array then .ok pos
          else .error (.ofRefusal ⟨.editChildOf, .missing key⟩ tree)) ∧
      (key ≠ "" → node.kind ≠ .array → ∀ other, tree.keys[other]? = some key ↔ other = pos) := by
  have hpos : tree.keys[pos]? = some key := by
    have hchild : tree.children[pos]? = _ := htakes.getElem?
    rw [keys, List.getElem?_map, hchild]
    rfl
  have hkind : tree.kind = if node.kind = .array then .array else .object := htakes.kind_eq
  by_cases hfound : key ≠ "" ∧ node.kind ≠ .array
  · rw [if_neg hfound.2] at hkind
    have hnames : tree.index.Names tree.keys := hroot.names hkind
    have hget := (hnames key pos).mpr ⟨hfound.1, hpos⟩
    rw [if_pos hfound, Plain.locate, plain_find? hroot, hget]
    refine ⟨rfl, fun _ _ other => ⟨fun hother => ?_, fun hother => hother ▸ hpos⟩⟩
    exact hnames.pos_unique hfound.1 hother hpos
  · have hmissing : tree.index.get? key = none := by
      by_cases harray : node.kind = .array
      · rw [if_pos harray] at hkind
        exact hroot.get?_eq_none (fun hobject => by simp_all [outline, kind]) key
      · rw [if_neg harray] at hkind
        have hkey : key = "" := by_contra fun hkey => hfound ⟨hkey, harray⟩
        exact ((hroot.names hkind).get?_eq_none_iff key).mpr (.inl hkey)
    rw [if_neg hfound, Plain.locate, plain_find? hroot, hmissing, plain_refuse]
    exact ⟨rfl, fun hkey harray => absurd ⟨hkey, harray⟩ hfound⟩

/-! ## Whole runs -/

/-- What an assignment comes to for any well-formed node of a workspace and any handle. The
workspace may be any that a program leaves, and the node may have other holders. An empty handle is
refused, and a node that cannot have children refuses every handle; nothing has changed then. Any
other node takes the child in, in the place of the one under the key or as one more child, and its
other children, its key and its flags are the same. If it is an object now and the key is not empty,
the assignment answers where the child stands, and no other child has the key. An array, and an
object for the empty key, answers that the key is missing, although it has taken the child in. -/
theorem assign_outcome {α : Type} (program : Program α) {place : Place}
    (hslot : place.slot ≠ .argument) {tree : Tree}
    (hview : (program.run ({} : SharedStore)).2.view? place = some tree)
    (hroot : tree.outline.WellFormed) (key : String) (argument : Argument) :
    let store := (program.run ({} : SharedStore)).2
    let run := ((Opener.assign key argument).run place).run.run store
    let takes := tree.kind = .array ∨ tree.kind = .uninitialized ∨ tree.kind = .object
    (store.view? .argument = none →
        run.1 = .error (.emptyHandle .assign) ∧ run.2.view? place = some tree) ∧
      ∀ child, store.view? .argument = some child →
        (¬ takes →
          run.1 = .error (.ofRefusal ⟨.attachKeyed, .mismatch .container⟩ tree) ∧
            run.2.view? place = some tree) ∧
        (takes →
          ∃ pos left, run.2.view? place = some left ∧ left.outline.WellFormed ∧
            tree.plain.TakesIn key child pos left.plain ∧
            run.1 = (if key ≠ "" ∧ tree.kind ≠ .array then .ok pos
              else .error (.ofRefusal ⟨.editChildOf, .missing key⟩ left)) ∧
            (key ≠ "" → tree.kind ≠ .array → ∀ other, left.keys[other]? = some key ↔
              other = pos)) := by
  intro store run takes
  obtain ⟨before, _, hbefore⟩ := Mirrors.empty.run program
  obtain ⟨after, hcourse, hafter⟩ := hbefore.run ((Opener.assign key argument).run place).run
  have hplain : before.view? place = some tree := (hbefore.view?_eq place).symm.trans hview
  have hleft : ∀ other, run.2.view? other = after.view? other := hafter.view?_eq
  rw [show store.view? .argument = before.view? .argument from hbefore.view?_eq .argument]
  rcases Course.of_argumentHead hcourse with ⟨hnone, hresult, rfl⟩ | ⟨child, hsome, hassign⟩
  · rw [hnone]
    exact ⟨fun _ => ⟨hresult, (hleft place).trans hplain⟩, nofun⟩
  · rw [hsome]
    refine ⟨nofun, ?_⟩
    rintro _ ⟨⟩
    obtain ⟨hresult, left, hthere, hwell, hsame⟩ :=
      Call.course_assign hslot ⟨tree, hplain, hroot, rfl⟩ hsome hassign
    have hthere := (hleft place).trans hthere
    refine ⟨fun hleaf => ?_, fun hkind => ?_⟩
    · have hrefused :
          tree.plain.assign key child = tree.plain.refuse .attachKeyed (.mismatch .container) :=
        Plain.assign_of_leaf hleaf
      rw [hrefused, Tree.plain_refuse] at hresult hsame
      exact ⟨hresult, hthere.trans (congrArg some (Tree.eq_of_plain_eq hwell hroot hsame))⟩
    · obtain ⟨pos, target, htakes, hlocate⟩ :
        ∃ pos target, tree.plain.TakesIn key child pos target ∧
          tree.plain.assign key child = target.locate .editChildOf key :=
        Plain.assign_of_container hkind key child
      rw [hlocate] at hresult hsame
      obtain rfl : left.plain = target := hsame.trans (Plain.locate_snd ..)
      obtain ⟨hanswer, hunique⟩ := Tree.locate_taken hwell htakes
      exact ⟨pos, left, hthere, hwell, htakes, hresult.trans hanswer, hunique⟩

/-- A register with a node, and another node in the argument slot that a register holds, too. -/
def handedOver (parent guest : Tree) : Program Unit := do
  Program.request (.hold (.register "a") parent)
  Program.request (.hold (.register "b") guest)
  Program.request (.share ⟨.register "b", []⟩ .argument)

theorem view?_handedOver (parent guest : Tree) :
    ((handedOver parent guest).run ({} : SharedStore)).2.view? ⟨.register "a", []⟩ = some parent ∧
      ((handedOver parent guest).run ({} : SharedStore)).2.view? .argument = some guest := by
  have hvisible : (handedOver parent guest).Each Request.Visible :=
    ⟨trivial, fun _ => ⟨trivial, fun _ => ⟨trivial, fun _ => trivial⟩⟩⟩
  have hmirrors := (Mirrors.empty.run_visible hvisible).2
  exact ⟨hmirrors.view?_eq _, hmirrors.view?_eq _⟩

/-- An object with two children gets another node under the key of the first one, which is also the
node of a register. -/
theorem sortedPair_assign :
    let store := ((handedOver sortedPair (.leaf .null)).run ({} : SharedStore)).2
    let place : Place := ⟨.register "a", []⟩
    let run := ((Opener.assign "b" .empty).run place).run.run store
    place.slot ≠ .argument ∧ store.view? place = some sortedPair ∧ sortedPair.outline.WellFormed ∧
      run.1 = .ok 0 ∧
      ∃ left, run.2.view? place = some left ∧
        left.children = sortedPair.children.set 0 ((Tree.leaf .null).incoming "b") := by
  intro store place run
  obtain ⟨hview, hargument⟩ := view?_handedOver sortedPair (.leaf .null)
  have hslot : place.slot ≠ .argument := by decide
  have hroot : sortedPair.outline.WellFormed := sortedPair_wellFormed.outline
  obtain ⟨-, houtcome⟩ := assign_outcome _ hslot hview hroot "b" .empty
  obtain ⟨pos, left, hleft, _, htakes, hanswer, _⟩ := (houtcome _ hargument).2 (.inr (.inr rfl))
  have hfound : sortedPair.plain.find? "b" = some 0 := by cbv
  rcases htakes.row with ⟨hpos, hrow⟩ | ⟨hnone, _⟩
  · obtain rfl : 0 = pos := Option.some.inj (hfound.symm.trans hpos)
    exact ⟨hslot, hview, hroot, hanswer, left, hleft, hrow⟩
  · rw [hfound] at hnone
    cases hnone

/-- An array takes a child in that is meant for a key, and then it does not find the key. -/
theorem array_takes_keyed_child :
    let store := ((handedOver (.leaf .array) .blank).run ({} : SharedStore)).2
    let place : Place := ⟨.register "a", []⟩
    let run := ((Opener.assign "x" .empty).run place).run.run store
    run.1.isOk = false ∧ store.view? place = some (.leaf .array) ∧
      run.2.view? place = some (.node (Tree.leaf .array).head [Tree.blank.withKey "x"]) := by
  refine ⟨?_, (view?_handedOver _ _).1, ?_⟩
  · cbv
  · cbv

end KeyedTree
