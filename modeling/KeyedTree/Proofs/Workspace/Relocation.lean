import KeyedTree.Proofs.Heap.Writing
import KeyedTree.Proofs.Workspace.EntryWrites

/-! # Moving children

A child of an object moves to another position, or to the end if the position lies past it. The
other children keep their order, and all keys lead where they led before. Where a child stands after
two moves depends on the second one only, so a move can be made twice, and it can be taken back.
-/

namespace KeyedTree

/-! ## Moves within rows -/

section Rows

variable {α : Type} {row : List α} {source : Nat}

theorem moveWithin_of_lt (hsource : source < row.length) (target : Nat) :
    moveWithin row source target =
      (row.eraseIdx source).insertIdx (min target (row.length - 1)) row[source] := by
  rw [← List.length_eraseIdx_of_lt hsource]
  unfold moveWithin
  rw [List.getElem?_eq_getElem hsource]
  rfl

theorem getElem?_moveWithin (hsource : source < row.length) (target : Nat) :
    (moveWithin row source target)[min target (row.length - 1)]? = row[source]? := by
  have hpos : min target (row.length - 1) ≤ (row.eraseIdx source).length := by
    rw [List.length_eraseIdx_of_lt hsource]
    exact Nat.min_le_right ..
  rw [moveWithin_of_lt hsource, List.getElem?_insertIdx_self, if_pos hpos,
    List.getElem?_eq_getElem hsource]

theorem eraseIdx_moveWithin (hsource : source < row.length) (target : Nat) :
    (moveWithin row source target).eraseIdx (min target (row.length - 1)) =
      row.eraseIdx source := by
  rw [moveWithin_of_lt hsource, List.eraseIdx_insertIdx_self]

theorem moveWithin_self (hsource : source < row.length) : moveWithin row source source = row := by
  rw [moveWithin_of_lt hsource, Nat.min_eq_left (Nat.le_sub_one_of_lt hsource),
    List.insertIdx_eraseIdx_getElem hsource]

/-- Of two moves of one value the second decides. -/
theorem moveWithin_moveWithin (hsource : source < row.length) (target last : Nat) :
    moveWithin (moveWithin row source target) (min target (row.length - 1)) last =
      moveWithin row source last := by
  have hthere := getElem?_moveWithin hsource target
  have hothers := eraseIdx_moveWithin hsource target
  rw [List.getElem?_eq_getElem hsource] at hthere
  generalize moveWithin row source target = moved at hthere hothers ⊢
  unfold moveWithin
  rw [hthere, hothers, List.getElem?_eq_getElem hsource]

end Rows

/-! ## Moves of children -/

namespace Tree

variable {tree moved child : Tree} {key : String} {source target : Nat}

/-- The first of some children with distinct keys that has a key is the only one. -/
theorem find?_key_eq_some_iff {row : List Tree} (hrow : Distinct (row.map Tree.key))
    (hkey : key ≠ "") :
    row.find? (·.key = key) = some child ↔ child ∈ row ∧ child.key = key := by
  constructor
  · intro hfind
    exact ⟨List.mem_of_find?_eq_some hfind, by simpa using List.find?_some hfind⟩
  · rintro ⟨hchild, rfl⟩
    obtain ⟨before, after, rfl⟩ := List.append_of_mem hchild
    rw [List.map_append, List.map_cons] at hrow
    have hnone : before.find? (·.key = child.key) = none := by
      simpa [List.mem_map] using hrow.not_mem hkey
    rw [List.find?_append, hnone, Option.none_or, List.find?_cons_of_pos (by simp)]

/-- A node is another one, but for the child at a position, which stands at `target` now, or at the
end if `target` lies past it. -/
structure Moves (tree : Tree) (source target : Nat) (moved : Tree) : Prop where
  /-- nothing but the index differs in the node itself -/
  head : moved.head = { tree.head with index := moved.index }
  /-- the child has come to its place -/
  there : moved.children[min target (tree.children.length - 1)]? = tree.children[source]?
  /-- the other children are as they were, and in the same order -/
  others :
    moved.children.eraseIdx (min target (tree.children.length - 1)) = tree.children.eraseIdx source
  /-- the index agrees with the children -/
  wellFormed : moved.WellFormed
  /-- every key leads to the child to which it led before -/
  lookup : ∀ key, moved.childOf? key = tree.childOf? key

/-- A child that is moved out of a well-formed node, and the index that goes with the new row. -/
theorem Moves.of_plain (htree : tree.WellFormed) (hmoved : moved.WellFormed)
    (hsource : source < tree.children.length)
    (hplain : moved.plain =
      { tree.plain with children := moveWithin tree.children source target }) :
    tree.Moves source target moved := by
  have hchildren : moved.children = moveWithin tree.children source target :=
    congrArg Plain.children hplain
  refine ⟨?_, ?_, ?_, hmoved, fun key => ?_⟩
  · obtain ⟨⟨_, _, _, _, _⟩, _⟩ := moved
    cases hplain
    rfl
  · rw [hchildren]
    exact getElem?_moveWithin hsource target
  · rw [hchildren]
    exact eraseIdx_moveWithin hsource target
  · have hkind : moved.kind = tree.kind := congrArg Plain.kind hplain
    rw [childOf?_eq_scan? hmoved.outline, childOf?_eq_scan? htree.outline, scan?, scan?, hkind]
    split
    next hobject =>
      have hnames : tree.index.Names tree.keys := htree.outline.names hobject.1
      have hperm : moved.children.Perm tree.children :=
        hchildren ▸ Heap.perm_moveWithin tree.children source target
      have hdistinct : Distinct (moved.children.map Tree.key) :=
        hnames.distinct.perm (hperm.map Tree.key).symm
      refine Option.ext fun child => ?_
      rw [find?_key_eq_some_iff hdistinct hobject.2,
        find?_key_eq_some_iff hnames.distinct hobject.2, hperm.mem_iff]
    next => rfl

theorem lt_length_of_get? (hroot : tree.outline.WellFormed)
    (hfound : tree.index.get? key = some source) :
    source < tree.children.length :=
  ((hroot.names (hroot.kind_eq_object hfound)).lt_length hfound).trans_eq tree.length_keys

/-- The child under a key of a well-formed node goes where it is sent. -/
theorem plainly_relocate_present (hroot : tree.outline.WellFormed)
    (hfound : tree.index.get? key = some source) (target : Nat) :
    plainly (tree.perform (Outline.relocate key target)) =
      (.ok (), { tree.plain with children := moveWithin tree.children source target }) := by
  rw [plainly_relocate hroot, Plain.relocate, plain_find? hroot, hfound]
  simp only
  split
  next hsame =>
    rw [← hsame, moveWithin_self (lt_length_of_get? hroot hfound)]
    rfl
  next => rfl

/-- The node that is left when the child under a key is sent to a position. -/
def relocated (tree : Tree) (key : String) (target : Nat) : Tree :=
  (tree.perform (Outline.relocate key target)).2

theorem WellFormed.relocated (htree : tree.WellFormed) (key : String) (target : Nat) :
    (tree.relocated key target).WellFormed := by
  have hkeeps : (Outline.relocate key target tree.outline).Keeps Tree.key [] tree.outline :=
    Outline.keeps_relocate htree.outline key target
  exact htree.perform hkeeps (List.forall_mem_nil _)

theorem moves_relocated (htree : tree.WellFormed) (hfound : tree.index.get? key = some source)
    (target : Nat) :
    tree.Moves source target (tree.relocated key target) :=
  .of_plain htree (htree.relocated key target) (lt_length_of_get? htree.outline hfound)
    (congrArg Prod.snd (plainly_relocate_present htree.outline hfound target))

/-- The index finds a child that has moved where it stands. -/
theorem index_relocated (htree : tree.WellFormed) (hfound : tree.index.get? key = some source)
    (target : Nat) :
    (tree.relocated key target).index.get? key = some (min target (tree.children.length - 1)) := by
  have hobject := htree.outline.kind_eq_object hfound
  have hnames : tree.index.Names tree.keys := htree.outline.names hobject
  have hmoves := moves_relocated htree hfound target
  have hnamed : (tree.relocated key target).index.Names (tree.relocated key target).keys :=
    hmoves.wellFormed.outline.names ((congrArg Head.kind hmoves.head).trans hobject)
  refine (hnamed key _).mpr ⟨hnames.ne_empty hfound, ?_⟩
  rw [keys, List.getElem?_map, hmoves.there, ← List.getElem?_map]
  exact hnames.getElem?_eq hfound

/-- Of two moves of one child the second decides. -/
theorem relocated_relocated (htree : tree.WellFormed) (hfound : tree.index.get? key = some source)
    (target last : Nat) :
    (tree.relocated key target).relocated key last = tree.relocated key last := by
  have hmoved := htree.relocated key target
  have hfirst : (tree.relocated key target).plain = _ :=
    congrArg Prod.snd (plainly_relocate_present htree.outline hfound target)
  have hsecond : ((tree.relocated key target).relocated key last).plain = _ := congrArg Prod.snd
    (plainly_relocate_present hmoved.outline (index_relocated htree hfound target) last)
  have hdirect : (tree.relocated key last).plain = _ :=
    congrArg Prod.snd (plainly_relocate_present htree.outline hfound last)
  refine eq_of_plain_eq (hmoved.relocated key last).outline (htree.relocated key last).outline ?_
  have hchildren : (tree.relocated key target).children = moveWithin tree.children source target :=
    congrArg Plain.children hfirst
  rw [hsecond, hdirect, hfirst, hchildren,
    moveWithin_moveWithin (lt_length_of_get? htree.outline hfound)]

/-- A child that is sent to where it is stays there. -/
theorem relocated_self (htree : tree.WellFormed) (hfound : tree.index.get? key = some source) :
    tree.relocated key source = tree := by
  refine eq_of_plain_eq (htree.relocated key source).outline htree.outline ?_
  have hplain : (tree.relocated key source).plain = _ :=
    congrArg Prod.snd (plainly_relocate_present htree.outline hfound source)
  rw [hplain, moveWithin_self (lt_length_of_get? htree.outline hfound)]
  rfl

end Tree

/-! ## Moves at places -/

section Places

variable {store : SharedStore} {plain : PrivateStore} {place : Place} {tree : Tree} {key : String}
  {source : Nat}

/-- Sends the child under a key of the node at a place to a position. -/
def Place.sendChild (place : Place) (key : String) (target : Nat) (store : SharedStore) :
    Except Fault Unit × SharedStore :=
  (place.perform (Edit.relocate key target).decide).run.run store

theorem Mirrors.sendChild (hmirrors : Mirrors store plain [])
    (hview : plain.view? place = some tree) (hroot : tree.outline.WellFormed)
    (hfound : tree.index.get? key = some source) (target : Nat) :
    (place.sendChild key target store).1 = .ok () ∧
      ∃ after, Mirrors (place.sendChild key target store).2 after [] ∧
        after.view? place = some (tree.relocated key target) := by
  obtain ⟨after, hcourse, hafter⟩ :=
    hmirrors.run (place.perform (Edit.relocate key target).decide).run
  obtain ⟨hresult, hleft⟩ := Course.edit hview hcourse
  refine ⟨?_, after, hafter, ?_⟩
  · exact hresult.trans (congrArg Prod.fst (Tree.plainly_relocate_present hroot hfound target))
  · rw [hleft, PrivateStore.view?_editAt_self, hview, Option.map_some]
    rfl

/-- At any time, the child of a well-formed object under a non-empty key may be sent to any
position. It comes to stand there, or at the end if the position lies past it. The other children
are as they were and in the same order, the index agrees with the children, and all keys lead where
they led before. Sending the child there once more changes nothing, and sending it back to where it
stood brings the object back, with its index. -/
theorem relocation_reverses {α : Type} (program : Program α) {child : Tree}
    (hview : (program.run ({} : SharedStore)).2.view? place = some tree) (htree : tree.WellFormed)
    (hobject : tree.kind = .object) (hchild : tree.children[source]? = some child)
    (hkey : child.key ≠ "") (target : Nat) :
    let first := place.sendChild child.key target (program.run ({} : SharedStore)).2
    let again := place.sendChild child.key target first.2
    let back := place.sendChild child.key source first.2
    first.1 = .ok () ∧
      (∃ moved, first.2.view? place = some moved ∧ tree.Moves source target moved ∧
        again.1 = .ok () ∧ again.2.view? place = some moved) ∧
      back.1 = .ok () ∧ back.2.view? place = some tree := by
  intro first again back
  have hnames : tree.index.Names tree.keys := htree.outline.names hobject
  have hfound : tree.index.get? child.key = some source := by
    refine (hnames child.key source).mpr ⟨hkey, ?_⟩
    rw [Tree.keys, List.getElem?_map, hchild, Option.map_some]
  have hmoved := htree.relocated child.key target
  have hthere := Tree.index_relocated htree hfound target
  obtain ⟨before, _, hbefore⟩ := Mirrors.empty.run program
  rw [hbefore.view?_eq] at hview
  obtain ⟨hfirst, middle, hmiddle, hview⟩ := hbefore.sendChild hview htree.outline hfound target
  obtain ⟨hagain, twice, htwice, hsame⟩ := hmiddle.sendChild hview hmoved.outline hthere target
  obtain ⟨hback, last, hlast, hrestored⟩ := hmiddle.sendChild hview hmoved.outline hthere source
  rw [Tree.relocated_relocated htree hfound] at hsame hrestored
  rw [Tree.relocated_self htree hfound] at hrestored
  exact ⟨hfirst, ⟨_, (hmiddle.view?_eq place).trans hview, Tree.moves_relocated htree hfound target,
    hagain, (htwice.view?_eq place).trans hsame⟩, hback, (hlast.view?_eq place).trans hrestored⟩

/-- An object with two children under keys and an anonymous one between them. -/
def parted : Tree :=
  ((((Tree.leaf .object).attachKeyed "a" (.leaf (.integer 1))).2.attach
    (.leaf .null)).2.attachKeyed "b"
    (.leaf (.bool true))).2

/-- The first child goes past the end, over the anonymous one, and back. -/
theorem parted_relocation :
    let program := Program.request (.hold (.register "r") parted)
    let place : Place := ⟨.register "r", []⟩
    let child := (Tree.leaf (.integer 1)).withKey "a"
    let before := (program.run ({} : SharedStore)).2
    let first := place.sendChild "a" 7 before
    let again := place.sendChild "a" 7 first.2
    let back := place.sendChild "a" 0 first.2
    before.view? place = some parted ∧ parted.WellFormed ∧ parted.kind = .object ∧
      parted.children[0]? = some child ∧ child.key ≠ "" ∧
      first.1 = .ok () ∧
      (∃ moved, first.2.view? place = some moved ∧ parted.Moves 0 7 moved ∧
        again.1 = .ok () ∧ again.2.view? place = some moved) ∧
      back.1 = .ok () ∧ back.2.view? place = some parted := by
  intro program place child before first again back
  have hview : (program.run ({} : SharedStore)).2.view? place = some parted :=
    (Mirrors.empty.answer (.hold (.register "r") parted)).view?_eq place
  have hwell : parted.WellFormed :=
    (((Tree.WellFormed.leaf .object).attachKeyed "a" (.leaf _)).attach (.leaf _)).attachKeyed "b"
      (.leaf _)
  have hkind : parted.kind = .object := by cbv
  have hchild : parted.children[0]? = some child := by cbv
  exact ⟨hview, hwell, hkind, hchild, by decide,
    relocation_reverses program hview hwell hkind hchild (by decide) 7⟩

end Places

end KeyedTree
