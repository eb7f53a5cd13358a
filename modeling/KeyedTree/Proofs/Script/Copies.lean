import KeyedTree.Proofs.Plain.Sorting
import KeyedTree.Proofs.Script.Refusals
import KeyedTree.Proofs.Tree.Ordered
import KeyedTree.Proofs.WellFormed.Consistency

/-! # Copies

A copy of a tree differs from it in the overwrite flags alone, which are all off. A node that takes
over the content of another one gets copies of its children, one after the other, as newly attached
children. None of them is lost, and where they come to stand depends on the autosort flag of the
node that takes them in.
-/

namespace KeyedTree

/-! ## Rows that are taken in -/

namespace Plain

variable {node : Plain} {row : List Tree} {child : Tree}

/-- The container with one more child, under a new key or without one. -/
def join (node : Plain) (child : Tree) : Plain :=
  { node with children :=
    node.children.insertIdx (node.placeFor child.key) (child.withAutosort node.autosort) }

/-- A child whose key is not there yet is taken in. -/
theorem attach_of_new (hobject : node.kind = .object)
    (hnew : child.key = "" ∨ child.key ∉ node.children.map Tree.key) (operation : Operation) :
    (node.attach operation child.key child).2 = node.join child := by
  have hattach :
      node.attach operation child.key child = node.attachTo operation child.key child := by
    unfold attach
    rw [if_neg (by simp [hobject]), if_pos (.inr hobject)]
  rw [hattach]
  unfold attachTo
  rw [(find?_eq_none_iff hobject).mpr hnew]
  simp only [join, ← hobject]
  rfl

theorem map_key_join_perm (node : Plain) (child : Tree) :
    ((node.join child).children.map Tree.key).Perm (child.key :: node.children.map Tree.key) :=
  (List.perm_insertIdx _ _ (node.placeFor_le_length child.key)).map Tree.key

/-- Without autosort children come in one behind the other. -/
theorem foldl_join_of_unsorted (hautosort : node.autosort = false) (row : List Tree) :
    row.foldl join node =
      { node with children := node.children ++ row.map (·.withAutosort false) } := by
  induction row generalizing node with
  | nil => simp
  | cons child rest ih =>
      have hplace : node.placeFor child.key = node.children.length := if_neg (by simp [hautosort])
      have hfirst : node.join child =
          { node with children := node.children ++ [child.withAutosort false] } := by
        rw [join, hplace, List.insertIdx_length_self, hautosort]
      have hflag : (node.join child).autosort = false := hautosort
      rw [List.foldl_cons, ih hflag, hfirst, List.map_cons, List.append_assoc,
        List.singleton_append]

/-- With autosort children with keys come in among those that have keys, and the others behind all
of them. -/
theorem foldl_join_of_sorted (hautosort : node.autosort = true) {keyed anonymous : List Tree}
    (horder : Tree.InOrder node.children keyed anonymous)
    (hkeys : Tree.Distinct (node.children.map Tree.key ++ row.map Tree.key)) :
    ∃ more, row.foldl join node = { node with
        children := more ++ (anonymous ++ (row.filter (·.key = "")).map (·.withAutosort true)) } ∧
      more.Pairwise (fun first second => first.key < second.key) ∧
      more.Perm (keyed ++ (row.filter (·.key ≠ "")).map (·.withAutosort true)) := by
  induction row generalizing node keyed anonymous with
  | nil =>
      refine ⟨keyed, ?_, horder.keys_ascending, by simp⟩
      rw [List.foldl_nil, List.filter_nil, List.map_nil, List.append_nil, ← horder.parts]
  | cons child rest ih =>
      have hfront :
          Tree.Distinct (child.key :: (node.children.map Tree.key ++ rest.map Tree.key)) :=
        hkeys.perm List.perm_middle
      have hnext : Tree.Distinct ((node.join child).children.map Tree.key ++ rest.map Tree.key) :=
        hfront.perm ((map_key_join_perm node child).symm.append_right _)
      have hflag : (node.join child).autosort = true := hautosort
      by_cases hkey : child.key = ""
      · -- an anonymous child comes in behind all others
        have hplace : node.placeFor child.key = node.children.length := if_neg (by simp [hkey])
        have hjoined : (node.join child).children = node.children ++ [child.withAutosort true] := by
          rw [join, hplace, List.insertIdx_length_self, hautosort]
        have hpushed : Tree.InOrder (node.join child).children keyed
            (anonymous ++ [child.withAutosort true]) := by
          rw [hjoined]
          exact horder.push hkey
        obtain ⟨more, hfold, hascending, hperm⟩ := ih hflag hpushed hnext
        refine ⟨more, ?_, hascending, ?_⟩
        · rw [List.foldl_cons, hfold, List.filter_cons_of_pos (by simp [hkey]), List.map_cons,
            List.append_assoc, List.singleton_append]
          rfl
        · rwa [List.filter_cons_of_neg (by simp [hkey])]
      · -- a child with a key comes in among those that have keys
        have hnew : (child.withAutosort true).key ∉ node.children.map Tree.key := fun hmem =>
          List.rel_of_pairwise_cons hfront (List.mem_append_left _ hmem) hkey rfl
        have hplace :
            node.placeFor child.key = Outline.sortedPlace child.key (node.children.map Tree.key) :=
          if_pos ⟨hkey, hautosort⟩
        have hjoined : (node.join child).children = node.children.insertIdx
            (Outline.sortedPlace child.key (node.children.map Tree.key))
            (child.withAutosort true) := by
          rw [join, hplace, hautosort]
        have hinserted : Tree.InOrder (node.join child).children
            (keyed.insertIdx (Outline.sortedPlace child.key (node.children.map Tree.key))
              (child.withAutosort true))
            anonymous := by
          rw [hjoined]
          exact horder.insert hkey hnew
        obtain ⟨more, hfold, hascending, hperm⟩ := ih hflag hinserted hnext
        refine ⟨more, ?_, hascending, hperm.trans ?_⟩
        · rw [List.foldl_cons, hfold, List.filter_cons_of_neg (by simpa using hkey)]
          rfl
        · have hpos :
              Outline.sortedPlace child.key (node.children.map Tree.key) ≤ keyed.length := by
            rw [horder.sortedPlace_eq]
            exact (Outline.sortedPlace_le_length _ _).trans_eq (List.length_map _)
          rw [List.filter_cons_of_pos (by simpa using hkey), List.map_cons]
          exact ((List.perm_insertIdx _ _ hpos).append_right _).trans List.perm_middle.symm

end Plain

namespace Tree

variable {tree source child : Tree} {row : List Tree}

/-! ## Copies of trees -/

theorem content_copy (tree : Tree) : tree.copy.content = tree.content := by
  induction tree using Tree.induction with
  | node head children ih =>
      simp only [copy, copyRow_eq_map, content, rowContent_eq_map, List.map_map]
      exact congrArg _ (List.map_congr_left ih)

theorem head_copy (tree : Tree) : tree.copy.head = { tree.head with overwrite := false } := by
  cases tree
  rfl

/-- Walking over a copy is walking over the original and copying each subtree. -/
theorem nodesFrom_copy (depth : Nat) (tree : Tree) :
    tree.copy.nodesFrom depth = (tree.nodesFrom depth).map fun (depth, subtree) =>
      (depth, subtree.copy) := by
  induction tree using Tree.induction generalizing depth with
  | node head children ih =>
      have hrow : rowNodesFrom (depth + 1) (copyRow children) =
          (rowNodesFrom (depth + 1) children).map fun (depth, subtree) =>
            (depth, subtree.copy) := by
        induction children with
        | nil => rfl
        | cons child rest ihrest =>
            obtain ⟨hchild, hrest⟩ := List.forall_mem_cons.mp ih
            rw [copyRow, rowNodesFrom, rowNodesFrom, hchild, ihrest hrest, List.map_append]
      simp only [copy, nodesFrom, hrow, List.map_cons]

/-- A copy has the heads of its original in the same order at the same depths, but no node is
overwritable. -/
theorem listing_copy (tree : Tree) :
    tree.copy.listing = tree.listing.map fun (depth, head) =>
      (depth, { head with overwrite := false }) := by
  simp only [listing, nodes, nodesFrom_copy, List.map_map, Function.comp_def, head_copy]

/-- A tree is a copy of another one. -/
structure IsCopyOf (copy tree : Tree) : Prop where
  wellFormed : copy.WellFormed
  alike : copy.alike tree = true
  /-- the heads are the same at all depths, but no node is overwritable -/
  heads :
    copy.listing = tree.listing.map fun (depth, head) => (depth, { head with overwrite := false })

theorem WellFormed.isCopyOf_copy (htree : tree.WellFormed) : tree.copy.IsCopyOf tree :=
  ⟨htree.copy, alike_iff.mpr (content_copy tree), listing_copy tree⟩

/-! ## Taking over -/

theorem plain_attach (htree : tree.outline.WellFormed) (hobject : tree.kind = .object)
    (hnew : child.key = "" ∨ child.key ∉ tree.keys) :
    (tree.attach child).2.plain = tree.plain.join child := by
  have hplain : plainly (tree.attach child) = _ := plainly_attach htree .attach none child
  exact (congrArg Prod.snd hplain).trans (Plain.attach_of_new hobject hnew .attach)

/-- An object takes in children under distinct keys one after the other. -/
theorem plain_takeIn_attach (htree : tree.outline.WellFormed) (hobject : tree.kind = .object)
    (hkeys : Distinct (tree.keys ++ row.map key)) :
    (takeIn attach tree row).2.plain = row.foldl Plain.join tree.plain := by
  induction row generalizing tree with
  | nil => rfl
  | cons child rest ih =>
      have hfront : Distinct (child.key :: (tree.keys ++ rest.map key)) :=
        hkeys.perm List.perm_middle
      have hnew : child.key = "" ∨ child.key ∉ tree.keys := by
        refine or_iff_not_imp_left.mpr fun hkey hmem => ?_
        exact List.rel_of_pairwise_cons hfront (List.mem_append_left _ hmem) hkey rfl
      obtain ⟨pos, joined, hjoined, hwf, hkind, hperm⟩ := attach_of_new htree hobject hnew
      have hplain : joined.plain = tree.plain.join child := by
        rw [← plain_attach htree hobject hnew, hjoined]
      rw [takeIn, hjoined, List.foldl_cons, ← hplain]
      exact ih hwf hkind (hfront.perm (hperm.symm.append_right _))

theorem plain_takeIn_append (harray : tree.kind = .array) (row : List Tree) :
    (takeIn append tree row).2.plain =
      { tree.plain with children :=
        tree.children ++ row.map (·.withAutosort tree.head.autosort) } := by
  induction row generalizing tree with
  | nil => simp [takeIn, plain]
  | cons child rest ih =>
      have hplain : plainly (tree.append child) = (.ok tree.children.length,
          { tree.plain with
            children := tree.children ++ [child.withAutosort tree.head.autosort] }) := by
        have happend : plainly (tree.append child) = tree.plain.append child := plainly_append child
        rw [happend, Plain.append, if_pos (.inr harray),
          ← show tree.plain.kind = .array from harray]
        rfl
      cases hjoin : tree.append child with
      | mk result joined =>
          rw [hjoin] at hplain
          obtain rfl : result = .ok tree.children.length := congrArg Prod.fst hplain
          have hjoined : joined.plain = _ := congrArg Prod.snd hplain
          have hkind : joined.kind = .array := (congrArg Plain.kind hjoined).trans harray
          have hflag : joined.head.autosort = tree.head.autosort := congrArg Plain.autosort hjoined
          have hrow : joined.children = _ := congrArg Plain.children hjoined
          rw [takeIn, hjoin]
          simp only
          rw [ih hkind, hjoined, hrow, hflag, List.map_cons, List.append_assoc,
            List.singleton_append]

/-- The children of a node in the order in which another node has them that takes them over. If it
is autosorted, those of an object that have keys come first, in the order of their keys. -/
def takenOver (tree : Tree) (autosort : Bool) : List Tree :=
  if tree.kind = .array ∨ autosort = false then tree.children
  else inKeyOrder tree.keyedChildren ++ tree.children.filter (·.key = "")

theorem map_key_copyRow (row : List Tree) : (copyRow row).map key = row.map key := by
  simp [copyRow_eq_map, Function.comp_def]

/-- Copies of children as they come into an autosorted object that has no children yet. -/
theorem foldl_join_copies {node : Plain} (hautosort : node.autosort = true)
    (hempty : node.children = []) (hkeys : Distinct source.keys) :
    (copyRow source.children).foldl Plain.join node = { node with
      children := (inKeyOrder source.keyedChildren ++ source.children.filter (·.key = "")).map
        fun child => child.copy.withAutosort true } := by
  have hdistinct : Distinct (node.children.map key ++ (copyRow source.children).map key) := by
    rw [hempty, map_key_copyRow]
    exact hkeys
  have hstart : InOrder node.children [] [] := hempty ▸ .nil
  obtain ⟨more, hfold, hascending, hperm⟩ := Plain.foldl_join_of_sorted hautosort hstart hdistinct
  have hcopied (fits : String → Bool) :
      ((copyRow source.children).filter fun child => fits child.key).map
      (·.withAutosort true) = (source.children.filter fun child => fits child.key).map
        fun child => child.copy.withAutosort true := by
    rw [copyRow_eq_map, List.filter_map, List.map_map, Function.comp_def, Function.comp_def]
    simp only [key_copy]
  have hkept : ∀ child : Tree, (child.copy.withAutosort true).key = child.key :=
    fun child => key_copy child
  have hmore :
      more = (inKeyOrder source.keyedChildren).map fun child => child.copy.withAutosort true := by
    rw [map_inKeyOrder hkept]
    exact eq_inKeyOrder hascending (hperm.trans (.of_eq (hcopied (· ≠ ""))))
  rw [hfold, hmore, List.nil_append, hcopied (· = ""), List.map_append]

/-- A bare node takes in copies of the children of a well-formed node of its kind. -/
theorem plain_takeIn_copies (hsource : source.WellFormed) (hroot : tree.outline.WellFormed)
    (hempty : tree.children = []) (hkind : tree.kind = source.kind) :
    (takeIn (if source.kind = .array then append else attach) tree
      (copyRow source.children)).2.plain =
      { tree.plain with children := (source.takenOver tree.head.autosort).map fun child =>
          child.copy.withAutosort tree.head.autosort } := by
  unfold takenOver
  by_cases harray : source.kind = .array
  · rw [if_pos harray, if_pos (.inl harray), plain_takeIn_append (hkind.trans harray), hempty,
      copyRow_eq_map, List.map_map]
    rfl
  · rw [if_neg harray]
    by_cases hobject : source.kind = .object
    · have hdistinct : Distinct source.keys := (hsource.outline.names hobject).distinct
      have hkeys : Distinct (tree.keys ++ (copyRow source.children).map key) := by
        rw [keys, hempty, map_key_copyRow]
        exact hdistinct
      have hnone : tree.plain.children = [] := hempty
      rw [plain_takeIn_attach hroot (hkind.trans hobject) hkeys]
      cases hautosort : tree.head.autosort with
      | false =>
          have hflag : tree.plain.autosort = false := hautosort
          rw [if_pos (.inr rfl), Plain.foldl_join_of_unsorted hflag, hnone, copyRow_eq_map,
            List.map_map]
          rfl
      | true =>
          have hflag : tree.plain.autosort = true := hautosort
          rw [if_neg (by simp [harray]), foldl_join_copies hflag hnone hdistinct]
    · have hleaf : source.head.kind.isContainer = false := Kind.isContainer_eq_false harray hobject
      have hchildless : source.children = [] :=
        List.map_eq_nil_iff.mp (hsource.outline.childless hleaf)
      rw [keyedChildren, hchildless]
      simp [copyRow, takeIn, inKeyOrder, plain, hempty]

/-- A node has taken over the content of another one. It has its own flags still, and its own key if
the other node has none. The children are copies of the children there, each with the autosort flag
of the node. -/
structure TakesOver (tree source after : Tree) : Prop where
  head : after.head = {
    key := if source.key = "" then tree.key else source.key
    kind := source.kind
    scalar := source.head.scalar
    autosort := tree.head.autosort
    overwrite := tree.head.overwrite
    index := after.index }
  /-- the children, in their order -/
  children : List.Forall₂
    (fun child new => ∃ copy : Tree, copy.IsCopyOf child ∧
      new = copy.withAutosort tree.head.autosort)
    (source.takenOver tree.head.autosort) after.children
  /-- this order leaves none of them out -/
  complete : (source.takenOver tree.head.autosort).Perm source.children
  /-- all indexes agree with the children -/
  wellFormed : after.WellFormed
  consistent : after.consistent = true

theorem takenOver_perm (source : Tree) (autosort : Bool) :
    (source.takenOver autosort).Perm source.children := by
  unfold takenOver
  split
  next => exact .refl _
  next =>
    refine ((inKeyOrder_perm _).append_right _).trans ?_
    have hsplit :=
      List.filter_append_perm (fun child : Tree => decide (child.key ≠ "")) source.children
    simpa [keyedChildren] using hsplit

theorem takesOver_copyFrom (tree : Tree) (hsource : source.WellFormed) :
    tree.TakesOver source (tree.copyFrom source).2 := by
  have hwell := hsource.copyFrom tree
  have hperm := takenOver_perm source tree.head.autosort
  have hplain : (tree.copyFrom source).2.plain = _ :=
    plain_takeIn_copies hsource (.of_nil rfl hsource.outline.suits) rfl rfl
  have hchildren :
      (tree.copyFrom source).2.children = (source.takenOver tree.head.autosort).map fun child =>
      child.copy.withAutosort tree.head.autosort := congrArg Plain.children hplain
  refine ⟨?_, ?_, hperm, hwell, hwell.consistent⟩
  · generalize (tree.copyFrom source).2 = after at hplain ⊢
    obtain ⟨⟨_, _, _, _, _, _⟩, _⟩ := after
    cases hplain
    rfl
  · rw [hchildren, List.forall₂_map_right_iff, List.forall₂_same]
    intro child hchild
    exact ⟨child.copy, (hsource.child (hperm.mem_iff.mp hchild)).isCopyOf_copy, rfl⟩

end Tree

/-! ## Copies at places -/

/-- At any time, a well-formed tree may be copied into a slot, and a node may take over the content
of a well-formed tree. Both succeed. The slot has a copy of the tree then, and the node has copies
of all the children. -/
theorem copies_are_faithful {α : Type} (program : Program α) {place : Place} {tree : Tree}
    (hview : (program.run ({} : SharedStore)).2.view? place = some tree) :
    let store := (program.run ({} : SharedStore)).2
    (tree.WellFormed → ∀ slot : Slot,
      let run := (Kept.copy.store place slot).run.run store
      ∃ copy, run.1 = .ok () ∧ run.2.view? ⟨slot, []⟩ = some copy ∧ copy.IsCopyOf tree) ∧
    ∀ source : Tree, source.WellFormed →
      let run := (place.copyFrom source).run.run store
      ∃ after, run.1 = .ok () ∧ run.2.view? place = some after ∧ tree.TakesOver source after := by
  obtain ⟨plain, _, hplain⟩ := Mirrors.empty.run program
  rw [hplain.view?_eq] at hview
  refine ⟨fun htree slot => ?_, fun source hsource => ?_⟩
  · obtain ⟨after, hcourse, hafter⟩ := hplain.run (Kept.copy.store place slot).run
    obtain ⟨hok, rfl⟩ := Program.course_copy hcourse
    rw [hview, Option.getD_some] at hafter
    refine ⟨tree.copy, hok, (hafter.view?_eq _).trans ?_, htree.isCopyOf_copy⟩
    rw [PrivateStore.view?, Shelf.get?_set, if_pos rfl, Option.bind_some, Tree.subtree?_nil]
  · obtain ⟨after, hcourse, hafter⟩ := hplain.run (place.copyFrom source).run
    obtain ⟨hresult, rfl⟩ := Program.course_copyFrom hcourse
    rw [hview, Option.getD_some] at hresult hafter
    refine ⟨(tree.copyFrom source).2, hresult.trans (Tree.copyFrom_ok tree hsource),
      (hafter.view?_eq place).trans ?_, Tree.takesOver_copyFrom tree hsource⟩
    rw [PrivateStore.view?_editAt_self, hview, Option.map_some]

/-- An object with two children that are not in the order of their keys, and an anonymous one
between them. -/
def scattered : Tree :=
  ((((Tree.leaf .object).attachKeyed "b" (.leaf (.integer 1))).2.attach
    (.leaf .null)).2.attachKeyed "a"
    sortedPair).2

/-- An autosorted object takes over the children of another one and puts them in order. -/
theorem scattered_taken_over :
    let program := Program.request (.hold (.register "r") sortedPair)
    let store := (program.run ({} : SharedStore)).2
    let place : Place := ⟨.register "r", []⟩
    let kept := (Kept.copy.store place (.register "s")).run.run store
    let run := (place.copyFrom scattered).run.run store
    store.view? place = some sortedPair ∧ sortedPair.WellFormed ∧ scattered.WellFormed ∧
      (∃ copy, kept.1 = .ok () ∧ kept.2.view? ⟨.register "s", []⟩ = some copy ∧
        copy.IsCopyOf sortedPair) ∧
      (scattered.takenOver sortedPair.head.autosort).map Tree.key = ["a", "b", ""] ∧
      ∃ after, run.1 = .ok () ∧ run.2.view? place = some after ∧
        sortedPair.TakesOver scattered after := by
  intro program store place kept run
  have hview : (program.run ({} : SharedStore)).2.view? place = some sortedPair :=
    (Mirrors.empty.answer (.hold (.register "r") sortedPair)).view?_eq place
  have hsource : scattered.WellFormed :=
    (((Tree.WellFormed.leaf .object).attachKeyed "b" (.leaf _)).attach (.leaf _)).attachKeyed "a"
      sortedPair_wellFormed
  obtain ⟨hcopies, htakes⟩ := copies_are_faithful program hview
  exact ⟨hview, sortedPair_wellFormed, hsource,
    hcopies sortedPair_wellFormed (.register "s"), by cbv, htakes scattered hsource⟩

end KeyedTree
