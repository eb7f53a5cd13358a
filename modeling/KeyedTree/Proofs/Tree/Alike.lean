import KeyedTree.Json.Bridge
import KeyedTree.Proofs.Grammar.Containers
import KeyedTree.Proofs.Heap.Shows
import KeyedTree.Proofs.Tree.Content
import KeyedTree.Proofs.Tree.Search
import KeyedTree.Proofs.WellFormed.Lookup
import KeyedTree.Tree.Access

/-! # Trees that are alike

To be alike is an equivalence, and passing over a child that two nodes share leaves it as it is.
Whoever reads nothing but the content of trees finds no difference between two that are alike: not
in their text, not in their values, and not by a search. Looking up a key reads the index, which is
no part of the content; but in a well-formed tree the answer is that of a scan of the children.
-/

namespace KeyedTree

variable {σ : Type} {asks : Tree → StateM σ Bool} {head : Head} {children row : List Tree}
  {tree other : Tree}

namespace Tree

/-- To be alike is to have the same content, hence an equivalence. -/
theorem alike_equivalence : Equivalence fun tree other : Tree => tree.alike other = true := by
  simp only [alike_iff]
  exact ⟨fun _ => rfl, Eq.symm, Eq.trans⟩

/-! ## Readers -/

theorem readsContent_keys : ReadsContent keys := by
  intro tree
  simp [keys, Function.comp_def]

theorem readsContent_snapshot : ReadsContent Snapshot.of := by
  intro tree
  simp only [Snapshot.of, key_content, kind_content, readsContent_render true true tree]

/-! ## Values -/

theorem rowToItems_map_content (hrow : ∀ child ∈ row, child.content.toJson = child.toJson) :
    rowToItems (row.map content) = rowToItems row := by
  induction row with
  | nil => rfl
  | cons child rest ih =>
      obtain ⟨hchild, hrest⟩ := List.forall_mem_cons.mp hrow
      rw [List.map_cons, rowToItems, rowToItems, hchild, ih hrest]

theorem rowToMembers_map_content (hrow : ∀ child ∈ row, child.content.toJson = child.toJson)
    (members : List (String × Json)) :
    rowToMembers members (row.map content) = rowToMembers members row := by
  induction row generalizing members with
  | nil => rfl
  | cons child rest ih =>
      obtain ⟨hchild, hrest⟩ := List.forall_mem_cons.mp hrow
      simp only [List.map_cons, rowToMembers, hchild, key_content, ih hrest]

theorem rowJsonChars_map_content (hrow : ∀ child ∈ row, child.content.jsonChars = child.jsonChars)
    (named : Bool) :
    rowJsonChars named (row.map content) = rowJsonChars named row := by
  induction row with
  | nil => rfl
  | cons child rest ih =>
      obtain ⟨hchild, hrest⟩ := List.forall_mem_cons.mp hrow
      have hmore := ih hrest
      cases rest with
      | nil => simp only [List.map_cons, List.map_nil, rowJsonChars, hchild, key_content]
      | cons next more =>
          simp only [List.map_cons] at hmore
          simp only [List.map_cons, rowJsonChars, hchild, key_content, hmore]

/-- The value of a tree is made of its content. -/
theorem readsContent_toJson : ReadsContent toJson := by
  intro tree
  induction tree using Tree.induction with
  | node head children ih =>
      rw [content, rowContent_eq_map, toJson, toJson, rowToItems_map_content ih,
        rowToMembers_map_content ih, Head.payload_content]
      rfl

/-- And so is its JSON text. -/
theorem readsContent_jsonText : ReadsContent jsonText := by
  intro tree
  have hchars : tree.content.jsonChars = tree.jsonChars := by
    induction tree using Tree.induction with
    | node head children ih =>
        rw [content, rowContent_eq_map, jsonChars, jsonChars, rowJsonChars_map_content ih,
          rowJsonChars_map_content ih, Head.payload_content]
        rfl
  rw [jsonText, jsonText, hchars]

/-! ## Searches -/

/-- A search reads what its predicate reads. -/
theorem ReadsContent.search (hasks : ReadsContent asks) : ReadsContent (search asks) := by
  intro tree
  induction tree using Tree.induction with
  | node head children ih =>
      have hrow : searchRow asks (children.map content) = searchRow asks children := by
        induction children with
        | nil => rfl
        | cons child rest ihrest =>
            obtain ⟨hchild, hrest⟩ := List.forall_mem_cons.mp ih
            rw [List.map_cons, searchRow, searchRow, hchild, ihrest hrest]
      have hroot := hasks (.node head children)
      rw [content, rowContent_eq_map] at hroot ⊢
      rw [Tree.search, Tree.search, hroot, hrow]

/-- To count the questions, nothing needs to be known about the nodes. -/
theorem ReadsContent.counting (hasks : ReadsContent asks) : ReadsContent (counting asks) := by
  intro tree
  funext state
  simp only [Tree.counting, noting, hasks tree]

/-! ## Lookup -/

theorem scan?_content (tree : Tree) (key : String) :
    tree.content.scan? key = (tree.scan? key).map content := by
  unfold scan?
  rw [kind_content, children_content, List.find?_map, apply_ite (Option.map content)]
  simp only [Function.comp_def, key_content, Option.map_none]

theorem scan?_of_alike (halike : tree.alike other = true) (key : String) :
    (tree.scan? key).map content = (other.scan? key).map content := by
  rw [← scan?_content, ← scan?_content, alike_iff.mp halike]

theorem contains_of_alike (hroot : tree.outline.WellFormed) (hroot' : other.outline.WellFormed)
    (halike : tree.alike other = true) (key : String) :
    tree.index.contains key = other.index.contains key := by
  have hscan := congrArg Option.isSome (scan?_of_alike halike key)
  rw [Option.isSome_map, Option.isSome_map] at hscan
  rw [(indexed_of_outline hroot).presence, hscan, (indexed_of_outline hroot').presence]

/-- Two nodes that are alike answer alike when they are asked for a child under a key, or both
answer with the same fault. -/
theorem childOf_of_alike (hroot : tree.outline.WellFormed) (hroot' : other.outline.WellFormed)
    (halike : tree.alike other = true) (key : String) :
    (∃ child child', tree.childOf key = .ok child ∧ other.childOf key = .ok child' ∧
      child.alike child' = true) ∨
      ∃ fault, tree.childOf key = .error fault ∧ other.childOf key = .error fault := by
  have hscan := scan?_of_alike halike key
  rw [childOf, childOf, childOf?_eq_scan? hroot, childOf?_eq_scan? hroot']
  cases hchild : tree.scan? key with
  | none =>
      rw [hchild, Option.map_none, eq_comm, Option.map_eq_none_iff] at hscan
      refine .inr ⟨_, rfl, ?_⟩
      rw [hscan, Fault.ofRefusal, Fault.ofRefusal, readsContent_snapshot.eq_of_alike halike]
  | some child =>
      rw [hchild, Option.map_some, eq_comm, Option.map_eq_some_iff] at hscan
      obtain ⟨child', hchild', hsame⟩ := hscan
      rw [hchild']
      exact .inl ⟨child, child', rfl, rfl, alike_iff.mpr hsame.symm⟩

end Tree

/-- Two trees give the same answers. -/
structure Indistinguishable (tree other : Tree) : Prop where
  /-- they have the same text, pretty or compact, with their own keys or without -/
  text : ∀ pretty named, tree.render pretty named = other.render pretty named
  /-- they have the same value, or none for the same reason -/
  value : tree.toJson = other.toJson
  /-- and the same JSON text -/
  jsonText : tree.jsonText = other.jsonText
  /-- their children have the same keys -/
  keys : tree.keys = other.keys
  /-- they have children under the same keys -/
  contains : ∀ key, tree.index.contains key = other.index.contains key
  /-- and these are alike; under any other key both miss one with the same fault -/
  childOf : ∀ key,
    (∃ child child', tree.childOf key = .ok child ∧ other.childOf key = .ok child' ∧
      child.alike child' = true) ∨
      ∃ fault, tree.childOf key = .error fault ∧ other.childOf key = .error fault
  /-- a predicate that reads the content of nodes is satisfied in both or in neither, after as many
  questions -/
  search : ∀ {σ : Type} (asks : Tree → StateM σ Bool), Tree.ReadsContent asks →
    tree.search asks = other.search asks ∧
      tree.search (Tree.counting asks) = other.search (Tree.counting asks)

/-- To be alike is an equivalence. References are alike exactly if the trees that they show are,
whatever they share. Well-formed trees that are alike give the same answers. -/
theorem alike_indistinguishable :
    (Equivalence fun tree other : Tree => tree.alike other = true) ∧
      (∀ (heap : Heap) (ref ref' : Ref) (tree other : Tree), heap.Shows ref tree →
        heap.Shows ref' other → heap.alike ref ref' = tree.alike other) ∧
        ∀ tree other : Tree, tree.WellFormed → other.WellFormed → tree.alike other = true →
          Indistinguishable tree other := by
  refine ⟨Tree.alike_equivalence, fun heap ref ref' tree other => Heap.Shows.alike_eq, ?_⟩
  intro tree other htree hother halike
  exact {
    text := Tree.render_eq_of_alike halike
    value := Tree.readsContent_toJson.eq_of_alike halike
    jsonText := Tree.readsContent_jsonText.eq_of_alike halike
    keys := Tree.readsContent_keys.eq_of_alike halike
    contains := Tree.contains_of_alike htree.outline hother.outline halike
    childOf := Tree.childOf_of_alike htree.outline hother.outline halike
    search _ hasks := ⟨hasks.search.eq_of_alike halike, hasks.counting.search.eq_of_alike halike⟩
  }

/-- An object with one member. -/
def ownerTree : Tree :=
  Grammar.objectOf [(Tree.leaf (.integer 1)).withKey "a"]

/-- The object in two cells that share the member. The second one is autosorted. -/
def ownersHeap : Heap :=
  ⟨#[⟨{ key := "a", kind := .integer, scalar := .integer 1 }, [], 2⟩, ⟨ownerTree.head, [0], 1⟩,
    ⟨{ ownerTree.head with autosort := true }, [0], 1⟩]⟩

/-- A predicate that looks for an integer. -/
def asksInteger (node : Tree) : StateM Unit Bool :=
  pure (node.kind = .integer)

theorem owners_indistinguishable :
    ownersHeap.Shows 1 ownerTree ∧ ownersHeap.Shows 2 (ownerTree.withAutosort true) ∧
      ownersHeap.alike 1 2 = ownerTree.alike (ownerTree.withAutosort true) ∧
        Indistinguishable ownerTree (ownerTree.withAutosort true) ∧
          Tree.ReadsContent asksInteger ∧
            ownerTree.search (Tree.counting asksInteger) =
              (ownerTree.withAutosort true).search (Tree.counting asksInteger) := by
  obtain ⟨_, hheap, htrees⟩ := alike_indistinguishable
  have hbounds : ∀ ref < 3, ownersHeap.InBounds ref := fun _ hlt => hlt
  have hmember : ownersHeap.Shows 0 ((Tree.leaf (.integer 1)).withKey "a") :=
    Heap.shows_node_iff.mpr ⟨hbounds 0 (by decide), rfl, .nil⟩
  have hshows : ownersHeap.Shows 1 ownerTree :=
    Heap.shows_node_iff.mpr ⟨hbounds 1 (by decide), rfl, .cons hmember .nil⟩
  have hshows' : ownersHeap.Shows 2 (ownerTree.withAutosort true) :=
    Heap.shows_node_iff.mpr ⟨hbounds 2 (by decide), rfl, .cons hmember .nil⟩
  have hwell : ownerTree.WellFormed :=
    .node ⟨fun _ => Grammar.names_object (by decide), fun hother => absurd rfl hother, nofun, rfl⟩
      (List.forall_mem_singleton.mpr ((Tree.WellFormed.leaf _).with_key "a"))
  have hsame : Indistinguishable ownerTree (ownerTree.withAutosort true) :=
    htrees _ _ hwell (hwell.with_head rfl rfl rfl) rfl
  have hreads : Tree.ReadsContent asksInteger := by
    intro node
    rw [asksInteger, asksInteger, Tree.kind_content]
  exact ⟨hshows, hshows', hheap _ _ _ _ _ hshows hshows', hsame, hreads, (hsame.search _ hreads).2⟩

end KeyedTree
