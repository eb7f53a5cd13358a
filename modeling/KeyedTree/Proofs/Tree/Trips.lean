import Mathlib.Data.List.Infix
import Mathlib.Data.Nat.Basic
import KeyedTree.Proofs.Tree.Paths
import KeyedTree.Proofs.WellFormed.Lookup

/-! # Trips through a tree

A walk visits nodes in pre-order, and a visit may change the node and all that is below it. A trip
is what a walk did: the tree that a visit left, and a trip for every child that the node then has.
What the walk leaves behind follows from the trip alone. An object whose children end up with a key
twice gives all of them their old keys back, and all that is below them stays as the walk left it.
-/

namespace KeyedTree

/-! ## Stays -/

/-- A visit that a walk made: the positions that lead to the node, and the tree that the visit left
there. -/
structure Stay where
  path : List Nat
  left : Tree

namespace Stay

/-- The tree that a visit of the node at a path left, if there was such a visit. -/
def leftAt? (stays : List Stay) (path : List Nat) : Option Tree :=
  (stays.find? (·.path = path)).map left

/-- The keys of the node's children at the end of the walk over them: the key that the visit of a
child left, and for a child that was not visited the key that it had. -/
def keysAfter (stays : List Stay) (stay : Stay) : List String :=
  stay.left.keys.mapIdx fun pos key => ((leftAt? stays (stay.path ++ [pos])).map Tree.key).getD key

/-- At the end of the walk over the children of an object, two of them have the same key. -/
def Clashes (stays : List Stay) (stay : Stay) : Prop :=
  stay.left.kind = .object ∧ ¬ Tree.Distinct (stay.keysAfter stays)

/-- What a node that was visited is when the walk is over. -/
structure Becomes (stays : List Stay) (stay : Stay) (node : Tree) : Prop where
  /-- kind, value and flags are as the visit left them -/
  itself : node.head = { stay.left.head with key := node.key, index := node.index }
  /-- after a clash the children have the keys that they had before the walk reached them -/
  restored : stay.Clashes stays → node.keys = stay.left.keys
  /-- else they have the keys that they had at the end of the walk over them -/
  kept : ¬ stay.Clashes stays → node.keys = stay.keysAfter stays
  /-- children that were not visited are as the visit of the node left them -/
  unvisited : ∀ pos, leftAt? stays (stay.path ++ [pos]) = none →
    node.children[pos]? = stay.left.children[pos]?

end Stay

/-- What a walk over the node at a path comes to, after visits in the order in which they are
listed: its answer and the tree that it leaves of an old one. -/
structure Walk.Settled (path : List Nat) (old : Tree) (stays : List Stay)
    (result : Except Fault Unit) (final : Tree) : Prop where
  /-- every index fits -/
  wellFormed : final.WellFormed
  /-- a node that was not visited is as it was -/
  unvisited : Stay.leftAt? stays path = none → final = old
  /-- the node itself keeps the key that its visit left -/
  key : ∀ left, Stay.leftAt? stays path = some left → final.key = left.key
  becomes : ∀ stay ∈ stays, ∃ below node, stay.path = path ++ below ∧
    final.subtree? below = some node ∧ stay.Becomes stays node
  fails : (∃ fault, result = .error fault) ↔ ∃ stay ∈ stays, stay.Clashes stays
  /-- the fault names the repeated keys of the deepest object that clashes, and shows it with the
  old keys -/
  fault : ∀ fault, result = .error fault → ∃ stay ∈ stays, stay.Clashes stays ∧
    (∀ other ∈ stays, other.Clashes stays → other.path <+: stay.path) ∧
    ∃ below node, stay.path = path ++ below ∧ final.subtree? below = some node ∧
      fault = .ofRefusal ⟨.modify, .conflict (.repeated (KeyIndex.ofKeys (stay.keysAfter stays)).2)⟩
        (node.withKey stay.left.key)
  preorder : stays.Pairwise (·.path < ·.path)
  /-- after a clash no later node is visited -/
  stops : ∀ stay ∈ stays, stay.Clashes stays → ∀ other ∈ stays, stay.path < other.path →
    stay.path <+: other.path

/-! ## Taking keys back -/

namespace Outline

variable {ι : Type} {node : Outline}

/-- A node whose children do not have a key twice is only indexed anew. -/
theorem resettle_of_distinct (hkeys : node.head.kind = .object → Tree.Distinct node.keys)
    (old : List String) :
    ∃ index, (resettle old node : Verdict ι (List String)) =
      .changed { head := { node.head with index } } [] := by
  unfold resettle
  by_cases hobject : node.head.kind = .object
  · have hnone := KeyIndex.repeated_eq_nil_iff.mpr (hkeys hobject)
    rw [if_pos hobject]
    split
    next index _ => exact ⟨index, rfl⟩
    next hrepeated heq => exact absurd (heq ▸ hnone) (by simpa using hrepeated)
  · rw [if_neg hobject]
    exact ⟨.empty, rfl⟩

/-- An object whose children have a key twice gives them their old keys back. -/
theorem resettle_of_clash (hobject : node.head.kind = .object) (hkeys : ¬ Tree.Distinct node.keys)
    (old : List String) :
    (resettle old node : Verdict ι (List String)) =
      .changed { head := { node.head with index := (KeyIndex.ofKeys old).1 }, row := .relabel old }
        (KeyIndex.ofKeys node.keys).2 := by
  unfold resettle
  rw [if_pos hobject]
  split
  next index heq =>
    have hnone : (KeyIndex.ofKeys node.keys).2 = [] := congrArg Prod.snd heq
    exact absurd (KeyIndex.repeated_eq_nil_iff.mp hnone) hkeys
  next heq => rw [heq]

/-- A node that is in order changes nothing. -/
theorem WellFormed.resettle_self (hnode : node.WellFormed) :
    (Outline.resettle node.keys node : Verdict ι (List String)) =
      .changed { head := node.head } [] := by
  unfold Outline.resettle
  by_cases hobject : node.head.kind = .object
  · rw [if_pos hobject, (hnode.names hobject).ofKeys_eq]
  · rw [if_neg hobject, ← hnode.unindexed hobject]

end Outline

/-- A tree whose node is in order stays as it is. -/
theorem Tree.perform_resettle_self {tree : Tree} (hnode : tree.outline.WellFormed) :
    tree.perform (Outline.resettle tree.keys) = (.ok [], tree) :=
  (Tree.perform_changed hnode.resettle_self).trans
    (congrArg (Prod.mk _) (Tree.node_head_children tree))

/-! ## Trips -/

/-- What a walk did with a node. -/
inductive Trip
  /-- it did not visit the node -/
  | passed (node : Tree)
  /-- it visited the node, and this is what it did with the children that the visit left -/
  | visited (left : Tree) (row : List Trip)

namespace Trip

/-- What holds of a trip whenever it holds of the trips of its row holds of every trip. -/
@[elab_as_elim]
theorem induction {motive : Trip → Prop} (passed : ∀ node, motive (.passed node))
    (visited : ∀ left row, (∀ trip ∈ row, motive trip) → motive (.visited left row)) :
    ∀ trip, motive trip
  | .passed node => passed node
  | .visited left row => visited left row fun trip _ => induction passed visited trip

/-- The tree that the visit left, if the node was visited. -/
def left? : Trip → Option Tree
  | .passed _ => none
  | .visited left _ => some left

/-- What the walk did with the children. -/
def row : Trip → List Trip
  | .passed _ => []
  | .visited _ row => row

/-- The key of the node when the walk is done with it. -/
def key : Trip → String
  | .passed node => node.key
  | .visited left _ => left.key

/-- What the walk did with the node that a path leads to. -/
def at? (trip : Trip) : List Nat → Option Trip
  | [] => some trip
  | pos :: path => trip.row[pos]?.bind fun child => child.at? path

mutual

/-- The tree when the walk is done with it. -/
def final : Trip → Tree
  | .passed node => node
  | .visited left row =>
      ((Tree.node left.head (rowFinal row)).perform (Outline.resettle left.keys)).2

/-- The trees of a row when the walk is done with them. -/
def rowFinal : List Trip → List Tree
  | [] => []
  | trip :: rest => trip.final :: rowFinal rest

end

mutual

/-- The visits, in the order in which they were made. -/
def stays (path : List Nat) : Trip → List Stay
  | .passed _ => []
  | .visited left row => ⟨path, left⟩ :: rowStays path 0 row

/-- The visits in a row of children, the first of which is at position `pos`. -/
def rowStays (path : List Nat) (pos : Nat) : List Trip → List Stay
  | [] => []
  | trip :: rest => trip.stays (path ++ [pos]) ++ rowStays path (pos + 1) rest

end

/-- The walk left two children of an object with the same key. -/
def Clash : Trip → Prop
  | .passed _ => False
  | .visited left row => left.kind = .object ∧ ¬ Tree.Distinct (row.map key)

/-- There is an object somewhere two children of which were left with the same key. -/
def Fails (trip : Trip) : Prop :=
  ∃ below sub, trip.at? below = some sub ∧ sub.Clash

/-- A node that was not visited is as it was. -/
def StartsFrom (trip : Trip) (old : Tree) : Prop :=
  ∀ node, trip = .passed node → node = old

/-- The walk goes over the children that the visits left, and after a clash it makes no more
visits. -/
inductive Proper : Trip → Prop
  | passed (node : Tree) : Proper (.passed node)
  | visited {left : Tree} {row : List Trip} (starts : List.Forall₂ StartsFrom row left.children)
      (stops : row.Pairwise fun first second => first.Fails → second.left? = none)
      (below : ∀ trip ∈ row, trip.Proper) : Proper (.visited left row)

/-- The fault tells the repeated keys and shows the object of a clash, below which there was
none. -/
def Reports (trip : Trip) (fault : Fault) : Prop :=
  ∃ below left row, trip.at? below = some (.visited left row) ∧ (visited left row).Clash ∧
    (∀ child ∈ row, ¬ child.Fails) ∧
    fault = .ofRefusal ⟨.modify, .conflict (.repeated (KeyIndex.ofKeys (row.map key)).2)⟩
      (visited left row).final

/-- The answer of the walk. -/
def Ends (trip : Trip) : Except Fault Unit → Prop
  | .ok () => ¬ trip.Fails
  | .error fault => trip.Reports fault

variable {trip sub : Trip} {left : Tree} {row : List Trip} {path below : List Nat} {fault : Fault}

/-! ### Along paths -/

@[simp] theorem at?_nil (trip : Trip) : trip.at? [] = some trip := by
  rw [at?]

theorem at?_cons (trip : Trip) (pos : Nat) (path : List Nat) :
    trip.at? (pos :: path) = trip.row[pos]?.bind fun child => child.at? path := by
  rw [at?]

theorem at?_append (trip : Trip) (path below : List Nat) :
    trip.at? (path ++ below) = (trip.at? path).bind fun sub => sub.at? below := by
  induction path generalizing trip with
  | nil => rw [List.nil_append, at?_nil, Option.bind_some]
  | cons pos path ih =>
      rw [List.cons_append, at?_cons, at?_cons, Option.bind_assoc]
      exact congrArg _ (funext ih)

theorem at?_cons_iff {pos : Nat} :
    trip.at? (pos :: path) = some sub ↔ ∃ child, trip.row[pos]? = some child ∧
      child.at? path = some sub := by
  rw [at?_cons, Option.bind_eq_some_iff]

/-- Nothing was visited below a node that was not. -/
theorem at?_passed {node : Tree} (hat : (passed node).at? below = some sub) :
    sub = .passed node := by
  cases below with
  | nil => simpa [eq_comm] using hat
  | cons pos below => simp [at?_cons, Trip.row] at hat

theorem Proper.at? (hproper : trip.Proper) (hat : trip.at? below = some sub) : sub.Proper := by
  induction below generalizing trip with
  | nil =>
      obtain rfl : trip = sub := by simpa using hat
      exact hproper
  | cons pos below ih =>
      obtain ⟨child, hchild, hsub⟩ := at?_cons_iff.mp hat
      cases hproper with
      | passed node => cases hchild
      | visited _ _ hbelow => exact ih (hbelow child (List.mem_of_getElem? hchild)) hsub

theorem fails_passed (node : Tree) : ¬ (passed node).Fails := by
  rintro ⟨below, sub, hat, hclash⟩
  rw [at?_passed hat] at hclash
  exact hclash

theorem fails_visited :
    (visited left row).Fails ↔ (visited left row).Clash ∨ ∃ child ∈ row, child.Fails := by
  constructor
  · rintro ⟨below, sub, hat, hclash⟩
    cases below with
    | nil =>
        obtain rfl : visited left row = sub := by simpa using hat
        exact .inl hclash
    | cons pos below =>
        obtain ⟨child, hchild, hsub⟩ := at?_cons_iff.mp hat
        exact .inr ⟨child, List.mem_of_getElem? hchild, below, sub, hsub, hclash⟩
  · rintro (hclash | ⟨child, hchild, below, sub, hat, hclash⟩)
    · exact ⟨[], _, at?_nil _, hclash⟩
    · obtain ⟨pos, hpos⟩ := List.getElem?_of_mem hchild
      exact ⟨pos :: below, sub, at?_cons_iff.mpr ⟨child, hpos, hat⟩, hclash⟩

theorem Reports.fails (hreports : trip.Reports fault) : trip.Fails := by
  obtain ⟨below, left, row, hat, hclash, _⟩ := hreports
  exact ⟨below, _, hat, hclash⟩

/-- What the walk did with a child tells what it reports. -/
theorem Reports.of_child (hreports : sub.Reports fault) (hchild : sub ∈ row) :
    (visited left row).Reports fault := by
  obtain ⟨below, last, others, hat, hrest⟩ := hreports
  obtain ⟨pos, hpos⟩ := List.getElem?_of_mem hchild
  exact ⟨pos :: below, last, others, at?_cons_iff.mpr ⟨sub, hpos, hat⟩, hrest⟩

/-! ### Visits -/

theorem mem_rowStays {start : Nat} {stay : Stay} :
    stay ∈ rowStays path start row ↔
      ∃ (pos : Nat) (child : Trip), row[pos]? = some child ∧
        stay ∈ child.stays (path ++ [start + pos]) := by
  induction row generalizing start with
  | nil => simp [rowStays]
  | cons child rest ih =>
      rw [rowStays, List.mem_append, ih]
      constructor
      · rintro (hfirst | ⟨pos, other, hother, hstay⟩)
        · exact ⟨0, child, rfl, hfirst⟩
        · exact ⟨pos + 1, other, hother, by rwa [Nat.add_comm pos, ← Nat.add_assoc]⟩
      · rintro ⟨pos, other, hother, hstay⟩
        cases pos with
        | zero =>
            obtain rfl : child = other := by simpa using hother
            exact .inl hstay
        | succ pos =>
            exact .inr ⟨pos, other, hother, by rwa [Nat.add_comm pos, ← Nat.add_assoc] at hstay⟩

/-- The visits are where the walk visited a node. -/
theorem mem_stays {stay : Stay} :
    stay ∈ trip.stays path ↔
      ∃ below left row, trip.at? below = some (.visited left row) ∧
        stay = ⟨path ++ below, left⟩ := by
  induction trip using Trip.induction generalizing path with
  | passed node =>
      rw [stays]
      constructor
      · exact nofun
      · rintro ⟨below, left, row, hat, _⟩
        cases at?_passed hat
  | visited left row ih =>
      rw [stays, List.mem_cons, mem_rowStays]
      constructor
      · rintro (rfl | ⟨pos, child, hchild, hstay⟩)
        · exact ⟨[], left, row, at?_nil _, by rw [List.append_nil]⟩
        · obtain ⟨below, last, others, hat, rfl⟩ :=
            (ih child (List.mem_of_getElem? hchild)).mp hstay
          exact ⟨pos :: below, last, others, at?_cons_iff.mpr ⟨child, hchild, hat⟩, by simp⟩
      · rintro ⟨below, last, others, hat, rfl⟩
        cases below with
        | nil =>
            obtain ⟨rfl, rfl⟩ : left = last ∧ row = others := by simpa using hat
            exact .inl (by rw [List.append_nil])
        | cons pos below =>
            obtain ⟨child, hchild, hsub⟩ := at?_cons_iff.mp hat
            refine .inr ⟨pos, child, hchild, (ih child (List.mem_of_getElem? hchild)).mpr ?_⟩
            exact ⟨below, last, others, hsub, by simp⟩

/-- No node is visited twice, so a visit is found where it was made. -/
theorem leftAt?_stays (trip : Trip) (path below : List Nat) :
    Stay.leftAt? (trip.stays path) (path ++ below) = (trip.at? below).bind left? := by
  unfold Stay.leftAt?
  cases hfound : (trip.stays path).find? (·.path = path ++ below) with
  | some stay =>
      have hpath : stay.path = path ++ below := by simpa using List.find?_some hfound
      obtain ⟨other, left, row, hat, rfl⟩ := mem_stays.mp (List.mem_of_find?_eq_some hfound)
      obtain rfl : other = below := List.append_cancel_left hpath
      rw [hat]
      rfl
  | none =>
      cases hat : trip.at? below with
      | none => rfl
      | some sub =>
          cases sub with
          | passed node => rfl
          | visited left row =>
              have hstay : ⟨path ++ below, left⟩ ∈ trip.stays path :=
                mem_stays.mpr ⟨below, left, row, hat, rfl⟩
              simpa using List.find?_eq_none.mp hfound _ hstay

theorem leftAt?_self (trip : Trip) (path : List Nat) :
    Stay.leftAt? (trip.stays path) path = trip.left? := by
  have hself := trip.leftAt?_stays path []
  rwa [List.append_nil, at?_nil, Option.bind_some] at hself

/-! ### What the walk leaves -/

theorem rowFinal_eq_map (row : List Trip) : rowFinal row = row.map final := by
  induction row with
  | nil => rw [rowFinal, List.map_nil]
  | cons trip rest ih => rw [rowFinal, List.map_cons, ih]

theorem final_visited (left : Tree) (row : List Trip) :
    (visited left row).final =
      ((Tree.node left.head (row.map final)).perform (Outline.resettle left.keys)).2 := by
  rw [final, rowFinal_eq_map]

theorem key_final (trip : Trip) : trip.final.key = trip.key := by
  cases trip with
  | passed node => rw [final, key]
  | visited left row =>
      rw [final_visited]
      refine Tree.key_perform fun change hchange => ?_
      unfold Outline.resettle at hchange
      split at hchange
      · split at hchange <;> cases hchange <;> rfl
      · cases hchange
        rfl

theorem map_key_final (row : List Trip) : (row.map final).map Tree.key = row.map key := by
  rw [List.map_map]
  exact List.map_congr_left fun trip _ => trip.key_final

/-- Where no two children have the same key, they stay as the walk left them. -/
theorem perform_of_not_clash (hclash : ¬ (visited left row).Clash) :
    ∃ index, (Tree.node left.head (row.map final)).perform (Outline.resettle left.keys) =
      (.ok [], .node { left.head with index } (row.map final)) := by
  have hkeys : (Tree.node left.head (row.map final)).outline.head.kind = .object →
      Tree.Distinct (Tree.node left.head (row.map final)).outline.keys := by
    intro hobject
    by_contra hrepeated
    refine hclash ⟨hobject, ?_⟩
    rwa [← map_key_final]
  obtain ⟨index, hsettle⟩ := Outline.resettle_of_distinct hkeys left.keys
  exact ⟨index, Tree.perform_changed hsettle⟩

/-- Where two children have the same key, all take their old keys back. -/
theorem perform_of_clash (hclash : (visited left row).Clash) :
    ∃ index, (Tree.node left.head (row.map final)).perform (Outline.resettle left.keys) =
      (.ok (KeyIndex.ofKeys (row.map key)).2,
        .node { left.head with index } (relabelRow (row.map final) left.keys)) := by
  obtain ⟨hobject, hkeys⟩ := hclash
  rw [← map_key_final] at hkeys ⊢
  exact ⟨_, Tree.perform_changed (Outline.resettle_of_clash hobject hkeys left.keys)⟩

/-- A node that was visited keeps what the visit left it, but for its index. -/
theorem head_final_visited (left : Tree) (row : List Trip) :
    ∃ index, (visited left row).final.head = { left.head with index } := by
  rw [final_visited]
  by_cases hclash : (visited left row).Clash
  · obtain ⟨index, hperform⟩ := perform_of_clash hclash
    exact ⟨index, by rw [hperform, Tree.head_node]⟩
  · obtain ⟨index, hperform⟩ := perform_of_not_clash hclash
    exact ⟨index, by rw [hperform, Tree.head_node]⟩

theorem children_final_of_not_clash (hclash : ¬ (visited left row).Clash) :
    (visited left row).final.children = row.map final := by
  obtain ⟨index, hperform⟩ := perform_of_not_clash hclash
  rw [final_visited, hperform, Tree.children_node]

theorem children_final_of_clash (hclash : (visited left row).Clash) :
    (visited left row).final.children = relabelRow (row.map final) left.keys := by
  obtain ⟨index, hperform⟩ := perform_of_clash hclash
  rw [final_visited, hperform, Tree.children_node]

/-- Each child is as the walk left it, perhaps under another key. -/
theorem getElem?_children_final (left : Tree) (row : List Trip) (pos : Nat) :
    ∃ label : Trip → String, (visited left row).final.children[pos]? =
      row[pos]?.map fun child => child.final.withKey (label child) := by
  by_cases hclash : (visited left row).Clash
  · refine ⟨fun child => left.keys[pos]?.getD child.final.key, ?_⟩
    rw [children_final_of_clash hclash, Tree.getElem?_relabelRow, List.getElem?_map, Option.map_map]
    rfl
  · refine ⟨fun child => child.final.key, ?_⟩
    simp only [children_final_of_not_clash hclash, List.getElem?_map, Tree.withKey_self]

/-- What the walk did with a node is found where the walk left it. -/
theorem exists_subtree?_final (hat : trip.at? below = some sub) :
    ∃ key, trip.final.subtree? below = some (sub.final.withKey key) := by
  induction below generalizing trip with
  | nil =>
      obtain rfl : trip = sub := by simpa using hat
      exact ⟨trip.final.key, by rw [Tree.subtree?_nil, Tree.withKey_self]⟩
  | cons pos below ih =>
      obtain ⟨child, hchild, hsub⟩ := at?_cons_iff.mp hat
      cases trip with
      | passed node => cases hchild
      | visited left row =>
          obtain ⟨label, hlabel⟩ := getElem?_children_final left row pos
          rw [Trip.row] at hchild
          rw [Tree.subtree?_cons, hlabel, hchild, Option.map_some, Option.bind_some]
          cases below with
          | nil =>
              obtain rfl : child = sub := by simpa using hsub
              exact ⟨label child, Tree.subtree?_nil _⟩
          | cons next below =>
              -- below the child its key does not matter
              obtain ⟨last, hlast⟩ := ih hsub
              refine ⟨last, ?_⟩
              rw [← hlast, Tree.subtree?_cons, Tree.subtree?_cons]
              rfl

/-! ### Children that are left out -/

theorem map_final_passed (trees : List Tree) : (trees.map passed).map final = trees := by
  rw [List.map_map]
  exact List.map_id'' (fun node => by rw [Function.comp_apply, final]) trees

theorem rowStays_passed (trees : List Tree) (path : List Nat) (start : Nat) :
    rowStays path start (trees.map passed) = [] := by
  induction trees generalizing start with
  | nil => rw [List.map_nil, rowStays]
  | cons node rest ih => rw [List.map_cons, rowStays, stays, List.nil_append, ih]

theorem forall₂_startsFrom_passed (trees : List Tree) :
    List.Forall₂ StartsFrom (trees.map passed) trees := by
  refine List.forall₂_map_left_iff.mpr (List.forall₂_same.mpr fun node _ other hsame => ?_)
  exact (passed.inj hsame).symm

theorem forall_mem_passed {holds : Trip → Prop} (trees : List Tree)
    (hpassed : ∀ node, holds (.passed node)) :
    ∀ trip ∈ trees.map passed, holds trip := by
  intro trip htrip
  obtain ⟨node, _, rfl⟩ := List.mem_map.mp htrip
  exact hpassed node

theorem pairwise_passed (trees : List Tree) :
    (trees.map passed).Pairwise fun first second => first.Fails → second.left? = none := by
  refine List.pairwise_map.mpr (List.pairwise_of_forall fun first second _ => ?_)
  rw [left?]

/-- A walk that visited a node and went no further. -/
def stopped (left : Tree) : Trip :=
  .visited left (left.children.map passed)

theorem proper_stopped (left : Tree) : (stopped left).Proper :=
  .visited (forall₂_startsFrom_passed _) (pairwise_passed _) (forall_mem_passed _ .passed)

theorem stays_stopped (left : Tree) (path : List Nat) :
    (stopped left).stays path = [⟨path, left⟩] := by
  rw [stopped, stays, rowStays_passed]

theorem final_stopped (hleft : left.outline.WellFormed) : (stopped left).final = left := by
  rw [stopped, final_visited, map_final_passed, Tree.node_head_children,
    Tree.perform_resettle_self hleft]

theorem not_fails_stopped (hleft : left.outline.WellFormed) : ¬ (stopped left).Fails := by
  rw [stopped, fails_visited]
  rintro (⟨hobject, hkeys⟩ | ⟨child, hchild, hfails⟩)
  · have hnames := hleft.names hobject
    rw [List.map_map] at hkeys
    exact hkeys hnames.distinct
  · obtain ⟨node, _, rfl⟩ := List.mem_map.mp hchild
    exact fails_passed node hfails

/-! ### What becomes of visited nodes -/

theorem Proper.length_eq (hproper : (Trip.visited left row).Proper) :
    row.length = left.children.length := by
  cases hproper with
  | visited hstarts _ _ => exact hstarts.length_eq

/-- The row of a visited node, child by child. -/
theorem Proper.row_cases (hproper : (Trip.visited left row).Proper) (pos : Nat) :
    row[pos]? = none ∧ left.children[pos]? = none ∨
      (∃ node, row[pos]? = some (.passed node) ∧ left.children[pos]? = some node) ∨
      ∃ next others child, row[pos]? = some (.visited next others) ∧
        left.children[pos]? = some child := by
  cases hproper with
  | visited hstarts _ _ =>
      obtain ⟨hlength, hstart⟩ := List.forall₂_iff_get.mp hstarts
      by_cases hpos : pos < row.length
      · have hchild := List.getElem?_eq_getElem (hlength ▸ hpos)
        have hfrom := hstart pos hpos (hlength ▸ hpos)
        rw [List.getElem?_eq_getElem hpos, hchild]
        simp only [List.get_eq_getElem] at hfrom
        cases hat : row[pos] with
        | passed node => exact .inr (.inl ⟨node, rfl, congrArg some (hfrom node hat).symm⟩)
        | visited next others => exact .inr (.inr ⟨next, others, _, rfl, rfl⟩)
      · have hout := Nat.not_lt.mp hpos
        exact .inl ⟨List.getElem?_eq_none hout, List.getElem?_eq_none (hlength ▸ hout)⟩

/-- What the visits of the children of a node left. -/
theorem leftAt?_child (hat : trip.at? below = some (.visited left row)) (pos : Nat) :
    Stay.leftAt? (trip.stays path) (path ++ below ++ [pos]) = row[pos]?.bind left? := by
  rw [List.append_assoc, leftAt?_stays, at?_append, hat, Option.bind_some, at?_cons, Trip.row,
    Option.bind_assoc]
  simp only [at?_nil, Option.bind_some]

/-- The keys of the children at the end of the walk over them. -/
theorem keysAfter_stays (hproper : trip.Proper) (hat : trip.at? below = some (.visited left row)) :
    Stay.keysAfter (trip.stays path) ⟨path ++ below, left⟩ = row.map key := by
  refine List.ext_getElem? fun pos => ?_
  rw [Stay.keysAfter, List.getElem?_mapIdx, leftAt?_child hat, Tree.keys, List.getElem?_map,
    List.getElem?_map]
  rcases (hproper.at? hat).row_cases
    pos with ⟨hrow, hchild⟩ | ⟨node, hrow, hchild⟩ | ⟨_, _, _, hrow, hchild⟩
  all_goals simp [hrow, hchild, left?, key]

theorem clashes_iff (hproper : trip.Proper) (hat : trip.at? below = some (.visited left row)) :
    Stay.Clashes (trip.stays path) ⟨path ++ below, left⟩ ↔ (visited left row).Clash := by
  rw [Stay.Clashes, keysAfter_stays hproper hat, Clash]

/-- There is a clash somewhere exactly if some visited object clashes. -/
theorem fails_iff (hproper : trip.Proper) :
    trip.Fails ↔ ∃ stay ∈ trip.stays path, stay.Clashes (trip.stays path) := by
  constructor
  · rintro ⟨below, sub, hat, hclash⟩
    cases sub with
    | passed node => cases hclash
    | visited left row =>
        exact ⟨_, mem_stays.mpr ⟨below, left, row, hat, rfl⟩, (clashes_iff hproper hat).mpr hclash⟩
  · rintro ⟨stay, hstay, hclash⟩
    obtain ⟨below, left, row, hat, rfl⟩ := mem_stays.mp hstay
    exact ⟨below, _, hat, (clashes_iff hproper hat).mp hclash⟩

/-- The tree that a visited node is when the walk is over, perhaps under a key that it gets back
from the node above it. -/
theorem Proper.becomes (hproper : trip.Proper) (hat : trip.at? below = some (.visited left row))
    (key : String) :
    Stay.Becomes (trip.stays path) ⟨path ++ below, left⟩
      ((Trip.visited left row).final.withKey key) where
  itself := by
    obtain ⟨index, hhead⟩ := head_final_visited left row
    simp only [Tree.withKey, Tree.withHead, Tree.head_node, hhead, Tree.key, Tree.index]
  restored hclash := by
    rw [clashes_iff hproper hat] at hclash
    have hlength : left.keys.length = (row.map final).length := by
      rw [Tree.length_keys, List.length_map, (hproper.at? hat).length_eq]
    change (Trip.visited left row).final.children.map Tree.key = left.keys
    rw [children_final_of_clash hclash, Tree.map_key_relabelRow,
      List.take_of_length_le (Nat.le_of_eq hlength),
      List.drop_eq_nil_of_le (by rw [List.length_map, hlength]), List.append_nil]
  kept hclash := by
    rw [clashes_iff hproper hat] at hclash
    rw [keysAfter_stays hproper hat, ← map_key_final, ← children_final_of_not_clash hclash]
    rfl
  unvisited pos hnone := by
    rw [leftAt?_child hat] at hnone
    change (Trip.visited left row).final.children[pos]? = left.children[pos]?
    rcases (hproper.at? hat).row_cases
      pos with ⟨hrow, hchild⟩ | ⟨node, hrow, hchild⟩ | ⟨_, _, _, hrow, _⟩
    · obtain ⟨label, hlabel⟩ := getElem?_children_final left row pos
      rw [hlabel, hrow, hchild, Option.map_none]
    · by_cases hclash : (Trip.visited left row).Clash
      · -- the key that the child gets back is its own
        rw [children_final_of_clash hclash, Tree.getElem?_relabelRow, List.getElem?_map, hrow,
          hchild, Tree.keys, List.getElem?_map, hchild]
        exact congrArg some (Tree.withKey_self node)
      · rw [children_final_of_not_clash hclash, List.getElem?_map, hrow, hchild]
        rfl
    · rw [hrow] at hnone
      cases hnone

/-! ### The order of the visits -/

theorem exists_path_eq {stay : Stay} (hstay : stay ∈ trip.stays path) :
    ∃ below, stay.path = path ++ below := by
  obtain ⟨below, _, _, _, rfl⟩ := mem_stays.mp hstay
  exact ⟨below, rfl⟩

/-- Visits in a row are made in pre-order if those of each child are. -/
theorem rowStays_pairwise
    (hrow : ∀ child ∈ row, ∀ path, (child.stays path).Pairwise (·.path < ·.path)) (path : List Nat)
    (start : Nat) : (rowStays path start row).Pairwise (·.path < ·.path) := by
  induction row generalizing start with
  | nil =>
      rw [rowStays]
      exact .nil
  | cons child rest ih =>
      obtain ⟨hchild, hrest⟩ := List.forall_mem_cons.mp hrow
      rw [rowStays, List.pairwise_append]
      refine ⟨hchild _, ih hrest (start + 1), fun first hfirst second hsecond => ?_⟩
      -- the first visit is at or below a child that stands in front of the one of the second
      obtain ⟨pos, other, _, hother⟩ := mem_rowStays.mp hsecond
      obtain ⟨below, hbelow⟩ := exists_path_eq hfirst
      obtain ⟨below', hbelow'⟩ := exists_path_eq hother
      rw [hbelow, hbelow', List.append_assoc, List.append_assoc]
      apply List.append_left_lt
      exact List.cons_lt_cons_iff.mpr (.inl (by omega))

/-- Visits are made in pre-order. -/
theorem stays_pairwise (trip : Trip) (path : List Nat) :
    (trip.stays path).Pairwise (·.path < ·.path) := by
  induction trip using Trip.induction generalizing path with
  | passed node =>
      rw [stays]
      exact .nil
  | visited left row ih =>
      rw [stays, List.pairwise_cons]
      refine ⟨fun stay hstay => ?_,
        rowStays_pairwise (fun child hchild path => ih child hchild path) path 0⟩
      -- a path is smaller than all that go on from it
      obtain ⟨pos, child, _, hchild⟩ := mem_rowStays.mp hstay
      obtain ⟨below, hbelow⟩ := exists_path_eq hchild
      have hlt : path ++ [] < path ++ ([0 + pos] ++ below) :=
        List.append_left_lt (List.nil_lt_cons _ _)
      rw [hbelow, List.append_assoc]
      rwa [List.append_nil] at hlt

theorem lt_of_append_lt {first second : List Nat} (hlt : path ++ first < path ++ second) :
    first < second := by
  induction path with
  | nil => exact hlt
  | cons pos path ih => exact ih (List.cons_lt_cons_self.mp hlt)

/-- A visit that comes later than that of an object that clashes is below that object. -/
theorem Proper.prefix_of_lt {other : List Nat} (hproper : trip.Proper)
    (hat : trip.at? below = some sub) (hclash : sub.Clash)
    (hother : trip.at? other = some (.visited left row)) (hlt : below < other) :
    below <+: other := by
  induction below generalizing trip other with
  | nil => exact List.nil_prefix
  | cons pos below ih =>
      cases other with
      | nil => exact absurd hlt (List.not_lt_nil _)
      | cons next other =>
          obtain ⟨child, hchild, hsub⟩ := at?_cons_iff.mp hat
          obtain ⟨later, hlater, hleft⟩ := at?_cons_iff.mp hother
          cases hproper with
          | passed node => cases hchild
          | visited _ hstops hbelow =>
              rcases List.cons_lt_cons_iff.mp hlt with hpos | ⟨rfl, hrest⟩
              · -- the later child would have been left out
                have hnone : later.left? = none := by
                  obtain ⟨hfirst, rfl⟩ := List.getElem?_eq_some_iff.mp hchild
                  obtain ⟨hsecond, rfl⟩ := List.getElem?_eq_some_iff.mp hlater
                  exact List.pairwise_iff_getElem.mp hstops _ _ hfirst hsecond hpos
                    ⟨below, sub, hsub, hclash⟩
                cases later with
                | passed node => cases at?_passed hleft
                | visited last others => cases hnone
              · obtain rfl : child = later := Option.some.inj (hchild.symm.trans hlater)
                refine List.cons_prefix_cons.mpr ⟨rfl, ?_⟩
                exact ih (hbelow child (List.mem_of_getElem? hchild)) hsub hleft hrest

/-- The clash that is reported is below all others. -/
theorem Proper.deepest {other : List Nat} (hproper : trip.Proper)
    (hat : trip.at? below = some (.visited left row)) (hclash : (Trip.visited left row).Clash)
    (hnone : ∀ child ∈ row, ¬ child.Fails) (hother : trip.at? other = some sub)
    (hother' : sub.Clash) : other <+: below := by
  obtain ⟨last, others, rfl⟩ : ∃ last others, sub = .visited last others := by
    cases sub with
    | passed node => cases hother'
    | visited last others => exact ⟨last, others, rfl⟩
  by_cases hlt : below < other
  · obtain ⟨rest, rfl⟩ := hproper.prefix_of_lt hat hclash hother hlt
    cases rest with
    | nil => rw [List.append_nil]
    | cons pos rest =>
        rw [at?_append, hat, Option.bind_some] at hother
        obtain ⟨child, hchild, hsub⟩ := at?_cons_iff.mp hother
        exact absurd ⟨rest, _, hsub, hother'⟩ (hnone child (List.mem_of_getElem? hchild))
  · rcases List.le_iff_lt_or_eq.mp (List.not_lt.mp hlt) with hlt | rfl
    · exact hproper.prefix_of_lt hother hother' hat hlt
    · exact List.prefix_rfl

/-! ### What a walk comes to -/

theorem Proper.exists_deepest (hproper : trip.Proper) (hreports : trip.Reports fault) :
    ∃ stay ∈ trip.stays path, stay.Clashes (trip.stays path) ∧
      (∀ other ∈ trip.stays path, other.Clashes (trip.stays path) → other.path <+: stay.path) ∧
      ∃ below node, stay.path = path ++ below ∧ trip.final.subtree? below = some node ∧
        fault = .ofRefusal
          ⟨.modify, .conflict (.repeated (KeyIndex.ofKeys (stay.keysAfter (trip.stays path))).2)⟩
          (node.withKey stay.left.key) := by
  obtain ⟨below, left, row, hat, hclash, hnone, rfl⟩ := hreports
  obtain ⟨label, hlabel⟩ := exists_subtree?_final hat
  refine ⟨⟨path ++ below, left⟩, mem_stays.mpr ⟨below, left, row, hat, rfl⟩,
    (clashes_iff hproper hat).mpr hclash, fun other hother hother' => ?_, below, _, rfl, hlabel, ?_⟩
  · obtain ⟨at_, last, others, hlast, rfl⟩ := mem_stays.mp hother
    rw [clashes_iff hproper hlast] at hother'
    exact (List.prefix_append_right_inj path).mpr (hproper.deepest hat hclash hnone hlast hother')
  · -- under the key that the visit left, the node is the one that was shown
    have hkey : (Trip.visited left row).final.key = left.key := key_final _
    rw [keysAfter_stays hproper hat, ← hkey]
    exact congrArg _ (Tree.withKey_self _).symm

theorem Proper.settled {old : Tree} {result : Except Fault Unit} (hproper : trip.Proper)
    (hstarts : trip.StartsFrom old) (hfinal : trip.final.WellFormed) (hends : trip.Ends result) :
    Walk.Settled path old (trip.stays path) result trip.final where
  wellFormed := hfinal
  unvisited hnone := by
    rw [leftAt?_self] at hnone
    cases trip with
    | passed node => exact hstarts node rfl
    | visited left row => cases hnone
  key left hleft := by
    rw [leftAt?_self] at hleft
    cases trip with
    | passed node => cases hleft
    | visited last row =>
        obtain rfl : last = left := Option.some.inj hleft
        exact key_final _
  becomes stay hstay := by
    obtain ⟨below, left, row, hat, rfl⟩ := mem_stays.mp hstay
    obtain ⟨label, hlabel⟩ := exists_subtree?_final hat
    exact ⟨below, _, rfl, hlabel, hproper.becomes hat label⟩
  fails := by
    rw [← fails_iff hproper]
    cases result with
    | ok _ => exact iff_of_false (by rintro ⟨_, ⟨⟩⟩) hends
    | error fault => exact iff_of_true ⟨fault, rfl⟩ hends.fails
  fault fault hresult := by
    rw [hresult] at hends
    exact hproper.exists_deepest hends
  preorder := trip.stays_pairwise path
  stops stay hstay hclash other hother hlt := by
    obtain ⟨below, left, row, hat, rfl⟩ := mem_stays.mp hstay
    obtain ⟨at_, last, others, hlast, rfl⟩ := mem_stays.mp hother
    rw [clashes_iff hproper hat] at hclash
    exact (List.prefix_append_right_inj path).mpr
      (hproper.prefix_of_lt hat hclash hlast (lt_of_append_lt hlt))

end Trip

end KeyedTree
