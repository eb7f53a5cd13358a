import KeyedTree.Proofs.Tree.Paths
import KeyedTree.Workspace.Edit

/-! # Tours through a tree

Visits that leave every node with its key and its children make a tour: they go through the tree in
pre-order, and leave out nothing but what is below a node that is out of reach, that has an
exceptional key or whose visit kept the walk out. What a tour comes to is put together from the
tours through the children.
-/

namespace KeyedTree.Walk

variable {σ : Type}

/-! ## Records of visits -/

/-- A visit as a walk records it: the positions that lead to the node, the tree that was there and
the state that was handed to the visit, and what the visit made of both. -/
structure Record (σ : Type) where
  path : List Nat
  found : Tree
  given : σ
  traversal : Traversal
  left : Tree
  returned : σ

/-- The visit left the node's key and its children as they were. -/
def Record.Keeps (record : Record σ) : Prop :=
  record.left.key = record.found.key ∧ record.left.children = record.found.children

/-- That visits left keys and children as they were can be computed. -/
theorem forall_keeps_iff {records : List (Record σ)} :
    (∀ record ∈ records, record.Keeps) ↔
      records.map (fun record => (record.left.key, record.left.children)) =
        records.map fun record => (record.found.key, record.found.children) := by
  rw [List.map_inj_left]
  exact forall₂_congr fun _ _ => (Iff.of_eq (Prod.mk.injEq ..)).symm

/-- The state goes from visit to visit. -/
def Threads : σ → List (Record σ) → σ → Prop
  | state, [], last => last = state
  | state, record :: rest, last => record.given = state ∧ Threads record.returned rest last

/-- The node below a path may be visited: it is there and within reach, neither it nor a node above
it has an exceptional key, and no visit of a node above it kept the walk out. -/
structure Permits (exceptions : List String) (reach : Nat) (path : List Nat) (old : Tree)
    (records : List (Record σ)) (below : List Nat) : Prop where
  there : (old.subtree? below).isSome = true
  near : below.length ≤ reach
  allowed : ∀ above node, above <+: below → old.subtree? above = some node → node.key ∉ exceptions
  entered : ∀ record ∈ records, record.traversal = .skipBelow → record.path <+: path ++ below →
    record.path = path ++ below

/-- A walk over the node at a path toured it: these are the visits in the order in which they were
made, and this is the tree that is left of the old one. -/
structure Toured (exceptions : List String) (reach : Nat) (path : List Nat) (old : Tree)
    (records : List (Record σ)) (final : Tree) : Prop where
  /-- the visits were made in pre-order, and none was made twice -/
  preorder : records.Pairwise (·.path < ·.path)
  /-- the nodes that may be visited were visited, and no others -/
  permitted : ∀ below, (∃ record ∈ records, record.path = path ++ below) ↔
    Permits exceptions reach path old records below
  /-- a visit found the node as it had been, and what it made of the node is there now -/
  visited : ∀ record ∈ records, ∃ below, record.path = path ++ below ∧
    old.subtree? below = some record.found ∧
    (final.subtree? below).map Tree.head = some record.left.head
  /-- a node that was not visited is as it was -/
  unvisited : ∀ below, (∀ record ∈ records, record.path ≠ path ++ below) →
    (final.subtree? below).map Tree.head = (old.subtree? below).map Tree.head

variable {exceptions : List String} {reach start pos : Nat} {path below : List Nat}
  {old left final child : Tree} {record : Record σ} {records : List (Record σ)}
  {olds finals : List Tree} {state middle last : σ}

theorem threads_append {first second : List (Record σ)} (hfirst : Threads state first middle)
    (hsecond : Threads middle second last) : Threads state (first ++ second) last := by
  induction first generalizing state with
  | nil =>
      obtain rfl : middle = state := hfirst
      exact hsecond
  | cons record rest ih => exact ⟨hfirst.1, ih hfirst.2⟩

/-! ## Single nodes -/

/-- A node with an exceptional key is left out with all below it. -/
theorem Toured.passed (hkey : old.key ∈ exceptions) :
    Toured exceptions reach path old ([] : List (Record σ)) old where
  preorder := .nil
  permitted below := by
    refine iff_of_false nofun fun hpermits => ?_
    exact hpermits.allowed [] old List.nil_prefix (Tree.subtree?_nil old) hkey
  visited := nofun
  unvisited _ _ := rfl

/-- A node that does not have an exceptional key may be visited by a walk that starts there. -/
theorem permits_nil (hkey : old.key ∉ exceptions)
    (hbelow : ∀ record ∈ records, path <+: record.path) :
    Permits exceptions reach path old records [] := by
  refine ⟨?_, Nat.zero_le _, fun above node habove hnode => ?_, fun record hrecord _ hprefix => ?_⟩
  · rw [Tree.subtree?_nil]
    rfl
  · obtain rfl := List.prefix_nil.mp habove
    rw [Tree.subtree?_nil] at hnode
    exact Option.some.inj hnode ▸ hkey
  · rw [List.append_nil] at hprefix ⊢
    exact hprefix.eq_of_length_le (hbelow record hrecord).length_le

theorem append_cons_ne_self (path : List Nat) (pos : Nat) (below : List Nat) :
    path ++ pos :: below ≠ path := by
  intro hsame
  exact List.cons_ne_nil pos below (List.append_right_eq_self.mp hsame)

/-- A walk that goes no further makes a single visit. -/
theorem Toured.stopped (hkey : old.key ∉ exceptions) (hpath : record.path = path)
    (hfound : record.found = old) (hkeeps : record.Keeps)
    (hstop : reach = 0 ∨ record.traversal = .skipBelow) :
    Toured exceptions reach path old [record] record.left where
  preorder := List.pairwise_singleton ..
  permitted below := by
    cases below with
    | nil =>
        refine iff_of_true ⟨record, List.mem_singleton_self record, ?_⟩
          (permits_nil hkey fun other hother => ?_)
        · rw [hpath, List.append_nil]
        · exact ⟨[], by rw [List.mem_singleton.mp hother, hpath, List.append_nil]⟩
    | cons pos below =>
        refine iff_of_false ?_ fun hpermits => ?_
        · rintro ⟨other, hother, hbelow⟩
          rw [List.mem_singleton.mp hother, hpath] at hbelow
          exact append_cons_ne_self path pos below hbelow.symm
        · rcases hstop with rfl | hskip
          · exact absurd hpermits.near (Nat.not_succ_le_zero _)
          · have hbelow := hpermits.entered record (List.mem_singleton_self record) hskip
              (hpath ▸ List.prefix_append path (pos :: below))
            rw [hpath] at hbelow
            exact append_cons_ne_self path pos below hbelow.symm
  visited other hother := by
    rw [List.mem_singleton.mp hother]
    refine ⟨[], hpath.trans (List.append_nil path).symm, ?_, ?_⟩
    · rw [hfound, Tree.subtree?_nil]
    · rw [Tree.subtree?_nil, Option.map_some]
  unvisited below hbelow := by
    cases below with
    | nil =>
        exact absurd (hpath.trans (List.append_nil path).symm)
          (hbelow record (List.mem_singleton_self record))
    | cons pos below => rw [Tree.subtree?_cons, Tree.subtree?_cons, hkeeps.2, hfound]

/-! ## Rows of children -/

theorem prefix_append_cons_iff {other : Nat} :
    path ++ [pos] <+: path ++ other :: below ↔ pos = other := by
  rw [List.prefix_append_right_inj, List.cons_prefix_cons]
  simp

/-- A walk over the children of a node from a position on toured each of them, and all kept their
keys. -/
inductive RowToured (exceptions : List String) (reach : Nat) (path : List Nat) :
    Nat → List Tree → List (Record σ) → List Tree → Prop
  | nil (start : Nat) : RowToured exceptions reach path start [] [] []
  | cons {start : Nat} {child final : Tree} {olds finals : List Tree}
      {records more : List (Record σ)} :
      Toured exceptions reach (path ++ [start]) child records final → final.key = child.key →
      RowToured exceptions reach path (start + 1) olds more finals →
      RowToured exceptions reach path start (child :: olds) (records ++ more) (final :: finals)

namespace RowToured

theorem keys (hrow : RowToured exceptions reach path start olds records finals) :
    finals.map Tree.key = olds.map Tree.key := by
  induction hrow with
  | nil => rfl
  | cons _ hkey _ ih => rw [List.map_cons, List.map_cons, hkey, ih]

/-- A visit was made at a child or below it. -/
theorem path_of_mem (hrow : RowToured exceptions reach path start olds records finals)
    (hrecord : record ∈ records) :
    ∃ pos child below, olds[pos]? = some child ∧ record.path = path ++ (start + pos) :: below := by
  induction hrow with
  | nil => cases hrecord
  | @cons start child final olds finals records more htoured hkey hrow ih =>
      rcases List.mem_append.mp hrecord with hfirst | hmore
      · obtain ⟨below, hbelow, _⟩ := htoured.visited record hfirst
        exact ⟨0, child, below, rfl, by simpa using hbelow⟩
      · obtain ⟨pos, other, below, hother, hbelow⟩ := ih hmore
        exact ⟨pos + 1, other, below, hother, by rwa [Nat.add_comm pos, ← Nat.add_assoc]⟩

theorem preorder (hrow : RowToured exceptions reach path start olds records finals) :
    records.Pairwise (·.path < ·.path) := by
  induction hrow with
  | nil => exact .nil
  | @cons start child final olds finals records more htoured hkey hrow ih =>
      refine List.pairwise_append.mpr ⟨htoured.preorder, ih, fun first hfirst second hsecond => ?_⟩
      -- the first visit is at or below a child that stands in front of the one of the second
      obtain ⟨below, hbelow, _⟩ := htoured.visited first hfirst
      obtain ⟨pos, _, below', _, hbelow'⟩ := hrow.path_of_mem hsecond
      rw [hbelow, hbelow', List.append_assoc]
      exact List.append_left_lt (List.Lex.rel (by omega))

/-- The visits at a child and below it toured the child. -/
theorem exists_toured (hrow : RowToured exceptions reach path start olds records finals)
    (hchild : olds[pos]? = some child) :
    ∃ visits final, finals[pos]? = some final ∧
      Toured exceptions reach (path ++ [start + pos]) child visits final ∧
      ∀ record, record ∈ visits ↔ record ∈ records ∧ path ++ [start + pos] <+: record.path := by
  induction hrow generalizing pos with
  | nil => cases hchild
  | @cons start first final olds finals records more htoured hkey hrow ih =>
      have hbelow : ∀ record ∈ records, ∃ below, record.path = path ++ start :: below := by
        intro record hrecord
        obtain ⟨below, hpath, _⟩ := htoured.visited record hrecord
        exact ⟨below, by rw [hpath, List.append_assoc, List.singleton_append]⟩
      cases pos with
      | zero =>
          obtain rfl : first = child := Option.some.inj hchild
          refine ⟨records, final, rfl, htoured,
            fun record => ⟨fun hrecord => ?_, fun ⟨hrecord, hprefix⟩ => ?_⟩⟩
          · obtain ⟨below, hpath⟩ := hbelow record hrecord
            exact ⟨List.mem_append_left _ hrecord, hpath ▸ prefix_append_cons_iff.mpr rfl⟩
          · refine (List.mem_append.mp hrecord).resolve_right fun hmore => ?_
            obtain ⟨pos, _, below, _, hpath⟩ := hrow.path_of_mem hmore
            have hsame := prefix_append_cons_iff.mp (hpath ▸ hprefix)
            omega
      | succ pos =>
          obtain ⟨visits, last, hlast, hvisits, hmem⟩ := ih hchild
          rw [Nat.add_assoc, Nat.add_comm 1] at hvisits hmem
          refine ⟨visits, last, hlast, hvisits, fun record => (hmem record).trans ?_⟩
          refine ⟨fun ⟨hmore, hprefix⟩ => ⟨List.mem_append_right _ hmore, hprefix⟩,
            fun ⟨hrecord, hprefix⟩ => ?_⟩
          refine ⟨(List.mem_append.mp hrecord).resolve_left fun hfirst => ?_, hprefix⟩
          obtain ⟨below, hpath⟩ := hbelow record hfirst
          have hsame := prefix_append_cons_iff.mp (hpath ▸ hprefix)
          omega

end RowToured

/-! ## Nodes with their children -/

/-- What may be visited below a child may be visited below the node, if the visit of the node let
the walk in. -/
theorem permits_cons_iff {visits : List (Record σ)} (hkey : old.key ∉ exceptions)
    (hpath : record.path = path) (hgoes : record.traversal = .goOn)
    (hchild : old.children[pos]? = some child)
    (hbelow : ∀ other ∈ records, ∃ pos below, other.path = path ++ pos :: below)
    (hvisits : ∀ other, other ∈ visits ↔ other ∈ records ∧ path ++ [pos] <+: other.path) :
    Permits exceptions (reach + 1) path old (record :: records) (pos :: below) ↔
      Permits exceptions reach (path ++ [pos]) child visits below := by
  have hthere : ∀ path, old.subtree? (pos :: path) = child.subtree? path := by
    intro path
    rw [Tree.subtree?_cons, hchild, Option.bind_some]
  have happend : path ++ [pos] ++ below = path ++ pos :: below := by
    rw [List.append_assoc, List.singleton_append]
  constructor
  · intro hpermits
    refine ⟨hthere below ▸ hpermits.there, Nat.le_of_succ_le_succ hpermits.near, ?_, ?_⟩
    · intro above node habove hnode
      exact hpermits.allowed (pos :: above) node (List.cons_prefix_cons.mpr ⟨rfl, habove⟩)
        (hthere above ▸ hnode)
    · intro other hother hskip hprefix
      rw [happend] at hprefix ⊢
      exact hpermits.entered other (List.mem_cons_of_mem _ ((hvisits other).mp hother).1)
        hskip hprefix
  · intro hpermits
    refine ⟨hthere below ▸ hpermits.there, Nat.succ_le_succ hpermits.near, ?_, ?_⟩
    · intro above node habove hnode
      cases above with
      | nil =>
          rw [Tree.subtree?_nil] at hnode
          exact Option.some.inj hnode ▸ hkey
      | cons other above =>
          obtain ⟨rfl, hprefix⟩ := List.cons_prefix_cons.mp habove
          exact hpermits.allowed above node hprefix (hthere above ▸ hnode)
    · intro other hother hskip hprefix
      rcases List.mem_cons.mp hother with rfl | hother
      · rw [hgoes] at hskip
        cases hskip
      · obtain ⟨first, rest, hother'⟩ := hbelow other hother
        rw [hother', List.prefix_append_right_inj, List.cons_prefix_cons] at hprefix
        obtain ⟨rfl, hprefix⟩ := hprefix
        have hvisit : other ∈ visits :=
          (hvisits other).mpr ⟨hother, hother' ▸ prefix_append_cons_iff.mpr rfl⟩
        rw [← happend]
        refine hpermits.entered other hvisit hskip ?_
        rw [hother', happend, List.prefix_append_right_inj, List.cons_prefix_cons]
        exact ⟨rfl, hprefix⟩

/-- A node and its children are toured one after the other. -/
theorem Toured.of_row (hkey : old.key ∉ exceptions) (hpath : record.path = path)
    (hfound : record.found = old) (hgoes : record.traversal = .goOn)
    (hrow : RowToured exceptions reach path 0 old.children records finals) :
    Toured exceptions (reach + 1) path old (record :: records) (.node record.left.head finals) := by
  have hself : record.path = path ++ [] := hpath.trans (List.append_nil path).symm
  have hbelow : ∀ other ∈ records, ∃ pos below, other.path = path ++ pos :: below := by
    intro other hother
    obtain ⟨pos, _, below, _, hother⟩ := hrow.path_of_mem hother
    exact ⟨_, below, hother⟩
  refine ⟨List.pairwise_cons.mpr ⟨fun other hother => ?_, hrow.preorder⟩, fun below => ?_,
    fun other hother => ?_, fun below hunvisited => ?_⟩
  · -- a path is smaller than all that go on from it
    obtain ⟨pos, below, hother⟩ := hbelow other hother
    rw [hself, hother]
    exact List.append_left_lt (List.nil_lt_cons _ _)
  · cases below with
    | nil =>
        refine iff_of_true ⟨record, List.mem_cons_self, hself⟩
          (permits_nil hkey fun other hother => ?_)
        rcases List.mem_cons.mp hother with rfl | hother
        · exact ⟨[], hself.symm⟩
        · obtain ⟨pos, below, hother⟩ := hbelow other hother
          exact hother ▸ List.prefix_append path (pos :: below)
    | cons pos below =>
        have hrecords : (∃ other ∈ record :: records, other.path = path ++ pos :: below) ↔
            ∃ other ∈ records, other.path = path ++ pos :: below := by
          simp [hpath, (append_cons_ne_self path pos below).symm]
        rw [hrecords]
        cases hchild : old.children[pos]? with
        | none =>
            refine iff_of_false ?_ fun hpermits => ?_
            · rintro ⟨other, hother, hthere⟩
              obtain ⟨at_, _, _, hat, hother⟩ := hrow.path_of_mem hother
              obtain ⟨rfl, _⟩ := List.cons.inj (List.append_cancel_left (hthere.symm.trans hother))
              rw [Nat.zero_add] at hchild
              rw [hchild] at hat
              cases hat
            · have hthere := hpermits.there
              rw [Tree.subtree?_cons, hchild] at hthere
              cases hthere
        | some child =>
            obtain ⟨visits, last, _, htoured, hvisits⟩ := hrow.exists_toured hchild
            rw [Nat.zero_add] at htoured hvisits
            rw [permits_cons_iff hkey hpath hgoes hchild hbelow hvisits, ← htoured.permitted below,
              List.append_assoc, List.singleton_append]
            refine exists_congr fun other => and_congr_left fun hother => ?_
            rw [hvisits, hother]
            exact (and_iff_left (prefix_append_cons_iff.mpr rfl)).symm
  · rcases List.mem_cons.mp hother with rfl | hother
    · exact ⟨[], hself, by rw [Tree.subtree?_nil, hfound], by rw [Tree.subtree?_nil]; rfl⟩
    · obtain ⟨pos, child, below, hchild, hpath'⟩ := hrow.path_of_mem hother
      obtain ⟨visits, last, hlast, htoured, hvisits⟩ := hrow.exists_toured hchild
      have hvisit : other ∈ visits :=
        (hvisits other).mpr ⟨hother, hpath' ▸ prefix_append_cons_iff.mpr rfl⟩
      obtain ⟨rest, hrest, hold, hlast'⟩ := htoured.visited other hvisit
      rw [Nat.zero_add, List.append_assoc, List.singleton_append] at hrest
      refine ⟨pos :: rest, hrest, ?_, ?_⟩
      · rw [Tree.subtree?_cons, hchild, Option.bind_some, hold]
      · rw [Tree.subtree?_cons, Tree.children_node, hlast, Option.bind_some, hlast']
  · cases below with
    | nil => exact absurd hself (hunvisited record List.mem_cons_self)
    | cons pos below =>
        rw [Tree.subtree?_cons, Tree.subtree?_cons, Tree.children_node]
        cases hchild : old.children[pos]? with
        | none =>
            have hlength : finals.length = old.children.length := by
              simpa using congrArg List.length hrow.keys
            rw [List.getElem?_eq_none (hlength ▸ List.getElem?_eq_none_iff.mp hchild)]
        | some child =>
            obtain ⟨visits, last, hlast, htoured, hvisits⟩ := hrow.exists_toured hchild
            rw [hlast, Option.bind_some, Option.bind_some]
            refine htoured.unvisited below fun other hvisit hother => ?_
            rw [Nat.zero_add, List.append_assoc, List.singleton_append] at hother
            exact hunvisited other (List.mem_cons_of_mem _ ((hvisits other).mp hvisit).1) hother

end KeyedTree.Walk
