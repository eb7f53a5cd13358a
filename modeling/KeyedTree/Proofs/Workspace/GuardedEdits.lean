import KeyedTree.Proofs.Plain.Visits

/-! # Edits under nested guards

A node is edited under a guard, and while its guard is held, children of it may be edited under
guards of their own. As each guard is dropped, the node above takes the child as it was left, except
that it takes back a key that a sibling has. Nothing else changes, at any level, so an edit along a
path leaves all nodes off the path alone.
-/

namespace KeyedTree

variable {α β : Type}

/-! ## Guards along a path -/

/-- The node that a path leads to from a place. -/
def Place.below (place : Place) (path : List Nat) : Place :=
  { place with path := place.path ++ path }

/-- Edits the node that a path leads to, with a guard for every node on the way. The guards are
dropped innermost first. -/
def Place.guardedAlong (edit : Place → Program α) : List Nat → Place → Program α
  | [], place => edit place
  | pos :: path, place => place.guarded pos (guardedAlong edit path)

/-- Edits a node, and shows the tree that the edit left before any guard is dropped. -/
def Place.reporting (edit : Place → Program α) (place : Place) : Program (α × Tree) := do
  let result ← edit place
  return (result, ← place.view)

theorem Place.below_nil (place : Place) : place.below [] = place := by
  simp [below]

theorem Place.below_cons (place : Place) (pos : Nat) (path : List Nat) :
    place.below (pos :: path) = (place.child pos).below path := by
  simp [below, child]

/-! ## What a parent makes of an edited child -/

namespace Tree

variable {parent middle child edited new old left : Tree} {pos : Nat} {path : List Nat}

/-- A sibling of the child at a position has a key. -/
def SiblingHas (parent : Tree) (pos : Nat) (key : String) : Prop :=
  ∃ other sibling, other ≠ pos ∧ parent.children[other]? = some sibling ∧ sibling.key = key

/-- A parent whose child at a position was edited becomes another tree when the guard is dropped. -/
structure Settles (parent : Tree) (pos : Nat) (child edited new : Tree) : Prop where
  /-- kind, key and flags of the parent are as they were -/
  itself : new.head = { parent.head with index := new.index }
  /-- the index fits -/
  indexed : new.outline.WellFormed
  count : new.children.length = parent.children.length
  siblings : ∀ other, other ≠ pos → new.children[other]? = parent.children[other]?
  /-- the child stays as it was left if the parent is an array, the key is empty or no sibling has
  it -/
  committed : parent.kind ≠ .object ∨ edited.key = "" ∨ ¬ parent.SiblingHas pos edited.key →
    new.children[pos]? = some edited
  /-- else it gets back the key that it had when the guard was made -/
  restored : parent.kind = .object → edited.key ≠ "" → parent.SiblingHas pos edited.key →
    new.children[pos]? = some (edited.withKey child.key)

/-- A tree becomes another one when what is at the end of a path is edited under guards and left as
some tree. -/
def EditedAlong (left : Tree) : List Nat → Tree → Tree → Prop
  | [], _, new => new = left
  | pos :: path, old, new =>
      ∃ child edited, old.children[pos]? = some child ∧ EditedAlong left path child edited ∧
        old.Settles pos child edited new

/-- A sibling has a key if the index has it and the child does not. -/
theorem siblingHas_iff (hnames : parent.index.Names parent.keys)
    (hchild : parent.children[pos]? = some child) {key : String} (hkey : key ≠ "") :
    parent.SiblingHas pos key ↔ parent.index.contains key = true ∧ key ≠ child.key := by
  have hat (at_ : Nat) : parent.keys[at_]? = parent.children[at_]?.map Tree.key := by simp [keys]
  constructor
  · rintro ⟨other, sibling, hother, hsibling, rfl⟩
    have hget : parent.index.get? sibling.key = some other :=
      (hnames _ other).mpr ⟨hkey, by rw [hat, hsibling, Option.map_some]⟩
    refine ⟨by simp [KeyIndex.contains, hget], fun hsame => hother ?_⟩
    have hown : parent.index.get? sibling.key = some pos :=
      (hnames _ pos).mpr ⟨hkey, by rw [hat, hchild, Option.map_some, hsame]⟩
    exact Option.some.inj (hget.symm.trans hown)
  · rintro ⟨hcontains, hne⟩
    obtain ⟨other, hget⟩ := Option.isSome_iff_exists.mp hcontains
    have hentered := ((hnames key other).mp hget).2
    rw [hat] at hentered
    obtain ⟨sibling, hsibling, hname⟩ := Option.map_eq_some_iff.mp hentered
    refine ⟨other, sibling, ?_, hsibling, hname⟩
    rintro rfl
    rw [hchild, Option.some.injEq] at hsibling
    exact hne (hsibling ▸ hname.symm)

/-- A parent settles with a child that no sibling hinders. -/
theorem ChildrenEdited.settles_free (hedited : ChildrenEdited [pos] parent middle)
    (hleft : middle.children[pos]? = some edited)
    (hitself : new.head = { parent.head with index := new.index })
    (hindexed : new.outline.WellFormed) (hrow : new.children = middle.children)
    (hfree : parent.kind = .object → edited.key ≠ "" → ¬ parent.SiblingHas pos edited.key) :
    parent.Settles pos child edited new where
  itself := hitself
  indexed := hindexed
  count := by rw [hrow, hedited.length_eq]
  siblings other hother := by rw [hrow, hedited.elsewhere other (by simpa using hother)]
  committed _ := by rw [hrow, hleft]
  restored hobject hkey hhas := absurd hhas (hfree hobject hkey)

/-- A parent settles with a child whose key a sibling has. -/
theorem ChildrenEdited.settles_clash (hedited : ChildrenEdited [pos] parent middle)
    (hleft : middle.children[pos]? = some edited) (hitself : new.head = parent.head)
    (hindexed : new.outline.WellFormed)
    (hrow : new.children = middle.children.modify pos (·.withKey child.key))
    (hclash : parent.kind = .object ∧ edited.key ≠ "" ∧ parent.SiblingHas pos edited.key) :
    parent.Settles pos child edited new where
  itself := by rw [index, hitself]
  indexed := hindexed
  count := by rw [hrow, List.length_modify, hedited.length_eq]
  siblings other hother := by
    rw [hrow, List.getElem?_modify_ne _ _ hother.symm,
      hedited.elsewhere other (by simpa using hother)]
  committed hfree := by tauto
  restored _ _ _ := by
    rw [hrow, List.getElem?_modify_eq, hleft]
    simp

/-- A parent settles with a child that was edited. -/
theorem ChildrenEdited.settles (hedited : ChildrenEdited [pos] parent middle)
    (hparent : parent.outline.WellFormed) (hchild : parent.children[pos]? = some child)
    (hleft : middle.children[pos]? = some edited)
    (hnew : (middle.perform (Outline.settle pos child.key)).2 = new)
    (hindexed : new.outline.WellFormed) : parent.Settles pos child edited new := by
  have hkey : middle.outline.keys[pos]? = some edited.key := by
    simp [outline, keys, hleft]
  have hhead : middle.outline.head = parent.head := hedited.head_eq
  have hsibling (hobject : parent.kind = .object) (hne : edited.key ≠ "") :=
    siblingHas_iff (hparent.names hobject) hchild hne
  rw [Tree.perform, Outline.settle, hkey, Option.getD_some, hhead] at hnew
  by_cases hmoved : parent.head.kind = .object ∧ edited.key ≠ child.key
  · rw [if_pos hmoved] at hnew
    have hobject : parent.kind = .object := hmoved.1
    by_cases hclash : edited.key ≠ "" ∧ parent.head.index.contains edited.key = true
    · rw [if_pos hclash] at hnew
      refine hedited.settles_clash hleft (by rw [← hnew]; rfl) hindexed ?_
        ⟨hobject, hclash.1, (hsibling hobject hclash.1).mpr ⟨hclash.2, hmoved.2⟩⟩
      rw [← hnew]
      rfl
    · rw [if_neg hclash] at hnew
      refine hedited.settles_free hleft (by rw [← hnew]; rfl) hindexed (by rw [← hnew]; rfl)
        fun _ hne hhas => ?_
      exact hclash ⟨hne, ((hsibling hobject hne).mp hhas).1⟩
  · -- an object whose child has its old key, which no sibling has, or no object
    rw [if_neg hmoved] at hnew
    obtain rfl : middle = new := hnew
    refine hedited.settles_free hleft (by rw [index, hedited.head_eq]) hindexed rfl
      fun hobject hne hhas => ?_
    exact hmoved ⟨hobject, ((hsibling hobject hne).mp hhas).2⟩

/-- A node that keeps its key while it is edited is not given another one. -/
theorem Settles.same_key (hsettles : parent.Settles pos child edited new)
    (hparent : parent.outline.WellFormed) (hchild : parent.children[pos]? = some child)
    (hkey : edited.key = child.key) :
    new.children[pos]? = some edited := by
  by_cases hobject : parent.kind = .object
  · by_cases hempty : edited.key = ""
    · exact hsettles.committed (.inr (.inl hempty))
    · refine hsettles.committed (.inr (.inr fun hhas => ?_))
      have hnames := hparent.names hobject
      exact ((siblingHas_iff hnames hchild hempty).mp hhas).2 hkey
  · exact hsettles.committed (.inl hobject)

/-! ## What stays as it was -/

/-- A node below the edited child is the one that the edit left. -/
theorem Settles.subtree? (hsettles : parent.Settles pos child edited new) (next : Nat)
    (path : List Nat) :
    new.subtree? (pos :: next :: path) = edited.subtree? (next :: path) := by
  rw [subtree?_cons new]
  by_cases hclash : parent.kind = .object ∧ edited.key ≠ "" ∧ parent.SiblingHas pos edited.key
  · rw [hsettles.restored hclash.1 hclash.2.1 hclash.2.2, Option.bind_some, subtree?_cons,
      subtree?_cons]
    rfl
  · rw [hsettles.committed (by tauto), Option.bind_some]

/-- All nodes that are not on the path, and not below its end, are as they were. -/
theorem EditedAlong.elsewhere (hedited : EditedAlong left path old new) {other : List Nat}
    (habove : ¬ other <+: path) (hbelow : ¬ path <+: other) :
    new.subtree? other = old.subtree? other := by
  induction path generalizing old new other with
  | nil => exact absurd List.nil_prefix hbelow
  | cons pos path ih =>
      obtain ⟨child, edited, hchild, hinner, hsettles⟩ := hedited
      cases other with
      | nil => exact absurd List.nil_prefix habove
      | cons at_ other =>
          by_cases hat : at_ = pos
          · subst hat
            rw [List.cons_prefix_cons, not_and] at habove hbelow
            have hsame := ih hinner (habove rfl) (hbelow rfl)
            cases other with
            | nil => exact absurd List.nil_prefix (habove rfl)
            | cons next other =>
                rw [hsettles.subtree?, hsame, subtree?_cons old, hchild, Option.bind_some]
          · rw [subtree?_cons, subtree?_cons, hsettles.siblings at_ hat]

/-- The nodes on the path above its end keep their kinds, keys and flags. -/
theorem EditedAlong.above (hedited : EditedAlong left path old new) (hold : old.WellFormed)
    {other : List Nat} (habove : other <+: path) (hne : other ≠ path) :
    ∃ before after, old.subtree? other = some before ∧ new.subtree? other = some after ∧
      after.head = { before.head with index := after.index } := by
  induction path generalizing old new other with
  | nil => exact absurd (List.prefix_nil.mp habove) hne
  | cons pos path ih =>
      obtain ⟨child, edited, hchild, hinner, hsettles⟩ := hedited
      cases other with
      | nil => exact ⟨old, new, subtree?_nil old, subtree?_nil new, hsettles.itself⟩
      | cons at_ other =>
          obtain ⟨rfl, hother⟩ := List.cons_prefix_cons.mp habove
          have hpath : other ≠ path := fun hsame => hne (hsame ▸ rfl)
          have hwell := hold.child (List.mem_of_getElem? hchild)
          obtain ⟨before, after, hbefore, hafter, hhead⟩ := ih hinner hwell hother hpath
          refine ⟨before,
            after, by rw [subtree?_cons, hchild, Option.bind_some, hbefore], ?_, hhead⟩
          cases other with
          | cons next other => rw [hsettles.subtree?, hafter]
          | nil =>
              -- the child itself is on the path, so it has kept its key
              rw [subtree?_nil, Option.some.injEq] at hbefore hafter
              have hkey : edited.key = child.key := by
                rw [hbefore, hafter, key, hhead]
                rfl
              rw [subtree?_cons, hsettles.same_key hold.outline hchild hkey, Option.bind_some,
                subtree?_nil, hafter]

end Tree

/-! ## Guards along a path, one after the other -/

/-- A node that is edited under its guard stays where it is. -/
theorem Guards.Kept.view?_guarded {guards : Guards} {place : Place} {before after : PrivateStore}
    {old : Tree} (hkept : (guards.guard place).Kept before after)
    (hold : before.view? place = some old) :
    ∃ left, after.view? place = some left ∧ left.WellFormed := by
  obtain ⟨moved, hmoved⟩ := hkept.moved place.slot place.path (if_pos rfl)
  have hafter : after.view? place = (before.view? place).map (Tree.editAt moved []) :=
    Guards.view?_of_edited (by rwa [List.append_nil])
  rw [hold, Option.map_some] at hafter
  exact ⟨_, hafter, hkept.sound place ((Guards.writable_guard_same rfl).mpr rfl) _ hafter⟩

/-- When the guard of a child is dropped, its parent settles with it. -/
theorem Course.settles_child {guards : Guards} {place : Place} {pos : Nat}
    {before middle after : PrivateStore} {old child edited : Tree} {outcome : Except Fault Unit}
    (hwrite : guards.Writable place) (hsound : guards.Sound before)
    (hold : before.view? place = some old) (hchild : old.children[pos]? = some child)
    (hkept : (guards.guard (place.child pos)).Kept before middle)
    (hedited : middle.view? (place.child pos) = some edited)
    (hsettle : Course (place.perform (Outline.settle pos child.key)).run middle outcome after) :
    ∃ new, after.view? place = some new ∧ old.Settles pos child edited new ∧
      guards.Kept before after := by
  have hthere : before.view? (place.child pos) = some child := by
    rw [Guards.view?_child, hold, Option.bind_some, hchild]
  have hsettled : guards.Kept before after := by
    refine Program.kept_settled hwrite hsound ?_ hkept hsettle
    rw [hthere]
    rfl
  obtain ⟨_, parent, hsome, hparent, hmiddle⟩ | ⟨hnone, _⟩ :=
    optionRel_cases ((Guards.ChildrenKept.refl hsound hwrite).step hwrite hkept).node
  · obtain rfl := Option.some.inj (hold.symm.trans hsome)
    rw [Guards.view?_child, hparent, Option.bind_some] at hedited
    have hnew : after.view? place = some (parent.perform (Outline.settle pos child.key)).2 := by
      rw [Course.settle hsettle, PrivateStore.view?_editAt_self, hparent, Option.map_some]
    have hwell := hsettled.sound place hwrite _ hnew
    have hroot := (hsound place hwrite old hold).outline
    exact ⟨_, hnew, hmiddle.settles hroot hchild hedited rfl hwell.outline, hsettled⟩
  · rw [hold] at hnone
    cases hnone

/-- An edit under guards along a path leaves the tree that stands there edited along the path. -/
theorem Course.guardedAlong {guards : Guards} {place : Place} {edit : Place → Program α}
    {path : List Nat} {before after : PrivateStore} {old left : Tree} {result : α}
    (hwrite : guards.Writable place) (hsound : guards.Sound before)
    (hold : before.view? place = some old) (hpath : (old.subtree? path).isSome)
    (hedit : (edit (place.below path)).Safe (guards.guard (place.below path)))
    (hcourse : Course (place.guardedAlong (Place.reporting edit) path) before (result, left)
      after) :
    ∃ new, after.view? place = some new ∧ Tree.EditedAlong left path old new ∧ left.WellFormed ∧
      guards.Kept before after := by
  induction path generalizing guards place before after old with
  | nil =>
      rw [Place.below_nil] at hedit
      obtain ⟨value, middle, hinner, hreport⟩ := bind_iff.mp hcourse
      obtain ⟨shown, last, hview, hpure⟩ := bind_iff.mp hreport
      obtain ⟨hshown, rfl⟩ := view_iff.mp hview
      obtain ⟨hresult, rfl⟩ := pure_iff.mp hpure
      obtain ⟨rfl, rfl⟩ := Prod.mk.inj hresult
      have hkept := hedit before (hsound.guard hwrite) _ _ hinner
      obtain ⟨new, hnew, hwell⟩ := hkept.view?_guarded hold
      rw [hnew, Option.getD_some] at hshown
      exact ⟨new, hnew, hshown.symm, hshown ▸ hwell, hkept.unguard hwrite⟩
  | cons pos path ih =>
      obtain ⟨key, middle, outcome, hkey, hinner, hsettle⟩ := Program.course_guarded hcourse
      obtain ⟨child, hchild, hbelow⟩ :
          ∃ child, old.children[pos]? = some child ∧ (child.subtree? path).isSome := by
        rw [Tree.subtree?_cons] at hpath
        cases hchild : old.children[pos]? with
        | none => simp [hchild] at hpath
        | some child => exact ⟨child, rfl, by simpa [hchild] using hpath⟩
      have hthere : before.view? (place.child pos) = some child := by
        rw [Guards.view?_child, hold, Option.bind_some, hchild]
      have hchildren := Guards.ChildrenKept.refl hsound hwrite
      rw [Place.below_cons,
        ← guards.guard_guard (place.child pos) ((place.child pos).below path) rfl] at hedit
      -- the edit of the child, seen from the child
      obtain ⟨edited, hedited, halong, hleft, hkept⟩ :=
        ih ((Guards.writable_guard_same rfl).mpr rfl) (hchildren.sound_child pos) hthere hbelow
          hedit hinner
      -- and seen from its parent, which settles with it
      rw [hthere, Option.map_some, Option.getD_some] at hkey
      obtain rfl : key = child.key := hkey
      obtain ⟨new, hnew, hsettles, hsettled⟩ :=
        settles_child hwrite hsound hold hchild hkept hedited hsettle
      exact ⟨new, hnew, ⟨child, edited, hchild, halong, hsettles⟩, hleft, hsettled⟩

/-- Showing the tree that an edit left changes nothing. -/
theorem Place.run_reporting (edit : Place → Program α) (path : List Nat) (place : Place)
    (store : SharedStore) :
    ((place.guardedAlong (reporting edit) path).run store).2 =
      ((place.guardedAlong edit path).run store).2 := by
  induction path generalizing place store with
  | nil =>
      simp only [guardedAlong, reporting, view, Program.run_bind]
      rfl
  | cons pos path ih => simp only [guardedAlong, guarded, Program.run_bind, ih]; rfl

theorem Program.safe_rewrite {guards : Guards} {place : Place} (hwrite : guards.Writable place)
    {edit : Tree → Tree} (hedit : ∀ tree, (edit tree).WellFormed) :
    (place.rewrite edit).Safe guards := by
  intro before hsound result after hcourse
  rw [Course.rewrite hcourse]
  exact hsound.editAt hwrite fun node _ => hedit node

/-- At any time, a node may be edited that a path of positions leads to from one that may be written
to, with a guard for every node on the way; however the positions were found, and whatever the edit
does, as long as it leaves well-formed what it can write to. When the guards are dropped, the tree
is the old one edited along the path: each parent has its child as it was left, but under its old
key if a sibling has the new one, and is itself as it was. All nodes that are neither on the path
nor below its end are unchanged, and those above its end keep their kinds, keys and flags. -/
theorem guarded_edit_settles (program : Program β) {guards : Guards} {place : Place}
    {path : List Nat} {old : Tree} {edit : Place → Program α} (hwrite : guards.Writable place)
    (hsound : ∀ other, guards.Writable other →
      ∀ node, (program.run ({} : SharedStore)).2.view? other = some node → node.WellFormed)
    (hold : (program.run ({} : SharedStore)).2.view? place = some old)
    (hpath : (old.subtree? path).isSome)
    (hedit : (edit (place.below path)).Safe (guards.guard (place.below path))) :
    let before := (program.run ({} : SharedStore)).2
    let left := ((place.guardedAlong (Place.reporting edit) path).run before).1.2
    left.WellFormed ∧ ∃ new, ((place.guardedAlong edit path).run before).2.view? place = some new ∧
      new.WellFormed ∧ Tree.EditedAlong left path old new ∧
      (∀ other, ¬ other <+: path → ¬ path <+: other → new.subtree? other = old.subtree? other) ∧
      ∀ other, other <+: path → other ≠ path →
        ∃ was is, old.subtree? other = some was ∧ new.subtree? other = some is ∧
          is.head = { was.head with index := is.index } := by
  intro before left
  obtain ⟨plain, _, hplain⟩ := Mirrors.empty.run program
  have hsound' : guards.Sound plain := fun other hother node hnode =>
    hsound other hother node ((hplain.view?_eq other).trans hnode)
  obtain ⟨after, hcourse, hafter⟩ := hplain.run (place.guardedAlong (Place.reporting edit) path)
  have hthere : plain.view? place = some old := (hplain.view?_eq place).symm.trans hold
  obtain ⟨new, hnew, halong, hleft, hkept⟩ :=
    Course.guardedAlong hwrite hsound' hthere hpath hedit hcourse
  refine ⟨hleft, new, ?_, hkept.sound place hwrite new hnew, halong, fun _ => halong.elsewhere,
    fun _ => halong.above (hsound' place hwrite old hthere)⟩
  rw [← Place.run_reporting, hafter.view?_eq, hnew]

/-- An object with two members, inside an array. -/
def pairInside : Tree :=
  Grammar.arrayOf
    [Grammar.objectOf [(Tree.leaf (.integer 1)).withKey "a", (Tree.leaf (.integer 2)).withKey "b"],
      .leaf .null]

/-- The first member is replaced by one that has the key of the second. -/
theorem pairInside_settles :
    let program := Program.request (.hold (.register "r") pairInside)
    let place : Place := ⟨.register "r", []⟩
    let edit := Place.rewrite fun _ => (Tree.leaf (.bool true)).withKey "b"
    let before := (program.run ({} : SharedStore)).2
    let left := ((place.guardedAlong (Place.reporting edit) [0, 0]).run before).1.2
    left.WellFormed ∧
      ∃ new, ((place.guardedAlong edit [0, 0]).run before).2.view? place = some new ∧
      new.WellFormed ∧ Tree.EditedAlong left [0, 0] pairInside new ∧
      (∀ other, ¬ other <+: [0, 0] → ¬ [0, 0] <+: other →
        new.subtree? other = pairInside.subtree? other) ∧
      ∀ other, other <+: [0, 0] → other ≠ [0, 0] →
        ∃ was is, pairInside.subtree? other = some was ∧ new.subtree? other = some is ∧
          is.head = { was.head with index := is.index } := by
  intro program place edit
  have hjson : (Json.array [.object [("a", .number (.integer 1)), ("b", .number (.integer 2))],
      .null]).toTree = .ok pairInside := by rfl
  have hview : (program.run ({} : SharedStore)).2.view? place = some pairInside :=
    (Mirrors.empty.answer (.hold (.register "r") pairInside)).view?_eq place
  have hwrite : Guards.free.Writable place := rfl
  refine guarded_edit_settles program hwrite (fun other hroot node hnode => ?_) hview (by decide) ?_
  · obtain ⟨slot, path⟩ := other
    obtain rfl : path = [] := hroot
    exact Program.Operates.wellFormed (.hold rfl (.converted hjson)) hnode
  · apply Program.safe_rewrite ((Guards.writable_guard_same rfl).mpr rfl)
    exact fun _ => (Tree.WellFormed.leaf _).with_key "b"

end KeyedTree
