import KeyedTree.Proofs.Plain.Calls
import KeyedTree.Proofs.Reader.KeyOrder

/-! # Autosorted containers

The row of an autosorted object has two parts: the children with keys in ascending order of the
bytes of their keys, and behind them the anonymous children in the order in which they came. Every
call keeps the row that way, unless it moves children or gives them other keys, and so does what is
done to a child that a call gets hold of. A child with a new key goes to the one place that its key
has among the keys that are there, so it does not matter in which order such children come.
-/

namespace KeyedTree

/-! ## Rows in two parts -/

theorem insertIdx_append_left {α : Type} {front : List α} (back : List α) {pos : Nat}
    (hpos : pos ≤ front.length) (value : α) :
    (front ++ back).insertIdx pos value = front.insertIdx pos value ++ back := by
  induction front generalizing pos with
  | nil =>
      obtain rfl : pos = 0 := Nat.le_zero.mp hpos
      rfl
  | cons first rest ih =>
      cases pos with
      | zero => rfl
      | succ pos => simp [ih (Nat.le_of_succ_le_succ hpos)]

namespace Tree

/-- The trees of a row with keys stand in front, in strictly ascending order of the bytes of their
keys. The others stand behind them. -/
structure InOrder (row keyed anonymous : List Tree) : Prop where
  parts : row = keyed ++ anonymous
  named : ∀ tree ∈ keyed, tree.key ≠ ""
  ascending : (keyed.map key).Pairwise fun first second => utf8 first.toList < utf8 second.toList
  unnamed : ∀ tree ∈ anonymous, tree.key = ""

/-- The first place in a row at which the tree there is anonymous or has a key whose bytes are not
less than those of a key. -/
structure FirstPlace (row : List Tree) (key : String) (pos : Nat) : Prop where
  front : ∀ tree ∈ row.take pos, tree.key ≠ "" ∧ utf8 tree.key.toList < utf8 key.toList
  behind : ∀ tree, row[pos]? = some tree → tree.key = "" ∨ utf8 key.toList ≤ utf8 tree.key.toList

variable {row keyed anonymous : List Tree} {tree : Tree} {pos : Nat} {name : String}

namespace InOrder

theorem nil : InOrder [] [] [] :=
  ⟨rfl, List.forall_mem_nil _, .nil, List.forall_mem_nil _⟩

theorem keys_ascending (horder : InOrder row keyed anonymous) :
    keyed.Pairwise fun first second => first.key < second.key :=
  (List.pairwise_map.mp horder.ascending).imp utf8_lt_iff.mp

/-- A tree with a key stands in the first part. -/
theorem lt_length (horder : InOrder row keyed anonymous) (hpos : (row.map key)[pos]? = some name)
    (hname : name ≠ "") : pos < keyed.length := by
  by_contra hbehind
  rw [horder.parts, List.map_append, List.getElem?_append_right (by simpa using hbehind)] at hpos
  obtain ⟨tree, htree, rfl⟩ := List.mem_map.mp (List.mem_of_getElem? hpos)
  exact hname (horder.unnamed tree htree)

/-- An anonymous tree comes in behind the others. -/
theorem push (horder : InOrder row keyed anonymous) (hkey : tree.key = "") :
    InOrder (row ++ [tree]) keyed (anonymous ++ [tree]) where
  parts := by rw [horder.parts, List.append_assoc]
  named := horder.named
  ascending := horder.ascending
  unnamed := List.forall_mem_append.mpr ⟨horder.unnamed, List.forall_mem_singleton.mpr hkey⟩

/-- Another tree stands under the same key. -/
theorem set (horder : InOrder row keyed anonymous) (hpos : (row.map key)[pos]? = some tree.key)
    (hkey : tree.key ≠ "") : InOrder (row.set pos tree) (keyed.set pos tree) anonymous where
  parts := by rw [horder.parts, List.set_append_left _ _ (horder.lt_length hpos hkey)]
  named := by
    intro other hother
    rcases List.mem_or_eq_of_mem_set hother with hother | rfl
    · exact horder.named other hother
    · exact hkey
  ascending := by
    have hlt := horder.lt_length hpos hkey
    rw [horder.parts, List.map_append, List.getElem?_append_left (by simpa using hlt)] at hpos
    rw [List.map_set, set_eq_of_getElem? hpos]
    exact horder.ascending
  unnamed := horder.unnamed

theorem erase (horder : InOrder row keyed anonymous) (hpos : (row.map key)[pos]? = some name)
    (hname : name ≠ "") : InOrder (row.eraseIdx pos) (keyed.eraseIdx pos) anonymous where
  parts := by rw [horder.parts, List.eraseIdx_append_of_lt_length (horder.lt_length hpos hname)]
  named := fun other hother => horder.named other (List.mem_of_mem_eraseIdx hother)
  ascending := by
    rw [map_eraseIdx]
    exact horder.ascending.sublist (List.eraseIdx_sublist _ _)
  unnamed := horder.unnamed

/-- Along the row keys are less than a key up to some place and then no more. -/
theorem partitioned (horder : InOrder row keyed anonymous) (name : String) :
    (row.map key).Pairwise fun left right =>
      decide (right ≠ "" ∧ right < name) = true → decide (left ≠ "" ∧ left < name) = true := by
  rw [horder.parts, List.map_append, List.pairwise_append]
  refine ⟨?_, ?_, ?_⟩
  · refine List.pairwise_map.mpr (horder.keys_ascending.imp_of_mem fun hleft _ hlt hright => ?_)
    exact decide_eq_true ⟨horder.named _ hleft, String.lt_trans hlt (of_decide_eq_true hright).2⟩
  · refine List.pairwise_map.mpr
      (List.pairwise_of_forall_mem_list fun _ _ right hright hbefore => ?_)
    exact absurd (horder.unnamed right hright) (of_decide_eq_true hbefore).1
  · intro left _ right hright hbefore
    obtain ⟨tree, htree, rfl⟩ := List.mem_map.mp hright
    exact absurd (horder.unnamed tree htree) (of_decide_eq_true hbefore).1

/-- The place that is found by halving is the first one that fits. -/
theorem firstPlace (horder : InOrder row keyed anonymous) (name : String) :
    FirstPlace row name (Outline.sortedPlace name (row.map key)) := by
  have hplace := bisect_eq_findIdx (horder.partitioned name)
  rw [Outline.sortedPlace]
  refine ⟨fun tree htree => ?_, fun tree htree => ?_⟩
  · obtain ⟨pos, hlt, hpos⟩ := List.mem_take_iff_getElem.mp htree
    have hfront := List.not_of_lt_findIdx (hplace ▸ (Nat.lt_min.mp hlt).1)
    simp only [List.getElem_map, hpos, Bool.not_eq_false', decide_eq_true_eq] at hfront
    exact ⟨hfront.1, utf8_lt_iff.mpr hfront.2⟩
  · have hbehind :=
      (bisect_boundary _ (row.map key)).1 tree.key (by rw [List.getElem?_map, htree]; rfl)
    have hnot := of_decide_eq_false hbehind
    by_cases hkey : tree.key = ""
    · exact .inl hkey
    · exact .inr (utf8_le_iff.mpr (String.not_lt.mp fun hlt => hnot ⟨hkey, hlt⟩))

/-- The anonymous trees do not count when a place is looked for. -/
theorem sortedPlace_eq (horder : InOrder row keyed anonymous) (name : String) :
    Outline.sortedPlace name (row.map key) = Outline.sortedPlace name (keyed.map key) := by
  have hkeyed : InOrder keyed keyed [] :=
    ⟨(List.append_nil keyed).symm, horder.named, horder.ascending, List.forall_mem_nil _⟩
  have hanonymous :
      (anonymous.map key).findIdx (fun other => !decide (other ≠ "" ∧ other < name)) = 0 := by
    have hunnamed := horder.unnamed
    cases anonymous with
    | nil => rfl
    | cons tree rest =>
        rw [List.map_cons, List.findIdx_cons, hunnamed tree List.mem_cons_self]
        rfl
  rw [Outline.sortedPlace, Outline.sortedPlace, bisect_eq_findIdx (horder.partitioned name),
    bisect_eq_findIdx (hkeyed.partitioned name), horder.parts, List.map_append, List.findIdx_append,
    hanonymous]
  split
  next => rfl
  next hnone =>
    exact (Nat.zero_add _).trans (Nat.le_antisymm (Nat.le_of_not_lt hnone) List.findIdx_le_length)

/-- A tree with a new key comes in at the place for its key. -/
theorem insert (horder : InOrder row keyed anonymous) (hkey : tree.key ≠ "")
    (hnew : tree.key ∉ row.map key) :
    let pos := Outline.sortedPlace tree.key (row.map key)
    InOrder (row.insertIdx pos tree) (keyed.insertIdx pos tree) anonymous := by
  have hplace : Outline.sortedPlace tree.key (keyed.map key) ≤ keyed.length :=
    (Outline.sortedPlace_le_length _ _).trans_eq (List.length_map _)
  have hkeys : tree.key ∉ keyed.map key := by
    rw [horder.parts, List.map_append] at hnew
    exact fun hmem => hnew (List.mem_append_left _ hmem)
  have hinserted := ascending_insertInto horder.keys_ascending horder.named hkeys
  rw [Outline.insertInto_of_le hplace] at hinserted
  rw [horder.sortedPlace_eq]
  refine ⟨?_, ?_, List.pairwise_map.mpr (hinserted.imp utf8_lt_iff.mpr), horder.unnamed⟩
  · rw [horder.parts, insertIdx_append_left _ hplace]
  · intro other hother
    rcases List.eq_or_mem_of_mem_insertIdx hother with rfl | hother
    · exact hkey
    · exact horder.named other hother

/-- Rows in order are equal if the same trees stand in them and the anonymous ones are in the same
order. -/
theorem eq_of_perm {other keyed' : List Tree} (horder : InOrder row keyed anonymous)
    (horder' : InOrder other keyed' anonymous) (hperm : row.Perm other) : row = other := by
  have hkeyed : keyed.Perm keyed' := by
    rw [horder.parts, horder'.parts] at hperm
    exact (List.perm_append_right_iff anonymous).mp hperm
  have hsame := eq_inKeyOrder horder.keys_ascending hkeyed
  rw [← eq_inKeyOrder horder'.keys_ascending (.refl _)] at hsame
  rw [horder.parts, horder'.parts, hsame]

end InOrder

end Tree

/-! ## Visits -/

/-- Whether a call moves children or gives them other keys. -/
def Call.rearranges : Call → Bool
  | .rename .. => true
  | .rekey .. => true
  | .relocate .. => true
  | _ => false

/-- A call that does not rearrange the children, and what is done to the child that it gets hold of,
which keeps its key. -/
structure Visit where
  call : Call
  edit : Tree → Tree := id
  settled : call.rearranges = false := by rfl
  keeps : ∀ tree, (edit tree).key = tree.key := by exact fun _ => rfl

/-- A tree as it comes into an autosorted container under a key. -/
def Tree.incoming (key : String) (tree : Tree) : Tree :=
  tree.withHead { tree.head with key, autosort := true }

/-- The child that a visit leaves in an autosorted object that has no child under its key. An
assignment under the empty key takes the child in and then fails to find it. -/
def Visit.brought (visit : Visit) : Option Tree :=
  match visit.call with
  | .attach (some child) => some (visit.edit (child.incoming child.key))
  | .attachKeyed key (some child) => some (visit.edit (child.incoming key))
  | .entry key => some (visit.edit (Tree.blank.incoming key))
  | .assign key (some child) =>
      some (if key = "" then child.incoming key else visit.edit (child.incoming key))
  | _ => none

/-- A call brings a guest under a key. -/
inductive Call.Brings : Call → String → Tree → Prop
  | attach {guest : Tree} : Brings (.attach (some guest)) guest.key guest
  | attachKeyed {key : String} {guest : Tree} : Brings (.attachKeyed key (some guest)) key guest
  | entry {key : String} : Brings (.entry key) key .blank
  | assign {key : String} {guest : Tree} (hkey : key ≠ "") :
      Brings (.assign key (some guest)) key guest

/-- The child that a visit brings is a guest that was edited, apart from the one that is not
found. -/
theorem Visit.brings_of_brought (visit : Visit) {child : Tree}
    (hbrought : visit.brought = some child) :
    (∃ key guest, visit.call.Brings key guest ∧ child = visit.edit (guest.incoming key)) ∨
      ∃ guest, visit.call = .assign "" (some guest) ∧ child = guest.incoming "" := by
  unfold brought at hbrought
  split at hbrought
  next hcall => exact .inl ⟨_, _, hcall ▸ .attach, (Option.some.inj hbrought).symm⟩
  next hcall => exact .inl ⟨_, _, hcall ▸ .attachKeyed, (Option.some.inj hbrought).symm⟩
  next hcall => exact .inl ⟨_, _, hcall ▸ .entry, (Option.some.inj hbrought).symm⟩
  next key guest hcall =>
    by_cases hkey : key = ""
    · subst hkey
      exact .inr ⟨guest, hcall, (Option.some.inj hbrought).symm⟩
    · rw [if_neg hkey] at hbrought
      exact .inl ⟨_, _, hcall ▸ .assign hkey, (Option.some.inj hbrought).symm⟩
  next => cases hbrought

/-- The anonymous children that visits bring, in their order. -/
def Visit.anonymous (visits : List Visit) : List Tree :=
  (visits.filterMap Visit.brought).filter (·.key = "")

theorem Visit.anonymous_cons (visit : Visit) (rest : List Visit) :
    anonymous (visit :: rest) = anonymous [visit] ++ anonymous rest := by
  rw [anonymous, anonymous, anonymous, ← List.filter_append, ← List.filterMap_append,
    List.singleton_append]

theorem Visit.key_edit (visit : Visit) (guest : Tree) (key : String) :
    (visit.edit (guest.incoming key)).key = key :=
  visit.keeps _

namespace Plain

/-- The container with other children. -/
def holding (node : Plain) (row : List Tree) : Plain :=
  { node with children := row }

@[simp] theorem children_holding (node : Plain) (row : List Tree) :
    (node.holding row).children = row := rfl

@[simp] theorem holding_holding (node : Plain) (row other : List Tree) :
    (node.holding row).holding other = node.holding other := rfl

@[simp] theorem holding_children (node : Plain) : node.holding node.children = node := rfl

/-- A call and what is done to the child that it gets hold of. -/
def visit (node : Plain) (visit : Visit) : Except Fault Answer × Plain :=
  match node.call visit.call with
  | (.ok (.position pos), after) =>
      (.ok (.position pos), after.holding (after.children.modify pos visit.edit))
  | (answer, after) => (answer, after)

/-- Visits one after the other. -/
def visits (node : Plain) : List Visit → List (Except Fault Answer) × Plain
  | [] => ([], node)
  | visit :: rest =>
      let (answer, node) := node.visit visit
      let (answers, node) := node.visits rest
      (answer :: answers, node)

theorem visits_cons (node : Plain) (visit : Visit) (rest : List Visit) :
    (node.visits (visit :: rest)).2 = ((node.visit visit).2.visits rest).2 := rfl

/-- An object that keeps its children in order. -/
structure Autosorted (node : Plain) : Prop where
  object : node.kind = .object
  sorts : node.autosort = true

variable {node : Plain} {key : String} {pos : Nat} {child : Tree} {operation : Operation}

namespace Autosorted

theorem holding (hnode : node.Autosorted) (row : List Tree) : (node.holding row).Autosorted :=
  ⟨hnode.object, hnode.sorts⟩

theorem adopt_eq (hnode : node.Autosorted) : node.adopt key child = child.incoming key := by
  rw [adopt, hnode.sorts]
  rfl

/-- A child under a new key is taken in. -/
theorem attach_new (hnode : node.Autosorted) (hnew : node.find? key = none) :
    node.attach operation key child =
      (.ok (node.placeFor key),
        node.holding (node.children.insertIdx (node.placeFor key) (child.incoming key))) := by
  have hobject := hnode.object
  rw [attach, if_neg (by simp [hobject]), if_pos (.inr hobject), attachTo, hnew, hnode.adopt_eq,
    ← hobject]
  rfl

/-- A child under a key that is there replaces the child there, if that is allowed. -/
theorem attach_present (hnode : node.Autosorted) (hpresent : node.find? key = some pos) :
    node.attach operation key child =
      if node.overwrite then (.ok pos, node.holding (node.children.set pos (child.incoming key)))
      else node.refuse operation (.conflict (.present key)) := by
  have hobject := hnode.object
  rw [attach, if_neg (by simp [hobject]), if_pos (.inr hobject), attachTo, hpresent, hnode.adopt_eq]
  rfl

/-- A child that was taken in under a new key is found where it was put. -/
theorem find?_insertIdx (hnode : node.Autosorted) (hkey : child.key ≠ "")
    (hnew : node.find? child.key = none) (hpos : pos ≤ node.children.length) :
    (node.holding (node.children.insertIdx pos child)).find? child.key = some pos := by
  have hmissing : child.key ∉ node.children.map Tree.key :=
    ((find?_eq_none_iff hnode.object).mp hnew).resolve_left hkey
  have hlength := List.length_insertIdx_of_le_length hpos child
  have hfound : (node.children.insertIdx pos child).findIdx? (·.key = child.key) = some pos := by
    refine List.findIdx?_eq_some_iff_getElem.mpr ⟨by omega, ?_, fun earlier hearlier hfound => ?_⟩
    · rw [List.getElem_insertIdx_self]
      exact decide_eq_true rfl
    · rw [List.getElem_insertIdx_of_lt hearlier] at hfound
      exact hmissing (List.mem_map.mpr ⟨_, List.getElem_mem _, of_decide_eq_true hfound⟩)
  rw [find?, if_pos ⟨hnode.object, hkey⟩, children_holding, hfound]

/-- Another child under the same key is found where the first one was. -/
theorem find?_set (hnode : node.Autosorted) (hpresent : node.find? child.key = some pos) :
    (node.holding (node.children.set pos child)).find? child.key = some pos := by
  have hkeys : (node.children.set pos child).map Tree.key = node.children.map Tree.key := by
    rw [List.map_set]
    exact set_eq_of_getElem? (getElem?_of_find? hpresent).2
  have hscan : ∀ row : List Tree, row.findIdx? (·.key = child.key) =
      (row.map Tree.key).findIdx? (· = child.key) := fun row => by
    rw [List.findIdx?_map]
    rfl
  have hkey := (getElem?_of_find? hpresent).1
  rw [find?, if_pos ⟨hnode.object, hkey⟩, hscan] at hpresent
  rw [find?, if_pos ⟨hnode.object, hkey⟩, hscan, children_holding, hkeys, hpresent]

/-- An assignment takes a child under a new key in, and does not find it again if the key is
empty. -/
theorem assign_new (hnode : node.Autosorted) (hnew : node.find? key = none) :
    let after := node.holding (node.children.insertIdx (node.placeFor key) (child.incoming key))
    node.assign key child =
      if key = "" then after.refuse .editChildOf (.missing key)
        else (.ok (node.placeFor key), after) := by
  intro after
  have hopen : Autosorted { node with overwrite := true } := ⟨hnode.object, hnode.sorts⟩
  have hlocate : node.assign key child = after.locate .editChildOf key := by
    rw [assign, hopen.attach_new hnew]
    rfl
  rw [hlocate, locate]
  by_cases hkey : key = ""
  · have hnone : after.find? key = none :=
      (find?_eq_none_iff (hnode.holding _).object).mpr (.inl hkey)
    rw [if_pos hkey, hnone]
  · have hfound : after.find? key = some (node.placeFor key) :=
      hnode.find?_insertIdx hkey hnew (node.placeFor_le_length key)
    rw [if_neg hkey, hfound]

/-- An assignment under a key that is there replaces the child there. -/
theorem assign_present (hnode : node.Autosorted) (hpresent : node.find? key = some pos) :
    node.assign key child =
      (.ok pos, node.holding (node.children.set pos (child.incoming key))) := by
  have hopen : Autosorted { node with overwrite := true } := ⟨hnode.object, hnode.sorts⟩
  have hlocate : node.assign key child =
      (node.holding (node.children.set pos (child.incoming key))).locate .editChildOf key := by
    rw [assign, hopen.attach_present hpresent]
    rfl
  have hfound : (node.holding (node.children.set pos (child.incoming key))).find? key = some pos :=
    hnode.find?_set hpresent
  rw [hlocate, locate, hfound]

end Autosorted

/-! ### What a visit does -/

variable {visit : Visit} {after : Plain}

theorem visit_of_position (hcall : node.call visit.call = (.ok (.position pos), after)) :
    node.visit visit =
      (.ok (.position pos), after.holding (after.children.modify pos visit.edit)) := by
  rw [Plain.visit, hcall]

theorem visit_of_fault {fault : Fault} (hcall : node.call visit.call = (.error fault, after)) :
    node.visit visit = (.error fault, after) := by
  rw [Plain.visit, hcall]

namespace Autosorted

/-- What was taken in is edited where it stands. -/
theorem visit_taken {guest : Tree}
    (hcall : node.call visit.call = (.ok (.position pos),
      node.holding (node.children.insertIdx pos (guest.incoming key)))) :
    node.visit visit = (.ok (.position pos),
      node.holding (node.children.insertIdx pos (visit.edit (guest.incoming key)))) := by
  rw [visit_of_position hcall, children_holding, holding_holding]
  exact congrArg (fun row => (_, node.holding row)) (List.modifyTailIdx_modifyTailIdx_self ..)

/-- A call that brings a guest under a new key takes it in at the place for the key. -/
theorem call_new (hnode : node.Autosorted) {call : Call} (hbrings : call.Brings key child)
    (hnew : node.find? key = none) :
    node.call call = (.ok (.position (node.placeFor key)),
      node.holding (node.children.insertIdx (node.placeFor key) (child.incoming key))) := by
  cases hbrings with
  | attach | attachKeyed =>
      rw [Plain.call, takeIn, hnode.attach_new hnew]
      rfl
  | entry =>
      rw [Plain.call, entry, if_pos (.inr hnode.object), hnew]
      simp only
      rw [hnode.attach_new hnew]
      rfl
  | assign hkey =>
      rw [Plain.call, takeIn, hnode.assign_new hnew, if_neg hkey]
      rfl

/-- A call that brings a guest under a key that is there replaces the child there, or it is refused,
or it gets hold of the child there. -/
theorem call_present (hnode : node.Autosorted) {call : Call} (hbrings : call.Brings key child)
    (hpresent : node.find? key = some pos) :
    node.call call =
      (.ok (.position pos), node.holding (node.children.set pos (child.incoming key))) ∨
      (∃ fault, node.call call = (.error fault, node)) ∨
        node.call call = (.ok (.position pos), node) := by
  cases hbrings with
  | attach | attachKeyed =>
      rw [Plain.call, takeIn, hnode.attach_present hpresent]
      split
      next => exact .inl rfl
      next => exact .inr (.inl ⟨_, rfl⟩)
  | entry =>
      rw [Plain.call, entry, if_pos (.inr hnode.object), hpresent]
      exact .inr (.inr rfl)
  | assign =>
      rw [Plain.call, takeIn, hnode.assign_present hpresent]
      exact .inl rfl

/-- A visit that brings a child under a new key puts it in at the place for its key. -/
theorem visit_new (hnode : node.Autosorted) (hbrought : visit.brought = some child)
    (hnew : node.find? child.key = none) :
    (node.visit visit).2 = node.holding (node.children.insertIdx (node.placeFor child.key) child) ∧
      (child.key ≠ "" → (node.visit visit).1 = .ok (.position (node.placeFor child.key))) := by
  rcases visit.brings_of_brought hbrought with ⟨key, guest, hbrings, rfl⟩ | ⟨guest, hcall, rfl⟩
  · rw [visit.key_edit] at hnew ⊢
    rw [visit_taken (hnode.call_new hbrings hnew)]
    exact ⟨rfl, fun _ => rfl⟩
  · -- the child is in, but it is not found and not edited
    refine ⟨?_, fun hkey => absurd rfl hkey⟩
    have hnew : node.find? "" = none := hnew
    have hrefused : node.call visit.call =
        answering .position ((node.holding (node.children.insertIdx (node.placeFor "")
          (guest.incoming ""))).refuse .editChildOf (.missing "")) := by
      rw [hcall, Plain.call, takeIn, hnode.assign_new hnew, if_pos rfl]
    rw [visit_of_fault hrefused]
    rfl

/-- A visit that brings a child under a key that is there leaves some child there under the same
key. -/
theorem visit_present (hnode : node.Autosorted) (hbrought : visit.brought = some child)
    (hpresent : node.find? child.key = some pos) :
    ∃ other : Tree, other.key = child.key ∧
      (node.visit visit).2 = node.holding (node.children.set pos other) := by
  obtain ⟨hkey, hthere⟩ := getElem?_of_find? hpresent
  obtain ⟨old, hold, hsame⟩ : ∃ old, node.children[pos]? = some old ∧ old.key = child.key := by
    rwa [List.getElem?_map, Option.map_eq_some_iff] at hthere
  rcases visit.brings_of_brought hbrought with ⟨key, guest, hbrings, rfl⟩ | ⟨guest, _, rfl⟩
  · rw [visit.key_edit] at hpresent hsame ⊢
    rcases hnode.call_present hbrings hpresent with hcall | ⟨fault, hcall⟩ | hcall
    · refine ⟨visit.edit (guest.incoming key), visit.key_edit guest key, ?_⟩
      rw [visit_of_position hcall, children_holding, holding_holding]
      refine congrArg node.holding (List.ext_getElem? ?_)
      grind
    · refine ⟨old, hsame, ?_⟩
      rw [visit_of_fault hcall, set_eq_of_getElem? hold, holding_children]
    · refine ⟨visit.edit old, (visit.keeps old).trans hsame, ?_⟩
      rw [visit_of_position hcall, List.modify_eq_set_getElem?, hold]
      rfl
  · exact absurd rfl hkey

/-- A visit that brings no child leaves the children as they are, or removes one that has a key. -/
theorem visit_idle (hnode : node.Autosorted) (hbrought : visit.brought = none) :
    (node.visit visit).2 = node ∨
      ∃ key pos, node.find? key = some pos ∧
        (node.visit visit).2 = node.holding (node.children.eraseIdx pos) := by
  have hobject := hnode.object
  obtain ⟨call, edit, hsettled, hkeeps⟩ := visit
  have hrefused : ∀ fault, node.call call = (.error fault, node) →
      (node.visit ⟨call, edit, hsettled, hkeeps⟩).2 = node :=
    fun fault hcall => by rw [visit_of_fault hcall]
  cases call with
  | attach guest =>
      cases guest with
      | none => exact .inl (hrefused _ rfl)
      | some guest => cases hbrought
  | attachKeyed key guest =>
      cases guest with
      | none => exact .inl (hrefused _ rfl)
      | some guest => cases hbrought
  | append guest =>
      cases guest with
      | none => exact .inl (hrefused _ rfl)
      | some guest =>
          refine .inl (hrefused (.ofRefusal ⟨.append, .mismatch (.one .array)⟩ node.tree) ?_)
          rw [call, takeIn, append, if_neg (by simp [hobject])]
          rfl
  | assign key guest =>
      cases guest with
      | none => exact .inl (hrefused _ rfl)
      | some guest => cases hbrought
  | entry key => cases hbrought
  | remove key =>
      cases hfind : node.find? key with
      | none =>
          left
          rw [Plain.visit, call, remove, if_pos hobject, hfind]
          rfl
      | some pos =>
          right
          refine ⟨key, pos, hfind, ?_⟩
          rw [Plain.visit, call, remove, if_pos hobject, hfind]
          rfl
  | childOf key =>
      left
      rw [Plain.visit, call]
      cases node.childOf key <;> rfl
  | containsKey key => exact .inl rfl
  | keyIndex => exact .inl rfl
  | rename old new => cases hsettled
  | rekey pos key => cases hsettled
  | relocate key pos => cases hsettled

theorem placeFor_of_ne (hnode : node.Autosorted) (hkey : key ≠ "") :
    node.placeFor key = Outline.sortedPlace key (node.children.map Tree.key) :=
  if_pos ⟨hkey, hnode.sorts⟩

/-! ### What visits leave -/

variable {keyed anonymous : List Tree}

/-- Every visit keeps the children in order. -/
theorem visit_inOrder (hnode : node.Autosorted)
    (horder : Tree.InOrder node.children keyed anonymous) (visit : Visit) :
    ∃ row keyed', (node.visit visit).2 = node.holding row ∧
      Tree.InOrder row keyed' (anonymous ++ Visit.anonymous [visit]) := by
  cases hbrought : visit.brought with
  | none =>
      have hnone : Visit.anonymous [visit] = [] := by simp [Visit.anonymous, hbrought]
      rw [hnone, List.append_nil]
      rcases hnode.visit_idle hbrought with hafter | ⟨key, pos, hfind, hafter⟩
      · exact ⟨_, _, hafter, horder⟩
      · obtain ⟨hkey, hpos⟩ := getElem?_of_find? hfind
        exact ⟨_, _, hafter, horder.erase hpos hkey⟩
  | some child =>
      by_cases hkey : child.key = ""
      · have hnew : node.find? child.key = none := (find?_eq_none_iff hnode.object).mpr (.inl hkey)
        have hsome : Visit.anonymous [visit] = [child] := by simp [Visit.anonymous, hbrought, hkey]
        have hplace : node.placeFor child.key = node.children.length := if_neg fun h => h.1 hkey
        have hafter := (hnode.visit_new hbrought hnew).1
        rw [hplace, List.insertIdx_length_self] at hafter
        rw [hsome]
        exact ⟨_, _, hafter, horder.push hkey⟩
      · have hnone : Visit.anonymous [visit] = [] := by simp [Visit.anonymous, hbrought, hkey]
        rw [hnone, List.append_nil]
        cases hfind : node.find? child.key with
        | none =>
            have hmissing := ((find?_eq_none_iff hnode.object).mp hfind).resolve_left hkey
            have hafter := (hnode.visit_new hbrought hfind).1
            rw [hnode.placeFor_of_ne hkey] at hafter
            exact ⟨_, _, hafter, horder.insert hkey hmissing⟩
        | some pos =>
            obtain ⟨other, hsame, hafter⟩ := hnode.visit_present hbrought hfind
            have hpos := (getElem?_of_find? hfind).2
            rw [← hsame] at hpos hkey
            exact ⟨_, _, hafter, horder.set hpos hkey⟩

/-- Visits keep the children in order, the anonymous ones as they came. -/
theorem visits_inOrder (hnode : node.Autosorted)
    (horder : Tree.InOrder node.children keyed anonymous) (visits : List Visit) :
    ∃ row keyed', (node.visits visits).2 = node.holding row ∧
      Tree.InOrder row keyed' (anonymous ++ Visit.anonymous visits) := by
  induction visits generalizing node keyed anonymous with
  | nil =>
      refine ⟨node.children, keyed, rfl, ?_⟩
      rwa [Visit.anonymous, List.filterMap_nil, List.filter_nil, List.append_nil]
  | cons visit rest ih =>
      obtain ⟨row, keyed', hafter, hrow⟩ := hnode.visit_inOrder horder visit
      obtain ⟨last, keyed'', hlast, hinorder⟩ := ih (hnode.holding row) hrow
      refine ⟨last, keyed'', ?_, ?_⟩
      · rw [visits_cons, hafter]
        exact hlast
      · rwa [Visit.anonymous_cons, ← List.append_assoc]

/-- Visits that bring children under different keys leave these children, and those that were
there. -/
theorem visits_perm (hnode : node.Autosorted) {visits : List Visit}
    (hbring : ∀ visit ∈ visits, visit.brought.isSome = true)
    (hkeys : (((node.children ++ visits.filterMap Visit.brought).map Tree.key).filter
      (· ≠ "")).Nodup) :
    ∃ row, (node.visits visits).2 = node.holding row ∧
      row.Perm (node.children ++ visits.filterMap Visit.brought) := by
  induction visits generalizing node with
  | nil => exact ⟨node.children, rfl, by simp⟩
  | cons visit rest ih =>
      obtain ⟨hvisit, hrest⟩ := List.forall_mem_cons.mp hbring
      obtain ⟨child, hchild⟩ := Option.isSome_iff_exists.mp hvisit
      rw [List.filterMap_cons_some hchild] at hkeys ⊢
      have hnew : node.find? child.key = none := by
        refine (find?_eq_none_iff hnode.object).mpr (or_iff_not_imp_left.mpr fun hkey hmem => ?_)
        rw [List.map_append, List.filter_append, List.map_cons,
          List.filter_cons_of_pos (by simpa using hkey), List.nodup_append] at hkeys
        exact hkeys.2.2 _ (List.mem_filter.mpr ⟨hmem, by simpa using hkey⟩) _ List.mem_cons_self rfl
      have hafter := (hnode.visit_new hchild hnew).1
      have hfront :=
        (List.perm_insertIdx child node.children (node.placeFor_le_length child.key)).append_right
        (rest.filterMap Visit.brought)
      have hperm := hfront.trans List.perm_middle.symm
      obtain ⟨row, hlast, hrow⟩ :=
        ih (hnode.holding (node.children.insertIdx (node.placeFor child.key) child))
        hrest (((hperm.map Tree.key).filter _).nodup_iff.mpr hkeys)
      refine ⟨row, ?_, hrow.trans hperm⟩
      rw [visits_cons, hafter]
      exact hlast

/-- An empty object comes to the same with visits in any order, as long as they bring children under
different keys and the anonymous ones keep their order. -/
theorem visits_eq_of_perm (hnode : node.Autosorted) (hempty : node.children = [])
    {visits others : List Visit} (hperm : visits.Perm others)
    (hbring : ∀ visit ∈ visits, visit.brought.isSome = true)
    (hkeys : (((visits.filterMap Visit.brought).map Tree.key).filter (· ≠ "")).Nodup)
    (hanonymous : Visit.anonymous visits = Visit.anonymous others) :
    (node.visits visits).2 = (node.visits others).2 := by
  have hstart : Tree.InOrder node.children [] [] := hempty ▸ .nil
  have hbrought := hperm.filterMap Visit.brought
  have hkeys' := (((hbrought.map Tree.key).filter fun key => decide (key ≠ "")).nodup_iff).mp hkeys
  obtain ⟨row, hrow, hsame⟩ := hnode.visits_perm hbring (by rwa [hempty, List.nil_append])
  obtain ⟨other, hother, hsame'⟩ := hnode.visits_perm
    (fun visit hvisit => hbring visit (hperm.mem_iff.mpr hvisit)) (by rwa [hempty, List.nil_append])
  obtain ⟨row', keyed, hrow', horder⟩ := hnode.visits_inOrder hstart visits
  obtain ⟨other', keyed', hother', horder'⟩ := hnode.visits_inOrder hstart others
  obtain rfl : row' = row := congrArg children (hrow'.symm.trans hrow)
  obtain rfl : other' = other := congrArg children (hother'.symm.trans hother)
  rw [hempty, List.nil_append] at hsame hsame'
  rw [← hanonymous] at horder'
  rw [hrow, hother, horder.eq_of_perm horder' (hsame.trans (hbrought.trans hsame'.symm))]

/-- A visit that brings a child under a new key puts it in at the first place that fits. -/
theorem visit_placed (hnode : node.Autosorted) (horder : Tree.InOrder node.children keyed anonymous)
    (hbrought : visit.brought = some child) (hkey : child.key ≠ "")
    (hnew : child.key ∉ node.children.map Tree.key) :
    ∃ pos, (node.visit visit).1 = .ok (.position pos) ∧
      (node.visit visit).2 = node.holding (node.children.insertIdx pos child) ∧
      Tree.FirstPlace node.children child.key pos := by
  obtain ⟨hafter, hanswer⟩ :=
    hnode.visit_new hbrought ((find?_eq_none_iff hnode.object).mpr (.inr hnew))
  refine ⟨node.placeFor child.key, hanswer hkey, hafter, ?_⟩
  rw [hnode.placeFor_of_ne hkey]
  exact horder.firstPlace child.key

end Autosorted

end Plain

end KeyedTree
