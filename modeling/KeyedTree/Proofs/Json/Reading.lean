import KeyedTree.Proofs.Grammar.Completeness
import KeyedTree.Proofs.Json.Writing
import KeyedTree.Proofs.Reader.Outcome

/-! # Values and their texts become the same trees

A JSON value is converted to a tree, or its compact text is read. Unless a key is repeated in an
object, either way gives the same tree or none.
-/

namespace KeyedTree

open Grammar

namespace Json

/-! ## Parts of values -/

/-- A value is a part of another one: it is the other one, or a part of an item or a member of
it. -/
inductive Inside : Json → Json → Prop
  | refl (json : Json) : Inside json json
  | item {inner item : Json} {items : List Json} :
      item ∈ items → Inside inner item → Inside inner (.array items)
  | member {inner value : Json} {key : String} {members : List (String × Json)} :
      (key, value) ∈ members → Inside inner value → Inside inner (.object members)

/-- No object in a value has two members with the same key. -/
def NoRepeats (json : Json) : Prop :=
  ∀ members, (object members).Inside json → (members.map Prod.fst).Nodup

/-- A value has a number that is no 64-bit integer, or an object with an empty key. -/
def Unfit (json : Json) : Prop :=
  (∃ value, (number value).Inside json ∧ ∀ n : Int64, value ≠ .integer n.toInt) ∨
    ∃ members, (object members).Inside json ∧ "" ∈ members.map Prod.fst

variable {json inner : Json} {items : List Json} {members : List (String × Json)} {tree : Tree}

theorem noRepeats_array_iff : (array items).NoRepeats ↔ ∀ item ∈ items, item.NoRepeats := by
  constructor
  · intro hkeys item hitem members hinside
    exact hkeys members (.item hitem hinside)
  · intro hitems members hinside
    cases hinside with
    | item hitem hpart => exact hitems _ hitem members hpart

theorem noRepeats_object_iff :
    (object members).NoRepeats ↔
      (members.map Prod.fst).Nodup ∧ ∀ member ∈ members, member.2.NoRepeats := by
  constructor
  · intro hkeys
    exact ⟨hkeys members (.refl _), fun member hmember inner hinside =>
      hkeys inner (.member hmember hinside)⟩
  · rintro ⟨hnodup, hmembers⟩ inner hinside
    cases hinside with
    | refl => exact hnodup
    | member hmember hpart => exact hmembers _ hmember inner hpart

/-- The items of an array that is converted are converted. -/
theorem toTree_of_mem_items {start : Tree} (htree : itemsToTree start items = .ok tree) :
    ∀ item ∈ items, ∃ child, item.toTree = .ok child := by
  induction items generalizing start with
  | nil => exact nofun
  | cons first rest ih =>
      simp only [itemsToTree] at htree
      split at htree
      next => cases htree
      next child hchild =>
        split at htree
        next => cases htree
        next => exact List.forall_mem_cons.mpr ⟨⟨child, hchild⟩, ih htree⟩

/-- The members of an object that is converted are converted, and have keys. -/
theorem toTree_of_mem_members {start : Tree} (htree : membersToTree start members = .ok tree) :
    ∀ member ∈ members, member.1 ≠ "" ∧ ∃ child, member.2.toTree = .ok child := by
  induction members generalizing start with
  | nil => exact nofun
  | cons first rest ih =>
      simp only [membersToTree] at htree
      split at htree
      next => cases htree
      next hkey =>
        split at htree
        next => cases htree
        next child hchild =>
          split at htree
          next => cases htree
          next => exact List.forall_mem_cons.mpr ⟨⟨hkey, child, hchild⟩, ih htree⟩

/-- The parts of a value that is converted are converted. -/
theorem toTree_of_inside (hinside : inner.Inside json) (htree : json.toTree = .ok tree) :
    ∃ part, inner.toTree = .ok part := by
  induction hinside generalizing tree with
  | refl => exact ⟨tree, htree⟩
  | item hitem _ ih =>
      rw [toTree] at htree
      obtain ⟨child, hchild⟩ := toTree_of_mem_items htree _ hitem
      exact ih hchild
  | member hmember _ ih =>
      rw [toTree] at htree
      obtain ⟨_, child, hchild⟩ := toTree_of_mem_members htree _ hmember
      exact ih hchild

theorem payload_integer_of_ok {value : Number} {payload : Payload}
    (hpayload : value.payload = .ok payload) :
    ∃ n : Int64, value = .integer n.toInt ∧ payload = .integer n := by
  unfold Number.payload at hpayload
  split at hpayload
  next n =>
    split at hpayload
    next hfits =>
      cases hpayload
      refine ⟨Int64.ofInt n, ?_, rfl⟩
      obtain ⟨hmin, hmax⟩ := Numeral.fitsInt64_iff.mp hfits
      rw [Int64.toInt_ofInt_of_le hmin hmax]
    next => cases hpayload
  next => cases hpayload

/-- An unfit value is not converted. -/
theorem Unfit.toTree_ne_ok (hunfit : json.Unfit) : json.toTree ≠ .ok tree := by
  intro htree
  rcases hunfit with ⟨value, hinside, hvalue⟩ | ⟨members, hinside, hempty⟩
  · obtain ⟨part, hpart⟩ := toTree_of_inside hinside htree
    simp only [toTree] at hpart
    split at hpart
    next payload hpayload =>
      obtain ⟨n, hn, _⟩ := payload_integer_of_ok hpayload
      exact hvalue n hn
    next => cases hpart
  · obtain ⟨part, hpart⟩ := toTree_of_inside hinside htree
    obtain ⟨member, hmember, hkey⟩ := List.mem_map.mp hempty
    rw [toTree] at hpart
    exact (toTree_of_mem_members hpart member hmember).1 hkey

/-! ## Converted values are read -/

/-- The text of a key with its value is a member of the grammar. -/
theorem member_quote {key : String} (hkey : key ≠ "") {text : List Char} {value : Tree}
    (hvalue : Value text value) : Member (quote key ++ ':' :: text) (value.withKey key) := by
  have hmember := Member.mk .nil (spells_escape key) hkey .nil .nil hvalue .nil
  simpa [quote] using hmember

theorem element_of_value {text : List Char} {value : Tree} (hvalue : Value text value) :
    Element text value := by
  have helement := Element.mk .nil hvalue .nil
  simpa using helement

variable {row : List Tree} {item value : Json} {child : Tree} {key : String}

/-- An array goes on with its next item behind the others. -/
theorem itemsToTree_cons (hchild : item.toTree = .ok child) (hauto : child.head.autosort = false)
    (items : List Json) :
    itemsToTree (arrayOf row) (item :: items) = itemsToTree (arrayOf (row ++ [child])) items := by
  simp only [itemsToTree, hchild, append_array hauto]

/-- An object goes on with its next member behind the others. -/
theorem membersToTree_cons (hkey : key ≠ "") (hchild : value.toTree = .ok child)
    (hauto : child.head.autosort = false) (hkeys : (row.map Tree.key).Nodup)
    (hnew : key ∉ row.map Tree.key) (members : List (String × Json)) :
    membersToTree (objectOf row) ((key, value) :: members) =
      membersToTree (objectOf (row ++ [child.withKey key])) members := by
  simp only [membersToTree, hkey, if_false, hchild, attachKeyed_object hkeys hnew hauto]

/-- A member that comes into an object leaves the keys distinct. -/
theorem nodup_withKey (child : Tree) {keys : List String}
    (hnodup : (row.map Tree.key ++ key :: keys).Nodup) :
    (row.map Tree.key).Nodup ∧ key ∉ row.map Tree.key ∧
      ((row ++ [child.withKey key]).map Tree.key ++ keys).Nodup := by
  have hsplit := List.nodup_append.mp hnodup
  refine ⟨hsplit.1, ?_, ?_⟩
  · intro hmem
    exact hsplit.2.2 key hmem key List.mem_cons_self rfl
  · rw [List.map_append, List.append_assoc]
    exact hnodup

mutual

/-- The text of a value that is converted denotes the tree that the value is converted to. -/
theorem Written.value {json : Json} {text : List Char} {tree : Tree} :
    Written json text → json.NoRepeats → json.toTree = .ok tree → Value text tree
  | .null, _, htree => by
      cases htree
      exact .literal .null
  | .bool value, _, htree => by
      cases htree
      cases value
      · exact .literal .no
      · exact .literal .yes
  | .integer value, _, htree => by
      simp only [toTree] at htree
      split at htree
      next payload hpayload =>
        obtain ⟨n, hn, rfl⟩ := payload_integer_of_ok hpayload
        cases htree
        cases hn
        exact .literal (literal_ofInt n)
      next => cases htree
  | .fraction value _, _, htree => by cases htree
  | .string value, _, htree => by
      cases htree
      exact .string (spells_escape value)
  | .emptyArray, _, htree => by
      cases htree
      exact .emptyArray .nil
  | .array hitems, hkeys, htree => by
      have hkeys := noRepeats_array_iff.mp hkeys
      obtain ⟨elements, helements, rfl⟩ := WrittenItems.elements hitems hkeys [] htree
      exact .array helements
  | .emptyObject, _, htree => by
      cases htree
      exact .emptyObject .nil
  | .object hmembers, hkeys, htree => by
      obtain ⟨hnodup, hkeys⟩ := noRepeats_object_iff.mp hkeys
      obtain ⟨row, hrow, hsame, rfl⟩ := WrittenMembers.members hmembers hkeys [] hnodup htree
      exact .object hrow (hsame ▸ hnodup)

theorem WrittenItems.elements {items : List Json} {body : List Char} {tree : Tree} :
    WrittenItems items body → (∀ item ∈ items, item.NoRepeats) → ∀ row,
      itemsToTree (arrayOf row) items = .ok tree →
        ∃ elements, Elements body elements ∧ tree = arrayOf (row ++ elements)
  | @WrittenItems.one item text hitem, hkeys, row, htree => by
      obtain ⟨child, hchild⟩ := toTree_of_mem_items htree item List.mem_cons_self
      have hvalue := Written.value hitem (hkeys item List.mem_cons_self) hchild
      rw [itemsToTree_cons hchild hvalue.autosort_eq_false] at htree
      cases htree
      exact ⟨[child], .one (element_of_value hvalue), rfl⟩
  | @WrittenItems.more item rest text body hitem hrest, hkeys, row, htree => by
      obtain ⟨child, hchild⟩ := toTree_of_mem_items htree item List.mem_cons_self
      have hvalue := Written.value hitem (hkeys item List.mem_cons_self) hchild
      rw [itemsToTree_cons hchild hvalue.autosort_eq_false] at htree
      obtain ⟨elements, helements, rfl⟩ := WrittenItems.elements hrest
        (fun other hother => hkeys other (List.mem_cons_of_mem item hother)) _ htree
      exact ⟨child :: elements, .cons (element_of_value hvalue) helements, by simp⟩

theorem WrittenMembers.members {members : List (String × Json)} {body : List Char} {tree : Tree} :
    WrittenMembers members body → (∀ member ∈ members, member.2.NoRepeats) → ∀ row,
      (row.map Tree.key ++ members.map Prod.fst).Nodup →
      membersToTree (objectOf row) members = .ok tree →
        ∃ added, Members body added ∧ added.map Tree.key = members.map Prod.fst ∧
          tree = objectOf (row ++ added)
  | @WrittenMembers.one key value text hvalue, hkeys, row, hnodup, htree => by
      obtain ⟨hkey, child, hchild⟩ := toTree_of_mem_members htree (key, value) List.mem_cons_self
      have hdenotes := Written.value hvalue (hkeys (key, value) List.mem_cons_self) hchild
      obtain ⟨hrow, hnew, _⟩ := nodup_withKey child hnodup
      rw [membersToTree_cons hkey hchild hdenotes.autosort_eq_false hrow hnew] at htree
      cases htree
      exact ⟨[child.withKey key], .one (member_quote hkey hdenotes), rfl, rfl⟩
  | @WrittenMembers.more key value rest text body hvalue hrest, hkeys, row, hnodup, htree => by
      obtain ⟨hkey, child, hchild⟩ := toTree_of_mem_members htree (key, value) List.mem_cons_self
      have hdenotes := Written.value hvalue (hkeys (key, value) List.mem_cons_self) hchild
      obtain ⟨hrow, hnew, hnext⟩ := nodup_withKey child hnodup
      rw [membersToTree_cons hkey hchild hdenotes.autosort_eq_false hrow hnew] at htree
      obtain ⟨added, hadded, hsame, rfl⟩ := WrittenMembers.members hrest
        (fun other hother => hkeys other (List.mem_cons_of_mem _ hother)) _ hnext htree
      have hmembers := Members.cons (member_quote hkey hdenotes) hadded
      refine ⟨child.withKey key :: added, by simpa using hmembers, ?_, by simp⟩
      rw [List.map_cons, List.map_cons, hsame]
      rfl

end

end Json

/-! ## Texts that are refused -/

namespace Progress

variable {progress last : Progress} {text rest : List Char} {c : Char} {around : List Hole}

/-- No tree comes of a document that goes on with a text from one state. -/
def Refuses (progress : Progress) (text : List Char) : Prop :=
  ∀ cursor tree, (Reader.plain cursor progress).outcome text ≠ .ok tree

theorem outcome_plain_cons (cursor : Cursor) (c : Char) (rest : List Char) :
    (Reader.plain cursor progress).outcome (c :: rest) =
      match progress.next c (cursor.advance c) with
      | .ok (after, stopped) =>
          { Reader.plain (cursor.advance c) after with stopped }.outcome rest
      | .error fault => .error fault := by
  rw [Reader.outcome_cons rfl]
  rfl

/-- A character that is a defect. -/
theorem Refuses.defect (hdefect : ∀ place, ∃ fault, progress.next c place = .error fault) :
    progress.Refuses (c :: rest) := by
  intro cursor tree
  obtain ⟨fault, hfault⟩ := hdefect (cursor.advance c)
  rw [outcome_plain_cons, hfault]
  exact nofun

/-- A text is refused if it leads to where the rest is refused. -/
theorem Reaches.refuses (hreaches : progress.Reaches text (·.Refuses rest)) :
    progress.Refuses (text ++ rest) := by
  intro cursor tree
  obtain ⟨cursor', middle, hfeed, hrefuses⟩ := hreaches cursor
  rw [Reader.outcome_append, hfeed]
  exact hrefuses cursor' tree

/-- A literal that still has to end does not matter to a character that ends it. -/
theorem Settles.refuses (hsettles : progress.Settles last) (hc : Literal.continues c = false)
    (hrefuses : last.Refuses (c :: rest)) : progress.Refuses (c :: rest) := by
  intro cursor tree
  have hlast := hrefuses cursor tree
  rw [outcome_plain_cons] at hlast ⊢
  rwa [hsettles.next_eq hc]

/-- A text that ends every literal in front of it. -/
def Ends (text : List Char) : Prop :=
  ∀ c ∈ text.head?, Literal.continues c = false

theorem ends_nil : Ends [] :=
  nofun

theorem ends_cons (hc : Literal.continues c = false) : Ends (c :: rest) := by
  intro other hother
  cases hother
  exact hc

/-- A literal without a value is refused where it ends. -/
theorem refuses_literal {start : Cursor} {token : String}
    (htoken : ∀ payload, Literal.payload token ≠ .ok payload) (hrest : Ends rest) :
    (within (.literal start token) around).Refuses rest := by
  obtain ⟨defect, hdefect⟩ : ∃ defect, Literal.payload token = .error defect := by
    cases hpayload : Literal.payload token with
    | ok payload => exact absurd hpayload (htoken payload)
    | error defect => exact ⟨defect, rfl⟩
  have hvalue : Frame.literalValue start token = .error (.malformed start defect) := by
    simp only [Frame.literalValue, hdefect]
  cases rest with
  | nil =>
      intro cursor tree hfinish
      rw [Reader.outcome_nil, Reader.finish_eq_ok_iff] at hfinish
      cases around with
      | nil =>
          simp only [Reader.plain, tree?, hvalue] at hfinish
          cases hfinish
      | cons hole outer => cases hfinish
  | cons c rest =>
      have hc : Literal.continues c = false := hrest c rfl
      apply Refuses.defect
      intro place
      have hturn : (Frame.literal start token).feed c place = .error (.malformed start defect) := by
        simp only [Frame.feed, hc, Bool.false_eq_true, if_false, hvalue]
        rfl
      rw [next_within]
      unfold feed
      rw [hturn]
      exact ⟨_, rfl⟩

/-- Where a value is expected, a literal without a value is refused. -/
theorem Expects.refuses_literal (hexpects : progress.Expects around) (hrun : Run text)
    (htext : ∀ payload, ¬ Grammar.Literal text payload) (hrest : Ends rest) :
    progress.Refuses (text ++ rest) := by
  obtain ⟨c, more, rfl, hstarts⟩ := hrun.head
  obtain ⟨_, hmore⟩ := List.forall_mem_cons.mp hrun.all
  refine Reaches.refuses
    (.cons fun place => ⟨_, hexpects c place _ (start?_of_starts hstarts place), ?_⟩)
  refine (reaches_run hmore).imp ?_
  rintro _ rfl
  refine Progress.refuses_literal ?_ hrest
  intro payload hpayload
  have hliteral := Literal.payload_eq_ok_iff.mp hpayload
  rw [String.toList_append, String.toList_singleton, String.toList_ofList] at hliteral
  exact htext payload hliteral

/-- Where a value is expected, one is refused that is refused behind its first character. -/
theorem Expects.refuses {frame : Frame} (hexpects : progress.Expects around)
    (hstart : ∀ place, Frame.start? c place false = some frame)
    (hrest : (within frame around).Refuses rest) : progress.Refuses (c :: rest) :=
  Reaches.refuses (hexpects.reaches hstart (.nil hrest))

/-- A member is refused if its key is empty or its value is refused. -/
theorem refuses_member {row : List Tree} {phase : ObjectPhase} {key : String}
    (hphase : phase = .keyOrClose ∨ phase = .nextKey)
    (hvalue : key ≠ "" → (within (.object (objectOf row) (.value key)) around).Refuses rest) :
    (within (.object (objectOf row) phase) around).Refuses (Json.quote key ++ ':' :: rest) := by
  by_cases hkey : key = ""
  · subst hkey
    have hquote : ∀ place, (Frame.object (objectOf row) phase).feed '"' place =
        .ok (.stay (.object (objectOf row) (.key {}))) := by
      rcases hphase with rfl | rfl <;> exact fun place => rfl
    have hempty :
        (within (.object (objectOf row) (.key {})) around).Refuses ('"' :: ':' :: rest) := by
      apply Refuses.defect
      intro place
      refine ⟨.malformed place .emptyKey, ?_⟩
      rw [next_within]
      unfold feed
      rfl
    have hreaches : (within (.object (objectOf row) phase) around).Reaches ['"']
        (·.Refuses ('"' :: ':' :: rest)) :=
      .step (fun place => next_of_stay (hquote place)) (.nil hempty)
    exact hreaches.refuses
  · have hend : (within (.object (objectOf row) (.value key)) around).Reaches [] (·.Refuses rest) :=
      .nil (hvalue hkey)
    have hrefuses := (reaches_memberKey hphase .nil (Json.spells_escape key) hkey .nil hend).refuses
    simpa [Json.quote] using hrefuses

end Progress

namespace Json

open Progress

variable {around : List Hole} {rest : List Char} {fault : Fault}

mutual

/-- The text of a value that is not converted is refused, whatever follows behind it. -/
theorem Written.refuses {json : Json} {text rest : List Char} {fault : Fault} {progress : Progress}
    {around : List Hole} :
    Written json text → json.NoRepeats → json.toTree = .error fault → progress.Expects around →
      Ends rest → progress.Refuses (text ++ rest)
  | .null, _, htree, _, _ => by cases htree
  | .bool value, _, htree, _, _ => by cases htree
  | .integer value, _, htree, hexpects, hrest => by
      have hfits : Numeral.fitsInt64 value = false := by
        simp only [toTree, Number.payload] at htree
        cases hfits : Numeral.fitsInt64 value with
        | false => rfl
        | true =>
            simp only [hfits, if_true] at htree
            cases htree
      exact hexpects.refuses_literal (Numeral.run_ofInt value)
        (Numeral.not_literal_ofInt hfits) hrest
  | .fraction value htext, _, _, hexpects, hrest =>
      hexpects.refuses_literal htext.run htext.not_literal hrest
  | .string value, _, htree, _, _ => by cases htree
  | .emptyArray, _, htree, _, _ => by cases htree
  | @Written.array items body hitems, hkeys, htree, hexpects, hrest => by
      have hbody :
          (within (.array (arrayOf []) .valueOrClose) around).Refuses (body ++ ']' :: rest) :=
        WrittenItems.refuses hitems (noRepeats_array_iff.mp hkeys) [] .valueOrClose nofun htree
      have hrefuses := hexpects.refuses (c := '[') (fun _ => rfl) hbody
      simpa using hrefuses
  | .emptyObject, _, htree, _, _ => by cases htree
  | @Written.object members body hmembers, hkeys, htree, hexpects, hrest => by
      obtain ⟨hnodup, hkeys⟩ := noRepeats_object_iff.mp hkeys
      have hbody :
          (within (.object (objectOf []) .keyOrClose) around).Refuses (body ++ '}' :: rest) :=
        WrittenMembers.refuses hmembers hkeys [] .keyOrClose (.inl rfl) hnodup htree
      have hrefuses := hexpects.refuses (c := '{') (fun _ => rfl) hbody
      simpa using hrefuses

theorem WrittenItems.refuses {items : List Json} {body rest : List Char} {fault : Fault}
    {around : List Hole} :
    WrittenItems items body → (∀ item ∈ items, item.NoRepeats) → ∀ row phase,
      phase ≠ .commaOrClose → itemsToTree (arrayOf row) items = .error fault →
      (within (.array (arrayOf row) phase) around).Refuses (body ++ ']' :: rest)
  | @WrittenItems.one item text hitem, hkeys, row, phase, hphase, htree => by
      have hexpects := expects_element row around hphase
      have hitemKeys := hkeys item List.mem_cons_self
      cases hchild : item.toTree with
      | error fault => exact Written.refuses hitem hitemKeys hchild hexpects (ends_cons rfl)
      | ok child =>
          have hvalue := hitem.value hitemKeys hchild
          rw [itemsToTree_cons hchild hvalue.autosort_eq_false] at htree
          cases htree
  | @WrittenItems.more item items text body hitem hrest, hkeys, row, phase, hphase, htree => by
      have hexpects := expects_element row around hphase
      have hitemKeys := hkeys item List.mem_cons_self
      rw [List.append_assoc]
      cases hchild : item.toTree with
      | error fault => exact Written.refuses hitem hitemKeys hchild hexpects (ends_cons rfl)
      | ok child =>
          have hvalue := hitem.value hitemKeys hchild
          rw [itemsToTree_cons hchild hvalue.autosort_eq_false] at htree
          have hbody : (within (.array (arrayOf (row ++ [child])) .value) around).Refuses
              (body ++ ']' :: rest) :=
            WrittenItems.refuses hrest
              (fun other hother => hkeys other (List.mem_cons_of_mem item hother)) _ .value
                nofun htree
          have hreaches := hvalue.reaches hexpects (deliver_element hvalue.autosort_eq_false)
          refine Reaches.refuses (hreaches.imp fun _ hsettles => hsettles.refuses rfl ?_)
          exact Reaches.refuses (.step (fun place => next_of_stay rfl) (.nil hbody))

theorem WrittenMembers.refuses {members : List (String × Json)} {body rest : List Char}
    {fault : Fault} {around : List Hole} :
    WrittenMembers members body → (∀ member ∈ members, member.2.NoRepeats) → ∀ row phase,
      (phase = .keyOrClose ∨ phase = .nextKey) → (row.map Tree.key ++ members.map Prod.fst).Nodup →
      membersToTree (objectOf row) members = .error fault →
      (within (.object (objectOf row) phase) around).Refuses (body ++ '}' :: rest)
  | @WrittenMembers.one key value text hvalue, hkeys, row, phase, hphase, hnodup, htree => by
      have hvalueKeys := hkeys (key, value) List.mem_cons_self
      rw [List.append_assoc, List.cons_append]
      apply refuses_member hphase
      intro hkey
      cases hchild : value.toTree with
      | error fault =>
          exact Written.refuses hvalue hvalueKeys hchild (expects_member row key around)
            (ends_cons rfl)
      | ok child =>
          have hdenotes := hvalue.value hvalueKeys hchild
          obtain ⟨hrow, hnew, _⟩ := nodup_withKey child hnodup
          rw [membersToTree_cons hkey hchild hdenotes.autosort_eq_false hrow hnew] at htree
          cases htree
  | @WrittenMembers.more key value members text body hvalue hrest, hkeys, row, phase,
      hphase, hnodup, htree => by
      have hvalueKeys := hkeys (key, value) List.mem_cons_self
      have hsplit : quote key ++ ':' :: (text ++ ',' :: body) ++ '}' :: rest =
          quote key ++ ':' :: (text ++ ',' :: (body ++ '}' :: rest)) := by simp
      rw [hsplit]
      apply refuses_member hphase
      intro hkey
      cases hchild : value.toTree with
      | error fault =>
          exact Written.refuses hvalue hvalueKeys hchild (expects_member row key around)
            (ends_cons rfl)
      | ok child =>
          have hdenotes := hvalue.value hvalueKeys hchild
          obtain ⟨hrow, hnew, hnext⟩ := nodup_withKey child hnodup
          rw [membersToTree_cons hkey hchild hdenotes.autosort_eq_false hrow hnew] at htree
          have hbody :
              (within (.object (objectOf (row ++ [child.withKey key])) .nextKey) around).Refuses
              (body ++ '}' :: rest) :=
            WrittenMembers.refuses hrest
              (fun other hother => hkeys other (List.mem_cons_of_mem _ hother)) _ .nextKey
                (.inr rfl)
              hnext htree
          have hrow' : ((row ++ [child.withKey key]).map Tree.key).Nodup :=
            (List.nodup_append.mp hnext).1
          have hreaches := hdenotes.reaches (expects_member row key around)
            (deliver_member hdenotes.autosort_eq_false hkey hrow')
          refine Reaches.refuses (hreaches.imp fun _ hsettles => hsettles.refuses rfl ?_)
          exact Reaches.refuses (.step (fun place => next_of_stay rfl) (.nil hbody))

end

end Json

/-- A value and its compact text become the same tree, or none, unless a key is repeated in an
object. None comes of a number that is no 64-bit integer or of an empty key. -/
theorem decode_written {json : Json} {text : String} (hwritten : json.Written text.toList)
    (hkeys : json.NoRepeats) :
    (∀ tree, decode {} text = .ok tree ↔ json.toTree = .ok tree) ∧
      (json.Unfit → (∃ fault, decode {} text = .error fault) ∧
        ∃ fault, json.toTree = .error fault) := by
  have hagree : ∀ tree, decode {} text = .ok tree ↔ json.toTree = .ok tree := by
    intro tree
    cases htree : json.toTree with
    | error fault =>
        have hrefuses := hwritten.refuses hkeys htree Progress.expects_fresh Progress.ends_nil
        rw [List.append_nil] at hrefuses
        exact iff_of_false (hrefuses .start tree) nofun
    | ok converted =>
        have hread := decode_of_document (Json.element_of_value (hwritten.value hkeys htree))
        rw [hread]
  refine ⟨hagree, fun hunfit => ⟨?_, ?_⟩⟩
  · cases hdecode : decode {} text with
    | ok tree => exact absurd ((hagree tree).mp hdecode) hunfit.toTree_ne_ok
    | error fault => exact ⟨fault, rfl⟩
  · cases htree : json.toTree with
    | ok tree => exact absurd htree hunfit.toTree_ne_ok
    | error fault => exact ⟨fault, rfl⟩

/-- A value with nested containers, a quote and a control character. -/
def nestedValue : Json :=
  .object [("a \"b\"", .array [.null, .number (.integer (-5)), .string "\x01é"]), ("c", .bool true)]

/-- A value with a fraction. -/
def halfValue : Json :=
  .array [.number (.fraction ⟨false, 5, -1⟩)]

theorem nestedValue_reads_as_converted :
    nestedValue.NoRepeats ∧ (∃ tree, nestedValue.toTree = .ok tree) ∧
      (∀ tree, decode {} nestedValue.text = .ok tree ↔ nestedValue.toTree = .ok tree) ∧
      ∃ fault, decode {} halfValue.text = .error fault := by
  have hwritten : ∀ json : Json, json.Written json.text.toList := by
    intro json
    rw [Json.text, String.toList_ofList]
    exact Json.written_chars json
  have hitems : (Json.array [.null, .number (.integer (-5)), .string "\x01é"]).NoRepeats :=
    Json.noRepeats_array_iff.mpr (List.forall_mem_cons.mpr ⟨nofun, List.forall_mem_cons.mpr
      ⟨nofun, List.forall_mem_singleton.mpr nofun⟩⟩)
  have hnested : nestedValue.NoRepeats :=
    Json.noRepeats_object_iff.mpr ⟨by decide,
      List.forall_mem_cons.mpr ⟨hitems, List.forall_mem_singleton.mpr nofun⟩⟩
  have hhalf : halfValue.NoRepeats :=
    Json.noRepeats_array_iff.mpr (List.forall_mem_singleton.mpr nofun)
  have hunfit : halfValue.Unfit :=
    .inl ⟨_, .item List.mem_cons_self (.refl _), nofun⟩
  refine ⟨hnested, ⟨_, rfl⟩, ?_, ?_⟩
  · exact (decode_written (hwritten nestedValue) hnested).1
  · exact ((decode_written (hwritten halfValue) hhalf).2 hunfit).1

end KeyedTree
