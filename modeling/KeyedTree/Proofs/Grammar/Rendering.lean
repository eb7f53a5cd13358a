import KeyedTree.Layout
import KeyedTree.Proofs.Grammar.Completeness
import KeyedTree.Tree.Survey

/-! # What is written is read back

A tree that is written in the fixture layout, spread out or compact, is read back as a tree like it.
The tree must have the shape of a document, and its texts must be free of the characters that the
layout would have to escape but does not.
-/

namespace KeyedTree

open Grammar

namespace Tree

/-- Every node of a tree has a property. -/
inductive Throughout (holds : Tree → Prop) : Tree → Prop
  | node {head : Head} {children : List Tree} : holds (.node head children) →
      (∀ child ∈ children, child.Throughout holds) → Throughout holds (.node head children)

theorem Throughout.root {holds : Tree → Prop} {tree : Tree} (htree : tree.Throughout holds) :
    holds tree := by
  cases htree with
  | node hroot _ => exact hroot

theorem Throughout.childless {holds : Tree → Prop} {tree : Tree} (hroot : holds tree)
    (hempty : tree.children = []) : tree.Throughout holds := by
  obtain ⟨head, children⟩ := tree
  obtain rfl : children = [] := hempty
  exact .node hroot nofun

/-- A node is initialized, the elements of an array have no keys, and the members of an object have
different keys. -/
structure Documentary (node : Tree) : Prop where
  initialized : node.kind ≠ .uninitialized
  anonymous : node.kind = .array → ∀ child ∈ node.children, child.key = ""
  named : node.kind = .object → ∀ child ∈ node.children, child.key ≠ ""
  distinct : node.kind = .object → node.keys.Nodup

/-- A tree has the shape of a document. -/
structure JsonShaped (tree : Tree) : Prop where
  keyless : tree.key = ""
  documentary : tree.Throughout Documentary

/-- The layout does not escape quotes, backslashes and carriage returns, nor line feeds in keys. -/
structure Legible (node : Tree) : Prop where
  value : ∀ text, node.payload = .string text → ∀ c ∈ text.toList, c ≠ '"' ∧ c ≠ '\\' ∧ c ≠ '\r'
  key : ∀ c ∈ node.key.toList, c ≠ '"' ∧ c ≠ '\\' ∧ c ≠ '\n' ∧ c ≠ '\r'

/-- Rows that are alike have the same keys. -/
theorem keys_eq_of_rowAlike {row row' : List Tree} (halike : rowAlike row row' = true) :
    row.map key = row'.map key := by
  induction row generalizing row' with
  | nil =>
      cases row' with
      | nil => rfl
      | cons child' rest' => cases halike
  | cons child rest ih =>
      cases row' with
      | nil => cases halike
      | cons child' rest' =>
          obtain ⟨head, children⟩ := child
          obtain ⟨head', children'⟩ := child'
          simp only [rowAlike, alike, Bool.and_eq_true] at halike
          obtain ⟨⟨hhead, _⟩, hrest⟩ := halike
          rw [List.map_cons, List.map_cons, ih hrest]
          exact congrArg (· :: _) (Head.key_eq_of_alike hhead)

end Tree

/-! ## Tokens -/

namespace Grammar

/-- A text is spelled character by character. -/
theorem spells_flatMap {written : Char → List Char} {chars : List Char}
    (hwritten : ∀ c ∈ chars, Spelling (written c) c) :
    Spells (chars.flatMap written) (String.ofList chars) := by
  induction chars using List.reverseRecOn with
  | nil => exact .nil
  | append_singleton chars c ih =>
      have hpush : String.ofList (chars ++ [c]) = (String.ofList chars).push c := by
        rw [← String.toList_inj, String.toList_push, String.toList_ofList, String.toList_ofList]
      rw [List.flatMap_append, List.flatMap_singleton, hpush]
      exact .more (ih fun other hother => hwritten other (List.mem_append_left _ hother))
        (hwritten c (List.mem_append_right _ List.mem_cons_self))

/-- A key without special characters is spelled as it is. -/
theorem spells_raw {key : String}
    (hkey : ∀ c ∈ key.toList, c ≠ '"' ∧ c ≠ '\\' ∧ c ≠ '\n' ∧ c ≠ '\r') :
    Spells key.toList key := by
  have hspells : Spells (key.toList.flatMap fun c => [c]) (String.ofList key.toList) := by
    apply spells_flatMap
    intro c hc
    obtain ⟨hquote, hslash, hfeed, hreturn⟩ := hkey c hc
    exact .raw hquote hslash hfeed hreturn
  rwa [List.flatMap_singleton', String.ofList_toList] at hspells

/-- A string value is spelled with its line feeds and tabs escaped. -/
theorem spells_escaped {text : String}
    (htext : ∀ c ∈ text.toList, c ≠ '"' ∧ c ≠ '\\' ∧ c ≠ '\r') :
    Spells (text.toList.flatMap Layout.escape) text := by
  have hspells : Spells (text.toList.flatMap Layout.escape) (String.ofList text.toList) := by
    apply spells_flatMap
    intro c hc
    obtain ⟨hquote, hslash, hreturn⟩ := htext c hc
    unfold Layout.escape
    split
    next => exact .short (by decide)
    next => exact .short (by decide)
    next hfeed _ => exact .raw hquote hslash (fun heq => hfeed heq) hreturn
  rwa [String.ofList_toList] at hspells

/-- The numeral of an integer of 64 bits is a literal, the extremes included. -/
theorem literal_ofInt (value : Int64) :
    Grammar.Literal (Numeral.ofInt value.toInt) (.integer value) := by
  have hinteger :
      Literal.integer? (String.ofList (Numeral.ofInt value.toInt)) = some value.toInt := by
    rw [Literal.integer?, String.toList_ofList, Numeral.toInt?_ofInt]
  have hfits : Numeral.fitsInt64 value.toInt = true :=
    Numeral.fitsInt64_iff.mpr ⟨value.le_toInt, value.toInt_lt⟩
  have hpayload := Literal.payload_of_integer? hinteger hfits
  rw [Int64.ofInt_toInt, Literal.payload_eq_ok_iff, String.toList_ofList] at hpayload
  exact hpayload

/-- A value that a text denotes has no key. -/
theorem Value.withKey_empty {text : List Char} {value : Tree} (hvalue : Value text value) :
    value.withKey "" = value := by
  cases hvalue <;> rfl

end Grammar

/-! ## The layout -/

namespace Layout

variable {pretty : Bool} {depth : Nat}

theorem indent_append (pretty : Bool) (depth : Nat) (text rest : List Char) :
    indent pretty depth (text ++ rest) = indent pretty depth text ++ rest := by
  cases pretty with
  | false => rfl
  | true => exact (List.append_assoc _ text rest).symm

theorem lineBreak_append (pretty : Bool) (text rest : List Char) :
    lineBreak pretty (text ++ rest) = lineBreak pretty text ++ rest := by
  cases pretty <;> rfl

theorem blanks_indent {gap : List Char} (hgap : Blanks gap) (pretty : Bool) (depth : Nat) :
    Blanks (indent pretty depth gap) := by
  cases pretty with
  | false => exact hgap
  | true =>
      intro c hc
      rcases List.mem_append.mp hc with hspace | hc
      · exact .inl (List.eq_of_mem_replicate hspace)
      · exact hgap c hc

theorem blanks_lineBreak {gap : List Char} (hgap : Blanks gap) (pretty : Bool) :
    Blanks (lineBreak pretty gap) := by
  cases pretty with
  | false => exact hgap
  | true => exact List.forall_mem_cons.mpr ⟨.inr (.inr (.inl rfl)), hgap⟩

/-- A key is written in quotes, with a colon behind it. -/
theorem exists_label (pretty : Bool) {key : String} (hkey : key ≠ "") :
    ∃ gap, Blanks gap ∧ ∀ rest, label pretty key rest =
      '"' :: (key.toList ++ '"' :: (gap ++ ':' :: (gap ++ rest))) := by
  cases pretty with
  | false =>
      refine ⟨[], .nil, fun rest => ?_⟩
      rw [label, if_neg hkey]
      simp
  | true =>
      refine ⟨[' '], List.forall_mem_singleton.mpr (.inl rfl), fun rest => ?_⟩
      rw [label, if_neg hkey]
      simp

/-- A text denotes a node, whatever is written behind it: a value that is like the node, once it has
the node's key. -/
def Denotes (pretty : Bool) (depth : Nat) (node : Tree) (text : List Char) (value : Tree) : Prop :=
  Grammar.Value text value ∧ (value.withKey node.key).alike node = true ∧
    ∀ named rest, write pretty depth named node rest =
      indent pretty depth (label pretty (if named then node.key else "") (text ++ rest))

/-- A text denotes an item of a row, line break and indentation included, with a gap behind it. -/
def DenotesItem (Item : List Char → Tree → Prop) (pretty : Bool) (depth : Nat) (gap : List Char)
    (child : Tree) : Prop :=
  ∃ text tree, Item text tree ∧ tree.alike child = true ∧
    ∀ rest, lineBreak pretty (write pretty depth true child (gap ++ rest)) = text ++ rest

theorem Denotes.member {child : Tree} {text : List Char} {value : Tree}
    (hdenotes : Denotes pretty depth child text value) (hkey : child.key ≠ "")
    (hlegible : child.Legible) {gap : List Char} (hgap : Blanks gap) :
    DenotesItem Member pretty depth gap child := by
  obtain ⟨hvalue, halike, hwrite⟩ := hdenotes
  obtain ⟨space, hspace, hlabel⟩ := exists_label pretty hkey
  have hmember := Member.mk (blanks_lineBreak (blanks_indent .nil pretty depth) pretty)
    (spells_raw hlegible.key) hkey hspace hspace hvalue hgap
  refine ⟨_, _, hmember, halike, fun rest => ?_⟩
  rw [hwrite, if_pos rfl, hlabel, ← List.nil_append ('"' :: _), indent_append, lineBreak_append]
  simp

theorem Denotes.element {child : Tree} {text : List Char} {value : Tree}
    (hdenotes : Denotes pretty depth child text value) (hkey : child.key = "") {gap : List Char}
    (hgap : Blanks gap) : DenotesItem Element pretty depth gap child := by
  obtain ⟨hvalue, halike, hwrite⟩ := hdenotes
  rw [hkey, hvalue.withKey_empty] at halike
  have helement :=
    Element.mk (blanks_lineBreak (blanks_indent .nil pretty depth) pretty) hvalue hgap
  refine ⟨_, _, helement, halike, fun rest => ?_⟩
  rw [hwrite, if_pos rfl, hkey, label, if_pos rfl, ← List.nil_append (text ++ _), indent_append,
    lineBreak_append]
  simp

/-- The items of a row that is not empty are written with commas between them. -/
theorem exists_row {Item : List Char → Tree → Prop} {Row : List Char → List Tree → Prop}
    (hone : ∀ text tree, Item text tree → Row text [tree])
    (hcons : ∀ text tree body trees, Item text tree → Row body trees →
      Row (text ++ ',' :: body) (tree :: trees))
    {children : List Tree} (hchildren : children ≠ []) {gap : List Char} (hgap : Blanks gap)
    (hitem : ∀ child ∈ children, ∀ gap, Blanks gap → DenotesItem Item pretty depth gap child) :
    ∃ body trees, Row body trees ∧ Tree.rowAlike trees children = true ∧
      ∀ rest, lineBreak pretty (writeRow pretty depth children (gap ++ rest)) = body ++ rest := by
  induction children with
  | nil => exact absurd rfl hchildren
  | cons child more ih =>
      obtain ⟨hchild, hmore⟩ := List.forall_mem_cons.mp hitem
      cases more with
      | nil =>
          -- the last child has the end of its line and what follows behind it
          obtain ⟨text, tree, hitem, halike, hwrite⟩ := hchild _ (blanks_lineBreak hgap pretty)
          refine ⟨text, [tree], hone _ _ hitem, ?_, fun rest => ?_⟩
          · rw [Tree.rowAlike, halike]
            rfl
          · rw [writeRow, lineBreak_append, hwrite]
      | cons next others =>
          obtain ⟨body, trees, hrow, halikes, hwrites⟩ := ih (List.cons_ne_nil _ _) hmore
          obtain ⟨text, tree, hitem, halike, hwrite⟩ := hchild [] .nil
          refine ⟨_, tree :: trees, hcons _ _ _ _ hitem hrow, ?_, fun rest => ?_⟩
          · rw [Tree.rowAlike, halike, halikes]
            rfl
          · rw [writeRow, hwrites, ← List.nil_append (',' :: _), hwrite]
            simp

/-! ## Nodes -/

variable {head : Head} {children : List Tree}

/-- A container is written between brackets: what its items denote together, it denotes. -/
theorem exists_denotes_container (Item : List Char → Tree → Prop)
    (Row : List Char → List Tree → Prop) {first last : Char} {container : List Tree → Tree}
    (hone : ∀ text tree, Item text tree → Row text [tree])
    (hcons : ∀ text tree body trees, Item text tree → Row body trees →
      Row (text ++ ',' :: body) (tree :: trees))
    (hempty : ∀ gap, Blanks gap → Grammar.Value (first :: (gap ++ [last])) (container []))
    (hrow : ∀ body trees, Row body trees → trees.map Tree.key = children.map Tree.key →
      Grammar.Value (first :: (body ++ [last])) (container trees))
    (halike : ∀ trees, Tree.rowAlike trees children = true →
      ((container trees).withKey head.key).alike (.node head children) = true)
    (hwrite : ∀ named rest, write pretty depth named (.node head children) rest =
      indent pretty depth (label pretty (if named then head.key else "") (first ::
        lineBreak pretty
          (writeRow pretty (depth + 1) children (indent pretty depth (last :: rest))))))
    (hitem : ∀ child ∈ children, ∀ gap, Blanks gap →
      DenotesItem Item pretty (depth + 1) gap child) :
    ∃ text value, Denotes pretty depth (.node head children) text value := by
  have hclose :
      ∀ rest, indent pretty depth (last :: rest) = indent pretty depth [] ++ last :: rest :=
    fun rest => indent_append pretty depth [] (last :: rest)
  have hgap := blanks_indent .nil pretty depth
  by_cases hchildren : children = []
  · subst hchildren
    refine ⟨_, _, hempty _ (blanks_lineBreak hgap pretty), halike [] rfl, fun named rest => ?_⟩
    rw [hwrite, writeRow, hclose, lineBreak_append]
    simp [Tree.key, Tree.head]
  · obtain ⟨body, trees, hbody, hlike, hrest⟩ := exists_row hone hcons hchildren hgap hitem
    have hvalue := hrow body trees hbody (Tree.keys_eq_of_rowAlike hlike)
    refine ⟨_, _, hvalue, halike trees hlike, fun named rest => ?_⟩
    rw [hwrite, hclose, hrest]
    simp [Tree.key, Tree.head]

/-- A scalar is written as a string or a literal. -/
theorem exists_denotes_scalar (hscalar : head.kind.isContainer = false)
    (hsuits : head.scalar.Suits head.kind) (hinitialized : head.kind ≠ .uninitialized)
    (hlegible : (Tree.node head []).Legible) :
    ∃ text value, Denotes pretty depth (.node head []) text value := by
  have hdenotes : ∀ text, Grammar.Value text (.leaf head.payload) →
      (∀ named rest, write pretty depth named (.node head []) rest =
        indent pretty depth (label pretty (if named then head.key else "") (text ++ rest))) →
      ∃ text value, Denotes pretty depth (.node head []) text value := by
    intro text hvalue hwrite
    have hsame : { Head.holding head.payload with key := head.key }.alike head = true :=
      Head.alike_of_eq head.kind_payload rfl (Payload.scalar_of hsuits)
    exact ⟨text, _, hvalue, Bool.and_eq_true_iff.mpr ⟨hsame, rfl⟩, hwrite⟩
  cases hcase : head.payload with
  | uninitialized => exact absurd (Head.kind_of_payload hcase) hinitialized
  | null =>
      apply hdenotes "null".toList (hcase ▸ .literal .null)
      intro named rest
      simp only [write, hcase]
  | bool value =>
      cases value with
      | true =>
          apply hdenotes "true".toList (hcase ▸ .literal .yes)
          intro named rest
          simp only [write, hcase, if_true]
      | false =>
          apply hdenotes "false".toList (hcase ▸ .literal .no)
          intro named rest
          simp only [write, hcase, Bool.false_eq_true, if_false]
  | integer value =>
      have hvalue := Value.literal (literal_ofInt value)
      apply hdenotes _ (hcase ▸ hvalue)
      intro named rest
      simp only [write, hcase]
  | string text =>
      have hvalue := Value.string (spells_escaped (hlegible.value text hcase))
      apply hdenotes _ (hcase ▸ hvalue)
      intro named rest
      simp only [write, hcase, quote, List.cons_append, List.append_assoc, List.nil_append]
  | array => simp [Head.kind_of_payload hcase, Payload.kind, Kind.isContainer] at hscalar
  | object => simp [Head.kind_of_payload hcase, Payload.kind, Kind.isContainer] at hscalar

/-- Every node of a legible tree in the shape of a document is written as a value like it. -/
theorem exists_denotes {tree : Tree} (hwell : tree.WellFormed)
    (hdocumentary : tree.Throughout Tree.Documentary) (hlegible : tree.Throughout Tree.Legible)
    (pretty : Bool) (depth : Nat) : ∃ text value, Denotes pretty depth tree text value := by
  induction hwell generalizing depth with
  | @node head children root below ih =>
      obtain ⟨hnode, hnodes⟩ := hdocumentary
      obtain ⟨hplain, hplains⟩ := hlegible
      have hchild : ∀ child ∈ children,
          ∃ text value, Denotes pretty (depth + 1) child text value :=
        fun child hmem => ih child hmem (hnodes child hmem) (hplains child hmem) (depth + 1)
      -- members carry their keys, elements have none; apart from this both containers are written
      -- alike
      by_cases hobject : head.kind = .object
      · refine exists_denotes_container Member Members (fun _ _ => .one) (fun _ _ _ _ => .cons)
          (fun _ => .emptyObject) (fun _ _ hmembers hkeys => .object hmembers ?_)
          (fun trees hlike => ?_) (fun named rest => ?_) fun child hmem gap hgap => ?_
        · rw [hkeys]
          exact hnode.distinct hobject
        · have hsame : ((objectOf trees).withKey head.key).head.alike head = true :=
            Head.alike_of_isScalar_eq_false rfl hobject rfl rfl
          exact Bool.and_eq_true_iff.mpr ⟨hsame, hlike⟩
        · simp only [write, Head.payload_of_object hobject]
        · obtain ⟨text, value, hdenotes⟩ := hchild child hmem
          exact hdenotes.member (hnode.named hobject child hmem) (hplains child hmem).root hgap
      · by_cases harray : head.kind = .array
        · refine exists_denotes_container Element Elements (fun _ _ => .one) (fun _ _ _ _ => .cons)
            (fun _ => .emptyArray) (fun _ _ helements _ => .array helements)
            (fun trees hlike => ?_) (fun named rest => ?_) fun child hmem gap hgap => ?_
          · have hsame : ((arrayOf trees).withKey head.key).head.alike head = true :=
              Head.alike_of_isScalar_eq_false rfl harray rfl rfl
            exact Bool.and_eq_true_iff.mpr ⟨hsame, hlike⟩
          · simp only [write, Head.payload_of_array harray]
          · obtain ⟨text, value, hdenotes⟩ := hchild child hmem
            exact hdenotes.element (hnode.anonymous harray child hmem) hgap
        · have hscalar : head.kind.isContainer = false := Kind.isContainer_eq_false harray hobject
          obtain rfl : children = [] := List.map_eq_nil_iff.mp (root.childless hscalar)
          exact exists_denotes_scalar hscalar root.suits hnode.initialized hplain

end Layout

/-! ## Whole texts -/

/-- A legible tree in the shape of a document is read back from its text, spread out or compact. -/
theorem decode_render {tree : Tree} (hwell : tree.WellFormed) (hshape : tree.JsonShaped)
    (hlegible : tree.Throughout Tree.Legible) (pretty : Bool) :
    ∃ read, decode {} (tree.render pretty false) = .ok read ∧ read.alike tree = true := by
  obtain ⟨text, value, hvalue, halike, hwrite⟩ :=
    Layout.exists_denotes hwell hshape.documentary hlegible pretty 0
  rw [hshape.keyless, hvalue.withKey_empty] at halike
  have hdocument := Element.mk (Layout.blanks_indent .nil pretty 0) hvalue .nil
  have htext : (tree.render pretty false).toList =
      Layout.indent pretty 0 [] ++ (text ++ []) := by
    rw [Tree.render, String.toList_ofList, hwrite, ← Layout.indent_append, List.nil_append]
    rfl
  exact ⟨value, decode_of_document (htext ▸ hdocument), halike⟩

/-- The integers at both ends, and a text of two lines. -/
def extremes : Tree :=
  objectOf [(Tree.leaf (.integer Int64.minValue)).withKey "least",
    (Tree.leaf (.integer Int64.maxValue)).withKey "greatest",
    (Tree.leaf (.string "one\ntwo")).withKey "lines"]

theorem extremes_read_back :
    (extremes.WellFormed ∧ extremes.JsonShaped ∧ extremes.Throughout Tree.Legible) ∧
      ∃ read, decode {} (extremes.render true false) = .ok read ∧ read.alike extremes = true := by
  have hleaf : ∀ payload key, ((Tree.leaf payload).withKey key).WellFormed :=
    fun payload key => (Tree.WellFormed.leaf payload).with_key key
  have hwell : extremes.WellFormed :=
    .node ⟨fun _ => names_object (by decide), fun hother => absurd rfl hother, nofun, rfl⟩
      (List.forall_mem_cons.mpr ⟨hleaf _ _, List.forall_mem_cons.mpr ⟨hleaf _ _,
        List.forall_mem_singleton.mpr (hleaf _ _)⟩⟩)
  have hdocumentary : ∀ child ∈ extremes.children, child.Throughout Tree.Documentary :=
    List.forall_mem_cons.mpr ⟨.childless ⟨nofun, nofun, nofun, nofun⟩ rfl,
      List.forall_mem_cons.mpr ⟨.childless ⟨nofun, nofun, nofun, nofun⟩ rfl,
        List.forall_mem_singleton.mpr (.childless ⟨nofun, nofun, nofun, nofun⟩ rfl)⟩⟩
  have hshape : extremes.JsonShaped :=
    ⟨rfl, .node ⟨nofun, nofun, fun _ => by decide, fun _ => by decide⟩ hdocumentary⟩
  have hlines : ∀ text, Payload.string "one\ntwo" = .string text →
      ∀ c ∈ text.toList, c ≠ '"' ∧ c ≠ '\\' ∧ c ≠ '\r' := by
    rintro _ ⟨⟩
    simp
  have hlegible : extremes.Throughout Tree.Legible :=
    .node ⟨nofun, nofun⟩ (List.forall_mem_cons.mpr ⟨.childless ⟨nofun, by simp⟩ rfl,
      List.forall_mem_cons.mpr ⟨.childless ⟨nofun, by simp⟩ rfl,
        List.forall_mem_singleton.mpr (.childless ⟨hlines, by simp⟩ rfl)⟩⟩)
  exact ⟨⟨hwell, hshape, hlegible⟩, decode_render hwell hshape hlegible true⟩

end KeyedTree
