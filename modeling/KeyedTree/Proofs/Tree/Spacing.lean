import KeyedTree.Proofs.Json.Writing

/-! # Blanks between tokens

Spread out, a tree is written with the tokens of the compact layout and with spaces and line feeds
between them. The blanks of a key or of a string value stand between quotes. So without the blanks
outside of quotes the text is the compact one, provided that no key and no value has a quote in it,
which would not be escaped.
-/

namespace KeyedTree

/-- The text without the spaces and line feeds outside of quotes; `quoted` says whether it begins
inside of them. -/
def compacted (quoted : Bool) : List Char → List Char
  | [] => []
  | c :: rest =>
      if c = '"' then c :: compacted (!quoted) rest
      else if quoted = false ∧ (c = ' ' ∨ c = '\n') then compacted quoted rest
      else c :: compacted quoted rest

/-- Neither the key of a node nor the string that it holds has a quote. -/
structure Tree.Unquoted (node : Tree) : Prop where
  key : '"' ∉ node.key.toList
  value : ∀ text, node.payload = .string text → '"' ∉ text.toList

/-! ## Tokens -/

section Tokens

variable {token text : List Char} {c : Char}

@[simp] theorem compacted_quote (quoted : Bool) (rest : List Char) :
    compacted quoted ('"' :: rest) = '"' :: compacted (!quoted) rest := by
  rw [compacted, if_pos rfl]

theorem compacted_blank (hc : c = ' ' ∨ c = '\n') (rest : List Char) :
    compacted false (c :: rest) = compacted false rest := by
  have hquote : c ≠ '"' := by
    rintro rfl
    revert hc
    decide
  rw [compacted, if_neg hquote, if_pos ⟨rfl, hc⟩]

theorem compacted_cons (hc : c ≠ '"' ∧ c ≠ ' ' ∧ c ≠ '\n') (rest : List Char) :
    compacted false (c :: rest) = c :: compacted false rest := by
  obtain ⟨hquote, hspace, hfeed⟩ := hc
  rw [compacted, if_neg hquote, if_neg fun hblank => hblank.2.elim hspace hfeed]

/-- A token without quotes and blanks stays as it is. -/
theorem compacted_token (htoken : ∀ c ∈ token, c ≠ '"' ∧ c ≠ ' ' ∧ c ≠ '\n') (rest : List Char) :
    compacted false (token ++ rest) = token ++ compacted false rest := by
  induction token with
  | nil => rfl
  | cons c token ih =>
      obtain ⟨hc, hmore⟩ := List.forall_mem_cons.mp htoken
      rw [List.cons_append, compacted_cons hc, ih hmore, List.cons_append]

/-- And so does everything up to the quote that closes. -/
theorem compacted_quoted (htext : '"' ∉ text) (rest : List Char) :
    compacted true (text ++ '"' :: rest) = text ++ '"' :: compacted false rest := by
  induction text with
  | nil => exact compacted_quote true rest
  | cons c text ih =>
      obtain ⟨hquote, hmore⟩ := List.ne_and_not_mem_of_not_mem_cons htext
      rw [List.cons_append, compacted, if_neg hquote.symm, if_neg (by simp), ih hmore,
        List.cons_append]

end Tokens

theorem Numeral.solid_of_mem_ofInt (n : Int) : ∀ c ∈ ofInt n, c ≠ '"' ∧ c ≠ ' ' ∧ c ≠ '\n' := by
  intro c hc
  refine ⟨?_, ?_, ?_⟩ <;> rintro rfl <;> exact absurd (Fraction.numeric_of_mem_ofInt _ hc)
    (by simp [Numeric])

/-! ## The layout -/

namespace Layout

variable {head : Head} {children row : List Tree} {tree : Tree}

@[simp] theorem compacted_indent (pretty : Bool) (depth : Nat) (rest : List Char) :
    compacted false (indent pretty depth rest) = compacted false rest := by
  have hspaces :
      ∀ count, compacted false (List.replicate count ' ' ++ rest) = compacted false rest := by
    intro count
    induction count with
    | zero => rfl
    | succ count ih => rw [List.replicate_succ, List.cons_append, compacted_blank (.inl rfl), ih]
  cases pretty with
  | false => rfl
  | true => exact hspaces (4 * depth)

@[simp] theorem compacted_lineBreak (pretty : Bool) (rest : List Char) :
    compacted false (lineBreak pretty rest) = compacted false rest := by
  cases pretty with
  | false => rfl
  | true => exact compacted_blank (.inr rfl) rest

theorem compacted_label {key : String} (hkey : '"' ∉ key.toList) (pretty : Bool)
    (rest : List Char) :
    compacted false (label pretty key rest) = label false key (compacted false rest) := by
  by_cases hempty : key = ""
  · rw [label, label, if_pos hempty, if_pos hempty]
  · have hcolon : ∀ rest, compacted false (':' :: rest) = ':' :: compacted false rest :=
      compacted_cons (by decide)
    simp only [label, if_neg hempty, List.cons_append, List.append_assoc, compacted_quote,
      Bool.not_false]
    cases pretty with
    | false =>
        simp only [Bool.false_eq_true, if_false, List.cons_append, List.nil_append,
          compacted_quoted hkey, hcolon]
    | true =>
        simp only [if_true, Bool.false_eq_true, if_false, List.cons_append, List.nil_append,
          compacted_quoted hkey, compacted_blank (.inl rfl), hcolon]

theorem compacted_string {text : String} (htext : '"' ∉ text.toList) (rest : List Char) :
    compacted false (quote text rest) = quote text (compacted false rest) := by
  have hescape : ∀ c ∈ text.toList, '"' ∉ escape c := by
    intro c hc
    unfold escape
    split
    next => decide
    next => decide
    next => exact fun hmem => htext (List.mem_singleton.mp hmem ▸ hc)
  have hbody : '"' ∉ text.toList.flatMap escape := by
    rw [List.mem_flatMap]
    rintro ⟨c, hc, hmem⟩
    exact hescape c hc hmem
  rw [quote, quote, List.cons_append, compacted_quote]
  exact congrArg _ (compacted_quoted hbody rest)

theorem compacted_writeRow {pretty : Bool} {depth : Nat}
    (hrow : ∀ child ∈ row, ∀ rest, compacted false (write pretty depth true child rest) =
      write false depth true child (compacted false rest)) (rest : List Char) :
    compacted false (writeRow pretty depth row rest) =
      writeRow false depth row (compacted false rest) := by
  induction row with
  | nil => rfl
  | cons child more ih =>
      obtain ⟨hchild, hmore⟩ := List.forall_mem_cons.mp hrow
      cases more with
      | nil =>
          rw [writeRow, writeRow, hchild, compacted_lineBreak]
          rfl
      | cons next others =>
          rw [writeRow, writeRow, hchild, compacted_cons (by decide), compacted_lineBreak, ih hmore]
          rfl

theorem compacted_write (htree : tree.Throughout Tree.Unquoted) (pretty : Bool) (depth : Nat)
    (named : Bool) (rest : List Char) :
    compacted false (write pretty depth named tree rest) =
      write false depth named tree (compacted false rest) := by
  induction htree generalizing depth named rest with
  | @node head children hroot _ ih =>
      have hrow :
          ∀ rest, _ := compacted_writeRow fun child hchild => ih child hchild (depth + 1) true
      have hkey : '"' ∉ (if named then head.key else "").toList := by
        split
        next => exact hroot.key
        next => exact List.not_mem_nil
      rw [write, write, compacted_indent, compacted_label hkey]
      refine congrArg (fun rest => indent false depth (label false _ rest)) ?_
      cases hpayload : head.payload with
      | uninitialized => exact compacted_token (by simp) rest
      | null => exact compacted_token (by simp) rest
      | bool value => exact compacted_token (by cases value <;> simp) rest
      | integer value => exact compacted_token (Numeral.solid_of_mem_ofInt value.toInt) rest
      | string text => exact compacted_string (hroot.value text hpayload) rest
      | array =>
          simp only [compacted_cons (c := '[') (by decide), compacted_lineBreak, hrow,
            compacted_indent, compacted_cons (c := ']') (by decide)]
          rfl
      | object =>
          simp only [compacted_cons (c := '{') (by decide), compacted_lineBreak, hrow,
            compacted_indent, compacted_cons (c := '}') (by decide)]
          rfl

end Layout

/-- Without the spaces and line feeds outside of quotes, the text of a tree is its compact text. The
compact text itself has none of them. -/
theorem compacted_render {tree : Tree} (htree : tree.Throughout Tree.Unquoted)
    (pretty named : Bool) :
    compacted false (tree.render pretty named).toList = (tree.render false named).toList := by
  rw [Tree.render, Tree.render, String.toList_ofList, String.toList_ofList,
    Layout.compacted_write htree]
  rfl

/-- A tree with blanks in its keys and in a value, with a member that has no key and an element that
has one. -/
def blankTree : Tree :=
  (Grammar.objectOf [.leaf (.string "a \n b"),
    (Grammar.arrayOf [(Tree.leaf .uninitialized).withKey " e "]).withKey "k"]).withKey "own\nkey"

theorem blankTree_compacted :
    blankTree.Throughout Tree.Unquoted ∧
      compacted false (blankTree.render true true).toList = (blankTree.render false true).toList ∧
        blankTree.render false true =
          "\"own\nkey\":\x7b\"a \\n b\",\"k\":[\" e \":notinit]\x7d" := by
  have htext : ∀ text, Payload.string "a \n b" = .string text → '"' ∉ text.toList := by
    rintro _ ⟨⟩
    decide
  have hinner : ((Grammar.arrayOf [(Tree.leaf .uninitialized).withKey " e "]).withKey
      "k").Throughout Tree.Unquoted :=
    .node ⟨by decide, nofun⟩ (List.forall_mem_singleton.mpr (.childless ⟨by decide, nofun⟩ rfl))
  have htree : blankTree.Throughout Tree.Unquoted :=
    .node ⟨by decide, nofun⟩ (List.forall_mem_cons.mpr
      ⟨.childless ⟨by decide, htext⟩ rfl, List.forall_mem_singleton.mpr hinner⟩)
  exact ⟨htree, compacted_render htree true true, by rfl⟩

end KeyedTree
