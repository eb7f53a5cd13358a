import KeyedTree.Proofs.Grammar.Rendering
import KeyedTree.Proofs.Reader.Lines

/-! # Documents in a stream

A stream may hold several documents, each with a line feed behind it. A reader that is given the
stream takes in the lines of the first document and no others: it is not settled before the last
line of the document, even if the document goes over many lines, since the document ends with a
character that no complete document takes in. Hence the documents are read one after the other, and
none is lost, split or read twice.
-/

namespace KeyedTree

open Grammar

/-! ## Ends of values -/

/-- There is no blank in a literal. -/
theorem Literal.not_blank_of_mem {token : List Char} {payload : Payload}
    (hliteral : Grammar.Literal token payload) : ∀ c ∈ token, isBlank c = false := by
  obtain ⟨first, rest, rfl, hstarts, hrest⟩ := continues_of_literal hliteral
  intro c hc
  have hbelongs : starts c = true ∨ continues c = true := by
    rcases List.mem_cons.mp hc with rfl | hc
    · exact .inl hstarts
    · exact .inr (hrest c hc)
  apply Bool.eq_false_iff.mpr
  intro hblank
  rcases isBlank_iff.mp hblank with rfl | rfl | rfl | rfl <;> rcases hbelongs with h | h <;> cases h

/-- No value ends with a blank. -/
theorem Grammar.Value.not_blank_of_getLast? {text : List Char} {value : Tree}
    (hvalue : Value text value) : ∃ c, text.getLast? = some c ∧ isBlank c = false := by
  have hclosed : ∀ (first last : Char) (body : List Char),
      (first :: (body ++ [last])).getLast? = some last := by
    intro first last body
    rw [← List.cons_append, List.getLast?_append]
    rfl
  cases hvalue with
  | string hbody => exact ⟨'"', hclosed _ _ _, rfl⟩
  | emptyObject hgap => exact ⟨'}', hclosed _ _ _, rfl⟩
  | object hmembers hkeys => exact ⟨'}', hclosed _ _ _, rfl⟩
  | emptyArray hgap => exact ⟨']', hclosed _ _ _, rfl⟩
  | array helements => exact ⟨']', hclosed _ _ _, rfl⟩
  | literal hliteral =>
      have hne : text ≠ [] := by
        obtain ⟨c, rest, rfl, _⟩ := Literal.continues_of_literal hliteral
        exact List.cons_ne_nil c rest
      exact ⟨_, List.getLast?_eq_some_getLast hne,
        Literal.not_blank_of_mem hliteral _ (List.getLast_mem hne)⟩

/-! ## Reading one document of many -/

namespace Reader

variable {cursor cursor' : Cursor} {progress : Progress} {text : List Char} {reader : Reader}
  {value : Tree}

/-- A reader without stoppers that takes a text in is a reader without stoppers. -/
theorem plain_of_feed (hfeed : (plain cursor progress).feed text = (.ok (), reader)) :
    ∃ cursor' progress', reader = plain cursor' progress' := by
  induction text generalizing cursor progress with
  | nil =>
      cases hfeed
      exact ⟨cursor, progress, rfl⟩
  | cons c rest ih =>
      obtain ⟨⟨next, stopped⟩, hstep⟩ := step_of_feed_cons hfeed
      have hunstopped : (plain cursor progress).unstopped = plain cursor progress := rfl
      obtain ⟨_, rfl⟩ := lexical_of_step (hunstopped ▸ hstep)
      exact ih (feed_cons_of_step hstep ▸ hfeed)

/-- Behind a complete document only blanks are taken in. -/
theorem blank_of_feed_done (hfeed : (plain cursor (.done value)).feed text = (.ok (), reader)) :
    ∀ c ∈ text, isBlank c = true := by
  induction text generalizing cursor with
  | nil => exact fun _ hc => absurd hc List.not_mem_nil
  | cons c rest ih =>
      obtain ⟨next, hstep⟩ := step_of_feed_cons hfeed
      have hdone : (Progress.done value).next c (cursor.advance c) = .ok next := hstep
      rw [Progress.next_done] at hdone
      split at hdone
      next hblank =>
        cases hdone
        rw [feed_cons_of_step hstep] at hfeed
        exact List.forall_mem_cons.mpr ⟨hblank, ih hfeed⟩
      next => cases hdone

/-- A reader that takes in a text that does not end with a blank is not settled before. -/
theorem not_settled_of_feed {rest : List Char}
    (hlast : ∃ c, text.getLast? = some c ∧ isBlank c = false)
    (hfeed : (plain cursor progress).feed (text ++ rest) = (.ok (), reader)) :
    ¬ (plain cursor progress).Settled := by
  obtain ⟨c, hc, hblank⟩ := hlast
  have hmem : c ∈ text ++ rest := List.mem_append_left _ (List.mem_of_getLast? hc)
  rintro (hdone | hstopped | ⟨fault, hfailed⟩)
  · obtain ⟨value, hvalue⟩ := Option.isSome_iff_exists.mp hdone
    have hprogress : progress = .done value := by
      cases progress <;> simp_all [result?, plain]
    subst hprogress
    exact absurd (blank_of_feed_done hfeed c hmem) (Bool.eq_false_iff.mp hblank)
  · cases hstopped
  · obtain rfl : progress = .failed fault := hfailed
    obtain ⟨first, more, hcons⟩ := List.exists_cons_of_ne_nil (List.ne_nil_of_mem hmem)
    rw [hcons] at hfeed
    obtain ⟨next, hstep⟩ := step_of_feed_cons hfeed
    cases hstep

/-- From a stream of lines, a document is read to the line feed behind it, and what follows is
left. -/
theorem streamed_document (hreturn : '\r' ∉ text)
    (hlast : ∃ c, text.getLast? = some c ∧ isBlank c = false)
    (hfeed : (plain cursor progress).feed (text ++ ['\n']) = (.ok (), plain cursor' (.done value)))
    (rest : List Char) :
    (plain cursor progress).streamed (utf8 (text ++ '\n' :: rest)) = (.ok value, utf8 rest) := by
  -- the induction is on the lines of the document
  induction hlength : text.length using Nat.strongRecOn generalizing text cursor progress with
  | ind length ih =>
      have hgoing := not_settled_of_feed hlast hfeed
      by_cases hbreak : '\n' ∈ text
      · obtain ⟨line, more, rfl, hline⟩ := List.eq_append_cons_of_mem hbreak
        obtain ⟨hreturn', hreturn⟩ := not_or.mp (mt List.mem_append.mpr hreturn)
        have hsplit :
            (line ++ '\n' :: more) ++ ['\n'] = (line ++ ['\n']) ++ (more ++ ['\n']) := by simp
        rw [hsplit, feed_append] at hfeed
        have hstream := streamed_cons hgoing hline (more ++ '\n' :: rest)
        rw [trimEnd_of_not_mem hreturn'] at hstream
        cases hmiddle : (plain cursor progress).feed (line ++ ['\n']) with
        | mk result middle =>
            rw [hmiddle] at hfeed hstream
            cases result with
            | error fault => cases hfeed
            | ok =>
                obtain ⟨_, _, rfl⟩ := plain_of_feed hmiddle
                rw [List.append_assoc, List.cons_append, hstream]
                refine ih more.length ?_ (List.not_mem_of_not_mem_cons hreturn) ?_ hfeed rfl
                · simp only [← hlength, List.length_append, List.length_cons]
                  omega
                · obtain ⟨c, hc, hblank⟩ := hlast
                  -- the line feed itself is a blank, so that more of the document follows it
                  have hmore : more ≠ [] := by
                    rintro rfl
                    rw [List.getLast?_concat, Option.some.injEq] at hc
                    exact absurd hblank (hc ▸ Bool.noConfusion)
                  refine ⟨c, ?_, hblank⟩
                  rwa [List.getLast?_append_of_ne_nil _ (List.cons_ne_nil _ _),
                    List.getLast?_cons_of_ne_nil hmore] at hc
      · rw [streamed_cons hgoing hbreak rest, trimEnd_of_not_mem hreturn, hfeed]
        exact streamed_of_complete rfl _

end Reader

/-! ## Carriage returns -/

namespace Layout

variable {pretty : Bool} {depth : Nat} {c : Char} {rest : List Char}

theorem return_not_mem_indent (hrest : '\r' ∉ rest) : '\r' ∉ indent pretty depth rest := by
  cases pretty with
  | false => exact hrest
  | true =>
      intro hmem
      rcases List.mem_append.mp hmem with hspace | hmem
      · exact absurd (List.eq_of_mem_replicate hspace) (by decide)
      · exact hrest hmem

theorem return_not_mem_lineBreak (hrest : '\r' ∉ rest) : '\r' ∉ lineBreak pretty rest := by
  cases pretty with
  | false => exact hrest
  | true => exact List.not_mem_cons_of_ne_of_not_mem (by decide) hrest

theorem return_not_mem_label {key : String} (hkey : '\r' ∉ key.toList) (hrest : '\r' ∉ rest) :
    '\r' ∉ label pretty key rest := by
  unfold label
  split
  next => exact hrest
  next => cases pretty <;> simp [hkey, hrest]

theorem return_not_mem_quote {text : String} (htext : '\r' ∉ text.toList) (hrest : '\r' ∉ rest) :
    '\r' ∉ quote text rest := by
  have hescape : ∀ c ∈ text.toList, '\r' ∉ escape c := by
    intro c hc
    have hne : '\r' ≠ c := fun heq => htext (heq ▸ hc)
    unfold escape
    split <;> simp_all
  simpa [quote, hrest] using hescape

theorem return_not_mem_writeRow {children : List Tree}
    (hchild : ∀ child ∈ children, ∀ rest, '\r' ∉ rest → '\r' ∉ write pretty depth true child rest)
    (hrest : '\r' ∉ rest) : '\r' ∉ writeRow pretty depth children rest := by
  induction children with
  | nil => exact hrest
  | cons child more ih =>
      obtain ⟨hfirst, hmore⟩ := List.forall_mem_cons.mp hchild
      cases more with
      | nil => exact hfirst _ (return_not_mem_lineBreak hrest)
      | cons next others =>
          exact hfirst _ (List.not_mem_cons_of_ne_of_not_mem (by decide)
            (return_not_mem_lineBreak (ih hmore)))

/-- No carriage return is written, if there is none in the keys and texts of a tree. -/
theorem return_not_mem_write {tree : Tree} (hlegible : tree.Throughout Tree.Legible) (named : Bool)
    (hrest : '\r' ∉ rest) : '\r' ∉ write pretty depth named tree rest := by
  induction hlegible generalizing depth named rest with
  | @node head children hnode below ih =>
      have hchild : ∀ child ∈ children, ∀ rest, '\r' ∉ rest →
          '\r' ∉ write pretty (depth + 1) true child rest :=
        fun child hmem rest hrest => ih child hmem true hrest
      have hkey : '\r' ∉ (if named then head.key else "").toList := by
        split
        next => exact fun hmem => (hnode.key _ hmem).2.2.2 rfl
        next => exact List.not_mem_nil
      have hclose : ∀ last, last ≠ '\r' →
          '\r' ∉ lineBreak pretty (writeRow pretty (depth + 1) children
          (indent pretty depth (last :: rest))) := by
        intro last hlast
        have hend : '\r' ∉ indent pretty depth (last :: rest) :=
          return_not_mem_indent (List.not_mem_cons_of_ne_of_not_mem hlast.symm hrest)
        exact return_not_mem_lineBreak (return_not_mem_writeRow hchild hend)
      unfold write
      refine return_not_mem_indent (return_not_mem_label hkey ?_)
      cases hpayload : head.payload with
      | uninitialized => simp [hrest]
      | null => simp [hrest]
      | bool value => cases value <;> simp [hrest]
      | integer value =>
          have hdigits : '\r' ∉ Numeral.ofInt value.toInt := fun hmem =>
            absurd (Literal.not_blank_of_mem (literal_ofInt value) _ hmem) (by decide)
          simp [hdigits, hrest]
      | string text =>
          exact return_not_mem_quote (fun hmem => (hnode.value text hpayload _ hmem).2.2 rfl) hrest
      | array => exact List.not_mem_cons_of_ne_of_not_mem (by decide) (hclose ']' (by decide))
      | object => exact List.not_mem_cons_of_ne_of_not_mem (by decide) (hclose '}' (by decide))

end Layout

/-! ## Documents one after the other -/

/-- Reads documents from a stream one after the other. The answers come with the bytes left
unread. -/
def readDocuments (options : ReadOptions) : Nat → List UInt8 → List (Except Fault Tree) × List UInt8
  | 0, bytes => ([], bytes)
  | count + 1, bytes =>
      let (result, bytes) := readStream options bytes
      let (results, bytes) := readDocuments options count bytes
      (result :: results, bytes)

/-- Documents on lines of their own, each spread out or compact. -/
def writeDocuments (documents : List (Tree × Bool)) : List Char :=
  documents.flatMap fun document => (document.1.render document.2 false).toList ++ ['\n']

/-- A tree that the layout writes as a document: it is well-formed, it has the shape of a document,
and its texts are free of the characters that the layout would have to escape but does not. -/
structure Tree.Printable (tree : Tree) : Prop where
  wellFormed : tree.WellFormed
  shaped : tree.JsonShaped
  legible : tree.Throughout Tree.Legible

/-- A tree is written as a value that is like it, without blanks around it. -/
theorem Tree.Printable.value {tree : Tree} (htree : tree.Printable) (pretty : Bool) :
    ∃ value, Grammar.Value (tree.render pretty false).toList value ∧ value.alike tree = true := by
  obtain ⟨text, value, hvalue, halike, hwrite⟩ :=
    Layout.exists_denotes htree.wellFormed htree.shaped.documentary htree.legible pretty 0
  rw [htree.shaped.keyless, hvalue.withKey_empty] at halike
  have htext : (tree.render pretty false).toList = text := by
    rw [Tree.render, String.toList_ofList, hwrite, List.append_nil]
    cases pretty <;> rfl
  exact ⟨value, htext ▸ hvalue, halike⟩

/-- A value on a line of its own is complete behind the line feed, also if it is a literal. -/
theorem Progress.reaches_line {text : List Char} {value : Tree}
    (hvalue : Grammar.Value text value) :
    fresh.Reaches (text ++ ['\n']) (· = .done value) := by
  refine .append ((hvalue.reaches expects_fresh fun _ => rfl).imp fun _ hsettles => ?_)
  exact hsettles.reaches_step rfl (skipsBlanks_done value '\n' rfl) (.nil rfl)

/-- A document is read from a stream together with the line feed behind it, and nothing else is. -/
theorem Tree.Printable.readStream {tree : Tree} (htree : tree.Printable) (pretty : Bool) :
    ∃ read, read.alike tree = true ∧ ∀ rest,
      readStream {} (utf8 ((tree.render pretty false).toList ++ '\n' :: rest)) =
        (.ok read, utf8 rest) := by
  obtain ⟨value, hvalue, halike⟩ := htree.value pretty
  refine ⟨value, halike, fun rest => ?_⟩
  obtain ⟨cursor, last, hfeed, rfl⟩ := Progress.reaches_line hvalue .start
  have hreturn : '\r' ∉ (tree.render pretty false).toList := by
    rw [Tree.render, String.toList_ofList]
    exact Layout.return_not_mem_write htree.legible false List.not_mem_nil
  exact Reader.streamed_document hreturn hvalue.not_blank_of_getLast? hfeed rest

/-- Documents that are written to a stream one after the other, each spread out or compact and with
a line feed behind it, are read from the stream one after the other: every call gives the next tree,
and behind the last one nothing is left. -/
theorem readDocuments_written {documents : List (Tree × Bool)}
    (hdocuments : ∀ document ∈ documents, document.1.Printable) :
    List.Forall₂ (fun result document => ∃ read, result = .ok read ∧ read.alike document.1 = true)
        (readDocuments {} documents.length (utf8 (writeDocuments documents))).1 documents ∧
      (readDocuments {} documents.length (utf8 (writeDocuments documents))).2 = [] := by
  induction documents with
  | nil => exact ⟨.nil, rfl⟩
  | cons document rest ih =>
      obtain ⟨hdocument, hrest⟩ := List.forall_mem_cons.mp hdocuments
      obtain ⟨read, halike, hread⟩ := hdocument.readStream document.2
      obtain ⟨hresults, hleft⟩ := ih hrest
      have hwritten : writeDocuments (document :: rest) =
          (document.1.render document.2 false).toList ++ '\n' :: writeDocuments rest := by
        simp [writeDocuments]
      rw [List.length_cons, readDocuments, hwritten, hread]
      exact ⟨.cons ⟨read, rfl, halike⟩ hresults, hleft⟩

/-- An object over three lines, and a numeral that only its line feed ends. -/
def twoDocuments : List (Tree × Bool) :=
  [(objectOf [(Tree.leaf (.string "one\ntwo")).withKey "lines"], true),
    (.leaf (.integer Int64.minValue), false)]

theorem twoDocuments_read_back :
    (∀ document ∈ twoDocuments, document.1.Printable) ∧
      List.Forall₂ (fun result document => ∃ read, result = .ok read ∧ read.alike document.1 = true)
        (readDocuments {} twoDocuments.length (utf8 (writeDocuments twoDocuments))).1 twoDocuments ∧
      (readDocuments {} twoDocuments.length (utf8 (writeDocuments twoDocuments))).2 = [] := by
  have hlines : ∀ text, Payload.string "one\ntwo" = .string text →
      ∀ c ∈ text.toList, c ≠ '"' ∧ c ≠ '\\' ∧ c ≠ '\r' := by
    rintro _ ⟨⟩
    simp
  have hobject : (objectOf [(Tree.leaf (.string "one\ntwo")).withKey "lines"]).Printable :=
    { wellFormed := .node ⟨fun _ => names_object (by decide), fun hother => absurd rfl hother,
      nofun, rfl⟩
        (List.forall_mem_singleton.mpr ((Tree.WellFormed.leaf _).with_key _))
      shaped := ⟨rfl, .node ⟨nofun, nofun, fun _ => by decide, fun _ => by decide⟩
        (List.forall_mem_singleton.mpr (.childless ⟨nofun, nofun, nofun, nofun⟩ rfl))⟩
      legible := .node ⟨nofun, nofun⟩
        (List.forall_mem_singleton.mpr (.childless ⟨hlines, by simp⟩ rfl)) }
  have hnumeral : (Tree.leaf (.integer Int64.minValue)).Printable :=
    { wellFormed := .leaf _
      shaped := ⟨rfl, .childless ⟨nofun, nofun, nofun, nofun⟩ rfl⟩
      legible := .childless ⟨nofun, nofun⟩ rfl }
  have hdocuments : ∀ document ∈ twoDocuments, document.1.Printable :=
    List.forall_mem_cons.mpr ⟨hobject, List.forall_mem_singleton.mpr hnumeral⟩
  exact ⟨hdocuments, readDocuments_written hdocuments⟩

end KeyedTree
