import KeyedTree.CommandLine.Run
import KeyedTree.Proofs.Reader.Clean
import KeyedTree.Proofs.Reader.Framing

/-! # Formatting what was formatted

A formatted document can be formatted again. What comes out then does not depend on how the document
was spread out before, and key order that was wanted once stays: the command reads back a tree like
the one that it wrote, and a tree that is sorted twice is a tree that is sorted once.
-/

namespace KeyedTree

open CommandLine

variable {tree : Tree}

/-- Reading a stream with either option is reading without sorting and arranging what is read. -/
theorem readStream_arranged (stoppers : List Char) (autosort : Bool) (bytes : List UInt8) :
    (readStream ⟨stoppers, autosort⟩ bytes).1 =
      (readStream ⟨stoppers, false⟩ bytes).1.map fun tree => tree.arranged autosort := by
  cases autosort with
  | false => cases (readStream ⟨stoppers, false⟩ bytes).1 <;> rfl
  | true => exact congrArg Prod.fst ((Reader.Underway.new stoppers).streamed_sorting bytes)

/-- What a text denotes is written by the layout if it is legible, in key order or not. -/
theorem Grammar.Document.printable {text : List Char} (hdocument : Document text tree)
    (hlegible : tree.Throughout Tree.Legible) (autosort : Bool) :
    (tree.arranged autosort).Printable := by
  have hclean := hdocument.clean autosort
  refine ⟨hclean.wellFormed, hclean.shaped, ?_⟩
  cases autosort with
  | false => exact hlegible
  | true => exact Tree.throughout_legible_sorted_iff.mpr hlegible

/-- A document on a line of its own is read back like it was written, with its objects in key order
if the option says so. -/
theorem exists_reread (htree : tree.Printable) (pretty autosort : Bool) :
    ∃ read, (readStream ⟨"".toList, autosort⟩ (utf8 (tree.render pretty false ++ "\n").toList)).1 =
      .ok read ∧ read.alike (tree.arranged autosort) = true := by
  obtain ⟨read, halike, hread⟩ := htree.readStream pretty
  have hline :
      (tree.render pretty false ++ "\n").toList = (tree.render pretty false).toList ++ ['\n'] :=
    String.toList_append
  have hread := congrArg Prod.fst (hread [])
  refine ⟨read.arranged autosort, ?_, Tree.alike_arranged halike autosort⟩
  rw [readStream_arranged, hline]
  exact congrArg (Except.map fun tree => tree.arranged autosort) hread

namespace CommandLine.Command

/-- The text that a document is formatted to, if it is known what is read without sorting. -/
theorem run_format {stoppers : String} {bytes : List UInt8}
    (hread : (readStream ⟨stoppers.toList, false⟩ bytes).1 = .ok tree)
    (input output : Option String) (compact sort : Bool) :
    (format input output compact sort stoppers).run bytes =
      .ok ((tree.arranged sort).render (!compact) false ++ "\n") := by
  have harranged := readStream_arranged stoppers.toList sort bytes
  rw [hread] at harranged
  unfold run
  rw [options, harranged]
  rfl

/-- A document that the command accepts, with whatever flags, has a text for each layout, sorted or
not. Each of these texts is accepted again: formatting it gives the text in the layout of the second
pass, sorted if one of the passes sorts. -/
theorem formatted_again {input output : Option String} {compact sort : Bool} {stoppers : String}
    {bytes : List UInt8}
    (hread : (readStream (format input output compact sort stoppers).options bytes).1 = .ok tree)
    (hlegible : tree.Throughout Tree.Legible) :
    ∃ formatted : Bool → Bool → String,
      (∀ compact sort, (format input output compact sort stoppers).run bytes =
        .ok (formatted compact sort)) ∧
        ∀ (input' output' : Option String) (compact sort compact' sort' : Bool),
          (format input' output' compact' sort' "").run (utf8 (formatted compact sort).toList) =
            .ok (formatted compact' (sort || sort')) := by
  rw [options, readStream_arranged] at hread
  obtain ⟨value, hvalue, rfl⟩ := map_eq_ok_iff.mp hread
  obtain ⟨text, hdocument⟩ := (Reader.Underway.new stoppers.toList).streamed (Prod.ext hvalue rfl)
  have hplain : value.Throughout Tree.Legible := by
    cases sort with
    | false => exact hlegible
    | true => exact Tree.throughout_legible_sorted_iff.mp hlegible
  refine ⟨fun compact sort => (value.arranged sort).render (!compact) false ++ "\n",
    run_format hvalue input output, fun input' output' compact sort compact' sort' => ?_⟩
  have hprintable := hdocument.printable hplain sort
  obtain ⟨read, hreread, halike⟩ := exists_reread hprintable (!compact) sort'
  rw [Tree.arranged_arranged] at halike
  have hsame := Tree.render_eq_of_alike halike (!compact') false
  unfold run
  rw [options, hreread]
  exact congrArg (fun text => Except.ok (text ++ "\n")) hsame

/-- An object on one line, with its members out of key order. -/
def crowdedLine : List Char :=
  "\x7b\"b\": [null, true] , \"a\":\"x\"\x7d".toList

theorem crowdedLine_formatted_again :
    ∃ tree, (readStream (format none none true false "").options (utf8 crowdedLine)).1 = .ok tree ∧
      tree.Throughout Tree.Legible ∧
      ∃ formatted : Bool → Bool → String,
        (∀ compact sort,
          (format none none compact sort "").run (utf8 crowdedLine) =
            .ok (formatted compact sort)) ∧
          ∀ (input' output' : Option String) (compact sort compact' sort' : Bool),
            (format input' output' compact' sort' "").run (utf8 (formatted compact sort).toList) =
              .ok (formatted compact' (sort || sort')) := by
  let members := [(Grammar.arrayOf [.leaf .null, .leaf (.bool true)]).withKey "b",
    (Tree.leaf (.string "x")).withKey "a"]
  have hread : (readStream (format none none true false "").options (utf8 crowdedLine)).1 =
      .ok (Grammar.objectOf members) := by
    have hline : crowdedLine ≠ [] ∧ '\n' ∉ crowdedLine := by decide
    exact congrArg Prod.fst
      ((Reader.streamed_last (Reader.not_settled_new {}) hline.1 hline.2).trans rfl)
  have htext : ∀ text, Payload.string "x" = .string text →
      ∀ c ∈ text.toList, c ≠ '"' ∧ c ≠ '\\' ∧ c ≠ '\r' := by
    rintro _ ⟨⟩
    simp
  have hkey : ∀ c ∈ "b".toList, c ≠ '"' ∧ c ≠ '\\' ∧ c ≠ '\n' ∧ c ≠ '\r' := by simp
  have hlegible : (Grammar.objectOf members).Throughout Tree.Legible :=
    .node ⟨nofun, nofun⟩ (List.forall_mem_cons.mpr ⟨.node ⟨nofun, hkey⟩ (List.forall_mem_cons.mpr
        ⟨.childless ⟨nofun, nofun⟩ rfl,
          List.forall_mem_singleton.mpr (.childless ⟨nofun, nofun⟩ rfl)⟩),
      List.forall_mem_singleton.mpr (.childless ⟨htext, by simp⟩ rfl)⟩)
  exact ⟨_, hread, hlegible, formatted_again hread hlegible⟩

end CommandLine.Command

end KeyedTree
