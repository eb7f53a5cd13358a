import KeyedTree.Proofs.Grammar.Soundness
import KeyedTree.Proofs.Reader.KeyOrder
import KeyedTree.Proofs.Reader.Outcome

/-! # Reading into key order

A reader that sorts and one that does not are given the same text. Behind every character the first
holds what the second holds, put into key order: its objects take each member in at its place, and
which members are there does not depend on where they are. Hence both refuse the same texts with the
same fault, and reading into key order is reading and sorting afterwards.
-/

namespace KeyedTree

open Grammar

/-! ## What a sorting reader holds -/

/-- A value that is being read, with the values inside that are complete in key order. -/
def Frame.sorted : Frame → Frame
  | .object node phase => .object node.ordered phase
  | .array node phase => .array node.ordered phase
  | .string body => .string body
  | .literal start token => .literal start token

/-- A container around a value that is being read, with its complete values in key order. -/
def Hole.sorted : Hole → Hole
  | .member node key => .member node.ordered key
  | .element node => .element node.ordered

/-- What a sorting frame makes of a character. -/
def Turn.sorted : Turn → Turn
  | .stay frame => .stay frame.sorted
  | .descend hole frame => .descend hole.sorted frame.sorted
  | .close value => .close value.sorted
  | .closeBefore value => .closeBefore value.sorted

/-- How far a sorting reader has read a document. -/
def Progress.sorted : Progress → Progress
  | .fresh => .fresh
  | .within top around => .within top.sorted (around.map Hole.sorted)
  | .done value => .done value.sorted
  | .failed fault => .failed fault

/-! ## Characters of a value -/

namespace Frame

variable {text : List Char} {node : Tree} {c : Char} {place : Cursor}

/-- Every value starts out in key order. -/
theorem start?_sorted (c : Char) (place : Cursor) :
    start? c place true = (start? c place false).map sorted := by
  have hobject : Tree.node { kind := .object, autosort := true } [] =
      (Tree.node { kind := .object } []).ordered := by
    simp only [Tree.ordered, if_true, Tree.orderedRow, Tree.inKeyOrder, List.mergeSort_nil]
    rfl
  have harray : Tree.node { kind := .array, autosort := true } [] =
      (Tree.node { kind := .array } []).ordered := by
    simp only [Tree.ordered, reduceCtorEq, if_false, Tree.orderedRow]
  unfold start?
  rw [hobject, harray]
  split
  next => rfl
  next =>
    split
    next => rfl
    next =>
      split
      next => rfl
      next => split <;> rfl

/-- A value without children is the same in key order. -/
theorem sorted_leaf {payload : Payload} (hscalar : payload.kind.isContainer = false) :
    (Tree.leaf payload).sorted = .leaf payload := by
  have hobject : (Head.holding payload).kind ≠ .object := by
    intro hobject
    have hkind : payload.kind = .object := hobject
    rw [hkind] at hscalar
    cases hscalar
  have hkind : (Tree.leaf payload).kind.isContainer = false := hscalar
  have hordered : (Tree.leaf payload).ordered =
      .node { Head.holding payload with autosort := true } [] := by
    simp only [Tree.leaf, Tree.ordered, hobject, if_false, Tree.orderedRow]
  rw [Tree.sorted, hkind, hordered]
  rfl

theorem literalValue_sorted (start : Cursor) (token : String) :
    (literalValue start token).map Tree.sorted = literalValue start token := by
  unfold literalValue
  split
  next payload hpayload =>
    have hliteral := Literal.payload_eq_ok_iff.mp hpayload
    have hscalar : payload.kind.isContainer = false := by
      generalize token.toList = text at hliteral
      cases hliteral <;> rfl
    exact congrArg Except.ok (sorted_leaf hscalar)
  next => rfl

/-- An object takes in the same characters, wherever its members stand. -/
theorem feedObject_sorted (hautosort : node.head.autosort = false) (hkind : node.kind = .object)
    (phase : ObjectPhase) :
    feedObject node.ordered phase c place = (feedObject node phase c place).map Turn.sorted := by
  have hclosed : node.sorted = node.ordered := Tree.sorted_of_container (by rw [hkind]; rfl)
  cases phase with
  | value key =>
      simp only [feedObject, Tree.autosort_ordered, hautosort, start?_sorted]
      split
      next => rfl
      next => cases start? c place false <;> rfl
  | key body =>
      simp only [feedObject]
      cases body.feed c with
      | error defect => rfl
      | ok read =>
          cases read with
          | more body => rfl
          | closed key =>
              simp only
              split <;> rfl
  | _ => simp only [feedObject]; grind [Except.map, Turn.sorted, Frame.sorted]

theorem feedArray_sorted (hautosort : node.head.autosort = false) (hkind : node.kind = .array)
    (phase : ArrayPhase) :
    feedArray node.ordered phase c place = (feedArray node phase c place).map Turn.sorted := by
  have hclosed : node.sorted = node.ordered := Tree.sorted_of_container (by rw [hkind]; rfl)
  cases phase with
  | valueOrClose =>
      simp only [feedArray, Tree.autosort_ordered, hautosort, start?_sorted]
      split
      next => rfl
      next =>
        split
        next => exact congrArg (Except.ok ∘ Turn.close) hclosed.symm
        next => cases start? c place false <;> rfl
  | value =>
      simp only [feedArray, Tree.autosort_ordered, hautosort, start?_sorted]
      split
      next => rfl
      next => cases start? c place false <;> rfl
  | commaOrClose => simp only [feedArray]; grind [Except.map, Turn.sorted, Frame.sorted]

theorem inToken_sorted (frame : Frame) : frame.sorted.inToken = frame.inToken := by
  cases frame with
  | object node phase => cases phase <;> rfl
  | _ => rfl

/-- What an object that is being read holds so far. -/
theorem Stands.object_node {phase : ObjectPhase} (hstands : Stands text (.object node phase)) :
    ∃ members, node = objectOf members := by
  cases hstands <;> exact ⟨_, rfl⟩

theorem Stands.array_node {phase : ArrayPhase} (hstands : Stands text (.array node phase)) :
    ∃ elements, node = arrayOf elements := by
  cases hstands <;> exact ⟨_, rfl⟩

/-- A sorting frame makes of a character what the other frame makes of it, in key order. -/
theorem Stands.feed_sorted {frame : Frame} (hstands : frame.Stands text) (c : Char)
    (place : Cursor) :
    frame.sorted.feed c place = (frame.feed c place).map Turn.sorted := by
  cases frame with
  | object node phase =>
      obtain ⟨members, rfl⟩ := hstands.object_node
      exact feedObject_sorted rfl rfl phase
  | array node phase =>
      obtain ⟨elements, rfl⟩ := hstands.array_node
      exact feedArray_sorted rfl rfl phase
  | string body =>
      simp only [Frame.sorted, Frame.feed]
      cases body.feed c with
      | error defect => rfl
      | ok read =>
          cases read with
          | more body => rfl
          | closed value => exact congrArg (Except.ok ∘ Turn.close) (sorted_leaf rfl).symm
  | literal start token =>
      simp only [Frame.sorted, Frame.feed]
      split
      next => rfl
      next =>
        have hsame := literalValue_sorted start token
        cases hvalue : literalValue start token with
        | error fault => rfl
        | ok value =>
            rw [hvalue] at hsame
            exact congrArg (Except.map Turn.closeBefore) hsame.symm

end Frame

/-! ## Values in containers -/

theorem Grammar.Member.keyed {text : List Char} {member : Tree} (hmember : Member text member) :
    member.key ≠ "" := by
  cases hmember with
  | mk _ _ hkey _ _ _ _ => exact hkey

/-- Members that are read have keys. -/
theorem Grammar.Members.keyed {body : List Char} {members : List Tree} :
    Members body members → ∀ member ∈ members, member.key ≠ ""
  | .one hmember => List.forall_mem_singleton.mpr hmember.keyed
  | .more hmembers hmember =>
      List.forall_mem_append.mpr ⟨hmembers.keyed, List.forall_mem_singleton.mpr hmember.keyed⟩

theorem Grammar.Before.keyed {before : List Char} {members : List Tree}
    (hbefore : Before before members) :
    ∀ member ∈ members, member.key ≠ "" := by
  cases hbefore with
  | first => exact fun _ hmember => absurd hmember List.not_mem_nil
  | next hmembers => exact hmembers.keyed

/-- A container takes in the same values, in key order or not. -/
theorem Hole.Stands.fill_sorted {hole : Hole} {text : List Char} (hstands : hole.Stands text)
    {value : Tree} (hvalue : value.head.autosort = false) (place : Cursor) :
    hole.sorted.fill value.sorted place = (hole.fill value place).map Frame.sorted := by
  cases hstands with
  | member hbefore hkeys hgap hspells hkey hgap₂ hgap₃ =>
      rw [Hole.sorted, fill_member_ordered value hkeys hbefore.keyed hkey,
        fill_member hkeys hkey hvalue]
      split <;> rfl
  | element hbefore hgap =>
      rw [Hole.sorted, fill_element_ordered, fill_element hvalue]
      rfl

/-! ## Characters of a document -/

namespace Progress

variable {stoppers : List Char} {c : Char} {place : Cursor} {top : Frame} {around : List Hole}

theorem deliver_sorted {outer text : List Char} {value : Tree} (haround : Around outer around)
    (hvalue : Value text value) (place : Cursor) :
    deliver value.sorted (around.map Hole.sorted) place =
      (deliver value around place).map Progress.sorted := by
  cases haround with
  | nil hgap => rfl
  | @cons _ _ holes hole houter hhole =>
      simp only [deliver, List.map_cons, hhole.fill_sorted hvalue.autosort_eq_false]
      cases hole.fill value place <;> rfl

/-- A reader makes of a character what it makes of the character without sorting, in key order. -/
theorem feed_sorted {text : List Char} (hwithin : Within text top around) :
    feed ⟨stoppers, true⟩ c place top.sorted (around.map Hole.sorted) =
      (feed ⟨stoppers, false⟩ c place top around).map fun next => (next.1.sorted, next.2) := by
  obtain ⟨before, inner, haround, htop, -⟩ := hwithin
  -- the induction is on the containers around, since a literal that ends hands the character on to
  -- the next
  induction haround generalizing top inner with
  | nil hgap =>
      unfold feed
      rw [htop.feed_sorted]
      cases hturn : top.feed c place with
      | error fault => rfl
      | ok turn =>
          cases turn with
          | stay frame => rfl
          | descend hole frame => rfl
          | close value => rfl
          | closeBefore value =>
              simp only [Except.map, Turn.sorted, List.map_nil]
              split
              next => rfl
              next => split <;> rfl
  | @cons _ _ outer hole houter hhole ih =>
      unfold feed
      rw [htop.feed_sorted]
      cases hturn : top.feed c place with
      | error fault => rfl
      | ok turn =>
          have hread := htop.feed hturn
          cases turn with
          | stay frame => rfl
          | descend inner frame => rfl
          | close value =>
              simp only [Except.map, Turn.sorted]
              rw [deliver_sorted (.cons houter hhole) hread]
              cases deliver value (hole :: outer) place <;> rfl
          | closeBefore value =>
              simp only [Except.map, Turn.sorted, List.map_cons]
              rw [hhole.fill_sorted hread.autosort_eq_false]
              cases hfill : hole.fill value place with
              | error fault => rfl
              | ok frame =>
                  simp only [Except.map]
                  split
                  next => rfl
                  next => exact ih _ (hhole.fill hread hfill)

/-- Behind every character inside a value, what has been read stands for some text. A stopper is no
part of it. -/
theorem stands_of_feed {options : ReadOptions} (hwithin : ∃ text, Within text top around)
    {next : Progress × Bool} (hfeed : feed options c place top around = .ok next) :
    ∃ text, next.1.Stands text := by
  refine Progress.feed_induction (fun top around => ∃ text, Within text top around)
    (fun next => ∃ text, next.1.Stands text) ?_ ?_ ?_ ?_ ?_ ?_ hwithin hfeed
  · rintro top around frame ⟨_, before, inner, haround, htop, -⟩ hturn
    exact ⟨_, .within haround (htop.feed hturn)⟩
  · rintro top around hole frame ⟨_, before, inner, haround, htop, -⟩ hturn
    obtain ⟨hhole, hframe⟩ := htop.feed hturn
    exact ⟨_, .within (.cons haround hhole) hframe⟩
  · rintro top around value last ⟨_, before, inner, haround, htop, -⟩ hturn hdeliver
    exact ⟨_, haround.deliver (htop.feed hturn) hdeliver⟩
  · rintro top value stopped ⟨_, before, inner, haround, htop, -⟩ hturn _ _
    cases haround with
    | nil hgap => exact ⟨_, .done (document_of_value hgap (htop.feed hturn))⟩
  · rintro top hole outer value frame ⟨_, before, inner, haround, htop, -⟩ hturn hfill
    cases haround with
    | cons houter hhole => exact ⟨_, _, _, houter, hhole.fill (htop.feed hturn) hfill, rfl⟩
  · rintro top around ⟨_, before, inner, haround, htop, -⟩ _
    exact ⟨_, .within haround htop⟩

end Progress

namespace Reader

variable {reader : Reader} {c : Char} {place : Cursor}

/-- The reader that sorts and holds in key order what this one holds. -/
def sorting (reader : Reader) : Reader :=
  { reader with
    options := { reader.options with autosort := true }
    progress := reader.progress.sorted }

/-- A reader that sorts makes of a character what the other one makes of it, in key order. -/
theorem step_sorting (c : Char) (place : Cursor) (hunsorted : reader.options.autosort = false)
    (hstands : ∃ text, reader.progress.Stands text) :
    reader.sorting.step c place =
      (reader.step c place).map fun next => (next.1.sorted, next.2) := by
  obtain ⟨⟨stoppers, autosort⟩, cursor, progress, stopped⟩ := reader
  obtain rfl : autosort = false := hunsorted
  obtain ⟨text, hstands⟩ := hstands
  unfold step sorting
  cases hstands with
  | fresh hgap =>
      simp only [Progress.sorted, Frame.start?_sorted]
      split
      next => rfl
      next => cases Frame.start? c place false <;> rfl
  | done hdocument =>
      simp only [Progress.sorted]
      split <;> rfl
  | @within _ _ top around haround htop =>
      simp only [Progress.sorted]
      rw [Frame.inToken_sorted]
      split
      next => rfl
      next => exact Progress.feed_sorted ⟨_, _, haround, htop, rfl⟩

theorem stands_of_unsorted_step (hunsorted : reader.options.autosort = false)
    (hstands : ∃ text, reader.progress.Stands text) {next : Progress × Bool}
    (hstep : reader.step c place = .ok next) : ∃ text, next.1.Stands text := by
  obtain ⟨⟨stoppers, autosort⟩, cursor, progress, stopped⟩ := reader
  obtain rfl : autosort = false := hunsorted
  obtain ⟨text, hstands⟩ := hstands
  unfold step at hstep
  cases hstands with
  | fresh hgap =>
      simp only at hstep
      split at hstep
      next =>
        cases hstep
        exact ⟨_, .fresh .nil⟩
      next =>
        split at hstep
        next frame hstart =>
          cases hstep
          exact ⟨_, .within (.nil .nil) (Frame.stands_of_start? hstart)⟩
        next => cases hstep
  | done hdocument =>
      simp only at hstep
      split at hstep
      next =>
        cases hstep
        exact ⟨_, .done hdocument⟩
      next => cases hstep
  | @within _ _ top around haround htop =>
      simp only at hstep
      split at hstep
      next =>
        cases hstep
        exact ⟨_, .within haround htop⟩
      next => exact Progress.stands_of_feed ⟨_, _, _, haround, htop, rfl⟩ hstep

theorem finish_sorting (reader : Reader) :
    reader.sorting.finish = reader.finish.map Tree.sorted := by
  unfold finish sorting
  cases reader.progress with
  | fresh => rfl
  | done value => rfl
  | failed fault => rfl
  | within top around =>
      cases top with
      | literal start token =>
          cases around with
          | nil => exact (Frame.literalValue_sorted start token).symm
          | cons hole outer => rfl
      | _ => rfl

/-- A reader that does not sort and has taken some text in without a defect. -/
structure Underway (reader : Reader) : Prop where
  unsorted : reader.options.autosort = false
  stands : ∃ text, reader.progress.Stands text

namespace Underway

theorem new (stoppers : List Char) : (Reader.new ⟨stoppers, false⟩).Underway :=
  ⟨rfl, [], .fresh .nil⟩

theorem live (hunderway : reader.Underway) (fault : Fault) : reader.progress ≠ .failed fault := by
  intro hfailed
  obtain ⟨text, hstands⟩ := hunderway.stands
  rw [hfailed] at hstands
  cases hstands

theorem live_sorting (hunderway : reader.Underway) (fault : Fault) :
    reader.sorting.progress ≠ .failed fault := by
  have hlive := hunderway.live
  unfold sorting
  cases hprogress : reader.progress with
  | failed other => exact absurd hprogress (hlive other)
  | _ => nofun

/-- A reader that did not fail takes a step, unless it met a stopper. -/
theorem feedChar_eq (hlive : ∀ fault, reader.progress ≠ .failed fault) (c : Char) :
    reader.feedChar c =
      if reader.stopped then (.ok (), reader)
      else
        match reader.step c (reader.cursor.advance c) with
        | .ok (progress, stopped) =>
            (.ok (), { reader with cursor := reader.cursor.advance c, progress, stopped })
        | .error fault =>
            (.error fault,
              { reader with cursor := reader.cursor.advance c, progress := .failed fault }) := by
  unfold Reader.feedChar
  split
  next fault hfailed => exact absurd hfailed (hlive fault)
  next => rfl

/-- A sorting reader goes along with this one, character by character. -/
theorem feedChar_sorting (hunderway : reader.Underway) (c : Char) :
    reader.sorting.feedChar c = ((reader.feedChar c).1, (reader.feedChar c).2.sorting) := by
  have hstep := step_sorting c (reader.cursor.advance c) hunderway.unsorted hunderway.stands
  have hcursor : reader.sorting.cursor = reader.cursor := rfl
  have hstopped : reader.sorting.stopped = reader.stopped := rfl
  rw [feedChar_eq hunderway.live, feedChar_eq hunderway.live_sorting, hcursor, hstopped, hstep]
  split
  next => rfl
  next => cases reader.step c (reader.cursor.advance c) <;> rfl

theorem feedChar (hunderway : reader.Underway) {next : Reader}
    (hfeed : reader.feedChar c = (.ok (), next)) : next.Underway := by
  rw [feedChar_eq hunderway.live] at hfeed
  split at hfeed
  next =>
    cases hfeed
    exact hunderway
  next =>
    cases hstep : reader.step c (reader.cursor.advance c) with
    | error fault =>
        rw [hstep] at hfeed
        cases hfeed
    | ok after =>
        rw [hstep] at hfeed
        cases hfeed
        exact ⟨hunderway.unsorted,
          stands_of_unsorted_step hunderway.unsorted hunderway.stands hstep⟩

theorem feed_sorting (hunderway : reader.Underway) (text : List Char) :
    reader.sorting.feed text = ((reader.feed text).1, (reader.feed text).2.sorting) := by
  induction text generalizing reader with
  | nil => rfl
  | cons c rest ih =>
      have hstopped : reader.sorting.stopped = reader.stopped := rfl
      unfold Reader.feed
      rw [hstopped, hunderway.feedChar_sorting]
      split
      next => rfl
      next =>
        cases hfeed : reader.feedChar c with
        | mk result after =>
            cases result with
            | error fault => rfl
            | ok => exact ih (hunderway.feedChar hfeed)

theorem feed (hunderway : reader.Underway) {text : List Char} {next : Reader}
    (hfeed : reader.feed text = (.ok (), next)) : next.Underway := by
  induction text generalizing reader with
  | nil =>
      cases hfeed
      exact hunderway
  | cons c rest ih =>
      unfold Reader.feed at hfeed
      split at hfeed
      next =>
        cases hfeed
        exact hunderway
      next =>
        split at hfeed
        next after hafter => exact ih (hunderway.feedChar hafter) hfeed
        next => cases hfeed

theorem feedLine_sorting (hunderway : reader.Underway) (line : List Char) :
    reader.sorting.feedLine line =
      ((reader.feedLine line).1, (reader.feedLine line).2.sorting) := by
  rw [feedLine_eq hunderway.live, feedLine_eq hunderway.live_sorting, hunderway.feed_sorting]

theorem feedLine (hunderway : reader.Underway) {line : List Char} {next : Reader}
    (hfeed : reader.feedLine line = (.ok (), next)) : next.Underway := by
  rw [feedLine_eq hunderway.live] at hfeed
  exact hunderway.feed hfeed

/-- What is complete is a document. -/
theorem finish (hunderway : reader.Underway) {tree : Tree} (hfinish : reader.finish = .ok tree) :
    ∃ text, Document text tree := by
  obtain ⟨text, hstands⟩ := hunderway.stands
  exact ⟨text, document_of_finish hstands hfinish⟩

theorem outcome (hunderway : reader.Underway) {text : List Char} {tree : Tree}
    (houtcome : reader.outcome text = .ok tree) : ∃ text, Document text tree := by
  unfold Reader.outcome at houtcome
  split at houtcome
  next after hfeed => exact (hunderway.feed hfeed).finish houtcome
  next => cases houtcome

end Underway

/-- With any text behind it, a reader that sorts comes to what the other one comes to, in key
order. -/
theorem outcome_sorting (hunsorted : reader.options.autosort = false)
    (hstands : ∃ text, reader.progress.Stands text) (text : List Char) :
    reader.sorting.outcome text = (reader.outcome text).map Tree.sorted := by
  unfold outcome
  rw [Underway.feed_sorting ⟨hunsorted, hstands⟩]
  cases reader.feed text with
  | mk result after =>
      cases result with
      | error fault => rfl
      | ok => exact finish_sorting after

/-! ## Lines of a stream -/

theorem finalized_sorting (reader : Reader) : reader.sorting.finalized = reader.finalized := by
  unfold finalized result? sorting
  cases reader.progress <;> rfl

namespace Underway

/-- The lines of a stream are taken in alike, sorting or not. -/
theorem readLines_sorting (hunderway : reader.Underway) (bytes : List UInt8) :
    reader.sorting.readLines bytes =
      ((reader.readLines bytes).1, (reader.readLines bytes).2.1.sorting,
        (reader.readLines bytes).2.2) := by
  -- the induction is on the bytes, since every line takes some of them away
  induction hlength : bytes.length using Nat.strong_induction_on generalizing reader bytes with
  | _ length ih =>
      have hstopped : reader.sorting.stopped = reader.stopped := rfl
      unfold readLines
      rw [finalized_sorting, hstopped]
      split
      next => rfl
      next hne =>
        split
        next => rfl
        next =>
          have hlt := hlength ▸ splitLine_length_lt hne
          cases decodeUtf8? (splitLine bytes).1 with
          | none => rfl
          | some line =>
              simp only [hunderway.feedLine_sorting]
              cases hfeed : reader.feedLine line with
              | mk result after =>
                  cases result with
                  | error fault => rfl
                  | ok => exact ih _ hlt (hunderway.feedLine hfeed) _ rfl

theorem readLines (hunderway : reader.Underway) {bytes rest : List UInt8} {next : Reader}
    (hread : reader.readLines bytes = (.ok (), next, rest)) : next.Underway := by
  induction hlength : bytes.length using Nat.strong_induction_on generalizing reader bytes with
  | _ length ih =>
      unfold Reader.readLines at hread
      split at hread
      next =>
        cases hread
        exact hunderway
      next hne =>
        split at hread
        next =>
          cases hread
          exact hunderway
        next =>
          have hlt := hlength ▸ splitLine_length_lt hne
          split at hread
          next => cases hread
          next line hline =>
            split at hread
            next after hfeed => exact ih _ hlt (hunderway.feedLine hfeed) hread rfl
            next => cases hread

/-- What a sorting reader comes to with a stream is what this one comes to, in key order. -/
theorem streamed_sorting (hunderway : reader.Underway) (bytes : List UInt8) :
    reader.sorting.streamed bytes =
      ((reader.streamed bytes).1.map Tree.sorted, (reader.streamed bytes).2) := by
  unfold streamed
  rw [hunderway.readLines_sorting]
  cases reader.readLines bytes with
  | mk result after =>
      cases result with
      | error fault => rfl
      | ok => exact Prod.ext (finish_sorting after.1) rfl

/-- What is read of a stream is a document. -/
theorem streamed (hunderway : reader.Underway) {bytes rest : List UInt8} {tree : Tree}
    (hread : reader.streamed bytes = (.ok tree, rest)) : ∃ text, Document text tree := by
  unfold Reader.streamed at hread
  split at hread
  next after left hlines =>
    exact (hunderway.readLines hlines).finish (congrArg Prod.fst hread)
  next => cases hread

end Underway

end Reader

/-- Reading with objects in key order fails exactly where reading fails, with the same fault at the
same place, and else it comes to what is read, put into key order and autosorted below the root, and
at the root if that is a container. -/
theorem decode_autosorted (stoppers : List Char) (text : String) :
    decode ⟨stoppers, true⟩ text = (decode ⟨stoppers, false⟩ text).map Tree.sorted :=
  @Reader.outcome_sorting (.new ⟨stoppers, false⟩) rfl ⟨[], .fresh .nil⟩ text.toList

end KeyedTree
