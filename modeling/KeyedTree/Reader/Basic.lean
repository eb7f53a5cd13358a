import KeyedTree.Reader.Frame

/-! # The reader

The reader builds a tree from a document that arrives in pieces. It takes in one character at a
time, so pieces may end anywhere. Characters of a stopper set end the document where they stand
between tokens; what follows them is ignored. A reader that met a defect keeps it.
-/

namespace KeyedTree

/-- How documents are read: the stoppers, and whether objects are kept in key order. -/
structure ReadOptions where
  stoppers : List Char := []
  autosort : Bool := false

/-- How far a document has been read. -/
inductive Progress
  | fresh
  | within (top : Frame) (around : List Hole)
  | done (value : Tree)
  | failed (fault : Fault)

/-- A reader in the middle of its work. -/
structure Reader where
  options : ReadOptions
  cursor : Cursor := .start
  progress : Progress := .fresh
  stopped : Bool := false

namespace Progress

/-- Hands a complete value to the containers around it. -/
def deliver (value : Tree) (around : List Hole) (place : Cursor) : Except Fault Progress :=
  match around with
  | [] => .ok (.done value)
  | hole :: outer => (hole.fill value place).map fun frame => .within frame outer

/-- The frames take in one character. The answer tells also whether the character is a stopper that
ended the document, which can happen behind a literal. -/
def feed (options : ReadOptions) (c : Char) (place : Cursor) (top : Frame) (around : List Hole) :
    Except Fault (Progress × Bool) :=
  match top.feed c place with
  | .error fault => .error fault
  | .ok (.stay frame) => .ok (.within frame around, false)
  | .ok (.descend hole frame) => .ok (.within frame (hole :: around), false)
  | .ok (.close value) => (deliver value around place).map fun progress => (progress, false)
  | .ok (.closeBefore value) =>
      match around with
      | [] =>
          if options.stoppers.contains c then .ok (.done value, true)
          else if isBlank c then .ok (.done value, false)
          else .error (.malformed place (.afterEnd c))
      | hole :: outer =>
          match hole.fill value place with
          | .error fault => .error fault
          | .ok frame =>
              if options.stoppers.contains c then .ok (.within frame outer, true)
              else feed options c place frame outer

end Progress

namespace Reader

/-- A reader at the start of a document. -/
def new (options : ReadOptions) : Reader :=
  { options }

/-- The tree, once the top-level value is complete. -/
def result? (reader : Reader) : Option Tree :=
  match reader.progress with
  | .done value => some value
  | _ => none

/-- Whether the top-level value is complete. -/
def finalized (reader : Reader) : Bool :=
  reader.result?.isSome

/-- What the document comes to with one more character, which stands at `place`, and whether the
character is a stopper that ends it. -/
def step (reader : Reader) (c : Char) (place : Cursor) : Except Fault (Progress × Bool) :=
  let stops := reader.options.stoppers.contains c
  match reader.progress with
  | .failed fault => .error fault
  | .fresh =>
      if stops || isBlank c then .ok (.fresh, stops)
      else
        match Frame.start? c place reader.options.autosort with
        | some frame => .ok (.within frame [], false)
        | none => .error (.malformed place (.atStart c))
  | .done value =>
      if stops || isBlank c then .ok (.done value, stops)
      else .error (.malformed place (.afterEnd c))
  | .within top around =>
      if !top.inToken && stops then .ok (.within top around, true)
      else Progress.feed reader.options c place top around

/-- Takes in one character. -/
def feedChar (reader : Reader) (c : Char) : Except Fault Unit × Reader :=
  match reader.progress with
  | .failed fault => (.error fault, reader)
  | _ =>
      if reader.stopped then (.ok (), reader)
      else
        let place := reader.cursor.advance c
        match reader.step c place with
        | .ok (progress, stopped) =>
            (.ok (), { reader with cursor := place, progress, stopped })
        | .error fault => (.error fault, { reader with cursor := place, progress := .failed fault })

/-- Takes in a piece of text, up to the first defect or stopper. -/
def feed (reader : Reader) : List Char → Except Fault Unit × Reader
  | [] => (.ok (), reader)
  | c :: rest =>
      if reader.stopped then (.ok (), reader)
      else
        match reader.feedChar c with
        | (.ok (), reader) => reader.feed rest
        | (.error fault, reader) => (.error fault, reader)

/-- It does not matter where a text is cut into pieces. -/
theorem feed_append (reader : Reader) (first second : List Char) :
    reader.feed (first ++ second) =
      match reader.feed first with
      | (.ok (), reader) => reader.feed second
      | (.error fault, reader) => (.error fault, reader) := by
  induction first generalizing reader with
  | nil => rfl
  | cons c rest ih =>
      simp only [List.cons_append, Reader.feed]
      split
      next hstopped =>
        cases second with
        | nil => rfl
        | cons => simp [Reader.feed, hstopped]
      next =>
        split
        next => exact ih _
        next => rfl

/-- The text without one given character at its end. -/
def trimEnd (c : Char) (text : List Char) : List Char :=
  if text.getLast? = some c then text.dropLast else text

/-- Takes in a line, with or without its line break, and a line feed after it. -/
def feedLine (reader : Reader) (line : List Char) : Except Fault Unit × Reader :=
  match reader.feed (trimEnd '\r' (trimEnd '\n' line)) with
  | (.ok (), reader) => reader.feedChar '\n'
  | (.error fault, reader) => (.error fault, reader)

/-- The tree at the end of the input. A literal that is not inside a container ends with it. -/
def finish (reader : Reader) : Except Fault Tree :=
  match reader.progress with
  | .failed fault => .error fault
  | .done value => .ok value
  | .fresh => .error (.malformed reader.cursor .empty)
  | .within (.literal start token) [] => Frame.literalValue start token
  | .within top _ => .error (.malformed reader.cursor (.endInside top.form))

end Reader

/-- The tree of a complete text. -/
def decode (options : ReadOptions) (text : String) : Except Fault Tree :=
  match (Reader.new options).feed text.toList with
  | (.ok (), reader) => reader.finish
  | (.error fault, _) => .error fault

end KeyedTree
