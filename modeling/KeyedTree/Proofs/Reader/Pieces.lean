import KeyedTree.Proofs.Reader.Lines

/-! # Reading piece by piece

A text may be given to a reader in pieces of any size, as it comes or line by line. Wherever the
cuts are, also inside of keys, escapes, surrogate pairs and numerals, the reader ends in the same
state and with the same fault, if any. That state comes to what the whole text is decoded to.
-/

namespace KeyedTree

/-- A call that gives a reader more of a text. -/
inductive Piece
  | chunk (text : List Char)
  | line (text : List Char)

/-- The characters that a piece stands for. A line loses a line feed at its end and then a carriage
return, and it is followed by a line feed. -/
def Piece.chars : Piece → List Char
  | .chunk text => text
  | .line text => Reader.trimEnd '\r' (Reader.trimEnd '\n' text) ++ ['\n']

namespace Reader

variable {reader : Reader}

/-- Takes in one piece. -/
def takePiece (reader : Reader) : Piece → Except Fault Unit × Reader
  | .chunk text => reader.feed text
  | .line text => reader.feedLine text

/-- Takes in pieces one after the other, up to the first fault. -/
def takePieces (reader : Reader) : List Piece → Except Fault Unit × Reader
  | [] => (.ok (), reader)
  | piece :: rest =>
      match reader.takePiece piece with
      | (.ok (), reader) => reader.takePieces rest
      | (.error fault, reader) => (.error fault, reader)

theorem takePiece_eq (hlive : ∀ fault, reader.progress ≠ .failed fault) (piece : Piece) :
    reader.takePiece piece = reader.feed piece.chars := by
  cases piece with
  | chunk text => rfl
  | line text => exact feedLine_eq hlive text

/-- Pieces are taken in as the text that they make up. -/
theorem takePieces_eq (hlive : ∀ fault, reader.progress ≠ .failed fault) (pieces : List Piece) :
    reader.takePieces pieces = reader.feed (pieces.flatMap Piece.chars) := by
  induction pieces generalizing reader with
  | nil => rfl
  | cons piece rest ih =>
      rw [takePieces, takePiece_eq hlive, List.flatMap_cons, feed_append]
      cases hfeed : reader.feed piece.chars with
      | mk result after =>
          cases result with
          | ok => exact ih (live_of_feed hlive hfeed)
          | error fault => rfl

theorem live_new (options : ReadOptions) (fault : Fault) : (new options).progress ≠ .failed fault :=
  nofun

/-- Whether reading a text fails or not, the reader that is left comes to what the text is decoded
to. -/
theorem finish_feed (options : ReadOptions) (text : List Char) :
    ((new options).feed text).2.finish = decode options (String.ofList text) := by
  rw [decode_eq_outcome, String.toList_ofList, outcome]
  cases hfeed : (new options).feed text with
  | mk result after =>
      cases result with
      | ok => rfl
      | error fault => simp only [finish, failed_of_feed hfeed]

end Reader

/-- It does not matter how a text is cut into pieces, nor which of them are lines: reading ends with
the same fault or none and leaves the same reader, and so the same answers to whether the document
is complete, whether a stopper was met and what was read. At the end of the input the reader comes
to what the whole text is decoded to. -/
theorem pieces_read_as_text (options : ReadOptions) {pieces others : List Piece}
    (hchars : pieces.flatMap Piece.chars = others.flatMap Piece.chars) :
    (Reader.new options).takePieces pieces = (Reader.new options).takePieces others ∧
      ((Reader.new options).takePieces pieces).2.finish =
        decode options (String.ofList (pieces.flatMap Piece.chars)) := by
  have hlive := Reader.live_new options
  rw [Reader.takePieces_eq hlive, Reader.takePieces_eq hlive, hchars]
  exact ⟨rfl, Reader.finish_feed options _⟩

/-- A surrogate pair and a numeral over several pieces, one of them empty, and the same text in two
lines. -/
def cutPieces : List Piece :=
  [.chunk "[\"\\ud8".toList, .chunk [], .chunk "3d\\ude".toList, .chunk "00\",1".toList,
    .line "2".toList, .line "]\r\n".toList]

theorem cutPieces_read_as_lines :
    let lines : List Piece := [.line "[\"\\ud83d\\ude00\",12\r".toList, .chunk "]\n".toList]
    cutPieces.flatMap Piece.chars = lines.flatMap Piece.chars ∧
      (Reader.new {}).takePieces cutPieces = (Reader.new {}).takePieces lines ∧
      ((Reader.new {}).takePieces cutPieces).2.finish =
        decode {} (String.ofList (cutPieces.flatMap Piece.chars)) := by
  have hchars : cutPieces.flatMap Piece.chars =
      [Piece.line "[\"\\ud83d\\ude00\",12\r".toList, Piece.chunk "]\n".toList].flatMap
        Piece.chars := by
    decide
  exact ⟨hchars, pieces_read_as_text {} hchars⟩

end KeyedTree
