import KeyedTree.Reader.Basic

/-! # Reading from a stream

A stream is read line by line, and only while the document is incomplete, so that the lines behind
it stay unread. Every line must be valid UTF-8.
-/

namespace KeyedTree

/-- Bytes up to and including the first line feed, and the bytes after it. -/
def splitLine (bytes : List UInt8) : List UInt8 × List UInt8 :=
  match bytes.dropWhile (· ≠ 10) with
  | [] => (bytes, [])
  | lineFeed :: rest => (bytes.takeWhile (· ≠ 10) ++ [lineFeed], rest)

theorem splitLine_length_lt {bytes : List UInt8} (hne : bytes ≠ []) :
    (splitLine bytes).2.length < bytes.length := by
  unfold splitLine
  split
  next => exact List.length_pos_iff.mpr hne
  next lineFeed rest hdrop =>
    have hle := (List.dropWhile_sublist (fun b : UInt8 => decide (b ≠ 10)) (l := bytes)).length_le
    rw [hdrop, List.length_cons] at hle
    exact hle

/-- The text that bytes encode, if they are valid UTF-8. -/
def decodeUtf8? (bytes : List UInt8) : Option (List Char) :=
  (String.fromUTF8? ⟨bytes.toArray⟩).map String.toList

namespace Reader

/-- Takes in lines until the document is complete, a stopper is met or the input ends. The answer
comes with the reader and the bytes left unread. -/
def readLines (reader : Reader) (bytes : List UInt8) :
    Except Fault Unit × Reader × List UInt8 :=
  if hne : bytes = [] then (.ok (), reader, bytes)
  else if reader.finalized || reader.stopped then (.ok (), reader, bytes)
  else
    have : (splitLine bytes).2.length < bytes.length := splitLine_length_lt hne
    match decodeUtf8? (splitLine bytes).1 with
    | none => (.error (.input .notText), reader, (splitLine bytes).2)
    | some line =>
        match reader.feedLine line with
        | (.ok (), reader) => reader.readLines (splitLine bytes).2
        | (.error fault, reader) => (.error fault, reader, (splitLine bytes).2)
termination_by bytes.length

end Reader

/-- Reads one document from a stream. The answer comes with the bytes left unread. -/
def readStream (options : ReadOptions) (bytes : List UInt8) : Except Fault Tree × List UInt8 :=
  match (Reader.new options).readLines bytes with
  | (.ok (), reader, rest) => (reader.finish, rest)
  | (.error fault, _, rest) => (.error fault, rest)

end KeyedTree
