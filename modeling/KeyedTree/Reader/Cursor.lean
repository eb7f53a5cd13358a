/-! # Cursors

A cursor tells where in a document the reader stands: the line, counted from one, and the number of
characters read on it.
-/

namespace KeyedTree

/-- A place in a document. -/
structure Cursor where
  line : Nat
  column : Nat
  deriving DecidableEq, Repr

namespace Cursor

/-- The place before the first character. -/
def start : Cursor := ⟨1, 0⟩

/-- The place after one more character; a line feed opens the next line. -/
def advance (cursor : Cursor) (c : Char) : Cursor :=
  if c = '\n' then ⟨cursor.line + 1, 0⟩ else { cursor with column := cursor.column + 1 }

end Cursor

end KeyedTree
