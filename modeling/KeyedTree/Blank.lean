/-! # Blanks

The characters that may stand between the tokens of a document.
-/

namespace KeyedTree

/-- Space, tab, line feed and carriage return. -/
def isBlank (c : Char) : Bool :=
  c == ' ' || c == '\t' || c == '\n' || c == '\r'

end KeyedTree
