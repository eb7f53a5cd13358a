import KeyedTree.Json.Basic

/-! # Compact JSON text

JSON values are written without blanks. Quotes, backslashes and control characters are escaped,
the latter by their short forms where there are such; everything else is written as it is.
-/

namespace KeyedTree

/-- The text of a number. -/
def Number.text : Number → List Char
  | .integer value => Numeral.ofInt value
  | .fraction value => value.text

namespace Json

/-- The character of a text as it is written between the quotes. -/
def escape (c : Char) : List Char :=
  match c with
  | '"' => ['\\', '"']
  | '\\' => ['\\', '\\']
  | '\x08' => ['\\', 'b']
  | '\x0c' => ['\\', 'f']
  | '\n' => ['\\', 'n']
  | '\r' => ['\\', 'r']
  | '\t' => ['\\', 't']
  | c =>
      if c.toNat < 0x20 then
        ['\\', 'u', '0', '0', Nat.digitChar (c.toNat / 16), Nat.digitChar (c.toNat % 16)]
      else [c]

/-- A text between quotes. -/
def quote (text : String) : List Char :=
  '"' :: text.toList.flatMap escape ++ ['"']

mutual

/-- The characters of a value. -/
def chars : Json → List Char
  | .null => "null".toList
  | .bool value => (if value then "true" else "false").toList
  | .number value => value.text
  | .string value => quote value
  | .array items => '[' :: itemChars items ++ [']']
  | .object members => '{' :: memberChars members ++ ['}']

/-- The characters of the items of an array. -/
def itemChars : List Json → List Char
  | [] => []
  | [item] => chars item
  | item :: next :: more => chars item ++ ',' :: itemChars (next :: more)

/-- The characters of the members of an object. -/
def memberChars : List (String × Json) → List Char
  | [] => []
  | [(key, value)] => quote key ++ ':' :: chars value
  | (key, value) :: next :: more =>
      quote key ++ ':' :: chars value ++ ',' :: memberChars (next :: more)

end

/-- The compact text of a value. -/
def text (json : Json) : String :=
  String.ofList json.chars

end Json

end KeyedTree
