import KeyedTree.Tree.Basic

/-! # The fixture layout

Trees are written in a fixed layout on which recorded fixtures rely. Spread out, every node stands
on a line of its own, indented by four spaces for each level, and a key is written `"key" : `.
Compact, there is no blank at all and a key is written `"key":`. Line feeds and tabs in string
values are escaped and nothing else is; keys are written as they are. An uninitialized node shows as
`notinit`.
-/

namespace KeyedTree

namespace Layout

/-- Writes the indentation of a level in front of `rest`. -/
def indent (pretty : Bool) (depth : Nat) (rest : List Char) : List Char :=
  if pretty then List.replicate (4 * depth) ' ' ++ rest else rest

/-- Writes a line break in front of `rest`, unless the layout is compact. -/
def lineBreak (pretty : Bool) (rest : List Char) : List Char :=
  if pretty then '\n' :: rest else rest

/-- Writes a key in front of `rest`; an anonymous node has none. -/
def label (pretty : Bool) (key : String) (rest : List Char) : List Char :=
  if key = "" then rest
  else '"' :: key.toList ++ (if pretty then ['"', ' ', ':', ' '] else ['"', ':']) ++ rest

/-- The character of a string value as it is written between the quotes. -/
def escape : Char → List Char
  | '\n' => ['\\', 'n']
  | '\t' => ['\\', 't']
  | c => [c]

/-- Writes a string value in front of `rest`. -/
def quote (text : String) (rest : List Char) : List Char :=
  '"' :: text.toList.flatMap escape ++ '"' :: rest

mutual

/-- Writes a node and everything below it in front of `rest`, its own key only if `named`. -/
def write (pretty : Bool) (depth : Nat) (named : Bool) : Tree → List Char → List Char
  | .node head children, rest =>
      indent pretty depth <| label pretty (if named then head.key else "") <|
      match head.payload with
      | .uninitialized => "notinit".toList ++ rest
      | .null => "null".toList ++ rest
      | .bool value => (if value then "true" else "false").toList ++ rest
      | .integer value => Numeral.ofInt value.toInt ++ rest
      | .string value => quote value rest
      | .object =>
          '{' :: lineBreak pretty (writeRow pretty (depth + 1) children
            (indent pretty depth ('}' :: rest)))
      | .array =>
          '[' :: lineBreak pretty (writeRow pretty (depth + 1) children
            (indent pretty depth (']' :: rest)))

/-- Writes the children of a container in front of `rest`, with commas between them. -/
def writeRow (pretty : Bool) (depth : Nat) : List Tree → List Char → List Char
  | [], rest => rest
  | [child], rest => write pretty depth true child (lineBreak pretty rest)
  | child :: next :: more, rest =>
      write pretty depth true child
        (',' :: lineBreak pretty (writeRow pretty depth (next :: more) rest))

end

end Layout

/-- The text of a tree, spread out if `pretty` and without the root's own key unless `named`. -/
def Tree.render (tree : Tree) (pretty named : Bool) : String :=
  String.ofList (Layout.write pretty 0 named tree [])

end KeyedTree
