import Mathlib.Algebra.Group.Nat.Defs
import KeyedTree.Tree.Basic

/-! # The grammar of documents

The texts of documents are derived here without a reader: which characters stand between tokens, how
quoted texts spell their characters, which words and numerals are literals, and how members and
elements are put together. A derivation also says which tree a text denotes.
-/

namespace KeyedTree.Grammar

/-- Characters that may stand between tokens, in any number. -/
def Blanks (gap : List Char) : Prop :=
  ∀ c ∈ gap, c = ' ' ∨ c = '\t' ∨ c = '\n' ∨ c = '\r'

/-! ### Quoted texts -/

/-- A character is a hexadecimal digit, in either case. -/
def HexDigit (c : Char) (digit : Nat) : Prop :=
  digit < 16 ∧ (c = Nat.digitChar digit ∨ c = (Nat.digitChar digit).toUpper)

/-- A run of hexadecimal digits denotes a number, the first digit being the highest. -/
inductive HexRun : List Char → Nat → Prop
  | nil : HexRun [] 0
  | more {run : List Char} {code : Nat} {c : Char} {digit : Nat} :
      HexRun run code → HexDigit c digit → HexRun (run ++ [c]) (16 * code + digit)

/-- Four hexadecimal digits denote a code unit. -/
def CodeUnit (run : List Char) (code : Nat) : Prop :=
  run.length = 4 ∧ HexRun run code

/-- The code units that are the first halves of surrogate pairs. -/
def High (code : Nat) : Prop :=
  0xD800 ≤ code ∧ code < 0xDC00

/-- The code units that are the second halves of surrogate pairs. -/
def Low (code : Nat) : Prop :=
  0xDC00 ≤ code ∧ code < 0xE000

/-- The letters of the short escapes and the characters that they stand for. -/
def shortEscapes : List (Char × Char) :=
  [('n', '\n'), ('t', '\t'), ('r', '\r'), ('b', '\x08'), ('f', '\x0c'), ('"', '"'), ('\\', '\\'),
    ('/', '/')]

/-- How a character is written inside quotes. -/
inductive Spelling : List Char → Char → Prop
  | raw {c : Char} : c ≠ '"' → c ≠ '\\' → c ≠ '\n' → c ≠ '\r' → Spelling [c] c
  | short {letter c : Char} : (letter, c) ∈ shortEscapes → Spelling ['\\', letter] c
  | unit {run : List Char} {code : Nat} :
      CodeUnit run code → ¬ High code → ¬ Low code → Spelling ('\\' :: 'u' :: run) (Char.ofNat code)
  | pair {first second : List Char} {high low : Nat} :
      CodeUnit first high → High high → CodeUnit second low → Low low →
      Spelling ('\\' :: 'u' :: (first ++ '\\' :: 'u' :: second))
        (Char.ofNat (0x10000 + (high - 0xD800) * 0x400 + (low - 0xDC00)))

/-- How a text is written inside quotes. -/
inductive Spells : List Char → String → Prop
  | nil : Spells [] ""
  | more {body piece : List Char} {text : String} {c : Char} :
      Spells body text → Spelling piece c → Spells (body ++ piece) (text.push c)

/-! ### Literals -/

/-- A non-empty run of decimal digits denotes a number. -/
def Decimal (digits : List Char) (n : Nat) : Prop :=
  digits ≠ [] ∧ (∀ c ∈ digits, c.isDigit = true) ∧ n = Nat.ofDigitChars 10 digits 0

/-- The literals and their values. Integers have 64 bits. -/
inductive Literal : List Char → Payload → Prop
  | yes : Literal "true".toList (.bool true)
  | no : Literal "false".toList (.bool false)
  | null : Literal "null".toList .null
  | positive {digits : List Char} {n : Nat} :
      Decimal digits n → n < 2 ^ 63 → Literal digits (.integer (Int64.ofInt n))
  | negative {digits : List Char} {n : Nat} :
      Decimal digits n → n ≤ 2 ^ 63 → Literal ('-' :: digits) (.integer (Int64.ofInt (-n)))

/-! ### Values -/

/-- The object with these members. -/
def objectOf (members : List Tree) : Tree :=
  .node { kind := .object, index := (KeyIndex.ofKeys (members.map Tree.key)).1 } members

/-- The array with these elements. -/
def arrayOf (elements : List Tree) : Tree :=
  .node { kind := .array } elements

mutual

/-- A text denotes a tree, without blanks around it. -/
inductive Value : List Char → Tree → Prop
  | string {body : List Char} {text : String} :
      Spells body text → Value ('"' :: (body ++ ['"'])) (.leaf (.string text))
  | literal {token : List Char} {payload : Payload} :
      Literal token payload → Value token (.leaf payload)
  | emptyObject {gap : List Char} : Blanks gap → Value ('{' :: (gap ++ ['}'])) (objectOf [])
  | object {body : List Char} {members : List Tree} :
      Members body members → (members.map Tree.key).Nodup →
      Value ('{' :: (body ++ ['}'])) (objectOf members)
  | emptyArray {gap : List Char} : Blanks gap → Value ('[' :: (gap ++ [']'])) (arrayOf [])
  | array {body : List Char} {elements : List Tree} :
      Elements body elements → Value ('[' :: (body ++ [']'])) (arrayOf elements)

/-- A key and a value with blanks around them. -/
inductive Member : List Char → Tree → Prop
  | mk {gap₁ body gap₂ gap₃ text gap₄ : List Char} {key : String} {value : Tree} :
      Blanks gap₁ → Spells body key → key ≠ "" → Blanks gap₂ → Blanks gap₃ → Value text value →
      Blanks gap₄ →
      Member (gap₁ ++ '"' :: (body ++ '"' :: (gap₂ ++ ':' :: (gap₃ ++ (text ++ gap₄)))))
        (value.withKey key)

/-- Members with commas between them. -/
inductive Members : List Char → List Tree → Prop
  | one {text : List Char} {member : Tree} : Member text member → Members text [member]
  | more {body text : List Char} {members : List Tree} {member : Tree} :
      Members body members → Member text member →
      Members (body ++ ',' :: text) (members ++ [member])

/-- A value with blanks around it. -/
inductive Element : List Char → Tree → Prop
  | mk {gap₁ text gap₂ : List Char} {value : Tree} :
      Blanks gap₁ → Value text value → Blanks gap₂ → Element (gap₁ ++ (text ++ gap₂)) value

/-- Elements with commas between them. -/
inductive Elements : List Char → List Tree → Prop
  | one {text : List Char} {element : Tree} : Element text element → Elements text [element]
  | more {body text : List Char} {elements : List Tree} {element : Tree} :
      Elements body elements → Element text element →
      Elements (body ++ ',' :: text) (elements ++ [element])

end

/-- A text denotes a tree, with blanks around it: an element on its own. -/
def Document (text : List Char) (tree : Tree) : Prop :=
  Element text tree

end KeyedTree.Grammar
