/-! # Defects of documents

A defect is a reason why a text is not a document. The wording of all defects is here.
-/

namespace KeyedTree

/-- The four forms in which a value is written. -/
inductive Form
  | object
  | array
  | string
  | literal
  deriving DecidableEq, Repr

/-- The word for a form in diagnostics. -/
def Form.name : Form → String
  | .object => "object"
  | .array => "array"
  | .string => "string"
  | .literal => "literal"

/-- Why a text is not a document. -/
inductive Defect
  /-- a character after the top-level value -/
  | afterEnd (found : Char)
  /-- a character that starts no top-level value -/
  | atStart (found : Char)
  /-- the text ends while a value is open -/
  | endInside (form : Form)
  /-- the text ends before a value started -/
  | empty
  | expectedKey (found : Char)
  | emptyKey
  | expectedColon (key : String) (found : Char)
  | expectedValue (key : String) (found : Char)
  | expectedMemberEnd (found : Char)
  | duplicateKey (key : String)
  | expectedElement (found : Char)
  | expectedElementEnd (found : Char)
  | unterminatedString
  | loneHighSurrogate
  | invalidEscape (found : Char)
  | invalidHexDigit (found : Char)
  | invalidCodeUnit (code : Nat)
  | unsupportedNumber (token : String)
  | invalidLiteral (token : String)
  | integerOutOfRange (token : String)
  /-- a container that refuses its member; never met -/
  | refusedMember (reason : String)
  deriving DecidableEq

namespace Defect

/-- A code unit as four hexadecimal digits or more. -/
def hexCode (code : Nat) : String :=
  let digits := Nat.toDigits 16 code
  String.ofList (List.replicate (4 - digits.length) '0' ++ digits)

/-- The wording of a defect. -/
def message : Defect → String
  | .afterEnd found => s!"unexpected '{found}' after the end of the document"
  | .atStart found => s!"unexpected '{found}' at start of document"
  | .endInside form => "unexpected end of input inside " ++ form.name
  | .empty => "empty document"
  | .expectedKey found => s!"expected object key, found '{found}'"
  | .emptyKey => "empty object key"
  | .expectedColon key found => s!"expected ':' after key '{key}', found '{found}'"
  | .expectedValue key found => s!"expected value for key '{key}', found '{found}'"
  | .expectedMemberEnd found => s!"expected ',' or '\x7d' in object, found '{found}'"
  | .duplicateKey key => s!"duplicate key '{key}'"
  | .expectedElement found => s!"expected array element, found '{found}'"
  | .expectedElementEnd found => s!"expected ',' or ']' in array, found '{found}'"
  | .unterminatedString => "unterminated string"
  | .loneHighSurrogate => "high surrogate not followed by a \\u escape"
  | .invalidEscape found => s!"invalid escape sequence '\\{found}'"
  | .invalidHexDigit found => s!"invalid hex digit '{found}' in \\u escape"
  | .invalidCodeUnit code => "invalid unicode escape \\u" ++ hexCode code
  | .unsupportedNumber token => s!"unsupported number '{token}'"
  | .invalidLiteral token => s!"invalid literal '{token}'"
  | .integerOutOfRange token => s!"integer '{token}' out of range"
  | .refusedMember reason => reason

end Defect

end KeyedTree
