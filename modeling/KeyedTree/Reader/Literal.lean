import KeyedTree.Payload
import KeyedTree.Reader.Defect

/-! # Literals

A literal is a run of letters, digits, signs and dots. The words `true`, `false` and `null` and the
integers of 64 bits are values; every other run is a defect.
-/

namespace KeyedTree.Literal

/-- Whether a literal may begin with a character. -/
def starts (c : Char) : Bool :=
  c.isAlphanum || c == '-'

/-- Whether a literal goes on with a character. -/
def continues (c : Char) : Bool :=
  c.isAlphanum || c == '-' || c == '+' || c == '.'

/-- The integer that a token denotes, if it has the form of one. -/
def integer? (token : String) : Option Int :=
  Numeral.toInt? token.toList

/-- Whether a token looks like a number. -/
def looksNumeric (token : String) : Bool :=
  match token.toList with
  | c :: _ => c == '-' || c.isDigit
  | [] => false

/-- The value that a token denotes. -/
def payload (token : String) : Except Defect Payload :=
  if token = "true" then .ok (.bool true)
  else if token = "false" then .ok (.bool false)
  else if token = "null" then .ok .null
  else
    match integer? token with
    | some n =>
        if Numeral.fitsInt64 n then .ok (.integer (Int64.ofInt n))
        else .error (.integerOutOfRange token)
    | none =>
        if looksNumeric token then .error (.unsupportedNumber token)
        else .error (.invalidLiteral token)

end KeyedTree.Literal
