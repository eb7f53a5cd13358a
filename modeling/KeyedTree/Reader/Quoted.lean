import KeyedTree.Reader.Defect

/-! # Quoted text

The body of a quoted text is read one character at a time. Escapes stand for single characters;
`\u` takes four hexadecimal digits, and a character beyond the basic plane is written as two such
escapes, a high surrogate and a low one. Line feeds and carriage returns end no quoted text and may
not stand in it.
-/

namespace KeyedTree

/-- How far an escape has come. -/
inductive Escape
  | none
  | started
  | unicode (digits code : Nat)
  deriving DecidableEq

/-- The part of a quoted text that was read so far, without the quotes. A high surrogate waits in
`high` for its low half. -/
structure Quoted where
  text : String := ""
  escape : Escape := .none
  high : Option Nat := Option.none
  deriving DecidableEq

/-- A quoted text after one more character. -/
inductive Quoted.Step
  | more (body : Quoted)
  | closed (text : String)

namespace Quoted

/-- The character that a one-letter escape stands for. -/
def shortEscape? : Char → Option Char
  | 'n' => some '\n'
  | 't' => some '\t'
  | 'r' => some '\r'
  | 'b' => some '\x08'
  | 'f' => some '\x0c'
  | '"' => some '"'
  | '\\' => some '\\'
  | '/' => some '/'
  | _ => none

/-- The value of a hexadecimal digit in either case. -/
def hexDigit? (c : Char) : Option Nat :=
  if '0' ≤ c ∧ c ≤ '9' then some (c.toNat - '0'.toNat)
  else if 'a' ≤ c ∧ c ≤ 'f' then some (c.toNat - 'a'.toNat + 10)
  else if 'A' ≤ c ∧ c ≤ 'F' then some (c.toNat - 'A'.toNat + 10)
  else none

/-- Whether a code unit is the first half of a surrogate pair. -/
def isHighSurrogate (code : Nat) : Bool :=
  0xD800 ≤ code && code ≤ 0xDBFF

/-- Whether a code unit is the second half of a surrogate pair. -/
def isLowSurrogate (code : Nat) : Bool :=
  0xDC00 ≤ code && code ≤ 0xDFFF

/-- The character that a surrogate pair stands for. -/
def pairedChar (high low : Nat) : Char :=
  Char.ofNat (0x10000 + (high - 0xD800) * 0x400 + (low - 0xDC00))

/-- Takes in the code unit of a finished escape. -/
def pushCodeUnit (body : Quoted) (code : Nat) : Except Defect Quoted :=
  match body.high with
  | none =>
      if isHighSurrogate code then .ok { body with escape := .none, high := some code }
      else if isLowSurrogate code then .error (.invalidCodeUnit code)
      else .ok { body with text := body.text.push (Char.ofNat code), escape := .none }
  | some high =>
      if isLowSurrogate code then
        .ok { text := body.text.push (pairedChar high code), escape := .none, high := none }
      else .error (.invalidCodeUnit code)

/-- Whether a character can go on with the second half of a surrogate pair, if one is due. -/
def pairs (body : Quoted) (c : Char) : Bool :=
  match body.high, body.escape with
  | none, _ => true
  | some _, .none => c == '\\'
  | some _, .started => c == 'u'
  | some _, .unicode .. => true

/-- Takes in one character. -/
def feed (body : Quoted) (c : Char) : Except Defect Step :=
  if !body.pairs c then
    .error .loneHighSurrogate
  else
    match body.escape with
    | .none =>
        if c = '"' then .ok (.closed body.text)
        else if c = '\\' then .ok (.more { body with escape := .started })
        else if c = '\n' ∨ c = '\r' then .error .unterminatedString
        else .ok (.more { body with text := body.text.push c })
    | .started =>
        if c = 'u' then .ok (.more { body with escape := .unicode 0 0 })
        else
          match shortEscape? c with
          | some meant => .ok (.more { body with text := body.text.push meant, escape := .none })
          | none => .error (.invalidEscape c)
    | .unicode digits code =>
        match hexDigit? c with
        | none => .error (.invalidHexDigit c)
        | some digit =>
            let code := 16 * code + digit
            if digits + 1 < 4 then .ok (.more { body with escape := .unicode (digits + 1) code })
            else (body.pushCodeUnit code).map .more

end Quoted

end KeyedTree
