import KeyedTree.Blank
import KeyedTree.Reader.Literal
import KeyedTree.Reader.Quoted
import KeyedTree.Tree.Edit

/-! # Frames and holes

A value that is being read is a frame. It takes in one character at a time. When a container meets
the start of a value inside it, the container becomes a hole around the new frame, and the hole
becomes a frame again when the value is complete. A literal is complete only at the first character
that does not belong to it.
-/

namespace KeyedTree

/-- What an object that is being read expects next. -/
inductive ObjectPhase
  | keyOrClose
  | nextKey
  | key (body : Quoted)
  | colon (key : String)
  | value (key : String)
  | commaOrClose
  deriving DecidableEq

/-- What an array that is being read expects next. -/
inductive ArrayPhase
  | valueOrClose
  | value
  | commaOrClose
  deriving DecidableEq

/-- A value that is being read, its first character included. -/
inductive Frame
  | object (node : Tree) (phase : ObjectPhase)
  | array (node : Tree) (phase : ArrayPhase)
  | string (body : Quoted)
  | literal (start : Cursor) (token : String)

/-- A container around a value that is being read. -/
inductive Hole
  | member (node : Tree) (key : String)
  | element (node : Tree)

/-- What a frame makes of a character. -/
inductive Turn
  /-- the character was taken in -/
  | stay (frame : Frame)
  /-- the character starts a value inside -/
  | descend (hole : Hole) (frame : Frame)
  /-- the value is complete with the character -/
  | close (value : Tree)
  /-- the value was complete before the character -/
  | closeBefore (value : Tree)

namespace Frame

/-- The form of the value. -/
def form : Frame → Form
  | .object .. => .object
  | .array .. => .array
  | .string .. => .string
  | .literal .. => .literal

/-- Whether the reader stands inside a token, where stoppers are content. -/
def inToken : Frame → Bool
  | .object _ (.key _) => true
  | .object .. => false
  | .array .. => false
  | .string _ => true
  | .literal .. => true

/-- The frame of a value that starts with a character, if one can. -/
def start? (c : Char) (place : Cursor) (autosort : Bool) : Option Frame :=
  if c = '{' then some (.object (.node { kind := .object, autosort } []) .keyOrClose)
  else if c = '[' then some (.array (.node { kind := .array, autosort } []) .valueOrClose)
  else if c = '"' then some (.string {})
  else if Literal.starts c then some (.literal place (String.singleton c))
  else none

/-- The value of a literal. -/
def literalValue (start : Cursor) (token : String) : Except Fault Tree :=
  match Literal.payload token with
  | .ok payload => .ok (.leaf payload)
  | .error defect => .error (.malformed start defect)

/-- An object takes in one character. -/
def feedObject (node : Tree) (phase : ObjectPhase) (c : Char) (place : Cursor) :
    Except Fault Turn :=
  let stay (phase : ObjectPhase) : Except Fault Turn := .ok (.stay (.object node phase))
  let fail (defect : Defect) : Except Fault Turn := .error (.malformed place defect)
  match phase with
  | .keyOrClose =>
      if isBlank c then stay .keyOrClose
      else if c = '}' then .ok (.close node)
      else if c = '"' then stay (.key {})
      else fail (.expectedKey c)
  | .nextKey =>
      if isBlank c then stay .nextKey
      else if c = '"' then stay (.key {})
      else fail (.expectedKey c)
  | .key body =>
      match body.feed c with
      | .error defect => fail defect
      | .ok (.more body) => stay (.key body)
      | .ok (.closed key) => if key = "" then fail .emptyKey else stay (.colon key)
  | .colon key =>
      if c = ':' then stay (.value key)
      else if isBlank c then stay (.colon key)
      else fail (.expectedColon key c)
  | .value key =>
      if isBlank c then stay (.value key)
      else
        match start? c place node.head.autosort with
        | some frame => .ok (.descend (.member node key) frame)
        | none => fail (.expectedValue key c)
  | .commaOrClose =>
      if c = ',' then stay .nextKey
      else if c = '}' then .ok (.close node)
      else if isBlank c then stay .commaOrClose
      else fail (.expectedMemberEnd c)

/-- An array takes in one character. -/
def feedArray (node : Tree) (phase : ArrayPhase) (c : Char) (place : Cursor) :
    Except Fault Turn :=
  let stay (phase : ArrayPhase) : Except Fault Turn := .ok (.stay (.array node phase))
  let fail (defect : Defect) : Except Fault Turn := .error (.malformed place defect)
  let element : Except Fault Turn :=
    match start? c place node.head.autosort with
    | some frame => .ok (.descend (.element node) frame)
    | none => fail (.expectedElement c)
  match phase with
  | .valueOrClose =>
      if isBlank c then stay .valueOrClose
      else if c = ']' then .ok (.close node)
      else element
  | .value =>
      if isBlank c then stay .value
      else element
  | .commaOrClose =>
      if c = ',' then stay .value
      else if c = ']' then .ok (.close node)
      else if isBlank c then stay .commaOrClose
      else fail (.expectedElementEnd c)

/-- A frame takes in one character, which stands at `place`. -/
def feed (frame : Frame) (c : Char) (place : Cursor) : Except Fault Turn :=
  match frame with
  | .object node phase => feedObject node phase c place
  | .array node phase => feedArray node phase c place
  | .string body =>
      match body.feed c with
      | .error defect => .error (.malformed place defect)
      | .ok (.more body) => .ok (.stay (.string body))
      | .ok (.closed text) => .ok (.close (.leaf (.string text)))
  | .literal start token =>
      if Literal.continues c then .ok (.stay (.literal start (token.push c)))
      else (literalValue start token).map .closeBefore

end Frame

/-- Puts a complete value into the container around it, which then goes on as a frame. -/
def Hole.fill (hole : Hole) (value : Tree) (place : Cursor) : Except Fault Frame :=
  match hole with
  | .member node key =>
      if node.index.contains key then
        .error (.malformed place (.duplicateKey key))
      else
        match node.attachKeyed key value with
        | (.ok _, node) => .ok (.object node .commaOrClose)
        | (.error fault, _) => .error (.malformed place (.refusedMember fault.message))
  | .element node =>
      match node.append value with
      | (.ok _, node) => .ok (.array node .commaOrClose)
      | (.error fault, _) => .error (.malformed place (.refusedMember fault.message))

end KeyedTree
