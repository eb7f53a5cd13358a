import KeyedTree.Reader.Basic
import Mathlib.Data.PFun

/-! # Reading with a stack

The same documents are read by a reader that keeps the values that it is inside of on a stack, the
innermost on top. A loop hands each character to the top of the stack, and again to whatever is on
top then, until it is settled. The loop has no bound of its own, and where the reader relies on its
stack being in order it has an error for the case that it is not.
-/

namespace KeyedTree

/-! ## Values on the stack -/

/-- What an object on the stack expects next. -/
inductive ObjectStage
  | opening
  | keyOrClose
  | key (body : Quoted)
  | colon
  | value
  | commaOrClose
  | nextKey
  deriving DecidableEq

/-- What an array on the stack expects next. -/
inductive ArrayStage
  | opening
  | valueOrClose
  | value
  | commaOrClose
  deriving DecidableEq

/-- A value on the stack, from before its first character on. An object keeps the key of the member
that comes next. -/
inductive Builder
  | object (node : Tree) (stage : ObjectStage) (pending : String)
  | array (node : Tree) (stage : ArrayStage)
  | string (opened : Bool) (body : Quoted)
  | literal (start : Cursor) (token : String)

/-- What a reader with a stack has an error for, although it should not happen. -/
inductive Breach
  /-- a value that is no container is handed a value -/
  | nested (form : Form)
  /-- a value is opened by a wrong character -/
  | opening (expected found : Char)
  /-- a new value does not take in its first character -/
  | unconsumed (found : Char)
  /-- a literal ends before it started -/
  | emptyLiteral
  /-- a container refuses its member -/
  | refused (fault : Fault)

/-- The wording of a breach. -/
def Breach.message : Breach → String
  | .nested form => form.name ++ " cannot hold a nested value"
  | .opening expected found => s!"expected '{expected}', found '{found}'"
  | .unconsumed found => s!"unexpected '{found}' at start of document"
  | .emptyLiteral => (Defect.invalidLiteral "").message
  | .refused fault => fault.message

/-- Why a reader with a stack fails. -/
inductive Trouble
  | fault (fault : Fault)
  | breach (place : Cursor) (breach : Breach)

/-- What a value on the stack makes of a character. -/
inductive Reaction
  | stay (builder : Builder)
  | descend (builder child : Builder)
  | close (value : Tree)
  | closeBefore (value : Tree)

namespace Builder

/-- The form of the value. -/
def form : Builder → Form
  | .object .. => .object
  | .array .. => .array
  | .string .. => .string
  | .literal .. => .literal

/-- Whether the reader stands inside a token. -/
def inToken : Builder → Bool
  | .object _ (.key _) _ => true
  | .object .. => false
  | .array .. => false
  | .string opened _ => opened
  | .literal .. => true

/-- The value that is to start with a character, if one can. -/
def fresh? (c : Char) (autosort : Bool) : Option Builder :=
  if c = '{' then some (.object (.node { kind := .object, autosort } []) .opening "")
  else if c = '[' then some (.array (.node { kind := .array, autosort } []) .opening)
  else if c = '"' then some (.string false {})
  else if Literal.starts c then some (.literal .start "")
  else none

/-- The value of a literal. -/
def literalValue (start : Cursor) (token : String) : Except Trouble Tree :=
  if token = "" then .error (.breach start .emptyLiteral)
  else (Frame.literalValue start token).mapError .fault

/-- An object takes in one character. -/
def feedObject (node : Tree) (stage : ObjectStage) (pending : String) (c : Char) (place : Cursor) :
    Except Trouble Reaction :=
  let stay (stage : ObjectStage) : Except Trouble Reaction :=
    .ok (.stay (.object node stage pending))
  let fail (defect : Defect) : Except Trouble Reaction := .error (.fault (.malformed place defect))
  match stage with
  | .opening => if c = '{' then stay .keyOrClose else .error (.breach place (.opening '{' c))
  | .keyOrClose =>
      if isBlank c then stay .keyOrClose
      else if c = '}' then .ok (.close node)
      else if c = '"' then stay (.key {})
      else fail (.expectedKey c)
  | .nextKey =>
      if isBlank c then stay .nextKey
      else if c = '"' then stay (.key {})
      else fail (.expectedKey c)
  | .key body =>
      match body.feed c with
      | .error defect => fail defect
      | .ok (.more body) => stay (.key body)
      | .ok (.closed key) => if key = "" then fail .emptyKey
          else .ok (.stay (.object node .colon key))
  | .colon =>
      if c = ':' then stay .value
      else if isBlank c then stay .colon
      else fail (.expectedColon pending c)
  | .value =>
      if isBlank c then stay .value
      else
        match fresh? c node.head.autosort with
        | some child => .ok (.descend (.object node .commaOrClose pending) child)
        | none => fail (.expectedValue pending c)
  | .commaOrClose =>
      if c = ',' then stay .nextKey
      else if c = '}' then .ok (.close node)
      else if isBlank c then stay .commaOrClose
      else fail (.expectedMemberEnd c)

/-- An array takes in one character. -/
def feedArray (node : Tree) (stage : ArrayStage) (c : Char) (place : Cursor) :
    Except Trouble Reaction :=
  let stay (stage : ArrayStage) : Except Trouble Reaction := .ok (.stay (.array node stage))
  let fail (defect : Defect) : Except Trouble Reaction := .error (.fault (.malformed place defect))
  let element : Except Trouble Reaction :=
    match fresh? c node.head.autosort with
    | some child => .ok (.descend (.array node .commaOrClose) child)
    | none => fail (.expectedElement c)
  match stage with
  | .opening => if c = '[' then stay .valueOrClose else .error (.breach place (.opening '[' c))
  | .valueOrClose =>
      if isBlank c then stay .valueOrClose
      else if c = ']' then .ok (.close node)
      else element
  | .value =>
      if isBlank c then stay .value
      else element
  | .commaOrClose =>
      if c = ',' then stay .value
      else if c = ']' then .ok (.close node)
      else if isBlank c then stay .commaOrClose
      else fail (.expectedElementEnd c)

/-- A value on the stack takes in one character, which stands at `place`. -/
def feed (builder : Builder) (c : Char) (place : Cursor) : Except Trouble Reaction :=
  match builder with
  | .object node stage pending => feedObject node stage pending c place
  | .array node stage => feedArray node stage c place
  | .string false body =>
      if c = '"' then .ok (.stay (.string true body)) else .error (.breach place (.opening '"' c))
  | .string true body =>
      match body.feed c with
      | .error defect => .error (.fault (.malformed place defect))
      | .ok (.more body) => .ok (.stay (.string true body))
      | .ok (.closed text) => .ok (.close (.leaf (.string text)))
  | .literal start token =>
      let start := if token = "" then place else start
      if Literal.continues c then .ok (.stay (.literal start (token.push c)))
      else (literalValue start token).map .closeBefore

/-- Puts a complete value into the value on the stack. -/
def accept (builder : Builder) (value : Tree) (place : Cursor) : Except Trouble Builder :=
  match builder with
  | .object node stage pending =>
      if node.index.contains pending then .error (.fault (.malformed place (.duplicateKey pending)))
      else
        match node.attachKeyed pending value with
        | (.ok _, node) => .ok (.object node stage "")
        | (.error fault, _) => .error (.breach place (.refused fault))
  | .array node stage =>
      match node.append value with
      | (.ok _, node) => .ok (.array node stage)
      | (.error fault, _) => .error (.breach place (.refused fault))
  | builder => .error (.breach place (.nested builder.form))

/-- The value at the end of the input, if it can end there. -/
def finish (builder : Builder) : Except Trouble (Option Tree) :=
  match builder with
  | .literal start token => (literalValue start token).map some
  | _ => .ok none

end Builder

/-! ## The reader -/

/-- A reader with a stack, the top of which comes first. -/
structure StackReader where
  options : ReadOptions
  cursor : Cursor := .start
  stack : List Builder := []
  result : Option Tree := none
  stopped : Bool := false
  failure : Option Trouble := none

/-- How a value on the stack reacted to a character. -/
inductive Reacted
  | stayed
  | descended
  | closed
  | closedBefore
  | failed
  deriving DecidableEq, Repr

/-- A record of the loop: a value was fed, with a stack below it, and this is how it reacted. -/
structure Feed where
  builder : Builder
  below : List Builder
  reacted : Reacted

namespace StackReader

/-- What the loop comes to in one round: it returns, with the records of this round, or it goes
on. -/
inductive Round
  | returns (feeds : List Feed) (result : Except Trouble StackReader)
  | goesOn (feed : Feed) (reader : StackReader)

variable (reader : StackReader) (c : Char)

/-- A character between tokens may end the document as a stopper, or stand as a blank outside of it.
The answer is the reader behind such a character. -/
def atBoundary? : Option StackReader :=
  if reader.options.stoppers.contains c then some { reader with stopped := true }
  else if reader.stack.isEmpty && isBlank c then some reader
  else none

/-- Starts the top-level value with a character. -/
def startValue : List Feed × Except Trouble StackReader :=
  if reader.result.isSome then ([], .error (.fault (.malformed reader.cursor (.afterEnd c))))
  else
    match Builder.fresh? c reader.options.autosort with
    | none => ([], .error (.fault (.malformed reader.cursor (.atStart c))))
    | some builder =>
        match builder.feed c reader.cursor with
        | .error trouble => ([⟨builder, [], .failed⟩], .error trouble)
        | .ok (.stay next) => ([⟨builder, [], .stayed⟩], .ok { reader with stack := [next] })
        | .ok (.descend ..) =>
            ([⟨builder, [], .descended⟩], .error (.breach reader.cursor (.unconsumed c)))
        | .ok (.close _) =>
            ([⟨builder, [], .closed⟩], .error (.breach reader.cursor (.unconsumed c)))
        | .ok (.closeBefore _) =>
            ([⟨builder, [], .closedBefore⟩], .error (.breach reader.cursor (.unconsumed c)))

/-- Hands a complete value to the top of the stack. Without one, it is the result. -/
def deliver (value : Tree) : Except Trouble StackReader :=
  match reader.stack with
  | [] => .ok { reader with result := some value }
  | parent :: below => (parent.accept value reader.cursor).map fun parent =>
      { reader with stack := parent :: below }

/-- One round of the loop: the top of the stack takes in the character. -/
def round : Round :=
  match reader.stack with
  | [] => .returns (reader.startValue c).1 (reader.startValue c).2
  | top :: below =>
      match top.feed c reader.cursor with
      | .error trouble => .returns [⟨top, below, .failed⟩] (.error trouble)
      | .ok (.stay next) =>
          .returns [⟨top, below, .stayed⟩] (.ok { reader with stack := next :: below })
      | .ok (.descend next child) =>
          .goesOn ⟨top, below, .descended⟩ { reader with stack := child :: next :: below }
      | .ok (.close value) =>
          .returns [⟨top, below, .closed⟩] ({ reader with stack := below }.deliver value)
      | .ok (.closeBefore value) =>
          match { reader with stack := below }.deliver value with
          | .error trouble => .returns [⟨top, below, .closedBefore⟩] (.error trouble)
          | .ok reader =>
              match reader.atBoundary? c with
              | some reader => .returns [⟨top, below, .closedBefore⟩] (.ok reader)
              | none =>
                  if reader.stack.isEmpty then
                    .returns (⟨top, below, .closedBefore⟩ :: (reader.startValue c).1)
                      (reader.startValue c).2
                  else .goesOn ⟨top, below, .closedBefore⟩ reader

/-- A round that is made after others, which left their records. -/
def pass (c : Char) (state : List Feed × StackReader) :
    (List Feed × Except Trouble StackReader) ⊕ (List Feed × StackReader) :=
  match state.2.round c with
  | .returns feeds result => .inl (state.1 ++ feeds, result)
  | .goesOn feed next => .inr (state.1 ++ [feed], next)

/-- Rounds are made until one returns. There is no answer if none ever does. -/
def loop : Part (List Feed × Except Trouble StackReader) :=
  PFun.fix (PFun.lift (pass c)) ([], reader)

/-- Deals with a character on which the cursor stands. -/
def step : Part (List Feed × Except Trouble StackReader) :=
  let between := match reader.stack with
    | [] => true
    | top :: _ => !top.inToken
  match if between then reader.atBoundary? c else none with
  | some reader => .some ([], .ok reader)
  | none => reader.loop c

/-- What a character leaves of a reader. One that fails drops its stack. -/
def afterStep (came : List Feed × Except Trouble StackReader) :
    List Feed × Except Trouble Unit × StackReader :=
  match came with
  | (feeds, .ok after) => (feeds, .ok (), after)
  | (feeds, .error trouble) =>
      (feeds, .error trouble, { reader with stack := [], result := none, failure := some trouble })

/-- Takes in one character. The answer comes with the records of the loop. -/
def feedChar : Part (List Feed × Except Trouble Unit × StackReader) :=
  match reader.failure with
  | some trouble => .some ([], .error trouble, reader)
  | none =>
      if reader.stopped then .some ([], .ok (), reader)
      else
        let moved := { reader with cursor := reader.cursor.advance c }
        (moved.step c).map moved.afterStep

/-- Takes in a piece of text, up to the first failure or stopper. -/
def feed (reader : StackReader) : List Char → Part (Except Trouble Unit × StackReader)
  | [] => .some (.ok (), reader)
  | c :: rest =>
      if reader.stopped then .some (.ok (), reader)
      else
        (reader.feedChar c).bind fun (_, answer, after) =>
          match answer with
          | .ok () => after.feed rest
          | .error trouble => .some (.error trouble, after)

/-- Takes in a line, with or without its line break, and a line feed after it. -/
def feedLine (line : List Char) : Part (Except Trouble Unit × StackReader) :=
  (reader.feed (Reader.trimEnd '\r' (Reader.trimEnd '\n' line))).bind fun (answer, after) =>
    match answer with
    | .ok () => (after.feedChar '\n').map Prod.snd
    | .error trouble => .some (.error trouble, after)

/-- The tree at the end of the input. -/
def finish : Except Trouble Tree :=
  match reader.failure, reader.result, reader.stack with
  | some trouble, _, _ => .error trouble
  | none, some value, _ => .ok value
  | none, none, [] => .error (.fault (.malformed reader.cursor .empty))
  | none, none, [top] =>
      match top.finish with
      | .error trouble => .error trouble
      | .ok (some value) => .ok value
      | .ok none => .error (.fault (.malformed reader.cursor (.endInside top.form)))
  | none, none, top :: _ => .error (.fault (.malformed reader.cursor (.endInside top.form)))

/-- A reader at the start of a document. -/
def new (options : ReadOptions) : StackReader :=
  { options }

/-! ## Rounds of the loop -/

variable {reader : StackReader} {c : Char} {feeds : List Feed} {result : Except Trouble StackReader}

theorem round_of_stay {top next : Builder} {below : List Builder}
    (hstack : reader.stack = top :: below) (hfeed : top.feed c reader.cursor = .ok (.stay next)) :
    reader.round c =
      .returns [⟨top, below, .stayed⟩] (.ok { reader with stack := next :: below }) := by
  unfold round
  simp only [hstack, hfeed]

theorem round_of_descend {top next child : Builder} {below : List Builder}
    (hstack : reader.stack = top :: below)
    (hfeed : top.feed c reader.cursor = .ok (.descend next child)) :
    reader.round c =
      .goesOn ⟨top, below, .descended⟩ { reader with stack := child :: next :: below } := by
  unfold round
  simp only [hstack, hfeed]

theorem round_of_closeBefore {top : Builder} {below : List Builder} {value : Tree}
    (hstack : reader.stack = top :: below)
    (hfeed : top.feed c reader.cursor = .ok (.closeBefore value)) :
    reader.round c =
      match { reader with stack := below }.deliver value with
      | .error trouble => .returns [⟨top, below, .closedBefore⟩] (.error trouble)
      | .ok reader =>
          match reader.atBoundary? c with
          | some reader => .returns [⟨top, below, .closedBefore⟩] (.ok reader)
          | none =>
              if reader.stack.isEmpty then
                .returns (⟨top, below, .closedBefore⟩ :: (reader.startValue c).1)
                  (reader.startValue c).2
              else .goesOn ⟨top, below, .closedBefore⟩ reader := by
  unfold round
  simp only [hstack, hfeed]

theorem pass_of_returns (fed : List Feed) (hround : reader.round c = .returns feeds result) :
    Sum.inl (fed ++ feeds, result) ∈ PFun.lift (pass c) (fed, reader) := by
  rw [PFun.coe_val, Part.mem_some_iff, pass, hround]

theorem pass_of_goesOn (fed : List Feed) {feed : Feed} {next : StackReader}
    (hround : reader.round c = .goesOn feed next) :
    Sum.inr (fed ++ [feed], next) ∈ PFun.lift (pass c) (fed, reader) := by
  rw [PFun.coe_val, Part.mem_some_iff, pass, hround]

theorem loop_of_returns (hround : reader.round c = .returns feeds result) :
    reader.loop c = .some (feeds, result) :=
  Part.eq_some_iff.mpr (PFun.fix_stop (pass_of_returns [] hround))

theorem loop_of_goesOn {feed : Feed} {next : StackReader}
    (hround : reader.round c = .goesOn feed next) (hnext : next.round c = .returns feeds result) :
    reader.loop c = .some (feed :: feeds, result) :=
  calc reader.loop c
    _ = PFun.fix (PFun.lift (pass c)) ([feed], next) := PFun.fix_fwd_eq (pass_of_goesOn [] hround)
    _ = .some (feed :: feeds, result) :=
      Part.eq_some_iff.mpr (PFun.fix_stop (pass_of_returns [feed] hnext))

end StackReader

end KeyedTree
