import KeyedTree.CommandLine.Command
import KeyedTree.CommandLine.TreePath
import KeyedTree.Reader.Stream
import KeyedTree.Tree.Census

/-! # Carrying out commands

A command reads one document from its input and yields a text. The text goes to a file or to the
standard output. What goes wrong is reported on the standard error.
-/

namespace KeyedTree.CommandLine

/-- Why a file cannot be read or written. -/
inductive FileFault
  | missing
  | directory
  | notADirectory
  | tooLong
  | other (text : String)
  deriving DecidableEq, Repr

/-- The wording of a file fault. -/
def FileFault.message : FileFault → String
  | .missing => "No such file or directory (os error 2)"
  | .directory => "Is a directory (os error 21)"
  | .notADirectory => "Not a directory (os error 20)"
  | .tooLong => "File name too long (os error 36)"
  | .other text => text

/-- Why a command failed. -/
inductive Failure
  | unreadable (file : String) (fault : FileFault)
  | undecodable (input : String) (fault : Fault)
  | unwritable (file : String) (fault : FileFault)
  | misled (fault : PathFault)

/-- The message of a failure and its cause. -/
def Failure.message : Failure → String × Option String
  | .unreadable file fault => ("Failed to read file: " ++ file, some fault.message)
  | .undecodable input fault => ("Failed to decode JSON from " ++ input, some fault.message)
  | .unwritable file fault => ("Failed to write file: " ++ file, some fault.message)
  | .misled (.notAPosition segment cause) =>
      (s!"'{segment}' is not an array position", some cause.message)
  | .misled (.scalar kind segment) =>
      ("Cannot descend into " ++ kind.name ++ s!" value at '{segment}'", none)
  | .misled (.absent fault) => (fault.message, none)

/-- A text with four blanks in front of every line. -/
def indentLines (text : String) : String :=
  String.ofList <| "    ".toList ++ text.toList.flatMap fun c =>
    if c = '\n' then "\n    ".toList else [c]

/-- The report of a failure. -/
def Failure.report (failure : Failure) : String :=
  match failure.message with
  | (message, none) => s!"Error: {message}\n"
  | (message, some cause) => s!"Error: {message}\n\nCaused by:\n" ++ indentLines cause ++ "\n"

/-- The text that a census is shown as. -/
def censusText (census : Census) : String :=
  s!"Nodes:      {census.total}\n" ++
  s!"Objects:    {census.objects}\n" ++
  s!"Arrays:     {census.arrays}\n" ++
  s!"Strings:    {census.strings}\n" ++
  s!"Integers:   {census.integers}\n" ++
  s!"Booleans:   {census.bools}\n" ++
  s!"Nulls:      {census.nulls}\n" ++
  s!"Max depth:  {census.maxDepth}\n"

namespace Command

/-- The file that a command reads. -/
def input? : Command → Option String
  | .format input .. => input
  | .check input _ => input
  | .get input _ => input
  | .stats input => input

/-- The file that a command writes. -/
def output? : Command → Option String
  | .format _ output .. => output
  | _ => none

/-- How a command reads its document. -/
def options : Command → ReadOptions
  | .format _ _ _ sort stoppers => { stoppers := stoppers.toList, autosort := sort }
  | .check _ stoppers => { stoppers := stoppers.toList }
  | _ => {}

/-- The text that a command yields for a document. -/
def text (command : Command) (tree : Tree) : Except Failure String :=
  match command with
  | .format _ _ compact .. => .ok (tree.render (!compact) false ++ "\n")
  | .check .. => .ok "ok\n"
  | .get _ path =>
      match tree.follow path with
      | .error fault => .error (.misled fault)
      | .ok found =>
          match found.readString with
          | .ok value => .ok (value ++ "\n")
          | .error _ => .ok (found.render true false ++ "\n")
  | .stats _ => .ok (censusText tree.census)

/-- What the input of a command is called in messages. -/
def inputName (command : Command) : String :=
  command.input?.getD "<stdin>"

/-- The text that a command yields for the bytes of its input. -/
def run (command : Command) (bytes : List UInt8) : Except Failure String :=
  match (readStream command.options bytes).1 with
  | .error fault => .error (.undecodable command.inputName fault)
  | .ok tree => command.text tree

end Command

/-- What a run of the program leaves behind: its exit code and what it wrote. -/
structure Outcome where
  code : Nat
  output : String := ""
  errors : String := ""

/-- A short reminder of the commands. -/
def usage : String :=
  "Usage: dataobj [-v] <COMMAND>\n\n" ++
  "Commands:\n" ++
  "  format  Re-encode a document\n" ++
  "  check   Tell whether a document is well-formed\n" ++
  "  get     Print the node at a dot-separated path\n" ++
  "  stats   Show node counts per kind and the maximum depth\n"

/-- The outcome of a failure. -/
def Outcome.ofFailure (failure : Failure) : Outcome :=
  { code := 1, errors := failure.report }

/-- The outcome when no command is carried out. -/
def Outcome.ofInterruption : Interruption → Outcome
  | .help => { code := 0, output := usage }
  | .version => { code := 0, output := "dataobj 0.1.0\n" }
  | .misuse => { code := 2, errors := usage }

/-! ### In surroundings -/

/-- Where commands find their documents and leave their texts. -/
class Surroundings (m : Type → Type) where
  standardInput : m (List UInt8)
  readFile : String → m (Except FileFault (List UInt8))
  writeFile : String → String → m (Except FileFault Unit)

section

variable {m : Type → Type} [Monad m] [Surroundings m]

/-- The bytes of a command's input. A directory can be opened like a file, and only reading from it
fails. -/
def Command.fetch (command : Command) : m (Except Failure (List UInt8)) := do
  match command.input? with
  | none => return .ok (← Surroundings.standardInput)
  | some path =>
      match ← Surroundings.readFile path with
      | .ok bytes => return .ok bytes
      | .error .directory => return .error (.undecodable path (.input .directory))
      | .error fault => return .error (.unreadable path fault)

/-- Leaves the text of a command where it belongs. -/
def Command.deliver (command : Command) (text : String) : m Outcome := do
  match command.output? with
  | none => return { code := 0, output := text }
  | some path =>
      match ← Surroundings.writeFile path text with
      | .ok () => return { code := 0 }
      | .error fault => return .ofFailure (.unwritable path fault)

/-- Carries out a command. -/
def Command.carryOut (command : Command) : m Outcome := do
  match (← command.fetch).bind command.run with
  | .ok text => command.deliver text
  | .error failure => return .ofFailure failure

/-- Runs the program. -/
def runProgram (arguments : List String) : m Outcome :=
  match parse arguments with
  | .ok command => command.carryOut
  | .error interruption => return .ofInterruption interruption

end

end KeyedTree.CommandLine
