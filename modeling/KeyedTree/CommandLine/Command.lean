/-! # Commands

The commands that can be given on the command line, and how they are read from the arguments. A
short option may be joined to its value and to short options before it. An option is given once at
most, except for the one that raises the verbosity. Behind two dashes all arguments are plain words.
-/

namespace KeyedTree.CommandLine

/-- The names of the commands. -/
inductive Name
  | format
  | check
  | get
  | stats
  deriving DecidableEq, Repr

/-- The name that a word spells. -/
def Name.ofWord? : String → Option Name
  | "format" => some .format
  | "check" => some .check
  | "get" => some .get
  | "stats" => some .stats
  | _ => none

/-- What is to be done with a document. Without a file the input is the standard input, and the
output the standard output. -/
inductive Command
  | format (input output : Option String) (compact sort : Bool) (stoppers : String)
  | check (input : Option String) (stoppers : String)
  | get (input : Option String) (path : String)
  | stats (input : Option String)
  deriving DecidableEq, Repr

/-- The options. -/
inductive Switch
  | input
  | output
  | compact
  | sort
  | stopper
  | verbose
  | help
  | version
  deriving DecidableEq, Repr

namespace Switch

/-- The word of an option. -/
def word : Switch → String
  | .input => "input"
  | .output => "output"
  | .compact => "compact"
  | .sort => "sort"
  | .stopper => "stopper"
  | .verbose => "verbose"
  | .help => "help"
  | .version => "version"

/-- The letter of an option, if it has one. -/
def letter? : Switch → Option Char
  | .input => some 'i'
  | .output => some 'o'
  | .verbose => some 'v'
  | .help => some 'h'
  | .version => some 'V'
  | _ => none

/-- Whether an option comes with a value. -/
def takesValue : Switch → Bool
  | .input => true
  | .output => true
  | .stopper => true
  | _ => false

/-- The options that may be given in front of a command's name. -/
def general : List Switch :=
  [.verbose, .help, .version]

end Switch

/-- The options of a command. -/
def Name.switches : Name → List Switch
  | .format => [.input, .output, .compact, .sort, .stopper, .verbose, .help]
  | .check => [.input, .stopper, .verbose, .help]
  | .get => [.input, .verbose, .help]
  | .stats => [.input, .verbose, .help]

/-- The number of plain words that a command takes. -/
def Name.wordCount : Name → Nat
  | .get => 1
  | _ => 0

/-- Why no command is to be carried out. -/
inductive Interruption
  | help
  | version
  | misuse
  deriving DecidableEq, Repr

/-- What the arguments came to so far. A switch that still waits for its value is `pending`. -/
structure Matches where
  given : List (Switch × String) := []
  words : List String := []
  pending : Option Switch := none
  wordsOnly : Bool := false

namespace Matches

/-- Takes in an option with its value; flags have an empty one. -/
def give (found : Matches) (switch : Switch) (value : String) : Except Interruption Matches :=
  if found.pending.isSome then .error .misuse
  else
    match switch with
    | .help => .error .help
    | .version => .error .version
    | .verbose => .ok found
    | _ =>
        if (found.given.lookup switch).isSome then .error .misuse
        else .ok { found with given := found.given ++ [(switch, value)] }

/-- Takes in an option whose value is the next argument. -/
def await (found : Matches) (switch : Switch) : Except Interruption Matches :=
  if found.pending.isSome then .error .misuse else .ok { found with pending := some switch }

/-- Takes in an option by its word, with the value that is joined to it. -/
def giveWord (switches : List Switch) (found : Matches) (word : String) (value : Option String) :
    Except Interruption Matches :=
  match switches.find? (·.word == word) with
  | none => .error .misuse
  | some switch =>
      match switch.takesValue, value with
      | true, some value => found.give switch value
      | true, none => found.await switch
      | false, none => found.give switch ""
      | false, some _ => .error .misuse

/-- Takes in a run of option letters; what follows an option with a value is the value. -/
def giveLetters (switches : List Switch) (found : Matches) :
    List Char → Except Interruption Matches
  | [] => .ok found
  | letter :: rest =>
      match switches.find? (·.letter? == some letter) with
      | none => .error .misuse
      | some switch =>
          if switch.takesValue then
            match rest with
            | [] => found.await switch
            | '=' :: value => found.give switch (String.ofList value)
            | value => found.give switch (String.ofList value)
          else
            match found.give switch "" with
            | .ok found => giveLetters switches found rest
            | .error interruption => .error interruption

/-- Takes in a plain word: the value that an option waits for, or a word of its own. -/
def giveValue (wordCount : Nat) (found : Matches) (value : String) :
    Except Interruption Matches :=
  match found.pending with
  | some switch => { found with pending := none }.give switch value
  | none =>
      if found.words.length < wordCount then .ok { found with words := found.words ++ [value] }
      else .error .misuse

/-- Takes in one argument. -/
def next (switches : List Switch) (wordCount : Nat) (found : Matches) (argument : String) :
    Except Interruption Matches :=
  if found.wordsOnly then
    if found.pending.isSome then .error .misuse
    else found.giveValue wordCount argument
  else
    match argument.toList with
    | ['-', '-'] => .ok { found with wordsOnly := true }
    | '-' :: '-' :: rest =>
        let word := String.ofList (rest.takeWhile (· ≠ '='))
        match rest.dropWhile (· ≠ '=') with
        | [] => found.giveWord switches word none
        | _ :: value => found.giveWord switches word (some (String.ofList value))
    | '-' :: letter :: rest => found.giveLetters switches (letter :: rest)
    | _ => found.giveValue wordCount argument

end Matches

/-- The command with a name, as the matches have it. -/
def Name.command (name : Name) (found : Matches) : Except Interruption Command :=
  let value (switch : Switch) : Option String := found.given.lookup switch
  let input := value .input
  let stoppers := (value .stopper).getD ""
  if found.pending.isSome then .error .misuse
  else
    match name, found.words with
    | .format, _ =>
        .ok (.format input (value .output) (value .compact).isSome (value .sort).isSome stoppers)
    | .check, _ => .ok (.check input stoppers)
    | .get, path :: _ => .ok (.get input path)
    | .get, [] => .error .misuse
    | .stats, _ => .ok (.stats input)

/-- The command with a name and the arguments behind it. -/
def parseRest (name : Name) (found : Matches) : List String → Except Interruption Command
  | [] => name.command found
  | argument :: rest =>
      match found.next name.switches name.wordCount argument with
      | .ok found => parseRest name found rest
      | .error interruption => .error interruption

/-- What `help` with further arguments comes to: each must name a command within the one before. -/
def parseHelp : List String → Interruption
  | [] => .help
  | ["help"] => .help
  | [word] => if (Name.ofWord? word).isSome then .help else .misuse
  | _ => .misuse

/-- The command that the arguments ask for; `found` is what came in front of its name. -/
def parseFrom (found : Matches) : List String → Except Interruption Command
  | [] => .error .misuse
  | argument :: rest =>
      match found.wordsOnly, argument, Name.ofWord? argument with
      | false, "help", _ => .error (parseHelp rest)
      | false, _, some name => parseRest name {} rest
      | _, _, _ =>
          match found.next Switch.general 0 argument with
          | .ok found => parseFrom found rest
          | .error interruption => .error interruption

/-- The command that the arguments ask for. -/
def parse (arguments : List String) : Except Interruption Command :=
  parseFrom {} arguments

end KeyedTree.CommandLine
