import KeyedTree.CommandLine.Run

/-! # Folders

A folder of files in memory, in which the program can be run without touching anything else. A path
is followed name by name from the folder. The folder has no folders inside. Of what is around it
nothing is known but that there are folders, which hold no file and keep none.
-/

namespace KeyedTree.CommandLine

/-- Files with their names, and what the standard input holds. -/
structure Folder where
  files : List (String × String) := []
  input : List UInt8 := []

namespace Folder

/-- The content of a file. -/
def content? (folder : Folder) (name : String) : Option String :=
  folder.files.lookup name

/-- The folder with a file put there; a file of that name is replaced. -/
def put (folder : Folder) (name content : String) : Folder :=
  { folder with files := folder.files.filter (·.1 ≠ name) ++ [(name, content)] }

/-- The longest name that a file can have, in bytes. -/
def longestName : Nat := 255

/-- The longest path that can be followed, in bytes. -/
def longestPath : Nat := 4095

/-- What a path is followed for: to read a file that is there, or to write one that may be new. -/
inductive Purpose
  | reading
  | writing
  deriving DecidableEq, Repr

/-- Follows the names of a path, from the folder or from outside it, to a file, which need not
exist. A file outside the folder has no name. Whether a slash follows the last name matters: only
directories can have one, and a directory cannot be made by writing. -/
def follow (folder : Folder) (purpose : Purpose) (slash : Bool) :
    Bool → List String → Except FileFault (Option String)
  | _, [] => .error .directory
  | inside, name :: rest =>
      if name = "." then folder.follow purpose slash inside rest
      else if name = ".." then folder.follow purpose slash false rest
      else if slash ∧ rest = [] ∧ purpose = .writing then .error .directory
      else if name.utf8ByteSize > longestName then .error .tooLong
      else if slash ∨ rest ≠ [] then
        .error (if inside ∧ (folder.content? name).isSome then .notADirectory else .missing)
      else .ok (if inside then some name else none)

/-- Follows a path to a file. -/
def followPath (folder : Folder) (purpose : Purpose) (path : String) :
    Except FileFault (Option String) :=
  if path = "" then .error .missing
  else if path.utf8ByteSize > longestPath then .error .tooLong
  else
    let names := (path.splitOn "/").filter (· ≠ "")
    folder.follow purpose (path.endsWith "/") (!path.startsWith "/") names

/-- The bytes of the file at a path. -/
def read (folder : Folder) (path : String) : Except FileFault (List UInt8) := do
  match (← folder.followPath .reading path).bind folder.content? with
  | some content => return content.toUTF8.toList
  | none => throw .missing

/-- The folder with a file written at a path. -/
def write (folder : Folder) (path content : String) : Except FileFault Folder := do
  match ← folder.followPath .writing path with
  | some name => return folder.put name content
  | none => return folder

instance : Surroundings (StateM Folder) where
  standardInput := fun folder => (folder.input, folder)
  readFile path := fun folder => (folder.read path, folder)
  writeFile path content := fun folder =>
    match folder.write path content with
    | .ok written => (.ok (), written)
    | .error fault => (.error fault, folder)

/-- Runs the program in a folder. -/
def run (folder : Folder) (arguments : List String) : Outcome × Folder :=
  (runProgram arguments : StateM Folder Outcome).run folder

end Folder

end KeyedTree.CommandLine
