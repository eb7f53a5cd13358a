import KeyedTree.CommandLine.Run

/-! # The program

The program in the surroundings of the operating system.
-/

namespace KeyedTree.CommandLine

/-- The file fault that an error of the operating system amounts to. -/
def FileFault.ofError : IO.Error → FileFault
  | .noFileOrDirectory .. => .missing
  | .inappropriateType _ code _ => if code = 21 then .directory else .notADirectory
  | .invalidArgument _ 36 _ => .tooLong
  | fault => .other (toString fault)

/-- Takes the error of an action for a file fault. -/
def catchFault {α : Type} (action : IO α) : IO (Except FileFault α) := do
  try
    return .ok (← action)
  catch fault =>
    return .error (.ofError fault)

instance : Surroundings IO where
  standardInput := do return (← (← IO.getStdin).readBinToEnd).toList
  readFile path := catchFault do return (← IO.FS.readBinFile path).toList
  writeFile path text := catchFault (IO.FS.writeFile path text)

end KeyedTree.CommandLine

/-- The entry point. -/
def main (arguments : List String) : IO UInt32 := do
  let outcome : KeyedTree.CommandLine.Outcome ← KeyedTree.CommandLine.runProgram arguments
  IO.print outcome.output
  IO.eprint outcome.errors
  return outcome.code.toUInt32
