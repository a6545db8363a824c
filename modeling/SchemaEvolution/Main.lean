import SchemaEvolution.CommandLine

/-!
# The program

Reads the file that the command line names, runs the command and prints what it gives.
-/

open SchemaEvolution

/-- The content of a file, or what is said when it cannot be read. -/
def readDocument (path : String) : IO (Except String String) := do
  try
    return .ok (← IO.FS.readFile path)
  catch
    | .noFileOrDirectory _ _ _ => return .error CommandLine.missingFile
    | e => return .error (toString e)

def main (arguments : List String) : IO UInt32 := do
  let result ← match CommandLine.parse arguments with
    | none => pure (.error CommandLine.Failure.usage)
    | some options => do
      pure (CommandLine.run options (← readDocument options.path))
  match result with
  | .ok output =>
    IO.println output.log
    IO.print output.text
    return 0
  | .error failure =>
    IO.eprint failure.report
    return UInt32.ofNat failure.exitCode
