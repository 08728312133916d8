import Frontend.CommandLine.Run

/-!
# The program

The outermost layer: arguments, files and the two outputs.
-/

open Frontend

/-- Reads the text of a file. -/
def readFileText (path : String) : IO (Except FileError String) := do
  try
    return textOfBytes (← IO.FS.readBinFile path)
  catch e =>
    match e with
    | .noFileOrDirectory .. => return .error .notFound
    | .inappropriateType _ _ "is a directory" => return .error .isADirectory
    | .inappropriateType _ _ "not a directory" => return .error .notADirectory
    | other => return .error (.other (toString other))

/-- Runs the program with the given arguments. -/
def main (args : List String) : IO UInt32 := do
  let report ← CommandLine.run readFileText args
  (← IO.getStdout).putStr report.output
  (← IO.getStderr).putStr report.errors
  return report.exitCode.toUInt32
