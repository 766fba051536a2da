import PegScript.CommandLine

/-!
# The program

Reads the file that the arguments name and prints the trace of its parse.
-/

namespace PegScript

/-- The text of a file, or why it cannot be read. -/
def readSource (file : String) : IO (Except String String) := do
  try
    return .ok (← IO.FS.readFile file)
  catch e =>
    match e with
    | .noFileOrDirectory .. => return .error "No such file or directory (os error 2)"
    | e => return .error (toString e)

end PegScript

open PegScript in
/-- Runs the command. -/
def main (args : List String) : IO UInt32 := do
  let request := Request.ofArgs args
  let contents ←
    match request.file with
    | some file => readSource file
    | none => pure (.error "")
  let result := request.run (← IO.getEnv "RUST_LOG") fun _ => contents
  (← IO.getStdout).putStr result.output
  match result.error with
  | some error =>
    (← IO.getStderr).putStr error.message
    return 1
  | none => return 0
