import ClauseLearning.CommandLine.Run

/-!
# The command

Reads the file that the plan asks for, writes the lines, and gives the status.
-/

namespace ClauseLearning.CommandLine

/-- Reads a file as bytes. -/
def readBytes (path : String) : IO (Except OpenError (List UInt8)) := do
  try
    return .ok (← IO.FS.readBinFile path).toList
  catch e =>
    match e with
    | .noFileOrDirectory .. => return .error .notFound
    | e => return .error (.other (toString e))

/-- Carries a plan out. -/
def Plan.perform : Plan → IO Output
  | .stop output => return output
  | .read path next => return next (← readBytes path)

end ClauseLearning.CommandLine

def main (arguments : List String) : IO UInt32 := do
  let output ← (ClauseLearning.CommandLine.plan arguments).perform
  for line in output.lines do
    IO.println line
  return output.status.toUInt32
