import DesignLoads.CommandLine.Report

/-! The program: expands the rules in a file and prints the combinations. -/

namespace DesignLoads

def readingObstacle : IO.Error → Obstacle
  | .noFileOrDirectory .. => .missing
  | .inappropriateType .. => .isDirectory
  | e => .other (toString e)

def readFileText (path : String) : IO (Except Failure String) := do
  let failed (o : Obstacle) : Except Failure String := .error (.file "read" path o.reason)
  try
    let content ← IO.FS.readBinFile path
    return match String.fromUTF8? content with
      | some text => .ok text
      | none => failed .notText
  catch e => return failed (readingObstacle e)

end DesignLoads

open DesignLoads in
def main (args : List String) : IO UInt32 := do
  let r ← match Arguments.parse args with
    | .ok a =>
      let contents ← readFileText a.file
      pure (a.report contents .epoch)
    | .error refusal => pure (.refusal refusal)
  (← IO.getStdout).putStr r.output
  (← IO.getStderr).putStr r.errors
  return r.exit.toUInt32
