import StoryScript.Console

/-! The program. The files below the directory of stories are those whose paths inside it stand on
the lines of the input. -/
namespace StoryScript.Console

/-- The lines of the input that are still to come. -/
partial def readLines (input : IO.FS.Stream) : IO (List String) := do
  let line ← input.getLine
  if line.isEmpty then return []
  return (trim line) :: (← readLines input)

/-- What a file holds. -/
def readContent (path : String) : IO Content := do
  match ← (IO.FS.readBinFile path).toBaseIO with
  | .ok bytes => return .ok bytes
  | .error e => return .error e.toString

/-- What there is at a path. -/
def readPlace (path : String) : IO Place := do
  match ← (IO.FS.readBinFile path).toBaseIO with
  | .ok _ => return .file
  | .error (.noFileOrDirectory _ _ _) => return .missing
  | .error _ =>
    let lines ← readLines (← IO.getStdin)
    return .directory (← lines.mapM fun p => return (p, ← readContent (path ++ "/" ++ p)))

/-- Prints the outcome of a run. -/
def printOutcome (o : Outcome) : IO UInt32 := do
  for e in o.effects do
    if let .warned w := e then IO.eprintln ("WARN " ++ w.text)
  for line in o.lines do IO.println line
  return o.exit

end StoryScript.Console

open StoryScript.Console in
/-- Runs the program. -/
def main (args : List String) : IO UInt32 := do
  match Invocation.ofArgs args with
  | .help => usage.forM IO.println; return 0
  | .misuse => usage.forM IO.eprintln; return 2
  | .run a =>
    let path := resolve (toString (← IO.currentDir)) a.directory
    printOutcome (a.outcome path (← readPlace path))
