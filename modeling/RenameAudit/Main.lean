import RenameAudit.CommandLine.Run
/-!
# Main — the command line

Looks paths up on the disk, writes the log, prints what a run leaves, and ends with its code.
-/
open RenameAudit

/-- The fault of an error that reading gave. -/
def faultOf : IO.Error → FileFault
  | .noFileOrDirectory .. => .missing
  | .inappropriateType .. => .notFolder
  | .permissionDenied .. => .other "Permission denied (os error 13)"
  | e => .other (toString e)

/-- What a path leads to on the disk. -/
def look (path : String) : IO (Except FileFault Place) := do
  try
    let place ← IO.FS.realPath path
    if ← place.isDir then
      let start := place.toString.length + 1
      let found ← place.walkDir
      let files ← found.filterM fun p => return !(← p.isDir)
      let files ← files.mapM fun p => return ((p.toString.drop start).toString, (← IO.FS.readBinFile p).data.toList)
      return .ok (.folder files.toList)
    else return .ok (.file (← IO.FS.readBinFile place))
  catch e => return .error (faultOf e)

/-- Adds text at the end of a file. -/
def append (path text : String) : IO Bool := do
  try
    IO.FS.withFile path .append fun file => file.putStr text
    return true
  catch _ => return false

/-- The disk of the computer.  Times are the milliseconds since it was started. -/
def computer : Disk IO where
  look := look
  append := append
  now := return toString (← IO.monoMsNow)

/-- The program. -/
def main (arguments : List String) : IO UInt32 := do
  match Options.parse arguments with
  | .error fault =>
    IO.eprintln ("error: " ++ fault.message)
    return 2
  | .ok request =>
    let outcome ← Run.answer computer request
    IO.print outcome.output
    if let some complaint := outcome.complaint then IO.eprintln ("error: " ++ complaint)
    return UInt32.ofNat outcome.code
