import EmbeddedSql.CommandLine.Run

/-!
# The command line

Answers questions about files from the disk, and hands the output to the
terminal.
-/

namespace EmbeddedSql

/-- The reason that the system gives for a failure. -/
def FileError.ofSystem : IO.Error → FileError
  | .noFileOrDirectory .. => .notFound
  | .inappropriateType .. => .isADirectory
  | e => .other (toString e)

/-- The files on the disk. -/
def diskFiles : Files IO where
  bytes p := do
    try
      return .ok (← IO.FS.readBinFile (toString p))
    catch e => return .error (.ofSystem e)
  isFile p := do
    let dir ← IO.currentDir
    let path := dir / toString p
    return (← path.pathExists) && !(← path.isDir)
  names? p := do
    let dir ← IO.currentDir
    try
      return some ((← (dir / toString p).readDir).toList.map (·.fileName))
    catch _ => return none

end EmbeddedSql

open EmbeddedSql in
/-- Reads the arguments, does what they ask for, and reports failure by the
exit code. -/
def main (arguments : List String) : IO UInt32 := do
  match CommandLine.ofArguments arguments with
  | .error .help =>
    IO.println UsageError.help.message
    return 0
  | .error .version =>
    IO.println UsageError.version.message
    return 0
  | .error e =>
    IO.eprintln s!"strpsql: {e.message}"
    return 2
  | .ok c =>
    match ← c.run diskFiles with
    | .ok text =>
      IO.print text
      return 0
    | .error e =>
      IO.eprintln s!"strpsql: {e.message}"
      return 1
