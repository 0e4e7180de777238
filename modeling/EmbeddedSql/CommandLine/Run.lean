import EmbeddedSql.CommandLine.Arguments
import EmbeddedSql.Config.Lookup
import EmbeddedSql.Output.Echo
import EmbeddedSql.Output.Listing
import EmbeddedSql.Session

/-!
# What a command line does

The source file is read before the settings are looked for, so of two faults
the one in the source file is reported. What is written is the echo of the
source, or the listing of its tags.
-/

namespace EmbeddedSql

/-- Why a command line fails. -/
inductive RunError where
  /-- The source file cannot be read. -/
  | source (file : Path) (e : FileError)
  /-- The setting cannot be read. -/
  | settings (e : SettingsError)
deriving DecidableEq, Repr

namespace RunError

/-- The reason in words. -/
def message : RunError → String
  | source file e => s!"error reading '{file}': {e.message}"
  | settings e => e.message

end RunError

namespace CommandLine

variable {m : Type → Type} [Monad m]

/-- The setting that a command line asks for. A flag comes before a project
file, and that before what is found beside the source. -/
def setting (c : CommandLine) (files : Files m) : m (Except SettingsError Bool) :=
  if c.disabledByDefault then return .ok false
  else
    match c.project with
    | some p => Settings.ofProjectFile files p
    | none => Settings.forSource files c.file

/-- What is written for a source text. -/
def output (c : CommandLine) (enabledByDefault : Bool) (text : String) : String :=
  let session : Session := ⟨Buffer.ofText text, { enabledByDefault }⟩
  let tags := (session.report c.range).tags
  if c.json then listing tags else echo session.buffer tags

/-- **Does what a command line asks for.** -/
def run (c : CommandLine) (files : Files m) : m (Except RunError String) := do
  match ← files.text c.file with
  | .error e => return .error (.source c.file e)
  | .ok text =>
    match ← c.setting files with
    | .error e => return .error (.settings e)
    | .ok enabled => return .ok (c.output enabled text)

end CommandLine

end EmbeddedSql
