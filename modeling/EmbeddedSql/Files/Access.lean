import EmbeddedSql.Files.Path

/-!
# Access to files

Settings are looked for on the way up from a source file, and what is found
there does not depend on what holds the files. So a *file access* is given as
the few questions that are asked, in whatever monad can answer them.
-/

namespace EmbeddedSql

/-- Why a file cannot be read. -/
inductive FileError where
  /-- There is no such file. -/
  | notFound
  /-- Something on the way is no directory. -/
  | notADirectory
  /-- It is a directory. -/
  | isADirectory
  /-- A name on the way, or the path, is too long. -/
  | nameTooLong
  /-- The path has a zero byte in it. -/
  | zeroByte
  /-- The bytes are not UTF-8. -/
  | invalidText
  /-- Another reason, in words. -/
  | other (reason : String)
deriving DecidableEq, Repr

namespace FileError

/-- The reason in words. -/
def message : FileError → String
  | notFound => "No such file or directory (os error 2)"
  | notADirectory => "Not a directory (os error 20)"
  | isADirectory => "Is a directory (os error 21)"
  | nameTooLong => "File name too long (os error 36)"
  | zeroByte => "file name contained an unexpected NUL byte"
  | invalidText => "stream did not contain valid UTF-8"
  | other reason => reason

end FileError

/-- What can be asked of whatever holds the files. -/
structure Files (m : Type → Type) where
  /-- The bytes of a file. -/
  bytes : Path → m (Except FileError ByteArray)
  /-- Whether a path names a file. -/
  isFile : Path → m Bool
  /-- The names in a directory, in any order, if it can be read. -/
  names? : Path → m (Option (List String))

namespace Files

variable {m : Type → Type} [Monad m]

/-- The text of a file. -/
def text (files : Files m) (p : Path) : m (Except FileError String) := do
  match ← files.bytes p with
  | .error e => return .error e
  | .ok bytes =>
    match String.fromUTF8? bytes with
    | some s => return .ok s
    | none => return .error .invalidText

end Files

end EmbeddedSql
