import EmbeddedSql.Files.Access
import EmbeddedSql.Text.Utf8

/-!
# Files in memory

A directory with everything below it, as a value. Paths start at that
directory. What lies outside it counts as an empty directory that is its own
parent: nothing can be found there, but it can be passed through.
-/

namespace EmbeddedSql

/-- A file or a directory. -/
inductive Tree where
  /-- A file. -/
  | file (bytes : ByteArray)
  /-- A directory, each name in it once. -/
  | directory (entries : List (String × Tree))

namespace Tree

/-- A directory with nothing in it. -/
def empty : Tree := .directory []

/-- How many bytes a name may have. -/
def nameLimit : Nat := 255

/-- The least number of bytes that a path may not have. -/
def pathLimit : Nat := 4096

/-- What the segments of a path lead to. `above` holds the directories on the
way, the innermost first. Even a segment that names nothing stands only behind
a directory. -/
def walk : (above : List Tree) → Tree → List (List Char) → Except FileError Tree
  | _, t, [] => .ok t
  | _, .file _, _ :: _ => .error .notADirectory
  | above, .directory entries, s :: rest =>
    if s.isEmpty || s == ['.'] then walk above (.directory entries) rest
    else if s == ['.', '.'] then
      match above with
      | [] => walk [] empty rest
      | t :: above => walk above t rest
    else if nameLimit < utf8Length s then .error .nameTooLong
    else
      match entries.lookup (String.ofList s) with
      | some t => walk (.directory entries :: above) t rest
      | none => .error .notFound

/-- What a path leads to. -/
def find (t : Tree) (p : Path) : Except FileError Tree :=
  if p.chars.contains '\x00' then .error .zeroByte
  else if p.chars.isEmpty then .error .notFound
  else if pathLimit ≤ utf8Length p.chars then .error .nameTooLong
  else (if p.isAbsolute then empty else t).walk [] p.segments

/-- The tree as something that holds files. -/
def files (t : Tree) : Files Id where
  bytes p :=
    match t.find p with
    | .ok (.file bytes) => .ok bytes
    | .ok (.directory _) => .error .isADirectory
    | .error e => .error e
  isFile p :=
    match t.find p with
    | .ok (.file _) => true
    | _ => false
  names? p :=
    match t.find p with
    | .ok (.directory entries) => some (entries.map Prod.fst)
    | _ => none

end Tree

end EmbeddedSql
