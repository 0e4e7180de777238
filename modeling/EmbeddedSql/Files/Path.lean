/-!
# Paths

A path is the text that names a file or directory, with a slash between its
segments. Going up from a path cuts the text and changes nothing else in it, so
a path that was written with doubled slashes keeps them. Empty segments and
single dots name nothing; only a dot in front of a path counts as a segment.
-/

namespace EmbeddedSql

/-- A path. -/
structure Path where
  /-- The path as it is written. -/
  chars : List Char
deriving DecidableEq, Repr

namespace Path

/-- The path that a text spells. -/
def ofString (s : String) : Path := ⟨s.toList⟩

instance : ToString Path := ⟨fun p => String.ofList p.chars⟩

/-- Whether a character is no slash. -/
def notSlash (c : Char) : Bool := c != '/'

/-- Cuts what names nothing off the end of a path, which is given from its end
on. The slash of the root stays. -/
def trimTail (r : List Char) : List Char :=
  match h : r.dropWhile notSlash with
  | [] => r
  | slash :: more =>
    have : more.length < r.length := by
      have := (List.dropWhile_sublist notSlash (l := r)).length_le
      rw [h, List.length_cons] at this
      omega
    let segment := r.takeWhile notSlash
    if segment.isEmpty || segment == ['.'] then
      if more.isEmpty then [slash] else trimTail more
    else r
termination_by r.length

/-- The last segment of a path, unless it is empty or the root. -/
def last? (p : Path) : Option (List Char) :=
  let r := trimTail p.chars.reverse
  if r.isEmpty || r == ['/'] then none else some (r.takeWhile notSlash).reverse

/-- The path without its last segment. The empty path and the root have
none. -/
def parent? (p : Path) : Option Path :=
  let r := trimTail p.chars.reverse
  if r.isEmpty || r == ['/'] then none
  else
    match r.dropWhile notSlash with
    | [] => some ⟨[]⟩
    | slash :: more => some ⟨(if more.isEmpty then [slash] else trimTail more).reverse⟩

/-- What a path names, if that is a name and not a direction. -/
def fileName? (p : Path) : Option (List Char) :=
  p.last?.filter fun name => name != ['.'] && name != ['.', '.']

/-- The name to show for a path: what it names, or else the path. -/
def displayName (p : Path) : String := (p.fileName?.map String.ofList).getD (toString p)

/-- What stands behind the last dot of a name, if something stands before
it. -/
def extensionOf? (name : List Char) : Option (List Char) :=
  match name.reverse.dropWhile (· != '.') with
  | _ :: _ :: _ => some (name.reverse.takeWhile (· != '.')).reverse
  | _ => none

/-- A name inside a directory. -/
def join (dir : Path) (name : List Char) : Path :=
  match dir.chars.getLast? with
  | none => ⟨name⟩
  | some c => ⟨dir.chars ++ (if c == '/' then [] else ['/']) ++ name⟩

/-- The path and the paths above it, the nearest first, as many as there can
be. -/
def upFrom : Nat → Path → List Path
  | 0, p => [p]
  | n + 1, p =>
    match p.parent? with
    | some q => p :: upFrom n q
    | none => [p]

/-- The path and all paths above it, the nearest first. -/
def ancestors (p : Path) : List Path := upFrom p.chars.length p

/-- The segments of a path. A slash at the end leaves an empty one. -/
def segments (p : Path) : List (List Char) :=
  p.chars.foldr (fun c acc =>
    if c == '/' then [] :: acc
    else match acc with
      | [] => [[c]]
      | s :: rest => (c :: s) :: rest) [[]]

/-- Whether a path starts at the root. -/
def isAbsolute (p : Path) : Bool := p.chars.head? == some '/'

end Path

end EmbeddedSql
