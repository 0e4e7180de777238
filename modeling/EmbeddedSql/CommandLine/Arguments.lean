import EmbeddedSql.Files.Path
import EmbeddedSql.Span.Reader

/-!
# The arguments of the command line

A source file, two options with a value and two flags, in any order. The value
of an option follows behind an equals sign or as the next argument; behind two
dashes everything is a file name.

What has been given is not looked at until the next argument begins or the
arguments end: until then it *waits*. So an argument that nobody knows is
reported even if what waits is wrong too, and a value that is missing is
reported before anything that comes later.
-/

namespace EmbeddedSql

/-- Why arguments cannot be understood. -/
inductive UsageError where
  /-- No source file is given. -/
  | missingFile
  /-- An argument that nobody knows, or a second file. -/
  | unknown (argument : String)
  /-- A value is missing or empty. -/
  | missingValue
  /-- The value of a range is none. -/
  | badRange (e : SpanError)
  /-- Something is given twice. -/
  | repeated
  /-- A flag is given a value. -/
  | unneededValue
  /-- Not an error: help is asked for. -/
  | help
  /-- Not an error: the version is asked for. -/
  | version
deriving DecidableEq, Repr

namespace UsageError

/-- The reason in words. -/
def message : UsageError → String
  | missingFile => "no source file is given"
  | unknown argument => s!"unexpected argument '{argument}'"
  | missingValue => "an option lacks its value"
  | badRange e => s!"bad range: {e.message}"
  | repeated => "an argument is given twice"
  | unneededValue => "a flag takes no value"
  | help => "usage: strpsql [--project FILE] [--disabled-by-default] [--json] [--range START..END] FILE"
  | version => "strpsql"

end UsageError

/-- What a command line asks for. -/
structure CommandLine where
  /-- The source file. -/
  file : Path
  /-- A project file to take the setting from. -/
  project : Option Path := none
  /-- Whether highlighting is off where no directive says so. -/
  disabledByDefault : Bool := false
  /-- Whether tags are listed instead of echoed. -/
  json : Bool := false
  /-- What to highlight, if not everything. -/
  range : Option Span := none
deriving DecidableEq, Repr

namespace CommandLine

/-- The options that take a value. -/
inductive ValueOption where
  | project
  | range
deriving DecidableEq, Repr

/-- The options that take none. -/
inductive Flag where
  | disabledByDefault
  | json
  | help
  | version
deriving DecidableEq, Repr

/-- What waits to be looked at. -/
inductive Waiting where
  /-- Nothing. -/
  | nothing
  /-- A file. -/
  | file (text : String)
  /-- An option whose value has not come yet. -/
  | option (o : ValueOption)
  /-- An option with its value. -/
  | value (o : ValueOption) (text : String)
deriving DecidableEq, Repr

/-- What has been understood of some arguments. -/
structure Reading where
  /-- Whether two dashes have come. -/
  onlyFiles : Bool := false
  /-- What waits. -/
  waiting : Waiting := .nothing
  /-- The source file. -/
  file : Option Path := none
  /-- The project file. -/
  project : Option Path := none
  /-- The range. -/
  range : Option Span := none
  /-- The first flag. -/
  disabledByDefault : Bool := false
  /-- The second flag. -/
  json : Bool := false

namespace Reading

/-- Reads a path, which must not be empty. -/
def path (text : String) : Except UsageError Path :=
  if text.isEmpty then .error .missingValue else .ok (.ofString text)

/-- Gives an option its value. -/
def setOption (r : Reading) (o : ValueOption) (text : String) : Except UsageError Reading :=
  match o with
  | .project => do
    if r.project.isSome then throw .repeated
    return { r with project := some (← path text) }
  | .range => do
    if r.range.isSome then throw .repeated
    return { r with range := some (← (Span.ofText text).mapError .badRange) }

/-- Looks at what waits. -/
def settle (r : Reading) : Except UsageError Reading := do
  let settled := { r with waiting := .nothing }
  match r.waiting with
  | .nothing => return r
  | .file text => return { settled with file := some (← path text) }
  | .option _ => throw .missingValue
  | .value o text => settled.setOption o text

/-- Sets a flag. -/
def setFlag (r : Reading) (f : Flag) : Except UsageError Reading := do
  let r ← r.settle
  match f with
  | .disabledByDefault => if r.disabledByDefault then throw .repeated else return { r with disabledByDefault := true }
  | .json => if r.json then throw .repeated else return { r with json := true }
  | .help => throw .help
  | .version => throw .version

/-- An option that takes a value, with the value if it comes along. -/
def giveOption (r : Reading) (o : ValueOption) (text : Option String) : Except UsageError Reading := do
  let r ← r.settle
  match text with
  | some text => r.setOption o text
  | none => return { r with waiting := .option o }

/-- Whether a file has come. -/
def hasFile (r : Reading) : Bool :=
  r.file.isSome || match r.waiting with
    | .file _ => true
    | _ => false

/-- An argument that is no option: the value that waits for it, or the
file. -/
def giveWord (r : Reading) (argument : String) : Except UsageError Reading :=
  match r.waiting, r.onlyFiles with
  | .option o, false => .ok { r with waiting := .value o argument }
  | _, _ => do
    if r.hasFile then throw (.unknown argument)
    return { ← r.settle with waiting := .file argument }

/-- The option of a name. -/
def valueOption? (name : String) : Option ValueOption :=
  [("project", ValueOption.project), ("range", .range)].lookup name

/-- The flag of a name. -/
def flag? (name : String) : Option Flag :=
  [("disabled-by-default", Flag.disabledByDefault), ("json", .json), ("help", .help),
    ("version", .version)].lookup name

/-- The flag of a letter. -/
def letterFlag? (c : Char) : Option Flag := [('h', Flag.help), ('V', .version)].lookup c

/-- An argument that starts with two dashes. -/
def giveLong (r : Reading) (argument : String) (text : List Char) : Except UsageError Reading :=
  let name := String.ofList (text.takeWhile (· != '='))
  let value := match text.dropWhile (· != '=') with
    | [] => none
    | _ :: rest => some (String.ofList rest)
  match valueOption? name, flag? name with
  | some o, _ => r.giveOption o value
  | none, some f => if value.isSome then .error .unneededValue else r.setFlag f
  | none, none => .error (.unknown argument)

/-- The next argument. -/
def give (r : Reading) (argument : String) : Except UsageError Reading :=
  if r.onlyFiles then r.giveWord argument
  else
    match argument.toList with
    | ['-', '-'] => .ok { r with onlyFiles := true }
    | '-' :: '-' :: text => r.giveLong argument text
    | '-' :: c :: _ =>
      match letterFlag? c with
      | some f => r.setFlag f
      | none => .error (.unknown argument)
    | _ => r.giveWord argument

end Reading

/-- **Reads arguments.** -/
def ofArguments (arguments : List String) : Except UsageError CommandLine := do
  let r ← (← arguments.foldlM Reading.give {}).settle
  match r.file with
  | none => throw .missingFile
  | some file =>
    return { file, project := r.project, disabledByDefault := r.disabledByDefault, json := r.json, range := r.range }

end CommandLine

end EmbeddedSql
