import EmbeddedSql.Config.ProjectFile
import EmbeddedSql.Files.Access
import EmbeddedSql.Yaml.Render

/-!
# Settings

There is one setting: whether literals are highlighted where no directive says
so. It is read from a settings file beside the source, which is a YAML mapping,
or else from the nearest project file; without either it is on.

In a settings file the value may be a truth value or one of four words in any
case. Anything else is an error that shows the value. What else the file holds
is not looked at.
-/

namespace EmbeddedSql

/-- Why a setting cannot be read. -/
inductive SettingsError where
  /-- A file cannot be read. -/
  | file (e : FileError)
  /-- A settings file is not a YAML mapping, or its value cannot be shown. -/
  | yaml
  /-- The value is neither a truth value nor one of the words. -/
  | invalidValue (value : String)
deriving DecidableEq, Repr

namespace SettingsError

/-- The reason in words. -/
def message : SettingsError → String
  | file e => s!"I/O error: {e.message}"
  | yaml => "YAML parse error"
  | invalidValue value => s!"invalid value for `enabled_by_default`: {value}"

end SettingsError

namespace Settings

open Yaml

/-- The setting when nothing is said. -/
def fallback : Bool := true

/-- The key of the setting. -/
def enabledKey : List Char := "enabled_by_default".toList

/-- How far the collections of a settings file may nest. -/
def depthLimit : Nat := 128

/-- How many references a document may follow for each of its marks. -/
def referencesPerMark : Nat := 100

/-- The text of a key, which must be a scalar. -/
def keyText (d : Document) : Node → Follows (List Char)
  | .scalar _ _ text => return text
  | .alias n => do
    match ← d.follow n with
    | .scalar _ _ text => return text
    | _ => failure
  | _ => failure

/-- Whether a node says nothing: a plain scalar that is empty or null. One with
the standard tag for null must be null. -/
def isNothing (node : Node) : Follows Bool :=
  match node with
  | .scalar none .plain text => return text.isEmpty || isNullText text
  | .scalar (some tag) .plain text =>
    if tag = standardTag "null" then if isNullText text then return true else failure
    else return false
  | _ => return false

/-- The value of a node, or nothing if it says nothing. -/
def optionalValue (d : Document) (node : Node) : Follows (Option Value) := do
  let target ← match node with
    | .alias n => d.follow n
    | node => pure node
  if ← isNothing target then return none
  some <$> valueOf d ((depthLimit + 2) * (d.marks + 4)) (depthLimit - 1) target

/-- The value of the setting among the entries of a mapping. The key may stand
there once. -/
def findEntry (d : Document) (found : Option (Option Value)) :
    List (Node × Node) → Follows (Option Value)
  | [] => return found.join
  | (k, v) :: rest => do
    if (← keyText d k) = enabledKey then
      if found.isSome then failure
      let value ← optionalValue d v
      findEntry d (some value) rest
    else findEntry d found rest

/-- The value of the setting in a document. -/
def documentValue (d : Document) : Follows (Option Value) := do
  if ← isNothing d.root then return none
  match d.root with
  | .mapping _ entries => findEntry d none entries
  | .scalar _ .plain [] => return none
  | _ => failure

/-- The value of the setting in a text, if the text is a YAML mapping. -/
def yamlValue? (text : List Char) : Option (Option Value) := do
  let tokens ← tokens? text
  match ← Document.ofTokens? tokens with
  | none => return none
  | some d => (documentValue d).run' (referencesPerMark * d.marks)

/-- The truth value that a word stands for, blanks around it apart. -/
def wordValue? (text : List Char) : Option Bool :=
  let word := String.ofList ((trimBlank text).map Char.toLower)
  if word = "true" ∨ word = "on" then some true
  else if word = "false" ∨ word = "off" then some false
  else none

/-- The setting that a value stands for. -/
def ofValue : Value → Except SettingsError Bool
  | .bool b => .ok b
  | .string text => (wordValue? text).elim (.error (.invalidValue (String.ofList text))) .ok
  | v =>
    match render? v with
    | some text => .error (.invalidValue (String.ofList text))
    | none => .error .yaml

/-- **The setting of a settings file**, given as its text. -/
def ofYaml (text : List Char) : Except SettingsError Bool :=
  match yamlValue? text with
  | none => .error .yaml
  | some none => .ok fallback
  | some (some v) => ofValue v

/-- **The setting of a project file**, given as its text. -/
def ofProject (text : List Char) : Bool := (ProjectFile.enabled? text).getD fallback

end Settings

end EmbeddedSql
