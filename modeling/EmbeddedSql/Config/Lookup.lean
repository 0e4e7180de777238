import EmbeddedSql.Config.Settings

/-!
# Finding the settings of a source file

A settings file in the directory of the source wins. Otherwise the nearest
project file on the way up is read, the first by name if a directory has
several. Directories that cannot be read are passed over.
-/

namespace EmbeddedSql

namespace Settings

variable {m : Type → Type} [Monad m]

/-- The name of a settings file. -/
def fileName : List Char := ".strpsql.yaml".toList

/-- The ending of the names of project files. -/
def projectExtension : List Char := "csproj".toList

/-- The first of some names, in the order of their characters. -/
def firstName? (names : List String) : Option String :=
  (names.mergeSort fun a b => decide (a ≤ b)).head?

/-- The project file of a directory. -/
def projectIn (files : Files m) (dir : Path) : m (Option Path) := do
  let dir : Path := if dir.chars.isEmpty then ⟨['.']⟩ else dir
  match ← files.names? dir with
  | none => return none
  | some names =>
    let named := names.filter fun n => Path.extensionOf? n.toList == some projectExtension
    let projects ← named.filterM fun n => files.isFile (dir.join n.toList)
    return (firstName? projects).map fun n => dir.join n.toList

/-- The first project file in some directories. -/
def projectAmong (files : Files m) : List Path → m (Option Path)
  | [] => return none
  | dir :: rest => do
    match ← projectIn files dir with
    | some p => return some p
    | none => projectAmong files rest

/-- The project file of a directory, or of the nearest one above it that has
one. -/
def nearestProject (files : Files m) (dir : Path) : m (Option Path) :=
  projectAmong files dir.ancestors

/-- The setting of a project file. -/
def ofProjectFile (files : Files m) (p : Path) : m (Except SettingsError Bool) := do
  match ← files.text p with
  | .ok text => return .ok (ofProject text.toList)
  | .error e => return .error (.file e)

/-- The setting of a settings file. -/
def ofYamlFile (files : Files m) (p : Path) : m (Except SettingsError Bool) := do
  match ← files.text p with
  | .ok text => return ofYaml text.toList
  | .error e => return .error (.file e)

/-- **The setting for a source file.** -/
def forSource (files : Files m) (source : Path) : m (Except SettingsError Bool) := do
  match source.parent? with
  | none => return .ok fallback
  | some dir =>
    let own := dir.join fileName
    if ← files.isFile own then ofYamlFile files own
    else
      match ← nearestProject files dir with
      | some p => ofProjectFile files p
      | none => return .ok fallback

end Settings

end EmbeddedSql
