import EmbeddedSql.Text.Blank
import EmbeddedSql.Text.Word

/-!
# The setting in a project file

A project file is markup, and the setting in it is the text of an `Enabled`
element inside `PostgreSqlInAString` inside `ProjectExtensions`. The file is
searched for these elements by their tags alone: an opening tag is the name of
the element after `<`, anything up to the next `>`, and the element reaches to
the first closing tag of that name. Of the outer two elements the first one
counts, of the innermost the last.
-/

namespace EmbeddedSql

namespace ProjectFile

/-- What follows a text at the start of another. -/
def after? : List Char → List Char → Option (List Char)
  | [], cs => some cs
  | _ :: _, [] => none
  | w :: ws, c :: cs => if w = c then after? ws cs else none

theorem length_after? {ws cs rest : List Char} (h : after? ws cs = some rest) :
    rest.length + ws.length = cs.length := by
  fun_induction after? ws cs with
  | case1 => simp_all
  | case2 => simp at h
  | case3 _ _ _ ih => have := ih h; simp only [List.length_cons]; omega
  | case4 => simp at h

/-- What follows an opening tag. The name ends where no word goes on. -/
def afterOpeningTag? (name : String) (cs : List Char) : Option (List Char) := do
  let rest ← after? ('<' :: name.toList) cs
  if rest.head?.any isWordChar then none
  else
    match rest.dropWhile (· != '>') with
    | [] => none
    | _ :: body => some body

/-- What follows a closing tag, in which blanks may follow the name. -/
def afterClosingTag? (name : String) (cs : List Char) : Option (List Char) := do
  let rest ← after? ('<' :: '/' :: name.toList) cs
  match rest.dropWhile isBlank with
  | '>' :: tail => some tail
  | _ => none

/-- What follows the first opening tag of a text. -/
def content? (name : String) : List Char → Option (List Char)
  | [] => none
  | c :: cs =>
    match afterOpeningTag? name (c :: cs) with
    | some body => some body
    | none => content? name cs

/-- What stands before the first closing tag, and what follows it. -/
def closing? (name : String) : List Char → Option (List Char × List Char)
  | [] => none
  | c :: cs =>
    match afterClosingTag? name (c :: cs) with
    | some rest => some ([], rest)
    | none => (closing? name cs).map fun (body, rest) => (c :: body, rest)

/-- The text of the first element of a name, and what follows the element. -/
def element? (name : String) (cs : List Char) : Option (List Char × List Char) :=
  (content? name cs).bind (closing? name)

theorem length_dropWhile_le (p : Char → Bool) (cs : List Char) :
    (cs.dropWhile p).length ≤ cs.length := (List.dropWhile_sublist p).length_le

theorem content?_lt {name : String} {cs rest : List Char} (h : content? name cs = some rest) :
    rest.length < cs.length := by
  induction cs with
  | nil => simp [content?] at h
  | cons c cs ih =>
    unfold content? at h
    split at h
    · next body hopen =>
      cases h
      obtain ⟨tail, htail, hrest⟩ := Option.bind_eq_some_iff.mp hopen
      have h₁ := length_after? htail
      have h₂ := length_dropWhile_le (· != '>') tail
      split at hrest
      · simp at hrest
      · split at hrest
        · simp at hrest
        · next heq => cases hrest; rw [heq] at h₂; simp only [List.length_cons] at *; omega
    · have := ih h
      simp only [List.length_cons]; omega

theorem closing?_le {name : String} {cs body rest : List Char}
    (h : closing? name cs = some (body, rest)) : rest.length ≤ cs.length := by
  induction cs generalizing body with
  | nil => simp [closing?] at h
  | cons c cs ih =>
    unfold closing? at h
    split at h
    · next hclose =>
      cases h
      obtain ⟨tail, htail, hrest⟩ := Option.bind_eq_some_iff.mp hclose
      have h₁ := length_after? htail
      have h₂ := length_dropWhile_le isBlank tail
      split at hrest
      · next heq => cases hrest; rw [heq] at h₂; simp only [List.length_cons] at *; omega
      · simp at hrest
    · obtain ⟨⟨b, r⟩, hr, heq⟩ := Option.map_eq_some_iff.mp h
      cases heq
      have := ih hr
      simp only [List.length_cons]; omega

theorem element?_lt {name : String} {cs body rest : List Char}
    (h : element? name cs = some (body, rest)) : rest.length < cs.length := by
  obtain ⟨tail, htail, hrest⟩ := Option.bind_eq_some_iff.mp h
  exact Nat.lt_of_le_of_lt (closing?_le hrest) (content?_lt htail)

/-- The texts of all elements of a name, from left to right. -/
def elements (name : String) (cs : List Char) : List (List Char) :=
  match h : element? name cs with
  | none => []
  | some (body, rest) =>
    have := element?_lt h
    body :: elements name rest
termination_by cs.length

/-- **The setting in a project file**, if it has one: whether the text of the
element reads `true`, whatever the case of its letters. -/
def enabled? (text : List Char) : Option Bool := do
  let (extensions, _) ← element? "ProjectExtensions" text
  let (settings, _) ← element? "PostgreSqlInAString" extensions
  let value ← (elements "Enabled" settings).getLast?
  return (trimBlank value).map Char.toLower == "true".toList

end ProjectFile

end EmbeddedSql
