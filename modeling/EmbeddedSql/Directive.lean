import EmbeddedSql.Buffer
import EmbeddedSql.Text.Blank

/-!
# Directive comments

A comment whose whole content is a marker, `strpsql` or `PostgreSqlInAString`,
steers what is highlighted. With an argument it switches highlighting on or
off for what follows, or off for the literal right behind it; without one it
switches that literal on. A remark may follow after blanks and two dashes.

The marker is recognized up to simple case folding, in which two characters
beyond ASCII fold to ASCII letters: the long s and the kelvin sign. The
argument is then compared with the case of its ASCII letters ignored and
nothing else.
-/

namespace EmbeddedSql

/-- What a directive comment asks for. -/
inductive Directive where
  /-- Highlight what follows the comment. -/
  | enableRegion
  /-- Do not highlight what follows the comment. -/
  | disableRegion
  /-- Highlight the literal right behind the comment. -/
  | inlineEnable
  /-- Do not highlight the literal right behind the comment. -/
  | inlineDisable
deriving DecidableEq, Repr

namespace Directive

/-- The ASCII character that a character folds to, or itself if there is
none. -/
def fold (c : Char) : Char :=
  if c = '\u017F' then 's' else if c = '\u212A' then 'k' else c.toLower

/-- What follows a word at the start of a text, the word given in small
letters and matched up to folding. -/
def afterFolded? : List Char → List Char → Option (List Char)
  | [], cs => some cs
  | _ :: _, [] => none
  | w :: ws, c :: cs => if fold c = w then afterFolded? ws cs else none

/-- The markers, in small letters. -/
def markers : List String := ["strpsql", "postgresqlinastring"]

/-- The arguments, with what they ask for. -/
def arguments : List (String × Directive) :=
  [("on", enableRegion), ("off", disableRegion), ("enable", enableRegion),
    ("disable", disableRegion), ("ignore", inlineDisable)]

/-- Whether a directive ends here: at the end of the text, or before a
remark. -/
def endsHere (cs : List Char) : Bool :=
  cs.isEmpty || cs.head?.any isBlank && ['-', '-'].isPrefixOf (cs.dropWhile isBlank)

/-- The directive of an argument and what follows it. An argument that is one
only up to folding asks for nothing. -/
def ofArgument? (cs : List Char) : Option Directive := do
  let (word, directive) ← arguments.find? fun a => (afterFolded? a.1.toList cs).isSome
  let rest ← afterFolded? word.toList cs
  guard (endsHere rest)
  guard ((cs.take word.length).map Char.toLower = word.toList)
  return directive

/-- **The directive of a comment's content.** -/
def ofText? (text : List Char) : Option Directive := do
  let rest ← markers.findSome? fun m => afterFolded? m.toList (trimBlank text)
  match rest with
  | '-' :: argument => ofArgument? argument
  | _ => if endsHere rest then some inlineEnable else none

end Directive

/-! ## Comments -/

open Utf16 in
/-- **The content of a comment**, relative to its start. A line comment loses
all its leading slashes; a block comment loses its leading and trailing stars
and the end mark, if it has one. There is none if nothing is left. -/
def commentContent? : List CodeUnit → Option Span
  | a :: b :: body =>
    if a == ascii '/' && b == ascii '/' then
      let lead := (body.takeWhile (· == ascii '/')).length
      if lead < body.length then some ⟨2 + lead, body.length - lead⟩ else none
    else if a == ascii '/' && b == ascii '*' then
      let lead := (body.takeWhile (· == ascii '*')).length
      let stop := if [ascii '*', ascii '/'].isSuffixOf body then body.length - 2 else body.length
      let content := ((body.take stop).drop lead).reverse.dropWhile (· == ascii '*')
      if content.isEmpty then none else some ⟨2 + lead, content.length⟩
    else none
  | _ => none

/-- **The directive of the comment at a span**, if it holds one. -/
def directiveAt? (b : Buffer) (s : Span) : Option Directive := do
  let content ← commentContent? (b.slice s)
  Directive.ofText? (Utf16.decode (b.slice (content.shift s.start)))

end EmbeddedSql
