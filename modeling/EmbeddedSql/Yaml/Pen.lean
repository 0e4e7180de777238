/-!
# Writing with indentation

A *pen* writes text and knows how far the line has come, and whether it has
only been indented so far. So a mark can be told to keep its distance, and an
indented line begins on the current line if nothing but marks stand on it.
-/

namespace EmbeddedSql

namespace Yaml

/-- A text that is being written. -/
structure Pen where
  /-- What has been written. -/
  text : String := ""
  /-- How many characters the current line has. -/
  column : Nat := 0
  /-- Whether a blank, or nothing, has just been written. -/
  spaced : Bool := true
  /-- Whether the line has nothing but indentation and marks of entries. -/
  fresh : Bool := true

namespace Pen

/-- Writes a character. -/
def put (c : Char) (p : Pen) : Pen := { p with text := p.text.push c, column := p.column + 1 }

/-- Writes some characters. -/
def puts (cs : List Char) (p : Pen) : Pen := cs.foldl (fun p c => p.put c) p

/-- Writes a character that ends the line. -/
def endLine (c : Char) (p : Pen) : Pen := { p with text := p.text.push c, column := 0, fresh := true }

/-- Puts a blank in front of what follows, unless there is one. -/
def space (p : Pen) : Pen := if p.spaced then p else p.put ' '

/-- Says that a word has been written. -/
def word (p : Pen) : Pen := { p with spaced := false, fresh := false }

/-- Writes the mark of an entry, which may stand before an indented line. -/
def entryMark (c : Char) (p : Pen) : Pen := { p.space.put c with spaced := false }

/-- Begins a line that is indented by some blanks. -/
def indentTo (n : Nat) (p : Pen) : Pen :=
  let p :=
    if !p.fresh || decide (n < p.column) || p.column == n && !p.spaced then p.endLine '\n' else p
  { p.puts (List.replicate (n - p.column) ' ') with spaced := true, fresh := true }

end Pen

end Yaml

end EmbeddedSql
