import EmbeddedSql.Span
import EmbeddedSql.Utf16

/-!
# Buffers

A buffer is an immutable text with a version number, seen as the code units an
editor counts. A span may reach past the end of a buffer; what it selects is
then the part of it that exists.
-/

namespace EmbeddedSql

/-- A text as an editor holds it. -/
structure Buffer where
  /-- The code units. -/
  units : Array CodeUnit
  /-- Which state of the document this is. -/
  version : Nat := 0

namespace Buffer

/-- The buffer of a list of code units. -/
def ofUnits (units : List CodeUnit) : Buffer := ⟨units.toArray, 0⟩

/-- The buffer of a text. -/
def ofText (text : String) : Buffer := ofUnits (Utf16.encode text.toList)

/-- The number of code units. -/
def size (b : Buffer) : Nat := b.units.size

/-- The code unit at a position. -/
def unit? (b : Buffer) (pos : Nat) : Option CodeUnit := b.units[pos]?

/-- Whether an ASCII character stands at a position. -/
def isAt (b : Buffer) (pos : Nat) (c : Char) : Bool := b.unit? pos == some (Utf16.ascii c)

/-- The span of the whole buffer. -/
def full (b : Buffer) : Span := ⟨0, b.size⟩

/-- The code units a span selects. -/
def slice (b : Buffer) (s : Span) : List CodeUnit := (b.units.extract s.start s.stop).toList

/-- The text a span selects. -/
def text (b : Buffer) (s : Span) : String := String.ofList (Utf16.decode (b.slice s))

end Buffer

end EmbeddedSql
