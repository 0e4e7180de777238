/-!
# UTF-16 code units

Editors count positions in UTF-16 code units, and a buffer may hold any
sequence of them, lone surrogates included. Reading such a sequence as
characters never fails: a surrogate without its partner reads as the
replacement character.
-/

namespace EmbeddedSql

/-- One UTF-16 code unit. -/
abbrev CodeUnit := UInt16

namespace Utf16

/-- The code unit of an ASCII character. -/
def ascii (c : Char) : CodeUnit := UInt16.ofNat c.toNat

/-- The first unit of a surrogate pair. -/
def isHigh (u : CodeUnit) : Bool := decide (0xD800 ≤ u.toNat) && decide (u.toNat < 0xDC00)

/-- The second unit of a surrogate pair. -/
def isLow (u : CodeUnit) : Bool := decide (0xDC00 ≤ u.toNat) && decide (u.toNat < 0xE000)

/-- What stands for a unit that is no character on its own. -/
def replacement : Char := '\uFFFD'

/-- The character of a single unit. -/
def single (u : CodeUnit) : Char :=
  if isHigh u || isLow u then replacement else Char.ofNat u.toNat

/-- The character that a high and a low surrogate spell together. -/
def pair (high low : CodeUnit) : Char :=
  Char.ofNat (0x10000 + (high.toNat - 0xD800) * 0x400 + (low.toNat - 0xDC00))

/-- The units that spell a character: one, or two above `U+FFFF`. -/
def encodeChar (c : Char) : List CodeUnit :=
  if c.toNat < 0x10000 then [UInt16.ofNat c.toNat]
  else
    [UInt16.ofNat (0xD800 + (c.toNat - 0x10000) / 0x400),
      UInt16.ofNat (0xDC00 + (c.toNat - 0x10000) % 0x400)]

/-- The units that spell a text. -/
def encode (cs : List Char) : List CodeUnit := cs.flatMap encodeChar

/-- The characters of a sequence of units, with the replacement character for
each surrogate that stands alone. -/
def decode : List CodeUnit → List Char
  | [] => []
  | [u] => [single u]
  | u :: v :: rest =>
    if isHigh u && isLow v then pair u v :: decode rest else single u :: decode (v :: rest)

end Utf16

end EmbeddedSql
