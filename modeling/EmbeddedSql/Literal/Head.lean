import EmbeddedSql.Literal.Error
import EmbeddedSql.Literal.Kind
import EmbeddedSql.Utf16

/-!
# The head of a literal

A literal opens with markers, such as `@` and `$`, followed by one quote or
more. Which markers there are, what each says about the literal, and how many
quotes make it raw, is a table: the *style*. Reading a head against a style
gives the kind of the literal and the lengths of its two delimiters.
-/

namespace EmbeddedSql

/-- A character that may stand before the opening quotes. -/
structure Marker where
  /-- The character. -/
  symbol : Char
  /-- What it says about the literal. -/
  kind : LiteralKind
  /-- Whether it may be repeated, which only raw literals make use of. -/
  repeatable : Bool
deriving DecidableEq, Repr

/-- The openings that a language accepts. -/
structure LiteralStyle where
  /-- The markers. -/
  markers : List Marker
  /-- The least number of quotes that opens a raw literal, if there are raw
  literals. -/
  rawQuotes : Option Nat
deriving DecidableEq, Repr

/-- The kind of a literal and the lengths of its delimiters. -/
structure LiteralHead where
  /-- What the markers and quotes say. -/
  kind : LiteralKind
  /-- The length of the opening, markers included. -/
  openingLen : Nat
  /-- The length of the closing. -/
  closingLen : Nat
deriving DecidableEq, Repr

namespace LiteralStyle

/-- The literals of C# 11: `@`, `$`, and raw literals from three quotes on. -/
def csharp : LiteralStyle where
  markers := [⟨'@', .verbatim, false⟩, ⟨'$', .interpolated, true⟩]
  rawQuotes := some 3

/-- The literals of C# before raw ones were added. -/
def legacy : LiteralStyle := { csharp with rawQuotes := none }

/-- The marker that a code unit is. -/
def marker? (style : LiteralStyle) (u : CodeUnit) : Option Marker :=
  style.markers.find? fun m => u.toNat == m.symbol.toNat

/-- What stands before the quotes of a head: the units read, the last one
first, the kind they add up to, and what follows them. -/
structure Opening where
  /-- The marker units, the last one first. -/
  seen : List CodeUnit
  /-- What they say together. -/
  kind : LiteralKind
  /-- The units from the first quote on. -/
  rest : List CodeUnit

/-- Reads markers up to the first quote. A unit that is no marker, and a
second marker of a sort that may not be repeated, make the head malformed. -/
def readMarkers (style : LiteralStyle) (seen : List CodeUnit) (kind : LiteralKind) :
    List CodeUnit → Except LiteralError Opening
  | [] => .ok ⟨seen, kind, []⟩
  | u :: rest =>
    if u == Utf16.ascii '"' then .ok ⟨seen, kind, u :: rest⟩
    else
      match style.marker? u with
      | none => .error .malformedHead
      | some m =>
        if seen.contains u && !m.repeatable then .error .malformedHead
        else style.readMarkers (u :: seen) (kind.join m.kind) rest

/-- **Reads the head of a literal.** Enough quotes make a raw literal unless
it is verbatim; a repeated marker needs a raw literal; in any other literal
only the first quote belongs to the opening. -/
def readHead (style : LiteralStyle) (units : List CodeUnit) : Except LiteralError LiteralHead := do
  let opening ← style.readMarkers [] .plain units
  let quotes := (opening.rest.takeWhile (· == Utf16.ascii '"')).length
  if quotes = 0 then throw .malformedHead
  if style.rawQuotes.any (· ≤ quotes) && !opening.kind.isVerbatim then
    return ⟨opening.kind.join .raw, opening.seen.length + quotes, quotes⟩
  if opening.seen.Nodup then return ⟨opening.kind, opening.seen.length + 1, 1⟩
  throw .malformedHead

end LiteralStyle

end EmbeddedSql
