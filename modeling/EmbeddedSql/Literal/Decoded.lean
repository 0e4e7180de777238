import EmbeddedSql.Literal.Error
import EmbeddedSql.Literal.Kind
import EmbeddedSql.SpanSet
import EmbeddedSql.Utf16

/-!
# Decoding the content of a literal

What stands between the delimiters of a literal is decoded piece by piece. A
*piece* is a run of code units that stands for one character: a unit on its
own, a surrogate pair, or an escape sequence. Decoding fails at the first
backslash that starts no escape sequence, and nowhere else.

A lexer counts characters and an editor counts code units, so the decoded text
carries a table of *corrections*, one for each piece of more than one unit. It
is enough to recover the offset in the source of every character: starting
from the character's own index, each correction that lies before the running
offset pushes it further.
-/

namespace EmbeddedSql

open Utf16

/-- A run of code units that stands for one character. -/
structure Piece where
  /-- The character. -/
  char : Char
  /-- How many units spell it. -/
  width : Nat
  /-- Whether it is an escape sequence or a doubled delimiter. -/
  escape : Bool
deriving DecidableEq, Repr

/-! ## Escape sequences -/

/-- What an escape sequence says: a character, or a single code unit that may
be half of one. -/
inductive EscapeValue where
  | char (c : Char)
  | unit (u : CodeUnit)
deriving DecidableEq, Repr

/-- The escapes of one letter. -/
def simpleEscape? (u : CodeUnit) : Option Char :=
  [('\'', '\''), ('"', '"'), ('\\', '\\'), ('0', '\x00'), ('a', '\x07'), ('b', '\x08'),
    ('f', '\x0C'), ('n', '\n'), ('r', '\r'), ('t', '\t'), ('v', '\x0B')].findSome?
      fun (letter, c) => if u == ascii letter then some c else none

/-- The value of a hexadecimal digit. -/
def hexDigit? (u : CodeUnit) : Option Nat :=
  let n := u.toNat
  if 0x30 ≤ n ∧ n ≤ 0x39 then some (n - 0x30)
  else if 0x41 ≤ n ∧ n ≤ 0x46 then some (n - 0x41 + 10)
  else if 0x61 ≤ n ∧ n ≤ 0x66 then some (n - 0x61 + 10)
  else none

/-- The number that hexadecimal digits spell. -/
def hexValue? (units : List CodeUnit) : Option Nat :=
  units.foldlM (fun acc u => (hexDigit? u).map (acc * 16 + ·)) 0

/-- The number that exactly `n` hexadecimal digits spell. -/
def fixedHex? (n : Nat) (units : List CodeUnit) : Option Nat :=
  if (units.take n).length = n then hexValue? (units.take n) else none

/-- Reads what follows a backslash: the value and the number of units. A `\x`
takes as many digits as there are, up to four. -/
def escapeBody? : List CodeUnit → Option (EscapeValue × Nat)
  | [] => none
  | u :: rest =>
    match simpleEscape? u with
    | some c => some (.char c, 1)
    | none =>
      if u == ascii 'u' then
        (fixedHex? 4 rest).map fun n => (.unit (UInt16.ofNat n), 5)
      else if u == ascii 'U' then
        (fixedHex? 8 rest).bind fun n => if n.isValidChar then some (.char (Char.ofNat n), 9) else none
      else if u == ascii 'x' then
        let digits := (rest.take 4).takeWhile fun d => (hexDigit? d).isSome
        if digits.isEmpty then none
        else (hexValue? digits).map fun n => (.unit (UInt16.ofNat n), digits.length + 1)
      else none

/-- The low surrogate spelled by an escape sequence at the very start of
`units`, with the number of units it takes. -/
def lowEscape? : List CodeUnit → Option (CodeUnit × Nat)
  | [] => none
  | u :: rest =>
    if u == ascii '\\' then
      match escapeBody? rest with
      | some (.unit low, n) => if isLow low then some (low, n + 1) else none
      | _ => none
    else none

/-- The piece of an escape sequence, from the units after its backslash. Two
sequences in a row that spell a high and a low surrogate are one piece. -/
def escapePiece? (rest : List CodeUnit) : Option Piece :=
  (escapeBody? rest).map fun
    | (.char c, n) => ⟨c, n + 1, true⟩
    | (.unit u, n) =>
      match if isHigh u then lowEscape? (rest.drop n) else none with
      | some (low, m) => ⟨pair u low, n + 1 + m, true⟩
      | none => ⟨single u, n + 1, true⟩

/-! ## Pieces -/

namespace LiteralKind

/-- Whether a doubled unit stands for the unit. -/
def doubles (kind : LiteralKind) (u : CodeUnit) : Bool :=
  !kind.isRaw &&
    (kind.isInterpolated && (u == ascii '\x7b' || u == ascii '\x7d') ||
      kind.isVerbatim && u == ascii '"')

/-- Whether a backslash starts an escape sequence. -/
def hasEscapes (kind : LiteralKind) : Bool := !kind.isRaw && !kind.isVerbatim

end LiteralKind

/-- The piece of a unit that is no escape: a surrogate pair if it and the next
unit are one, and the unit itself otherwise. -/
def ownPiece (u : CodeUnit) : List CodeUnit → Piece
  | [] => ⟨single u, 1, false⟩
  | v :: _ => if isHigh u && isLow v then ⟨pair u v, 2, false⟩ else ⟨single u, 1, false⟩

/-- The piece at the start of `u :: rest`. Only a backslash can fail to start
one. -/
def nextPiece? (kind : LiteralKind) (u : CodeUnit) (rest : List CodeUnit) : Option Piece :=
  if kind.doubles u && rest.head? == some u then some ⟨single u, 2, true⟩
  else if kind.hasEscapes && u == ascii '\\' then escapePiece? rest
  else some (ownPiece u rest)

/-- The pieces of a content, which starts at offset `pos`. -/
def readPieces (kind : LiteralKind) (pos : Nat) : List CodeUnit → Except LiteralError (List Piece)
  | [] => .ok []
  | u :: rest =>
    match nextPiece? kind u rest with
    | none => .error (.malformedEscape pos)
    | some p => (readPieces kind (pos + p.width) (rest.drop (p.width - 1))).map (p :: ·)
termination_by units => units.length

/-! ## Corrections -/

/-- A piece of more than one unit. -/
structure Correction where
  /-- The offset of its first unit. -/
  index : Nat
  /-- Its length if it is an escape, and zero for a surrogate pair, which is
  not marked as one. -/
  escapedLen : Nat
  /-- How many units it has beyond the first. -/
  skip : Nat
deriving DecidableEq, Repr

namespace Correction

/-- Whether the piece is an escape. -/
def isEscape (c : Correction) : Bool := decide (0 < c.escapedLen)

/-- The units of the escape. A surrogate pair has none to show. -/
def span (c : Correction) : Span := ⟨c.index, c.escapedLen⟩

end Correction

/-- The corrections for pieces that start at offset `pos`. -/
def correctionsOf (pos : Nat) : List Piece → List Correction
  | [] => []
  | p :: rest =>
    (if 1 < p.width then [⟨pos, if p.escape then p.width else 0, p.width - 1⟩] else []) ++
      correctionsOf (pos + p.width) rest

/-- Moves a bound in characters past the corrections before it. `skipped` is
what earlier corrections have added; the result is what all have added, and
the corrections still ahead. -/
def absorb (bound skipped : Nat) : List Correction → Nat × List Correction
  | [] => (skipped, [])
  | c :: rest =>
    if c.index < bound + skipped then absorb bound (skipped + c.skip) rest
    else (skipped, c :: rest)

/-- **The decoded content of a literal**: its characters, and where they come
from. -/
structure Decoded where
  /-- The characters. -/
  chars : List Char
  /-- The places where characters and units do not advance together. -/
  corrections : List Correction
deriving DecidableEq, Repr

namespace Decoded

/-- The decoded text of a list of pieces. -/
def ofPieces (pieces : List Piece) : Decoded :=
  ⟨pieces.map Piece.char, correctionsOf 0 pieces⟩

/-- Decodes the content of a literal of a kind. -/
def ofUnits (kind : LiteralKind) (units : List CodeUnit) : Except LiteralError Decoded :=
  (readPieces kind 0 units).map ofPieces

/-- The text. -/
def text (d : Decoded) : String := String.ofList d.chars

/-- The offset in the source of a character, or of the end of the text. -/
def sourceOffset (d : Decoded) (index : Nat) : Nat := index + (absorb index 0 d.corrections).1

/-- The units that belong to escapes. -/
def escapes (d : Decoded) : SpanSet :=
  SpanSet.ofSpans ((d.corrections.filter Correction.isEscape).map Correction.span)

end Decoded

end EmbeddedSql
