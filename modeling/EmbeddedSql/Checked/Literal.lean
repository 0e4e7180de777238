import EmbeddedSql.Checked.Stitch
import EmbeddedSql.Literal.Decoded
import EmbeddedSql.Literal.Head

/-!
# Heads, delimiters and decoding, checked

A head is read by index, with one counter for each marker of the style, found
by the marker's index. The opening and closing delimiters are taken off the
bounds of a fragment that may reach past the buffer, on the word of a slice that
does not.

Decoding keeps an index into the content and moves it by the width of each
piece. What a piece looks ahead at is read in two ways: a place or a slice that
may be missing is asked for, and its absence is an answer, while the run of
digits of a `\x` is cut out of what is known to be there, which may fail.
-/

namespace EmbeddedSql

namespace Checked

open Utf16

/-! ## Heads -/

/-- The index of the marker that a code unit is. -/
def markerIndex? (style : LiteralStyle) (u : CodeUnit) : Option Nat :=
  style.markers.findIdx? fun m => u.toNat == m.symbol.toNat

/-- What stands before the quotes of a head. -/
structure Opening where
  /-- How often each marker has been read. -/
  counts : List Nat
  /-- What the markers say together. -/
  kind : LiteralKind
  /-- The index of the first quote. -/
  pos : Nat

/-- Reads markers from an index on, up to the first quote. -/
def readMarkers (style : LiteralStyle) (units : List CodeUnit) (counts : List Nat)
    (kind : LiteralKind) (pos : Nat) : Option (Except LiteralError Opening) :=
  match units[pos]? with
  | none => some (.ok ⟨counts, kind, pos⟩)
  | some u =>
    if u == ascii '"' then some (.ok ⟨counts, kind, pos⟩)
    else
      match markerIndex? style u with
      | none => some (.error .malformedHead)
      | some i => do
        let before ← counts[i]?
        let count ← add before 1
        let m ← style.markers[i]?
        if 1 < count && !m.repeatable then return .error .malformedHead
        else
          let _ ← add pos 1
          if pos < units.length then
            readMarkers style units (counts.set i count) (kind.join m.kind) (pos + 1)
          else none
termination_by units.length - pos

/-- The head whose markers have been read. -/
def headAfter (style : LiteralStyle) (units : List CodeUnit) (opening : Opening) :
    Option (Except LiteralError LiteralHead) := do
  let rest ← cut units opening.pos units.length
  let quotes := (rest.takeWhile (· == ascii '"')).length
  if quotes = 0 then return .error .malformedHead
  else if style.rawQuotes.any (· ≤ quotes) && !opening.kind.isVerbatim then
    let len ← add opening.pos quotes
    return .ok ⟨opening.kind.join .raw, len, quotes⟩
  else if opening.counts.any fun count => 1 < count then return .error .malformedHead
  else
    let len ← add opening.pos 1
    return .ok ⟨opening.kind, len, 1⟩

/-- Reads the head of a literal. -/
def readHead (style : LiteralStyle) (units : List CodeUnit) :
    Option (Except LiteralError LiteralHead) := do
  let opening ← readMarkers style units (List.replicate style.markers.length 0) .plain 0
  match opening with
  | .error e => return .error e
  | .ok opening => headAfter style units opening

/-! ## Delimiters -/

/-- Whether a span ends with the closing delimiter of a literal. -/
def endsWithClosing (b : Buffer) (head : LiteralHead) (s : Span) : Option Bool := do
  let units ← slice b s
  if head.closingLen ≤ units.length then
    let first ← sub units.length head.closingLen
    let tail ← cut units first units.length
    return tail.all (· == ascii '"')
  else return false

/-- A fragment without the delimiters it holds, if anything is left. It is the
fragment at index `i` of `count`. -/
def trimFragment (b : Buffer) (head : LiteralHead) (count i : Nat) (s : Span) :
    Option (Option Span) := do
  let past ← stop s
  let first ← (if i = 0 then add s.start head.openingLen else some s.start)
  let next ← add i 1
  let closed ← (if next = count then endsWithClosing b head s else some false)
  let last ← (if closed then sub past head.closingLen else some past)
  return if first < last then some (Span.between first last) else none

/-- The content of a literal: its fragments without the delimiters. -/
def contentOf (b : Buffer) (head : LiteralHead) (fragments : List Span) :
    Option (Except LiteralError (List Span)) := do
  let trimmed ← fragments.zipIdx.mapM fun entry =>
    trimFragment b head fragments.length entry.2 entry.1
  let content := trimmed.filterMap fun s => s
  return if content.isEmpty then .error .emptyAfterTrim else .ok content

/-! ## Escape sequences -/

/-- The character that a high and a low surrogate spell together. -/
def pair (high low : CodeUnit) : Option Char := do
  let upper ← sub high.toNat 0xD800
  let lower ← sub low.toNat 0xDC00
  return Char.ofNat (0x10000 + upper * 0x400 + lower)

/-- Reads what follows a backslash, from an index on. -/
def escapeBody (content : List CodeUnit) (pos : Nat) : Option (Option (EscapeValue × Nat)) :=
  match content[pos]? with
  | none => some none
  | some u =>
    match simpleEscape? u with
    | some c => some (some (.char c, 1))
    | none =>
      if u == ascii 'u' then do
        let first ← add pos 1
        let past ← add pos 5
        return ((cut content first past).bind hexValue?).map fun n => (.unit (UInt16.ofNat n), 5)
      else if u == ascii 'U' then do
        let first ← add pos 1
        let past ← add pos 9
        return ((cut content first past).bind hexValue?).bind fun n =>
          if n.isValidChar then some (.char (Char.ofNat n), 9) else none
      else if u == ascii 'x' then do
        let first ← add pos 1
        let rest ← cut content first content.length
        let digits := ((rest.take 4).takeWhile fun d => (hexDigit? d).isSome).length
        if digits = 0 then return none
        else
          let past ← add first digits
          let run ← cut content first past
          let len ← add digits 1
          return (hexValue? run).map fun n => (.unit (UInt16.ofNat n), len)
      else some none

/-- The low surrogate spelled by an escape sequence at an index, with the number
of units after its backslash. -/
def lowEscape (content : List CodeUnit) (pos : Nat) : Option (Option (CodeUnit × Nat)) :=
  if content[pos]? == some (ascii '\\') then do
    let after ← add pos 1
    let body ← escapeBody content after
    match body with
    | some (.unit low, len) => return if isLow low then some (low, len) else none
    | _ => return none
  else some none

/-- The piece of an escape sequence whose value is one code unit, with the
sequence behind it if the two spell a pair. `consumed` units have been read. -/
def unitPiece (content : List CodeUnit) (start consumed : Nat) (u : CodeUnit) : Option Piece :=
  if isHigh u then do
    let after ← add start consumed
    let low ← lowEscape content after
    match low with
    | some (low, len) =>
      let c ← pair u low
      let more ← add consumed len
      let width ← add more 1
      return ⟨c, width, true⟩
    | none => return ⟨single u, consumed, true⟩
  else some ⟨single u, consumed, true⟩

/-- The piece of the escape sequence whose backslash is at an index. -/
def escapePiece (content : List CodeUnit) (start : Nat) : Option (Option Piece) := do
  let after ← add start 1
  let body ← escapeBody content after
  match body with
  | none => return none
  | some (.char c, len) =>
    let consumed ← add len 1
    return some ⟨c, consumed, true⟩
  | some (.unit u, len) =>
    let consumed ← add len 1
    let piece ← unitPiece content start consumed u
    return some piece

/-! ## Pieces -/

/-- The piece of a unit that is no escape, given the unit behind it. -/
def ownPiece (u : CodeUnit) (next : Option CodeUnit) : Option Piece :=
  match next with
  | none => some ⟨single u, 1, false⟩
  | some v =>
    if isHigh u && isLow v then do
      let c ← pair u v
      return ⟨c, 2, false⟩
    else some ⟨single u, 1, false⟩

/-- The piece at an index where `u` stands. -/
def nextPiece (kind : LiteralKind) (content : List CodeUnit) (i : Nat) (u : CodeUnit) :
    Option (Option Piece) := do
  let next ← add i 1
  if kind.doubles u && content[next]? == some u then return some ⟨single u, 2, true⟩
  else if kind.hasEscapes && u == ascii '\\' then escapePiece content i
  else
    let piece ← ownPiece u content[next]?
    return some piece

/-- Decodes a content from an index on. -/
def decode (kind : LiteralKind) (content : List CodeUnit) (i : Nat) :
    Option (Except LiteralError Decoded) :=
  if i < content.length then do
    let u ← content[i]?
    let piece ← nextPiece kind content i u
    match piece with
    | none => return .error (.malformedEscape i)
    | some p =>
      let skip ← sub p.width 1
      let _ ← add i p.width
      if 0 < p.width then
        let rest ← decode kind content (i + p.width)
        let correction :=
          if 1 < p.width then [⟨i, if p.escape then p.width else 0, skip⟩] else []
        return rest.map fun d => ⟨p.char :: d.chars, correction ++ d.corrections⟩
      else none
  else some (.ok ⟨[], []⟩)
termination_by content.length - i

end Checked

end EmbeddedSql
