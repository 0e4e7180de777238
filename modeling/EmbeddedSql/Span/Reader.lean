import EmbeddedSql.Span
import EmbeddedSql.Text.Blank

/-!
# Reading a span

A span is written as its two bounds around two dots. Blanks around a bound do
not matter, and a bound may have a plus sign. Bounds are 64-bit numbers, and
the first fault from the left is the one reported.
-/

namespace EmbeddedSql

/-- Why a text is no number. -/
inductive NumberError where
  /-- There is nothing to read. -/
  | empty
  /-- Something other than a digit. -/
  | invalidDigit
  /-- More than 64 bits. -/
  | tooLarge
deriving DecidableEq, Repr

namespace NumberError

/-- The fault in words. -/
def message : NumberError → String
  | empty => "cannot parse integer from empty string"
  | invalidDigit => "invalid digit found in string"
  | tooLarge => "number too large to fit in target type"

end NumberError

/-- The least number that does not fit 64 bits. -/
def wordLimit : Nat := UInt64.size

/-- Reads digits onto a number. A number that is too large already is reported
before what follows is looked at. -/
def readDigits (acc : Nat) : List Char → Except NumberError Nat
  | [] => .ok acc
  | c :: cs =>
    if c.isDigit then
      let next := acc * 10 + (c.toNat - '0'.toNat)
      if next < wordLimit then readDigits next cs else .error .tooLarge
    else .error .invalidDigit

/-- Reads a number of at most 64 bits. -/
def readNumber : List Char → Except NumberError Nat
  | [] => .error .empty
  | '+' :: [] => .error .invalidDigit
  | '+' :: digits => readDigits 0 digits
  | digits => readDigits 0 digits

/-- Why a text is no span. -/
inductive SpanError where
  /-- There are no two dots in it. -/
  | noDots (text : String)
  /-- The first bound is no number. -/
  | badStart (e : NumberError)
  /-- The second bound is no number. -/
  | badStop (e : NumberError)
  /-- The bounds are in the wrong order. -/
  | reversed (start stop : Nat)
deriving DecidableEq, Repr

namespace SpanError

/-- The fault in words. -/
def message : SpanError → String
  | noDots text => s!"expected START..END, got `{text}`"
  | badStart e => s!"bad start: {e.message}"
  | badStop e => s!"bad end: {e.message}"
  | reversed start stop => s!"range end {stop} is before start {start}"

end SpanError

namespace Span

/-- What stands before and after the first two dots in a row. -/
def splitDots? : List Char → Option (List Char × List Char)
  | [] => none
  | c :: cs =>
    match c, cs with
    | '.', '.' :: rest => some ([], rest)
    | _, _ => (splitDots? cs).map fun (before, after) => (c :: before, after)

/-- **Reads a span.** -/
def ofText (text : String) : Except SpanError Span := do
  match splitDots? text.toList with
  | none => throw (.noDots text)
  | some (before, after) =>
    let start ← (readNumber (trimBlank before)).mapError SpanError.badStart
    let stop ← (readNumber (trimBlank after)).mapError SpanError.badStop
    if stop < start then throw (.reversed start stop)
    return between start stop

end Span

end EmbeddedSql
