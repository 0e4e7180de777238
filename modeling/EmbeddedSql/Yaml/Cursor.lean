/-!
# Reading YAML character by character

YAML is sensitive to columns and lines, so a text is read with a cursor that
knows where it stands. The characters that end a line are five, and a carriage
return with a line feed behind it ends one line.
-/

namespace EmbeddedSql

namespace Yaml

/-! ## Characters -/

/-- Whether a character ends a line. -/
def isBreak (c : Char) : Bool :=
  c == '\r' || c == '\n' || c == '\u0085' || c == '\u2028' || c == '\u2029'

/-- Whether a character is a space or a tab. -/
def isSpace (c : Char) : Bool := c == ' ' || c == '\t'

/-- Whether a text is at its end, or goes on with a space, a tab or the end of
a line. -/
def atGap : List Char → Bool
  | [] => true
  | c :: _ => isSpace c || isBreak c

/-- Whether a character may stand in names of anchors, handles and
directives. -/
def isNameChar (c : Char) : Bool := c.isAlphanum || c == '_' || c == '-'

/-- The characters that may stand in a YAML text at all. -/
def isReadable (c : Char) : Bool :=
  let n := c.toNat
  n == 0x9 || n == 0xA || n == 0xD || decide (0x20 ≤ n ∧ n ≤ 0x7E) || n == 0x85 ||
    decide (0xA0 ≤ n ∧ n ≤ 0xD7FF) || decide (0xE000 ≤ n ∧ n ≤ 0xFFFD) || decide (0x10000 ≤ n)

/-- The three dashes or dots that bound a document, with a gap behind them. -/
def isBoundary (mark : Char) : List Char → Bool
  | a :: b :: c :: rest => a == mark && b == mark && c == mark && atGap rest
  | _ => false

/-! ## The cursor -/

/-- A place in a text. -/
structure Cursor where
  /-- What is still to be read. -/
  rest : List Char
  /-- How many characters have been read. -/
  index : Nat := 0
  /-- How many lines have been read. -/
  line : Nat := 0
  /-- How many characters of the line have been read. -/
  column : Nat := 0

namespace Cursor

/-- Past one character that ends no line. -/
def next (c : Cursor) : Cursor :=
  { c with rest := c.rest.tail, index := c.index + 1, column := c.column + 1 }

/-- Past some characters that end no line. -/
def skip (c : Cursor) (n : Nat) : Cursor :=
  { c with rest := c.rest.drop n, index := c.index + n, column := c.column + n }

/-- Past the characters that satisfy `p`, which ends no line. -/
def skipWhile (c : Cursor) (p : Char → Bool) : Cursor := c.skip (c.rest.takeWhile p).length

/-- How many characters the end of a line takes. -/
def breakLen : List Char → Nat
  | '\r' :: '\n' :: _ => 2
  | _ => 1

/-- Past the end of a line. -/
def newline (c : Cursor) : Cursor where
  rest := c.rest.drop (breakLen c.rest)
  index := c.index + breakLen c.rest
  line := c.line + 1
  column := 0

/-- What the end of a line reads as: a line feed, or one of the two Unicode
separators, which stay what they are. -/
def breakText (c : Cursor) : List Char :=
  match c.rest with
  | [] => []
  | ch :: _ => if ch == '\u2028' || ch == '\u2029' then [ch] else ['\n']

/-- Whether the cursor is at the end of a line. -/
def atBreak (c : Cursor) : Bool := c.rest.head?.any isBreak

/-- Whether the cursor is at the mark between documents. -/
def atDocumentMark (c : Cursor) : Bool :=
  c.column == 0 && (isBoundary '-' c.rest || isBoundary '.' c.rest)

theorem next_lt {c : Cursor} {ch : Char} {cs : List Char} (h : c.rest = ch :: cs) :
    c.next.rest.length < c.rest.length := by simp [next, h]

theorem newline_lt {c : Cursor} {ch : Char} {cs : List Char} (h : c.rest = ch :: cs) :
    c.newline.rest.length < c.rest.length := by
  have : 1 ≤ breakLen c.rest := by unfold breakLen; split <;> omega
  simp only [newline, List.length_drop, h, List.length_cons] at *
  omega

/-- Past the rest of the line. -/
def skipLine (c : Cursor) : Cursor := c.skipWhile fun ch => !isBreak ch

end Cursor

end Yaml

end EmbeddedSql
