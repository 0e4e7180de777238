import EmbeddedSql.Checked.Span
import EmbeddedSql.Sql.ByteLexer

/-!
# Splitting PostgreSQL into tokens, checked

The scans over the bytes of a text keep an index and the depth of nested
comments. The depth is zero where a comment starts, and one is taken from it
wherever a comment ends; what keeps it from being taken from zero is that the
first two bytes open the comment that is scanned.

A text can be cut only where a character ends, and that is checked with each
cut. The length of a token is added to the position in the text, and a token
without length would be found again for ever, so the loop asks for one.
-/

namespace EmbeddedSql

namespace Checked

open Sql

/-! ## Cuts -/

/-- The bytes of a text from an index on, at which a character must start. -/
def bytesFrom (bytes : List UInt8) (i : Nat) : Option (List UInt8) := do
  let rest ← cut bytes i bytes.length
  let _ ← charBytes? rest
  return rest

/-- The characters of a text after some of its bytes, at which one must end. -/
def textFrom (text : List Char) (n : Nat) : Option (List Char) := do
  let count ← charsIn? text n
  return text.drop count

/-! ## Scans -/

/-- Where a block comment ends, from an index on, `depth` comments being open. -/
def blockComment (bytes : List UInt8) (depth i : Nat) : Option Nat := do
  let _ ← add i 1
  if i + 1 < bytes.length then
    let a ← bytes[i]?
    let b ← bytes[i + 1]?
    if a = '/'.toUInt8 ∧ b = '*'.toUInt8 then
      let depth ← add depth 1
      let _ ← add i 2
      blockComment bytes depth (i + 2)
    else if a = '*'.toUInt8 ∧ b = '/'.toUInt8 then
      let depth ← sub depth 1
      let past ← add i 2
      if depth = 0 then return past else blockComment bytes depth (i + 2)
    else blockComment bytes depth (i + 1)
  else return bytes.length
termination_by bytes.length - i

/-- Where a quoted text ends, from an index on. -/
def quoted (bytes : List UInt8) (quote : UInt8) (backslash : Bool) (i : Nat) : Option Nat :=
  if i < bytes.length then do
    let b ← bytes[i]?
    let next ← add i 1
    if backslash ∧ b = '\\'.toUInt8 then
      let rest ← bytesFrom bytes next
      let width ← charBytes? rest
      let _ ← add next width
      quoted bytes quote backslash (i + 1 + width)
    else if b = quote then
      if bytes[next]? = some quote then
        let _ ← add i 2
        quoted bytes quote backslash (i + 2)
      else return next
    else quoted bytes quote backslash (i + 1)
  else some bytes.length
termination_by bytes.length - i

/-- Whether a comment starts at an index, which is asked behind the first byte
of an operator only. -/
def commentAt (bytes : List UInt8) (i : Nat) : Option Bool :=
  if 0 < i then do
    let rest ← bytesFrom bytes i
    return ['-'.toUInt8, '-'.toUInt8].isPrefixOf rest || ['/'.toUInt8, '*'.toUInt8].isPrefixOf rest
  else some false

/-- Where an operator ends, from an index on. -/
def operatorRun (bytes : List UInt8) (i : Nat) : Option Nat :=
  if i < bytes.length then do
    let b ← bytes[i]?
    if isOperatorByte b then
      let comment ← commentAt bytes i
      if comment then return i
      else
        let _ ← add i 1
        operatorRun bytes (i + 1)
    else return i
  else some i
termination_by bytes.length - i

/-! ## The rules -/

/-- A comment, up to the end of the line or to the end of its block. -/
def comment (bytes : List UInt8) : Option (Option Lexeme) := do
  let first ← bytes[0]?
  if first = '-'.toUInt8 ∧ bytes[1]? = some '-'.toUInt8 then
    return some (.comment, (bytes.takeWhile (· != '\n'.toUInt8)).length)
  else if first = '/'.toUInt8 ∧ bytes[1]? = some '*'.toUInt8 then
    let len ← blockComment bytes 0 0
    return some (.comment, len)
  else return none

/-- The quoted text whose opening quote is at an index. -/
def quotedFrom (category : Category) (bytes : List UInt8) (opening : Nat) (quote : Char)
    (backslash : Bool) : Option (Option Lexeme) := do
  let first ← add opening 1
  let len ← quoted bytes quote.toUInt8 backslash first
  return some (category, len)

/-- A string constant or a quoted name without a letter in front. -/
def plainQuote (bytes : List UInt8) : Option (Option Lexeme) := do
  let first ← bytes[0]?
  if first = '\''.toUInt8 then quotedFrom .string bytes 0 '\'' false
  else if first = '"'.toUInt8 then quotedFrom .identifier bytes 0 '"' false
  else return none

/-- The two colons of a cast. -/
def cast (bytes : List UInt8) : Option (Option Lexeme) := do
  let first ← bytes[0]?
  return if first = ':'.toUInt8 ∧ bytes[1]? = some ':'.toUInt8 then some (.operator, 2) else none

/-- A string constant or a quoted name with letters in front. -/
def lettered (bytes : List UInt8) : Option (Option Lexeme) := do
  let first ← bytes[0]?
  if upperByte first = 'U'.toUInt8 ∧ bytes[1]? = some '&'.toUInt8 then
    if bytes[2]? = some '\''.toUInt8 then quotedFrom .string bytes 2 '\'' false
    else if bytes[2]? = some '"'.toUInt8 then quotedFrom .identifier bytes 2 '"' false
    else return none
  else if bytes[1]? = some '\''.toUInt8 then
    if upperByte first = 'E'.toUInt8 then quotedFrom .string bytes 1 '\'' true
    else if upperByte first = 'B'.toUInt8 ∨ upperByte first = 'X'.toUInt8 ∨
        upperByte first = 'N'.toUInt8 then quotedFrom .string bytes 1 '\'' false
    else return none
  else return none

/-- A dollar-quoted string constant, or a numbered parameter. -/
def dollar (c : Char) (cs : List Char) : Option (Option Lexeme) :=
  match if c = '$' then dollarTag? cs else none with
  | none => measured dollar? c cs
  | some tag => do
    let width := utf8Length ('$' :: tag)
    let body ← textFrom (c :: cs) width
    match occurrence? ('$' :: tag) body with
    | some n =>
      let past ← add width (utf8Length (body.take n))
      let len ← add past width
      return some (.string, len)
    | none => return some (.string, utf8Length (c :: cs))

/-- A run of operator bytes. -/
def operator (bytes : List UInt8) : Option (Option Lexeme) := do
  let first ← bytes[0]?
  if isOperatorByte first then
    let len ← operatorRun bytes 0
    return some (.operator, len)
  else return none

/-- A single byte of punctuation. -/
def punctuation (bytes : List UInt8) : Option (Option Lexeme) := do
  let first ← bytes[0]?
  return if isPunctuationByte first then some (.operator, 1) else none

/-- A rule on the bytes of a text. -/
def onText (rule : List UInt8 → Option (Option Lexeme)) : TextRule := fun c cs =>
  rule (bytesOf (c :: cs))

/-- The rules, in the order in which they are tried. -/
def textRules : List TextRule :=
  [measured blank?, onText comment, onText plainQuote, onText cast, onText lettered, dollar,
    measured parameter?, measured number?, measured word?, onText operator, onText punctuation]

/-- The token at the head of a text that is not empty, in bytes. -/
def nextLexeme (c : Char) (cs : List Char) : Option Lexeme :=
  (List.findSomeM? (fun rule : TextRule => rule c cs) textRules).map (·.getD (.none, c.utf8Size))

/-! ## The loop -/

/-- The tokens of a text from a position in bytes on, at which `index`
characters have been passed. -/
def tokens (text : List Char) (pos index : Nat) : Option (List Token) :=
  if pos < utf8Length text then do
    let rest ← textFrom text pos
    match rest with
    | [] => none
    | c :: cs =>
      let lexeme ← nextLexeme c cs
      let _ ← add pos lexeme.2
      let len ← charsIn? (c :: cs) lexeme.2
      let next ← add index len
      if 0 < lexeme.2 then
        let more ← tokens text (pos + lexeme.2) next
        return ⟨lexeme.1, index, len⟩ :: more
      else none
  else some []
termination_by utf8Length text - pos

end Checked

end EmbeddedSql
