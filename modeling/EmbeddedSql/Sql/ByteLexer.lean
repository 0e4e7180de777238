import EmbeddedSql.Sql.Lexer
import EmbeddedSql.Text.Utf8

/-!
# Splitting PostgreSQL into tokens, over bytes

A text is held in UTF-8, and its delimiters – quotes, comment marks, operators –
are all ASCII. So most rules of the lexer need not decode it: they look at
single bytes and step from byte to byte, and the length they answer with is a
number of bytes. The lexer then cuts the text there and counts the characters
of what it cut off.

Two things can go wrong. A cut inside a character is not a cut of a text at
all, and a token without a byte would be found again for ever. Both are `none`
here. A rule that searches by character or by pattern reports where a character
ends, and is taken over from the lexer with its answer measured in bytes.
-/

namespace EmbeddedSql

namespace Sql

/-! ## Bytes -/

/-- The bytes of a text. -/
def bytesOf (text : List Char) : List UInt8 := text.flatMap String.utf8EncodeChar

/-- How many bytes the character at the head takes, read off its first byte.
There is no character if the text ends here, and the answer is `none` inside
of one. -/
def charBytes? : List UInt8 → Option Nat
  | [] => some 0
  | b :: _ =>
    if b < 0x80 then some 1
    else if b < 0xC0 then none
    else if b < 0xE0 then some 2
    else if b < 0xF0 then some 3
    else some 4

/-- A small letter made a capital one. -/
def upperByte (b : UInt8) : UInt8 := if 'a'.toUInt8 ≤ b ∧ b ≤ 'z'.toUInt8 then b - 32 else b

/-! ## Quoted text, comments and operators -/

/-- How many bytes a block comment takes, `depth` comments being open. -/
def blockCommentBytes (depth : Nat) : List UInt8 → Nat
  | [] => 0
  | [_] => 1
  | a :: b :: rest =>
    if a = '/'.toUInt8 ∧ b = '*'.toUInt8 then 2 + blockCommentBytes (depth + 1) rest
    else if a = '*'.toUInt8 ∧ b = '/'.toUInt8 then
      if depth ≤ 1 then 2 else 2 + blockCommentBytes (depth - 1) rest
    else 1 + blockCommentBytes depth (b :: rest)

/-- How many bytes a quoted text takes after its opening quote. What stands
after a backslash is passed as a whole character. -/
def quotedBytes? (quote : UInt8) (backslash : Bool) : List UInt8 → Option Nat
  | [] => some 0
  | b :: rest =>
    if backslash ∧ b = '\\'.toUInt8 then
      match charBytes? rest with
      | none => none
      | some n => (quotedBytes? quote backslash (rest.drop n)).map (1 + n + ·)
    else if b = quote then
      if rest.head? = some quote then (quotedBytes? quote backslash (rest.drop 1)).map (2 + ·)
      else some 1
    else (quotedBytes? quote backslash rest).map (1 + ·)
termination_by bytes => bytes.length

/-- The bytes that operators are made of. -/
def isOperatorByte (b : UInt8) : Bool :=
  ['+', '-', '*', '/', '<', '>', '=', '~', '!', '@', '#', '%', '^', '&', '|', '\x60', '?'].any
    (·.toUInt8 == b)

/-- The bytes that are an operator on their own. -/
def isPunctuationByte (b : UInt8) : Bool :=
  ['(', ')', ',', ';', '[', ']', '.', ':', '$'].any (·.toUInt8 == b)

/-- How many bytes an operator goes on for. A comment ends it. -/
def operatorBytes : List UInt8 → Nat
  | [] => 0
  | b :: rest =>
    if isOperatorByte b ∧ ¬(b = '-'.toUInt8 ∧ rest.head? = some '-'.toUInt8) ∧
        ¬(b = '/'.toUInt8 ∧ rest.head? = some '*'.toUInt8) then
      1 + operatorBytes rest
    else 0

/-! ## The rules

A rule looks at the first byte and at those that follow. It answers with a
category and a number of bytes, or that it does not apply, or not at all. -/

/-- A comment, up to the end of the line or to the end of its block. -/
def commentBytes (b : UInt8) (rest : List UInt8) : Option (Option Lexeme) :=
  if b = '-'.toUInt8 ∧ rest.head? = some '-'.toUInt8 then
    some (some (.comment, 1 + (rest.takeWhile (· != '\n'.toUInt8)).length))
  else if b = '/'.toUInt8 ∧ rest.head? = some '*'.toUInt8 then
    some (some (.comment, blockCommentBytes 0 (b :: rest)))
  else some none

/-- The quoted text behind an opening of `opening` bytes. -/
def quotedAfter (category : Category) (opening : Nat) (quote : Char) (backslash : Bool)
    (rest : List UInt8) : Option (Option Lexeme) :=
  (quotedBytes? quote.toUInt8 backslash rest).map fun n => some (category, opening + n)

/-- A string constant or a quoted name without a letter in front. -/
def plainQuoteBytes (b : UInt8) (rest : List UInt8) : Option (Option Lexeme) :=
  if b = '\''.toUInt8 then quotedAfter .string 1 '\'' false rest
  else if b = '"'.toUInt8 then quotedAfter .identifier 1 '"' false rest
  else some none

/-- The two colons of a cast. -/
def castBytes (b : UInt8) (rest : List UInt8) : Option (Option Lexeme) :=
  if b = ':'.toUInt8 ∧ rest.head? = some ':'.toUInt8 then some (some (.operator, 2)) else some none

/-- A string constant or a quoted name with letters in front. -/
def letteredBytes (b : UInt8) (rest : List UInt8) : Option (Option Lexeme) :=
  match rest with
  | [] => some none
  | d :: rest =>
    if upperByte b = 'U'.toUInt8 ∧ d = '&'.toUInt8 then
      match rest with
      | [] => some none
      | q :: body =>
        if q = '\''.toUInt8 then quotedAfter .string 3 '\'' false body
        else if q = '"'.toUInt8 then quotedAfter .identifier 3 '"' false body
        else some none
    else if d = '\''.toUInt8 then
      if upperByte b = 'E'.toUInt8 then quotedAfter .string 2 '\'' true rest
      else if upperByte b = 'B'.toUInt8 ∨ upperByte b = 'X'.toUInt8 ∨ upperByte b = 'N'.toUInt8 then
        quotedAfter .string 2 '\'' false rest
      else some none
    else some none

/-- A run of operator bytes. -/
def operatorRunBytes (b : UInt8) (rest : List UInt8) : Option (Option Lexeme) :=
  if isOperatorByte b then some (some (.operator, 1 + operatorBytes rest)) else some none

/-- A single byte of punctuation. -/
def punctuationBytes (b : UInt8) (_ : List UInt8) : Option (Option Lexeme) :=
  if isPunctuationByte b then some (some (.operator, 1)) else some none

/-- A rule as the lexer tries it: on a text, with its answer in bytes. -/
abbrev TextRule := Char → List Char → Option (Option Lexeme)

/-- A rule on bytes, applied to a text. -/
def onBytes (rule : UInt8 → List UInt8 → Option (Option Lexeme)) : TextRule := fun c cs =>
  match bytesOf (c :: cs) with
  | [] => some none
  | b :: rest => rule b rest

/-- A rule on characters, its answer measured in bytes. -/
def measured (rule : Char → List Char → Option Lexeme) : TextRule := fun c cs =>
  some ((rule c cs).map fun lexeme => (lexeme.1, utf8Length ((c :: cs).take lexeme.2)))

/-- The rules, in the order in which they are tried. -/
def byteRules : List TextRule :=
  [measured blank?, onBytes commentBytes, onBytes plainQuoteBytes, onBytes castBytes,
    onBytes letteredBytes, measured dollar?, measured parameter?, measured number?, measured word?,
    onBytes operatorRunBytes, onBytes punctuationBytes]

/-- The token at the head of a text that is not empty, in bytes. -/
def nextInBytes? (c : Char) (cs : List Char) : Option Lexeme :=
  (List.findSomeM? (fun rule : TextRule => rule c cs) byteRules).map (·.getD (.none, c.utf8Size))

/-! ## The loop -/

/-- How many characters the first `n` bytes of a text are, if a character ends
there. -/
def charsIn? : List Char → Nat → Option Nat
  | _, 0 => some 0
  | [], _ + 1 => none
  | c :: cs, n + 1 =>
    if c.utf8Size ≤ n + 1 then (charsIn? cs (n + 1 - c.utf8Size)).map (· + 1) else none

/-- The tokens of a text whose first character has index `pos`, each found by
`next?` in bytes. -/
def tokensBy? (next? : Char → List Char → Option Lexeme) (pos : Nat) :
    List Char → Option (List Token)
  | [] => some []
  | c :: cs => do
    let lexeme ← next? c cs
    let len ← charsIn? (c :: cs) lexeme.2
    if len = 0 then none
    else
      let tokens ← tokensBy? next? (pos + len) (cs.drop (len - 1))
      return ⟨lexeme.1, pos, len⟩ :: tokens
termination_by cs => cs.length

/-- **The tokens of a text, found over its bytes.** -/
def byteTokenize? (text : List Char) : Option (List Token) := tokensBy? nextInBytes? 0 text

end Sql

end EmbeddedSql
