import EmbeddedSql.Text.Blank
import EmbeddedSql.Text.Utf8
import EmbeddedSql.Yaml.Pen
import EmbeddedSql.Yaml.Value

/-!
# Writing values

A value is written in block style, two blanks a level, with its scalars as
plain as they can be: a string is quoted only where it would read as something
else or break the text around it. Only empty collections are written with
brackets.
-/

namespace EmbeddedSql

namespace Yaml

/-! ## Numbers -/

/-- The digits of a number. -/
def digitsText (n : Nat) : List Char := Nat.toDigits 10 n

/-- An integer. -/
def integerText (n : Int) : List Char := if n < 0 then '-' :: digitsText n.natAbs else digitsText n.natAbs

/-- A decimal. Up to sixteen places before the point and up to five behind it
are written out, with at least one digit on either side; beyond, the exponent
is written behind an `e`. -/
def decimalText (d : Decimal) : List Char :=
  let digits := digitsText d.coefficient
  let point : Int := digits.length + d.exponent
  if 0 ≤ d.exponent ∧ point ≤ 16 then digits ++ List.replicate d.exponent.toNat '0' ++ ['.', '0']
  else if 0 < point ∧ point ≤ 16 then digits.take point.toNat ++ '.' :: digits.drop point.toNat
  else if -5 < point ∧ point ≤ 0 then '0' :: '.' :: List.replicate (-point).toNat '0' ++ digits
  else
    let tail := digits.drop 1
    digits.take 1 ++ (if tail.isEmpty then [] else '.' :: tail) ++ 'e' :: integerText (point - 1)

/-- A number with a fraction. -/
def floatingText : Floating → List Char
  | .finite negative b => (if negative then ['-'] else []) ++ decimalText b.shortest
  | .infinite negative => (if negative then ['-'] else []) ++ ".inf".toList
  | .nan => ".nan".toList

/-! ## How a string may be written -/

/-- Whether a character may stand in a text that is written for people. -/
def isPrintable (c : Char) : Bool :=
  let n := c.toNat
  n == 0xA || decide (0x20 ≤ n ∧ n ≤ 0x7E) ||
    decide (0xA0 ≤ n ∧ n ≤ 0xFFFD) && n != 0xFEFF || decide (0x10000 ≤ n)

/-- Whether two characters in a row satisfy two properties. -/
def hasPair (p q : Char → Bool) (cs : List Char) : Bool :=
  (cs.zip cs.tail).any fun (a, b) => p a && q b

/-- Whether a text that goes on would be taken for a mark of the format
somewhere. -/
def hasInnerMark (afterGap : Bool) : List Char → Bool
  | [] => false
  | c :: cs => c == ':' && atGap cs || c == '#' && afterGap || hasInnerMark (isSpace c || isBreak c) cs

/-- Whether a text would be taken for a mark of the format. -/
def looksLikeMark : List Char → Bool
  | [] => false
  | c :: cs =>
    ['#', ',', '[', ']', '\x7b', '\x7d', '&', '*', '!', '|', '>', '\'', '"', '%', '@', '\x60'].contains c ||
      (c == '?' || c == ':' || c == '-') && atGap cs ||
      hasInnerMark (isSpace c || isBreak c) cs ||
      (c :: cs).take 3 == ['-', '-', '-'] || (c :: cs).take 3 == ['.', '.', '.']

/-- The style that a string asks for: quotes if it would read as something
else, and lines of its own if it has several. -/
def wantedStyle (text : List Char) : ScalarStyle :=
  if text.contains '\n' then .literal
  else if readsOtherwise text then .singleQuoted
  else .plain

/-- The style that a text gets, given the one that it asks for. -/
def grantedStyle (isKey : Bool) (text : List Char) (wanted : ScalarStyle) : ScalarStyle :=
  let broken := text.any isBreak
  let blankEnd := text.head? == some ' ' || text.getLast? == some ' '
  let delicate := hasPair (· == ' ') isBreak text || !text.all isPrintable
  let plainAllowed := !broken && !blankEnd && !delicate && !looksLikeMark text
  let singleAllowed := !hasPair isBreak (· == ' ') text && !delicate
  let literalAllowed := text.getLast? != some ' ' && !delicate && !isKey
  match wanted with
  | .literal | .folded => if literalAllowed then .literal else .doubleQuoted
  | .doubleQuoted => .doubleQuoted
  | .plain =>
    if plainAllowed then .plain else if singleAllowed then .singleQuoted else .doubleQuoted
  | .singleQuoted => if singleAllowed then .singleQuoted else .doubleQuoted

/-! ## Scalars -/

/-- The hexadecimal digits of a number, at least `n` of them. -/
def hexText (n value : Nat) : List Char :=
  let digits := (Nat.toDigits 16 value).map Char.toUpper
  List.replicate (n - digits.length) '0' ++ digits

/-- A character in double quotes. -/
def escapedChar (c : Char) : List Char :=
  if isPrintable c && !isBreak c && c != '"' && c != '\\' then [c]
  else
    let letters := [('\x00', '0'), ('\x07', 'a'), ('\x08', 'b'), ('\t', 't'), ('\n', 'n'), ('\x0B', 'v'),
      ('\x0C', 'f'), ('\r', 'r'), ('\x1B', 'e'), ('"', '"'), ('\\', '\\'), ('\u0085', 'N'),
      ('\u2028', 'L'), ('\u2029', 'P')]
    match letters.lookup c with
    | some letter => ['\\', letter]
    | none =>
      if c.toNat ≤ 0xFF then '\\' :: 'x' :: hexText 2 c.toNat
      else if c.toNat ≤ 0xFFFF then '\\' :: 'u' :: hexText 4 c.toNat
      else '\\' :: 'U' :: hexText 8 c.toNat

/-- The name of a tag with an exclamation mark in front of it. -/
def markedName : List Char → List Char
  | '!' :: name => '!' :: name
  | name => '!' :: name

namespace Pen

/-- Writes a text line by line, each line indented where it begins. -/
def lines (indent : Nat) (write : Char → Pen → Pen) (begun : Bool) (cs : List Char) (p : Pen) : Pen × Bool :=
  cs.foldl (fun (p, atStart) c =>
    if isBreak c then (p.endLine c, true)
    else (write c (if atStart then p.indentTo indent else p) |> fun p => { p with fresh := false }, false))
    (p, begun)

/-- Writes a text in single quotes. A quote is written twice. -/
def singleQuoted (indent : Nat) (text : List Char) (p : Pen) : Pen :=
  let write (c : Char) (p : Pen) : Pen := if c == '\'' then (p.put '\'').put '\'' else p.put c
  let (p, atStart) := (p.space.put '\'').word.lines indent write false text
  ((if atStart then p.indentTo indent else p).put '\'').word

/-- The marks behind the sign of a block: the indentation if the text starts
with a blank or a break, and what to do with breaks at its end. -/
def blockHints (text : List Char) : List Char :=
  let starts := if text.head?.any fun c => c == ' ' || isBreak c then ['2'] else []
  let ends := match text.reverse with
    | [] => ['-']
    | [c] => if isBreak c then ['+'] else ['-']
    | c :: d :: _ => if !isBreak c then ['-'] else if isBreak d then ['+'] else []
  starts ++ ends

/-- Writes a text as an indented block. -/
def literalBlock (indent : Nat) (text : List Char) (p : Pen) : Pen :=
  let p := ((p.space.put '|').puts (blockHints text)).endLine '\n'
  ({ p with spaced := true }.lines indent put true text).1

/-- A character of a tag. What may not stand in one is written as percent
escapes. -/
def tagChar (c : Char) : List Char :=
  if c.isAlphanum ||
      ['_', '-', ';', '/', '?', ':', '@', '&', '=', '+', '$', ',', '.', '~', '*', '\'', '(', ')', '[',
        ']'].contains c then [c]
  else c.toString.toUTF8.toList.flatMap fun b => '%' :: hexText 2 b.toNat

/-- Writes a tag, if there is one. An exclamation mark alone has to be
enclosed. -/
def tag (name : Option (List Char)) (p : Pen) : Pen :=
  match name.map markedName with
  | none => p
  | some marked =>
    let text :=
      if marked.length = 1 then ['!', '<'] ++ marked.flatMap tagChar ++ ['>']
      else '!' :: marked.tail.flatMap tagChar
    (p.space.puts text).word

end Pen

/-- The text of a scalar and the style that it asks for. -/
def scalarText? : Value → Option (List Char × ScalarStyle)
  | .null => some ("null".toList, .plain)
  | .bool b => some ((if b then "true" else "false").toList, .plain)
  | .int n => some (integerText n, .plain)
  | .float f => some (floatingText f, .plain)
  | .string text => some (text, wantedStyle text)
  | _ => none

/-- Writes a scalar. -/
def writeScalar (isKey : Bool) (indent : Nat) (text : List Char) (style : ScalarStyle) (p : Pen) : Pen :=
  match grantedStyle isKey text style with
  | .plain => (p.space.puts text).word
  | .singleQuoted => p.singleQuoted indent text
  | .doubleQuoted => (p.space.puts ('"' :: text.flatMap escapedChar ++ ['"'])).word
  | .literal | .folded => p.literalBlock indent text

/-! ## Collections -/

/-- How long a key may be, in bytes, to be written in front of its colon. -/
def simpleKeyReach : Nat := 128

/-- Whether a key is short, and is written on one line. -/
def isSimpleKey (tag : Option (List Char)) : Value → Bool
  | .tagged name v => isSimpleKey (some name) v
  | .sequence items => items.isEmpty && fits []
  | .mapping entries => entries.isEmpty && fits []
  | v =>
    let text := ((scalarText? v).map Prod.fst).getD []
    !text.any isBreak && fits text
where
  /-- Whether a text is short enough with the tag in front of it. -/
  fits (text : List Char) : Bool :=
    decide (utf8Length (tag.elim [] markedName) + utf8Length text ≤ simpleKeyReach)

/-- Where a value stands. -/
inductive Place where
  /-- On its own, or as an entry of a sequence. -/
  | entry
  /-- As a key in front of its colon. -/
  | key
  /-- As a key behind a question mark, or behind a colon. -/
  | member
deriving DecidableEq

/-- One level further. -/
def inner (indent : Option Nat) : Option Nat := some (indent.elim 0 (· + 2))

mutual

/-- Writes a value. `indent` is the indentation around it, if there is one. -/
def writeValue (tag : Option (List Char)) (place : Place) (indent : Option Nat) : Value → Pen → Pen
  | .tagged name v, p => writeValue (some name) place indent v p
  | .sequence [], p => ((p.tag tag).space.puts ['[', ']']).word
  | .sequence (v :: vs), p =>
    let p := p.tag tag
    let flush := place != .entry && !p.fresh
    writeItems ((if flush then indent else inner indent).getD 0) (v :: vs) p
  | .mapping [], p => ((p.tag tag).space.puts ['\x7b', '\x7d']).word
  | .mapping (e :: es), p => writeEntries ((inner indent).getD 0) (e :: es) (p.tag tag)
  | v, p =>
    match scalarText? v with
    | some (text, style) => writeScalar (place == .key) (indent.getD 0 + 2) text style (p.tag tag)
    | none => p

/-- Writes the entries of a sequence. -/
def writeItems (indent : Nat) : List Value → Pen → Pen
  | [], p => p
  | v :: vs, p =>
    writeItems indent vs (writeValue none .entry (some indent) v ((p.indentTo indent).entryMark '-'))

/-- Writes the entries of a mapping. -/
def writeEntries (indent : Nat) : List (Value × Value) → Pen → Pen
  | [], p => p
  | (k, v) :: rest, p =>
    let p := p.indentTo indent
    let p :=
      if isSimpleKey none k then ((writeValue none .key (some indent) k p).put ':').word
      else
        let p := writeValue none .member (some indent) k (p.entryMark '?')
        (p.indentTo indent).entryMark ':'
    writeEntries indent rest (writeValue none .member (some indent) v p)

end

/-! ## What can be written -/

/-- Whether a value is made of a single other one: it has a tag, or is a
mapping of one entry. -/
def Value.isSingular : Value → Bool
  | .tagged _ _ => true
  | .mapping [_] => true
  | _ => false

/-- Whether a mapping has one entry only, with a key that is made of a single
other value. -/
def hasSingularKey : List (Value × Value) → Bool
  | [(k, _)] => k.isSingular
  | _ => false

mutual

/-- Whether a value can be written. A mapping of one entry and a tagged value
are told apart by what the key is, and a key of either kind leaves it open; so a
mapping with such a key needs a second entry, or a tag of its own. -/
def Value.isWritable (tagged : Bool) : Value → Bool
  | .tagged _ v => v.isWritable true
  | .sequence items => writableItems items
  | .mapping entries => (tagged || !hasSingularKey entries) && writableEntries entries
  | _ => true

/-- Whether all items of a sequence can be written. -/
def writableItems : List Value → Bool
  | [] => true
  | v :: vs => v.isWritable false && writableItems vs

/-- Whether all entries of a mapping can be written. -/
def writableEntries : List (Value × Value) → Bool
  | [] => true
  | (k, v) :: rest => k.isWritable false && v.isWritable false && writableEntries rest

end

/-- **A value in block style**, without blanks at its ends, if it can be
written. -/
def render? (v : Value) : Option (List Char) :=
  if v.isWritable false then some (trimBlank (writeValue none .entry none v {}).text.toList) else none

end Yaml

end EmbeddedSql
