import EmbeddedSql.Yaml.Scalar

/-!
# From text to tokens

Two things make YAML hard to split into tokens. Block collections are opened
and closed by indentation, so tokens for them are made up when the column of a
token is compared with the indentations that are open. And a key is recognized
only when its colon is met, so a place where a key may have begun is
remembered, together with the number of tokens before it; if the colon comes on
the same line, the token for the key is put in there after all.
-/

namespace EmbeddedSql

namespace Yaml

/-- A place where a key may begin. -/
structure KeyPlace where
  /-- Whether a key may still begin here. -/
  possible : Bool := false
  /-- Whether nothing else than a key can begin here. -/
  required : Bool := false
  /-- How many tokens come before it. -/
  tokens : Nat := 0
  /-- Its position. -/
  index : Nat := 0
  /-- Its line. -/
  line : Nat := 0
  /-- Its column. -/
  column : Nat := 0

/-- How far the colon of a key may be from its start. -/
def keyReach : Nat := 1024

/-- A text that is partly split into tokens. -/
structure Tokenizer where
  /-- What is left of the text. -/
  cursor : Cursor
  /-- The tokens so far. -/
  tokens : Array Token := #[]
  /-- The indentations that are open, the innermost first. -/
  indents : List Nat := []
  /-- Whether a key may begin at the next token. -/
  keyAllowed : Bool := true
  /-- The place for a key outside all brackets, or inside the innermost. -/
  place : KeyPlace := {}
  /-- The places outside the brackets that are open, the innermost first. -/
  outer : List KeyPlace := []
  /-- Whether the text has been read to its end. -/
  finished : Bool := false

namespace Tokenizer

/-- Whether a bracket or brace is open. -/
def inFlow (t : Tokenizer) : Bool := !t.outer.isEmpty

/-- Adds a token. -/
def push (t : Tokenizer) (token : Token) : Tokenizer := { t with tokens := t.tokens.push token }

/-- Puts a token after the first `n`. -/
def insertAt (t : Tokenizer) (n : Nat) (token : Token) : Tokenizer :=
  { t with tokens := t.tokens.extract 0 n ++ #[token] ++ t.tokens.extract n t.tokens.size }

/-- Moves the cursor. -/
def moveTo (t : Tokenizer) (c : Cursor) : Tokenizer := { t with cursor := c }

/-! ## Indentation -/

/-- The least column that is indented further than what is open. -/
def deeper (t : Tokenizer) : Nat :=
  match t.indents with
  | [] => 0
  | n :: _ => n + 1

/-- Opens a block collection at a column, if it is indented further than what
is open. -/
def openBlock (t : Tokenizer) (column number : Nat) (token : Token) : Tokenizer :=
  if t.inFlow || decide (column < t.deeper) then t
  else { t.insertAt number token with indents := column :: t.indents }

/-- Closes the block collections indented at least as far as `deeper`. -/
def closeBlocks (t : Tokenizer) (bound : Nat) : Tokenizer :=
  if t.inFlow then t
  else
    let closed := t.indents.takeWhile (bound ≤ ·)
    { t with
      tokens := t.tokens ++ (List.replicate closed.length Token.blockEnd).toArray
      indents := t.indents.drop closed.length }

/-! ## Keys -/

/-- Whether the cursor is too far from a place for its colon to come. -/
def isStale (t : Tokenizer) (k : KeyPlace) : Bool :=
  k.possible && (decide (k.line < t.cursor.line) || decide (k.index + keyReach < t.cursor.index))

/-- Gives up the places from which the cursor is too far. A key that was
required there is missing. -/
def dropStale (t : Tokenizer) : Option Tokenizer :=
  if (t.place :: t.outer).any fun k => t.isStale k && k.required then none
  else
    let drop (k : KeyPlace) : KeyPlace := if t.isStale k then { k with possible := false } else k
    some { t with place := drop t.place, outer := t.outer.map drop }

/-- Gives up the current place. -/
def dropPlace (t : Tokenizer) : Option Tokenizer :=
  if t.place.possible && t.place.required then none
  else some { t with place := { t.place with possible := false } }

/-- Remembers the cursor as a place where a key may begin. -/
def savePlace (t : Tokenizer) : Option Tokenizer :=
  if t.keyAllowed then do
    let t ← t.dropPlace
    let required := !t.inFlow && t.indents.head? == some t.cursor.column
    return { t with
      place := ⟨true, required, t.tokens.size, t.cursor.index, t.cursor.line, t.cursor.column⟩ }
  else some t

/-- Says whether a key may begin at the next token. -/
def allowKey (t : Tokenizer) (allowed : Bool) : Tokenizer := { t with keyAllowed := allowed }

/-! ## Between tokens -/

/-- The mark that some editors put at the start of a text. -/
def byteOrderMark : Char := '\uFEFF'

/-- Skips blanks, comments and breaks. A tab is not skipped where a key may
begin, since it would be taken for indentation. -/
def skipGap : Nat → Tokenizer → Tokenizer
  | 0, t => t
  | rounds + 1, t =>
    let c := t.cursor
    let c := if c.column == 0 && c.rest.head? == some byteOrderMark then c.next else c
    let c := c.skipWhile fun ch => ch == ' ' || (t.inFlow || !t.keyAllowed) && ch == '\t'
    let c := if c.rest.head? == some '#' then c.skipLine else c
    if c.atBreak then skipGap rounds { t with cursor := c.newline, keyAllowed := t.keyAllowed || !t.inFlow }
    else t.moveTo c

/-! ## Single tokens -/

/-- A token of some characters that a key cannot span. -/
def mark (t : Tokenizer) (n : Nat) (token : Token) : Tokenizer :=
  (t.moveTo (t.cursor.skip n)).push token

/-- Leaves everything that is open, and the place for a key with it. -/
def leaveAll (t : Tokenizer) : Option Tokenizer := do
  return (← (t.closeBlocks 0).dropPlace).allowKey false

/-- The end of the text, which also ends its last line. -/
def streamEnd (t : Tokenizer) : Option Tokenizer := do
  let t ← t.leaveAll
  return { t.push .streamEnd with finished := true }

/-- A mark between documents. -/
def documentMark (t : Tokenizer) (token : Token) : Option Tokenizer := do
  return (← t.leaveAll).mark 3 token

/-- An opening bracket or brace. -/
def openFlow (t : Tokenizer) (token : Token) : Option Tokenizer := do
  let t ← t.savePlace
  return ({ t with place := {}, outer := t.place :: t.outer }.allowKey true).mark 1 token

/-- A closing bracket or brace. -/
def closeFlow (t : Tokenizer) (token : Token) : Option Tokenizer := do
  let t ← t.dropPlace
  let t := match t.outer with
    | [] => t
    | k :: rest => { t with place := k, outer := rest }
  return (t.allowKey false).mark 1 token

/-- A comma. -/
def flowEntry (t : Tokenizer) : Option Tokenizer := do
  return ((← t.dropPlace).allowKey true).mark 1 .flowEntry

/-- The dash of an entry. -/
def blockEntry (t : Tokenizer) : Option Tokenizer := do
  if !t.inFlow && !t.keyAllowed then none
  let t := t.openBlock t.cursor.column t.tokens.size .blockSequenceStart
  return ((← t.dropPlace).allowKey true).mark 1 .blockEntry

/-- The question mark of a key. -/
def explicitKey (t : Tokenizer) : Option Tokenizer := do
  if !t.inFlow && !t.keyAllowed then none
  let t := t.openBlock t.cursor.column t.tokens.size .blockMappingStart
  return ((← t.dropPlace).allowKey !t.inFlow).mark 1 .key

/-- The colon of a value. If a key may have begun on this line, it did. -/
def value (t : Tokenizer) : Option Tokenizer :=
  if t.place.possible then
    let k := t.place
    let t := (t.insertAt k.tokens .key).openBlock k.column k.tokens .blockMappingStart
    some (({ t with place := { k with possible := false } }.allowKey false).mark 1 .value)
  else if !t.inFlow && !t.keyAllowed then none
  else
    let t := t.openBlock t.cursor.column t.tokens.size .blockMappingStart
    some ((t.allowKey !t.inFlow).mark 1 .value)

/-- An anchor, or a reference to one. -/
def anchor (t : Tokenizer) (token : List Char → Token) : Option Tokenizer := do
  let t := (← t.savePlace).allowKey false
  let name := t.cursor.rest.tail.takeWhile isNameChar
  let c := t.cursor.skip (1 + name.length)
  if name.isEmpty then none
  if !atGap c.rest && !c.rest.head?.any (['?', ':', ',', ']', '\x7d', '%', '@', '\x60'].contains ·) then none
  return (t.moveTo c).push (token name)

/-! ## Tags -/

/-- Whether a character may stand in a tag. Brackets and the comma may do so
only where the tag is enclosed. -/
def isTagChar (enclosed : Bool) (c : Char) : Bool :=
  isNameChar c ||
    [';', '/', '?', ':', '@', '&', '=', '+', '$', '.', '%', '!', '~', '*', '\'', '(', ')'].contains c ||
    enclosed && [',', '[', ']'].contains c

/-- How many bytes a character has beyond the first, which is given. -/
def bytesAhead? (first : Nat) : Option Nat :=
  if first < 0x80 then some 0
  else if first < 0xC0 then none
  else if first < 0xE0 then some 1
  else if first < 0xF0 then some 2
  else if first < 0xF8 then some 3
  else none

/-- The bytes of the characters of a tag. A percent escape spells one byte, and
the bytes of a character are spelled in a row; `ahead` is how many are still to
come. -/
def tagBytes? (ahead : Nat) : List Char → Option Tag
  | [] => if ahead = 0 then some [] else none
  | '%' :: a :: b :: rest => do
    let byte := (← hexDigitValue? a) * 16 + (← hexDigitValue? b)
    let ahead ←
      if ahead = 0 then bytesAhead? byte
      else if 0x80 ≤ byte ∧ byte < 0xC0 then some (ahead - 1)
      else none
    return UInt8.ofNat byte :: (← tagBytes? ahead rest)
  | c :: rest =>
    if ahead ≠ 0 ∨ c = '%' then none else (tagBytes? 0 rest).map (UInt8.ofNat c.toNat :: ·)

/-- Reads the characters of a tag, in addition to a handle already read. There
must be at least one. -/
def tagText? (enclosed : Bool) (head : List Char) (c : Cursor) : Option (Tag × Cursor) := do
  let run := c.rest.takeWhile (isTagChar enclosed)
  if run.isEmpty && head.isEmpty then none
  let bytes ← tagBytes? 0 (head.tail ++ run)
  return (bytes.takeWhile (· != 0), c.skip run.length)

/-- Reads a handle: an exclamation mark, and perhaps a name and another one. -/
def handle? (c : Cursor) : Option (List Char × Cursor) :=
  match c.rest with
  | '!' :: cs =>
    let name := cs.takeWhile isNameChar
    if (cs.drop name.length).head? == some '!' then
      some ('!' :: name ++ ['!'], c.skip (name.length + 2))
    else some ('!' :: name, c.skip (name.length + 1))
  | _ => none

/-- A tag: enclosed, with a handle, or with an exclamation mark alone. -/
def tag (t : Tokenizer) : Option Tokenizer := do
  let t := (← t.savePlace).allowKey false
  let (handle, suffix, c) ←
    if t.cursor.rest.tail.head? == some '<' then do
      let (uri, c) ← tagText? true [] (t.cursor.skip 2)
      if c.rest.head? != some '>' then none
      pure ([], uri, c.next)
    else do
      let (handle, c) ← handle? t.cursor
      if 2 ≤ handle.length ∧ handle.getLast? = some '!' then do
        let (suffix, c) ← tagText? false [] c
        pure (handle, suffix, c)
      else do
        let (suffix, c) ← tagText? false handle c
        pure (if suffix.isEmpty then ([], .ofText "!", c) else (['!'], suffix, c))
  if !(t.inFlow && c.rest.head? == some ',') && !atGap c.rest then none
  return (t.moveTo c).push (.tag handle suffix)

/-! ## Directives -/

/-- A number of at most nine digits. -/
def shortNumber? (c : Cursor) : Option (Nat × Cursor) :=
  let digits := c.rest.takeWhile Char.isDigit
  if digits.isEmpty || decide (9 < digits.length) then none
  else some (digits.foldl (fun n d => n * 10 + (d.toNat - 0x30)) 0, c.skip digits.length)

/-- A line that starts with a percent sign: a version, or a handle for tags. -/
def directive (t : Tokenizer) : Option Tokenizer := do
  let t ← t.leaveAll
  let name := t.cursor.rest.tail.takeWhile isNameChar
  let c := t.cursor.skip (1 + name.length)
  if name.isEmpty || !atGap c.rest then none
  let c := c.skipWhile isSpace
  let (token, c) ←
    if name == "YAML".toList then do
      let (major, c) ← shortNumber? c
      if c.rest.head? != some '.' then none
      let (minor, c) ← shortNumber? c.next
      pure (Token.version major minor, c)
    else if name == "TAG".toList then do
      let (handle, c) ← handle? c
      if handle.length ≠ 1 ∧ handle.getLast? ≠ some '!' then none
      if !c.rest.head?.any isSpace then none
      let (uri, c) ← tagText? true [] (c.skipWhile isSpace)
      if !atGap c.rest then none
      pure (Token.tagHandle handle uri, c)
    else none
  let c := c.skipWhile isSpace
  let c := if c.rest.head? == some '#' then c.skipLine else c
  if !c.rest.isEmpty && !c.atBreak then none
  return (t.moveTo (if c.atBreak then c.newline else c)).push token

/-! ## Scalars -/

/-- A quoted scalar. -/
def quoted (t : Tokenizer) (single : Bool) : Option Tokenizer := do
  let t := (← t.savePlace).allowKey false
  let (text, c) ← readQuoted single t.cursor
  return (t.moveTo c).push (.scalar (if single then .singleQuoted else .doubleQuoted) text)

/-- A block scalar. -/
def block (t : Tokenizer) (folded : Bool) : Option Tokenizer := do
  let t := (← t.dropPlace).allowKey true
  let (text, c) ← readBlock folded t.indents.head? t.cursor
  return (t.moveTo c).push (.scalar (if folded then .folded else .literal) text)

/-- A plain scalar. If it was left on a new line, a key may begin there. -/
def plain (t : Tokenizer) : Option Tokenizer := do
  let t := (← t.savePlace).allowKey false
  let (text, broken, c) ← readPlain t.inFlow t.deeper t.cursor
  return ((t.moveTo c).allowKey broken).push (.scalar .plain text)

/-- The characters that start no plain scalar, or only with something right
behind them. -/
def isIndicator (c : Char) : Bool :=
  ['-', '?', ':', ',', '[', ']', '\x7b', '\x7d', '#', '&', '*', '!', '|', '>', '\'', '"', '%', '@',
    '\x60'].contains c

/-- Reads the next token. -/
def step (t : Tokenizer) : Option Tokenizer := do
  let t ← (skipGap (t.cursor.rest.length + 1) t).dropStale
  let t := t.closeBlocks (t.cursor.column + 1)
  match t.cursor.rest with
  | [] => t.streamEnd
  | c :: cs =>
    let atLineStart := t.cursor.column == 0
    let gap := atGap cs
    if atLineStart && c == '%' then t.directive
    else if atLineStart && isBoundary '-' (c :: cs) then t.documentMark .documentStart
    else if atLineStart && isBoundary '.' (c :: cs) then t.documentMark .documentEnd
    else if c == '[' then t.openFlow .flowSequenceStart
    else if c == '\x7b' then t.openFlow .flowMappingStart
    else if c == ']' then t.closeFlow .flowSequenceEnd
    else if c == '\x7d' then t.closeFlow .flowMappingEnd
    else if c == ',' then t.flowEntry
    else if c == '-' && gap then t.blockEntry
    else if c == '?' && (t.inFlow || gap) then t.explicitKey
    else if c == ':' && (t.inFlow || gap) then t.value
    else if c == '*' then t.anchor .alias
    else if c == '&' then t.anchor .anchor
    else if c == '!' then t.tag
    else if c == '|' && !t.inFlow then t.block false
    else if c == '>' && !t.inFlow then t.block true
    else if c == '\'' then t.quoted true
    else if c == '"' then t.quoted false
    else if !(isSpace c || isIndicator c) || c == '-' || !t.inFlow && (c == '?' || c == ':') then t.plain
    else none

/-- Reads tokens to the end of the text. Every token but the last takes at
least one character, which bounds the number of rounds. -/
def run : Nat → Tokenizer → Option (Array Token)
  | 0, _ => none
  | rounds + 1, t => do
    let t ← t.step
    if t.finished then return t.tokens else run rounds t

end Tokenizer

/-- **The tokens of a YAML text**, if it can be split into tokens. -/
def tokens? (text : List Char) : Option (List Token) :=
  if text.all isReadable then
    (Tokenizer.run (text.length + 1) { cursor := { rest := text } }).map Array.toList
  else none

end Yaml

end EmbeddedSql
