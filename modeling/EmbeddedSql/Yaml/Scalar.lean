import EmbeddedSql.Yaml.Cursor
import EmbeddedSql.Yaml.Token

/-!
# Scalars as they are written

A scalar is written plainly, in quotes, or as an indented block. Line breaks
inside plain and quoted scalars are folded: one break reads as a space, and of
several the first is dropped. A literal block keeps its lines as they are.

Each reader takes a cursor and gives the text with the cursor behind it, or
nothing if the scalar is not well-formed.
-/

namespace EmbeddedSql

namespace Yaml

/-! ## Folding -/

/-- The blanks and breaks read since the last character of a scalar. -/
structure Fold where
  /-- Whether a line has ended. -/
  broken : Bool := false
  /-- The blanks, as long as no line has ended. -/
  blanks : List Char := []
  /-- The first break. -/
  leading : List Char := []
  /-- The breaks after the first. -/
  trailing : List Char := []

namespace Fold

/-- What the blanks and breaks read as. -/
def join (f : Fold) : List Char :=
  if f.broken then
    if f.leading.head? = some '\n' then
      if f.trailing.isEmpty then [' '] else f.trailing
    else f.leading ++ f.trailing
  else f.blanks

/-- One more blank. Those at the start of a line are dropped. -/
def addBlank (f : Fold) (c : Char) : Fold := if f.broken then f else { f with blanks := f.blanks ++ [c] }

/-- One more break. -/
def addBreak (f : Fold) (text : List Char) : Fold :=
  if f.broken then { f with trailing := f.trailing ++ text }
  else { f with broken := true, blanks := [], leading := text }

end Fold

/-- Reads blanks and breaks. In a plain scalar a tab may not stand where a
line is still indented less than `indent`. -/
def readBlanks (indent : Nat) (f : Fold) (c : Cursor) : Option (Fold × Cursor) :=
  match h : c.rest with
  | [] => some (f, c)
  | ch :: _ =>
    if isSpace ch then
      if f.broken && ch == '\t' && decide (c.column < indent) then none
      else
        have := Cursor.next_lt h
        readBlanks indent (f.addBlank ch) c.next
    else if isBreak ch then
      have := Cursor.newline_lt h
      readBlanks indent (f.addBreak c.breakText) c.newline
    else some (f, c)
termination_by c.rest.length

/-! ## Plain scalars -/

/-- Whether a character is one of the brackets, braces and the comma. -/
def isFlowMark (c : Char) : Bool := [',', '[', ']', '\x7b', '\x7d'].contains c

/-- How far a plain scalar reaches before the next gap: up to a colon with a
gap behind it and, inside brackets, up to a mark. A colon right before a mark
is an error there. -/
def plainRun? (inFlow : Bool) : List Char → Option Nat
  | [] => some 0
  | c :: cs =>
    if isSpace c || isBreak c then some 0
    else if inFlow && c == ':' && cs.head?.any fun d => isFlowMark d || d == '?' then none
    else if c == ':' && atGap cs then some 0
    else if inFlow && isFlowMark c then some 0
    else (plainRun? inFlow cs).map (· + 1)

/-- Reads a plain scalar run by run. `text` is what has been read and `f` the
blanks since; the result also says whether the scalar was left on a new line.
The number of rounds is bounded by the length of the text. -/
def plainFrom (inFlow : Bool) (indent : Nat) :
    Nat → List Char → Fold → Cursor → Option (List Char × Bool × Cursor)
  | 0, text, f, c => some (text, f.broken, c)
  | rounds + 1, text, f, c =>
    if c.atDocumentMark || c.rest.head? == some '#' then some (text, f.broken, c)
    else do
      let n ← plainRun? inFlow c.rest
      let text := if n = 0 then text else text ++ f.join ++ c.rest.take n
      let f := if n = 0 then f else {}
      let c := c.skip n
      if !c.rest.isEmpty && atGap c.rest then
        let (f, c) ← readBlanks indent f c
        if !inFlow && decide (c.column < indent) then return (text, f.broken, c)
        else plainFrom inFlow indent rounds text f c
      else return (text, f.broken, c)

/-- Reads a plain scalar, which goes on over lines indented by at least
`indent`. -/
def readPlain (inFlow : Bool) (indent : Nat) (c : Cursor) : Option (List Char × Bool × Cursor) :=
  plainFrom inFlow indent (c.rest.length + 1) [] {} c

/-! ## Quoted scalars -/

/-- The escapes of one letter in double quotes. -/
def quotedEscape? (c : Char) : Option Char :=
  [('0', '\x00'), ('a', '\x07'), ('b', '\x08'), ('t', '\t'), ('\t', '\t'), ('n', '\n'),
    ('v', '\x0B'), ('f', '\x0C'), ('r', '\r'), ('e', '\x1B'), (' ', ' '), ('"', '"'), ('/', '/'),
    ('\\', '\\'), ('N', '\u0085'), ('_', '\u00A0'), ('L', '\u2028'), ('P', '\u2029')].lookup c

/-- How many digits a numeric escape has. -/
def escapeDigits? (c : Char) : Option Nat := [('x', 2), ('u', 4), ('U', 8)].lookup c

/-- The value of a hexadecimal digit. -/
def hexDigitValue? (c : Char) : Option Nat :=
  if c.isDigit then some (c.toNat - 0x30)
  else if 'a' ≤ c ∧ c ≤ 'f' then some (c.toNat - 0x61 + 10)
  else if 'A' ≤ c ∧ c ≤ 'F' then some (c.toNat - 0x41 + 10)
  else none

/-- The character of a numeric escape. -/
def numericEscape? (digits : List Char) (n : Nat) : Option Char := do
  if digits.length ≠ n then none
  let value ← digits.foldlM (fun acc d => (hexDigitValue? d).map (acc * 16 + ·)) 0
  if value.isValidChar then some (Char.ofNat value) else none

/-- What a run of quoted text ends with. -/
inductive RunEnd where
  /-- A gap, or the closing quote. -/
  | plain
  /-- A break that is escaped, and so reads as nothing. -/
  | escapedBreak

/-- Reads quoted text up to a gap or the closing quote. -/
def quotedRun (single : Bool) : Nat → List Char → Cursor → Option (List Char × RunEnd × Cursor)
  | 0, _, _ => none
  | rounds + 1, text, c =>
    match c.rest with
    | [] => some (text, .plain, c)
    | ch :: cs =>
      if isSpace ch || isBreak ch then some (text, .plain, c)
      else if single then
        if ch == '\'' then
          if cs.head? == some '\'' then quotedRun single rounds (text ++ ['\'']) (c.skip 2)
          else some (text, .plain, c)
        else quotedRun single rounds (text ++ [ch]) c.next
      else if ch == '"' then some (text, .plain, c)
      else if ch == '\\' then
        match cs with
        | [] => none
        | e :: digits =>
          if isBreak e then some (text, .escapedBreak, c.next.newline)
          else
            match quotedEscape? e, escapeDigits? e with
            | some d, _ => quotedRun single rounds (text ++ [d]) (c.skip 2)
            | none, some n =>
              match numericEscape? (digits.take n) n with
              | some d => quotedRun single rounds (text ++ [d]) (c.skip (2 + n))
              | none => none
            | none, none => none
      else quotedRun single rounds (text ++ [ch]) c.next

/-- Reads quoted text run by run, up to its closing quote. -/
def quotedFrom (single : Bool) : Nat → List Char → Cursor → Option (List Char × Cursor)
  | 0, _, _ => none
  | rounds + 1, text, c =>
    if c.atDocumentMark || c.rest.isEmpty then none
    else do
      let (text, runEnd, c) ← quotedRun single (c.rest.length + 1) text c
      if c.rest.head? == some (if single then '\'' else '"') then return (text, c.next)
      let start : Fold := match runEnd with
        | .plain => {}
        | .escapedBreak => { broken := true }
      let (f, c) ← readBlanks 0 start c
      quotedFrom single rounds (text ++ f.join) c

/-- Reads a quoted scalar, the cursor being at its opening quote. -/
def readQuoted (single : Bool) (c : Cursor) : Option (List Char × Cursor) :=
  quotedFrom single (c.rest.length + 1) [] c.next

/-! ## Block scalars -/

/-- What becomes of the breaks at the end of a block. -/
inductive Chomping where
  /-- All are dropped. -/
  | strip
  /-- One is kept. -/
  | clip
  /-- All are kept. -/
  | keep
deriving DecidableEq

/-- The sign of a chomping indicator. -/
def chomping? (c : Char) : Option Chomping :=
  if c == '+' then some .keep else if c == '-' then some .strip else none

/-- The marks behind the sign of a block: chomping and indentation, in either
order. An indentation of zero is an error. -/
def blockHeader? (c : Cursor) : Option (Chomping × Option Nat × Cursor) :=
  let digit? (c : Cursor) : Option (Option Nat × Cursor) :=
    match c.rest with
    | d :: _ =>
      if d.isDigit then if d == '0' then none else some (some (d.toNat - 0x30), c.next)
      else some (none, c)
    | [] => some (none, c)
  match c.rest.head?.bind chomping? with
  | some ch => (digit? c.next).map fun (n, c) => (ch, n, c)
  | none => (digit? c).map fun (n, c) =>
    match n, c.rest.head?.bind chomping? with
    | some _, some ch => (ch, n, c.next)
    | _, _ => (.clip, n, c)

/-- Reads the breaks and the indentation before a line of a block. An
indentation of zero is not known yet: then all spaces count, and the widest
line seen is remembered. -/
def blockBreaks (indent : Nat) : Nat → Nat → List Char → Cursor → Option (Nat × List Char × Cursor)
  | 0, widest, breaks, c => some (widest, breaks, c)
  | rounds + 1, widest, breaks, c =>
    let spaces := (c.rest.takeWhile (· == ' ')).length
    let c := c.skip (if indent = 0 then spaces else min spaces (indent - c.column))
    let widest := max widest c.column
    if (indent == 0 || decide (c.column < indent)) && c.rest.head? == some '\t' then none
    else if c.atBreak then blockBreaks indent rounds widest (breaks ++ c.breakText) c.newline
    else some (widest, breaks, c)

/-- Reads the lines of a block. `leading` is the break that ended the line
before, `trailing` the empty lines since, and `blank` says whether that line
began with a blank. -/
def blockLines (folded : Bool) (indent : Nat) :
    Nat → List Char → List Char → List Char → Bool → Cursor →
      Option (List Char × List Char × List Char × Cursor)
  | 0, text, leading, trailing, _, c => some (text, leading, trailing, c)
  | rounds + 1, text, leading, trailing, blank, c =>
    if c.column = indent ∧ ¬ c.rest.isEmpty then do
      let nowBlank := c.rest.head?.any isSpace
      let joint :=
        if folded && leading.head? == some '\n' && !blank && !nowBlank then
          if trailing.isEmpty then [' '] else []
        else leading
      let line := c.rest.takeWhile fun ch => !isBreak ch
      let c := c.skip line.length
      let (leading, c') := if c.atBreak then (c.breakText, c.newline) else ([], c)
      let (_, breaks, c) ← blockBreaks indent (c'.rest.length + 1) 0 [] c'
      blockLines folded indent rounds (text ++ joint ++ trailing ++ line) leading breaks nowBlank c
    else some (text, leading, trailing, c)

/-- Reads a block scalar, the cursor being at its sign. `parent` is the
indentation around it, if there is one. -/
def readBlock (folded : Bool) (parent : Option Nat) (c : Cursor) : Option (List Char × Cursor) := do
  let (chomping, increment, c) ← blockHeader? c.next
  let c := c.skipWhile isSpace
  let c := if c.rest.head? == some '#' then c.skipLine else c
  if !c.rest.isEmpty && !c.atBreak then none
  let c := if c.atBreak then c.newline else c
  let given := increment.map fun n => parent.getD 0 + n
  let (widest, trailing, c) ← blockBreaks (given.getD 0) (c.rest.length + 1) 0 [] c
  let least := match parent with
    | some n => n + 1
    | none => 1
  let indent := given.getD (max widest least)
  let (text, leading, trailing, c) ←
    blockLines folded indent (c.rest.length + 1) [] [] trailing false c
  let tail := match chomping with
    | .strip => []
    | .clip => leading
    | .keep => leading ++ trailing
  return (text ++ tail, c)

end Yaml

end EmbeddedSql
