import EmbeddedSql.Sql.Token
import EmbeddedSql.Sql.Words
import EmbeddedSql.Text.Blank
import EmbeddedSql.Text.Letter

/-!
# Splitting PostgreSQL into tokens

A highlighter must say something about every text, finished or not. So the
lexer never fails: it tiles its input with tokens, a character that starts
nothing is a token of its own without a category, and a string, a quoted name
or a comment that is not closed runs to the end.

The token at the head of a text is found by a list of rules, tried in order.
A rule looks at the first character and what follows it, and answers with a
category and a number of characters, or not at all.
-/

namespace EmbeddedSql

namespace Sql

/-! ## Quoted text and comments -/

/-- How far a block comment reaches, its nested comments included. `depth` is
the number of comments already open. -/
def blockCommentLen (depth : Nat) : List Char → Nat
  | [] => 0
  | [_] => 1
  | a :: b :: rest =>
    if a = '/' ∧ b = '*' then 2 + blockCommentLen (depth + 1) rest
    else if a = '*' ∧ b = '/' then
      if depth ≤ 1 then 2 else 2 + blockCommentLen (depth - 1) rest
    else 1 + blockCommentLen depth (b :: rest)

/-- How far a quoted text reaches, counted from after its opening quote and
with its closing quote. A doubled quote does not close it and, where the text
has backslash escapes, neither does a quote after a backslash. -/
def quotedLen (quote : Char) (backslash : Bool) : List Char → Nat
  | [] => 0
  | [_] => 1
  | c :: d :: rest =>
    if backslash ∧ c = '\\' then 2 + quotedLen quote backslash rest
    else if c = quote then
      if d = quote then 2 + quotedLen quote backslash rest else 1
    else 1 + quotedLen quote backslash (d :: rest)

/-- Where a text first occurs in another. -/
def occurrence? (sought : List Char) : List Char → Option Nat
  | [] => if sought.isEmpty then some 0 else none
  | c :: cs =>
    if sought.isPrefixOf (c :: cs) then some 0 else (occurrence? sought cs).map (· + 1)

/-! ## Words and tags -/

/-- Whether a character starts a word. -/
def startsWord (c : Char) : Bool := isAlphabetic c || c == '_'

/-- Whether a character continues a name or a tag. -/
def continuesName (c : Char) : Bool := isAlphabetic c || isDecimal c || c == '_'

/-- Whether a character continues a word, in which a dollar sign may stand. -/
def continuesWord (c : Char) : Bool := continuesName c || c == '$'

/-- The rest of the delimiter of a dollar-quoted text, after its first dollar
sign: an optional name and a second dollar sign. -/
def dollarTag? : List Char → Option (List Char)
  | [] => none
  | c :: cs =>
    if c = '$' then some ['$']
    else if startsWord c then
      if (cs.dropWhile continuesName).head? = some '$' then
        some (c :: cs.takeWhile continuesName ++ ['$'])
      else none
    else none

/-! ## Numbers -/

/-- How far a run of digits of another base reaches, underscores included,
after a leading zero and the letter of the base. -/
def radixLen? (letters : List Char) (digit : Char → Bool) : List Char → Option Nat
  | [] => none
  | x :: cs =>
    if letters.contains x then
      let run := (cs.takeWhile fun d => digit d || d == '_').length
      if run = 0 then none else some (1 + run)
    else none

/-- How far an exponent reaches: nothing unless it has a digit. -/
def exponentLen : List Char → Nat
  | [] => 0
  | e :: cs =>
    if e = 'e' ∨ e = 'E' then
      let sign := match cs with
        | s :: _ => if s = '+' ∨ s = '-' then 1 else 0
        | [] => 0
      let digits := ((cs.drop sign).takeWhile Char.isDigit).length
      if digits = 0 then 0 else 1 + sign + digits
    else 0

/-- How far a fraction reaches, its point included. -/
def fractionLen : List Char → Nat
  | [] => 0
  | p :: cs => if p = '.' then 1 + (cs.takeWhile Char.isDigit).length else 0

/-- How far a decimal number reaches after its first digit. -/
def decimalLen (cs : List Char) : Nat :=
  let whole := (cs.takeWhile fun d => d.isDigit || d == '_').length
  let fraction := fractionLen (cs.drop whole)
  whole + fraction + exponentLen (cs.drop (whole + fraction))

/-- Whether a character is a hexadecimal digit. -/
def isHexDigit (c : Char) : Bool :=
  c.isDigit || decide ('a' ≤ c ∧ c ≤ 'f') || decide ('A' ≤ c ∧ c ≤ 'F')

/-- How far a number reaches, if one starts here. -/
def numberLen? (c : Char) (cs : List Char) : Option Nat :=
  if c = '0' then
    match radixLen? ['x', 'X'] isHexDigit cs with
    | some n => some (1 + n)
    | none =>
      match radixLen? ['o', 'O'] (fun d => decide ('0' ≤ d ∧ d ≤ '7')) cs with
      | some n => some (1 + n)
      | none =>
        match radixLen? ['b', 'B'] (fun d => d == '0' || d == '1') cs with
        | some n => some (1 + n)
        | none => some (1 + decimalLen cs)
  else if c.isDigit then some (1 + decimalLen cs)
  else if c = '.' then
    let digits := (cs.takeWhile Char.isDigit).length
    if digits = 0 then none else some (1 + digits + exponentLen (cs.drop digits))
  else none

/-! ## Operators -/

/-- The characters that operators are made of. -/
def isOperatorChar (c : Char) : Bool :=
  ['+', '-', '*', '/', '<', '>', '=', '~', '!', '@', '#', '%', '^', '&', '|', '\x60', '?'].contains c

/-- The characters that are an operator on their own. -/
def isPunctuation (c : Char) : Bool := ['(', ')', ',', ';', '[', ']', '.', ':', '$'].contains c

/-- Whether a comment starts here. -/
def startsComment : List Char → Bool
  | '-' :: '-' :: _ => true
  | '/' :: '*' :: _ => true
  | _ => false

/-- How far an operator goes on. A comment ends it. -/
def operatorLen : List Char → Nat
  | [] => 0
  | c :: cs =>
    if isOperatorChar c && !startsComment (c :: cs) then 1 + operatorLen cs else 0

/-! ## The rules -/

/-- A category and a number of characters. -/
abbrev Lexeme := Category × Nat

/-- A run of blanks. -/
def blank? (c : Char) (cs : List Char) : Option Lexeme :=
  if isBlank c then some (.none, 1 + (cs.takeWhile isBlank).length) else none

/-- A comment, up to the end of the line or to the end of its block. -/
def comment? (c : Char) (cs : List Char) : Option Lexeme :=
  if c = '-' ∧ cs.head? = some '-' then some (.comment, 1 + (cs.takeWhile (· != '\n')).length)
  else if c = '/' ∧ cs.head? = some '*' then some (.comment, blockCommentLen 0 (c :: cs))
  else none

/-- A string constant or a quoted name without a letter in front. -/
def quoted? (c : Char) (cs : List Char) : Option Lexeme :=
  if c = '\'' then some (.string, 1 + quotedLen '\'' false cs)
  else if c = '"' then some (.identifier, 1 + quotedLen '"' false cs)
  else none

/-- The two colons of a cast. -/
def cast? (c : Char) (cs : List Char) : Option Lexeme :=
  if c = ':' ∧ cs.head? = some ':' then some (.operator, 2) else none

/-- A string constant or a quoted name with letters in front: `U&` for
Unicode escapes, `E` for backslash escapes, `B`, `X` and `N` for bits, bytes
and national characters. -/
def lettered? (c : Char) (cs : List Char) : Option Lexeme :=
  match cs with
  | [] => none
  | d :: rest =>
    if c.toUpper = 'U' ∧ d = '&' then
      match rest with
      | [] => none
      | q :: body =>
        if q = '\'' then some (.string, 3 + quotedLen '\'' false body)
        else if q = '"' then some (.identifier, 3 + quotedLen '"' false body)
        else none
    else if d = '\'' then
      if c.toUpper = 'E' then some (.string, 2 + quotedLen '\'' true rest)
      else if c.toUpper = 'B' ∨ c.toUpper = 'X' ∨ c.toUpper = 'N' then
        some (.string, 2 + quotedLen '\'' false rest)
      else none
    else none

/-- A dollar-quoted string constant, or a numbered parameter. The string ends
where its delimiter occurs again, or at the end of the text. -/
def dollar? (c : Char) (cs : List Char) : Option Lexeme :=
  if c = '$' then
    match dollarTag? cs with
    | some tag =>
      let body := cs.drop tag.length
      match occurrence? ('$' :: tag) body with
      | some n => some (.string, 2 * (1 + tag.length) + n)
      | none => some (.string, 1 + cs.length)
    | none =>
      let digits := (cs.takeWhile Char.isDigit).length
      if digits = 0 then none else some (.parameter, 1 + digits)
  else none

/-- A named parameter. -/
def parameter? (c : Char) (cs : List Char) : Option Lexeme :=
  if (c = ':' ∨ c = '@') ∧ cs.head?.any startsWord then
    some (.parameter, 1 + (cs.takeWhile continuesName).length)
  else none

/-- A number. -/
def number? (c : Char) (cs : List Char) : Option Lexeme :=
  (numberLen? c cs).map fun n => (.number, n)

/-- The category of a word. -/
def wordCategory (word : List Char) : Category :=
  if isKeyword word then .keyword else if isFunction word then .systemFunction else .identifier

/-- A word: a key word, a built-in function, or a name. -/
def word? (c : Char) (cs : List Char) : Option Lexeme :=
  if startsWord c then
    let tail := cs.takeWhile continuesWord
    some (wordCategory (c :: tail), 1 + tail.length)
  else none

/-- A run of operator characters. -/
def operator? (c : Char) (cs : List Char) : Option Lexeme :=
  if isOperatorChar c then some (.operator, 1 + operatorLen cs) else none

/-- A single character of punctuation. -/
def punctuation? (c : Char) (_ : List Char) : Option Lexeme :=
  if isPunctuation c then some (.operator, 1) else none

/-- The rules, in the order in which they are tried. -/
def rules : List (Char → List Char → Option Lexeme) :=
  [blank?, comment?, quoted?, cast?, lettered?, dollar?, parameter?, number?, word?, operator?,
    punctuation?]

/-- The token at the head of a text that is not empty. -/
def nextLexeme (c : Char) (cs : List Char) : Lexeme :=
  (rules.findSome? fun rule => rule c cs).getD (.none, 1)

/-- The tokens of a text whose first character has index `pos`. -/
def tokensFrom (pos : Nat) : List Char → List Token
  | [] => []
  | c :: cs =>
    let lexeme := nextLexeme c cs
    ⟨lexeme.1, pos, lexeme.2⟩ :: tokensFrom (pos + lexeme.2) (cs.drop (lexeme.2 - 1))
termination_by cs => cs.length

/-- **The tokens of a text**, which tile it. -/
def tokenize (text : List Char) : List Token := tokensFrom 0 text

end Sql

end EmbeddedSql
