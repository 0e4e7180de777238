/-!
# SQL tokens

What a highlighter needs to know about a piece of SQL: which sort of thing it
is, and where it stands, counted in characters.
-/

namespace EmbeddedSql

namespace Sql

/-- The sort of a token. -/
inductive Category where
  /-- Blanks, and whatever is not recognized. It is never highlighted. -/
  | none
  /-- Line comments and block comments. -/
  | comment
  /-- Names, quoted or not. -/
  | identifier
  /-- Key words. -/
  | keyword
  /-- Numbers. -/
  | number
  /-- Operators and punctuation. -/
  | operator
  /-- Parameters: `$1`, `@name`, `:name`. -/
  | parameter
  /-- String constants. -/
  | string
  /-- Built-in functions. -/
  | systemFunction
deriving DecidableEq, Repr, Inhabited

namespace Category

/-- The name of a category in classifications and listings. -/
def name : Category → String
  | none => "none"
  | comment => "comment"
  | identifier => "identifier"
  | keyword => "keyword"
  | number => "number"
  | operator => "operator"
  | parameter => "parameter"
  | string => "string"
  | systemFunction => "system-function"

end Category

/-- A token, in characters. -/
structure Token where
  /-- Its sort. -/
  category : Category
  /-- The index of its first character. -/
  start : Nat
  /-- The number of its characters. -/
  len : Nat
deriving DecidableEq, Repr, Inhabited

/-- The index just past the last character of a token. -/
def Token.stop (t : Token) : Nat := t.start + t.len

end Sql

end EmbeddedSql
