import EmbeddedSql.Span

/-!
# Host tags

The host language's own classification of a buffer: which spans are comments,
which are punctuation, and which belong to string literals. Everything else is
left untagged. Tags may come in any order and may overlap.
-/

namespace EmbeddedSql

/-- What the host language says about a span. -/
inductive HostKind where
  /-- A comment, its delimiters included. -/
  | comment
  /-- A bracket or separator. -/
  | punctuation
  /-- A fragment of a string literal. -/
  | string
deriving DecidableEq, Repr, Inhabited

/-- A span with what the host language says about it. -/
structure HostTag where
  /-- Where the tag is. -/
  span : Span
  /-- What is there. -/
  kind : HostKind
deriving DecidableEq, Repr, Inhabited

end EmbeddedSql
