import EmbeddedSql.Literal.Decoded
import EmbeddedSql.Sql.Token

/-!
# SQL tags

A token of decoded text becomes tags on the source: the token's characters are
traced back to the code units that spell them, and the units that belong to
escape sequences are marked apart from the rest, so a token is cut where an
escape begins or ends.

Tokens come in order, so the corrections of the decoded text are walked once
for all of them, with a cursor that only moves forward.
-/

namespace EmbeddedSql

/-- A span of the source with the SQL it belongs to. -/
structure SqlTag where
  /-- Where it is, in code units. -/
  span : Span
  /-- The sort of token it belongs to. -/
  category : Sql.Category
  /-- Whether it is an escape sequence of the literal. -/
  escape : Bool
deriving DecidableEq, Repr

namespace SqlTag

/-- The classification of a tag: `sql.keyword`, or `sql.keyword.escape`. -/
def classification (t : SqlTag) : String :=
  "sql." ++ t.category.name ++ if t.escape then ".escape" else ""

/-- The part of a tag inside a span. -/
def clip? (t : SqlTag) (request : Span) : Option SqlTag :=
  (t.span.inter? request).map fun s => { t with span := s }

end SqlTag

namespace Decoded

/-- A span of the decoded content, cut into its escapes and the rest, as tags
on a source in which the content starts at `base`. -/
def cut (d : Decoded) (base : Nat) (category : Sql.Category) (s : Span) : List SqlTag :=
  let whole := SpanSet.single s
  let marked := (whole.overlap d.escapes).toList.map fun t => SqlTag.mk (t.shift base) category true
  let plain := (whole.difference d.escapes).toList.map fun t =>
    SqlTag.mk (t.shift base) category false
  (marked ++ plain).mergeSort fun a b => decide (a.span.start ≤ b.span.start)

/-- The tags of tokens, from a cursor in the corrections on. Tokens without a
category and empty tokens give none and leave the cursor where it is. -/
def tagsFrom (d : Decoded) (base : Nat) (skipped : Nat) (ahead : List Correction) :
    List Sql.Token → List SqlTag
  | [] => []
  | t :: rest =>
    if t.len = 0 ∨ t.category = .none then d.tagsFrom base skipped ahead rest
    else
      let atStart := absorb t.start skipped ahead
      let atStop := absorb t.stop atStart.1 atStart.2
      d.cut base t.category (Span.between (t.start + atStart.1) (t.stop + atStop.1)) ++
        d.tagsFrom base atStop.1 atStop.2 rest

/-- **The tags of the tokens of a decoded content** that starts at `base`. -/
def tagTokens (d : Decoded) (base : Nat) (tokens : List Sql.Token) : List SqlTag :=
  d.tagsFrom base 0 d.corrections tokens

end Decoded

end EmbeddedSql
