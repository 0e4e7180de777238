import EmbeddedSql.Buffer
import EmbeddedSql.Sql.Tag

/-!
# Echoing a buffer in colour

The text of a buffer is echoed with its tags in colour: what lies between tags
is written as it is, a tag in the colour of its category, underlined if it is
an escape. A tag that begins before the end of the one written last is left
out, so nothing is written twice.

The echo is a list of chunks first, and the codes of the terminal are put
around them afterwards: what the chunks say, put together, is the buffer.
-/

namespace EmbeddedSql

namespace Echo

/-- A stretch of text, with the tag it is written in. -/
structure Chunk where
  /-- The text. -/
  text : String
  /-- The category and whether it is an escape, if it is tagged. -/
  look : Option (Sql.Category × Bool)
deriving DecidableEq, Repr

/-- The chunks of a buffer from a position on. -/
def chunksFrom (b : Buffer) (pos : Nat) : List SqlTag → List Chunk
  | [] => [⟨b.text (Span.between pos b.size), none⟩]
  | t :: rest =>
    if t.span.start < pos then chunksFrom b pos rest
    else
      ⟨b.text (Span.between pos t.span.start), none⟩ ::
        ⟨b.text t.span, some (t.category, t.escape)⟩ :: chunksFrom b t.span.stop rest

/-- The chunks of a buffer. -/
def chunks (b : Buffer) (tags : List SqlTag) : List Chunk := chunksFrom b 0 tags

/-- The number of a category's colour among the 256 of a terminal. What has no
category has no colour. -/
def colour? : Sql.Category → Option Nat
  | .none => none
  | .comment => some 2
  | .identifier => some 14
  | .keyword => some 12
  | .number => some 10
  | .operator => some 7
  | .parameter => some 13
  | .string => some 3
  | .systemFunction => some 11

/-- A control sequence of the terminal. -/
def control (parameters : String) : String := "\x1b[" ++ parameters ++ "m"

/-- The control sequence that selects a category's colour, or the terminal's
own. -/
def foreground (c : Sql.Category) : String :=
  match colour? c with
  | some n => control s!"38;5;{n}"
  | none => control "39"

/-- A chunk with its control sequences. After a tag the attributes and the
colour are each reset. -/
def Chunk.render (c : Chunk) : String :=
  match c.look with
  | none => c.text
  | some (category, escape) =>
    foreground category ++ (if escape then control "4" else "") ++ c.text ++ control "0" ++ control "0"

end Echo

/-- **A buffer with its tags in colour.** -/
def echo (b : Buffer) (tags : List SqlTag) : String :=
  String.join ((Echo.chunks b tags).map Echo.Chunk.render)

end EmbeddedSql
