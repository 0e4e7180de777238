/-!
# Why a literal is not highlighted

Each reason concerns one literal only: the literal is passed over, or
highlighted in part, and the others are not affected.
-/

namespace EmbeddedSql

/-- A reason that a literal, or a part of it, is not highlighted. -/
inductive LiteralError where
  /-- The opening is none that the style of literals knows. -/
  | malformedHead
  /-- An escape sequence is unknown or cut short. The offset is that of its
  backslash, counted from the start of the decoded fragment. -/
  | malformedEscape (offset : Nat)
  /-- Nothing is left between the delimiters. -/
  | emptyAfterTrim
  /-- A hole has no matching brace, so the literal was cut there. -/
  | unresolvableSplit
deriving DecidableEq, Repr

namespace LiteralError

/-- The reason in words. -/
def message : LiteralError → String
  | malformedHead => "literal head is not a recognized string literal opening"
  | malformedEscape offset => s!"malformed escape sequence at offset {offset}"
  | emptyAfterTrim => "literal has no content after trimming its delimiters"
  | unresolvableSplit => "interpolation hole boundary could not be resolved"

end LiteralError

end EmbeddedSql
