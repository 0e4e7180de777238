import EmbeddedSql.Literal.Head
import EmbeddedSql.Literal.Stitch
import EmbeddedSql.Regions
import EmbeddedSql.Sql.Lexer
import EmbeddedSql.Sql.Tag

/-!
# Highlighting a request

A request names a span of a buffer. Every literal that reaches into it and is
enabled is highlighted as a whole, and the tags are cut to the request. A
literal is highlighted fragment by fragment: its delimiters are taken off, and
each fragment is decoded and split into tokens on its own. If any fragment
cannot be decoded the literal is passed over, and the report says why; the
other literals are not affected.
-/

namespace EmbeddedSql

/-! ## The content of a literal -/

/-- Whether a span ends with the closing delimiter of a literal. -/
def endsWithClosing (b : Buffer) (head : LiteralHead) (s : Span) : Bool :=
  let units := b.slice s
  decide (head.closingLen ≤ units.length) &&
    (units.drop (units.length - head.closingLen)).all (· == Utf16.ascii '"')

/-- A fragment without the delimiters it holds, if anything is left. -/
def trimFragment? (b : Buffer) (head : LiteralHead) (isFirst isLast : Bool) (s : Span) :
    Option Span :=
  let start := if isFirst then s.start + head.openingLen else s.start
  let stop := if isLast && endsWithClosing b head s then s.stop - head.closingLen else s.stop
  if start < stop then some (Span.between start stop) else none

/-- **The content of a literal**: its fragments without the delimiters. The
closing delimiter is taken off only where it stands, so a literal that is not
closed keeps its tail. -/
def contentOf (b : Buffer) (head : LiteralHead) (fragments : List Span) :
    Except LiteralError (List Span) :=
  let content := fragments.zipIdx.filterMap fun (s, i) =>
    trimFragment? b head (i == 0) (i + 1 == fragments.length) s
  if content.isEmpty then .error .emptyAfterTrim else .ok content

/-- The head of a stitched literal. -/
def headOf (style : LiteralStyle) (b : Buffer) (literal : StitchedLiteral) :
    Except LiteralError LiteralHead :=
  match literal.fragments.first? with
  | none => .error .malformedHead
  | some first => style.readHead (b.slice first)

/-- **The tags of one literal**, as a whole. Every fragment is decoded before
any is split into tokens, so the first that fails is the one reported. -/
def tagLiteral (style : LiteralStyle) (b : Buffer) (literal : StitchedLiteral) :
    Except LiteralError (List SqlTag) := do
  let head ← headOf style b literal
  let content ← contentOf b head literal.fragments.toList
  let decoded ← content.mapM fun s => (Decoded.ofUnits head.kind (b.slice s)).map (s.start, ·)
  return decoded.flatMap fun (base, d) => d.tagTokens base (Sql.tokenize d.chars)

/-! ## Reports -/

/-- The outcome of a request. -/
structure Report where
  /-- The tags, by start and then by stop. -/
  tags : List SqlTag := []
  /-- The enabled literals that were passed over, with the reason. -/
  skipped : List (Span × LiteralError) := []
  /-- The literals that were highlighted although the walk across their holes
  was cut short. -/
  recovered : List (Span × LiteralError) := []
deriving DecidableEq, Repr

/-- Two reports, one after the other. -/
def Report.append (r s : Report) : Report :=
  ⟨r.tags ++ s.tags, r.skipped ++ s.skipped, r.recovered ++ s.recovered⟩

/-- How buffers are highlighted. -/
structure Highlighter where
  /-- Whether literals before the first directive are highlighted. -/
  enabledByDefault : Bool := true
  /-- The openings of literals. -/
  style : LiteralStyle := .csharp

namespace Highlighter

/-- Whether a literal with this first fragment is highlighted: a comment right
in front of it decides, and otherwise the region it begins in. -/
def isEnabled (b : Buffer) (index : TagIndex) (regions : SpanSet) (first : Span) : Bool :=
  (inlineOverride? b index first.start).getD (regions.meets first)

/-- What one literal contributes to a report. -/
def contribution (h : Highlighter) (b : Buffer) (index : TagIndex) (regions : SpanSet)
    (request : Span) (literal : StitchedLiteral) : Report :=
  match literal.fragments.first? with
  | none => {}
  | some first =>
    let whole := literal.hull?.getD first
    if isEnabled b index regions first then
      match tagLiteral h.style b literal with
      | .ok tags =>
        { tags := tags.filterMap (·.clip? request)
          recovered := literal.issue.toList.map (whole, ·) }
      | .error e => { skipped := [(whole, e)] }
    else {}

/-- **Highlights a request.** The part of a request outside the buffer counts
for nothing. -/
def report (h : Highlighter) (b : Buffer) (index : TagIndex) (request : Span) : Report :=
  match request.inter? b.full with
  | none => {}
  | some request =>
    let regions := enabledRegions b index request h.enabledByDefault
    let all := ((literalsIn b index request).map
      (h.contribution b index regions request)).foldr Report.append {}
    { all with tags := all.tags.mergeSort fun s t => decide (s.span ≤ t.span) }

end Highlighter

end EmbeddedSql
