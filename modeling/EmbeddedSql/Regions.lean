import EmbeddedSql.Directive
import EmbeddedSql.Host.Index

/-!
# Enabled regions

Directive comments divide a buffer into regions where literals are highlighted
and regions where they are not. A region begins and ends where the comment
that switches ends; before the first such comment a setting decides. The
comments are those before the end of the request, touching comments taken as
one, and a region that is still open reaches to that end.

A comment right in front of a literal overrides the region for that literal.
-/

namespace EmbeddedSql

namespace Regions

/-- The enabled spans, walking the comments in order. `since` is where the
region that is open began, if one is; what is open at the end reaches to
`stop`. -/
def walk (directive : Span → Option Directive) (stop : Nat) (since : Option Nat) :
    List Span → List Span
  | [] => since.toList.map fun start => Span.between start stop
  | comment :: rest =>
    match directive comment, since with
    | some .enableRegion, none => walk directive stop (some comment.stop) rest
    | some .disableRegion, some start =>
      Span.between start comment.stop :: walk directive stop none rest
    | _, _ => walk directive stop since rest

end Regions

/-- **The positions where literals are highlighted by default**, as far as a
request needs them. -/
def enabledRegions (b : Buffer) (index : TagIndex) (request : Span) (byDefault : Bool) : SpanSet :=
  let comments := index.spansOf .comment (Span.between 0 request.stop)
  SpanSet.ofSpans (Regions.walk (directiveAt? b) request.stop
    (if byDefault then some 0 else none) comments.toList)

/-- What a comment right in front of a literal decides for it. -/
def inlineOverride? (b : Buffer) (index : TagIndex) (literalStart : Nat) : Option Bool :=
  match literalStart with
  | 0 => none
  | pos + 1 =>
    match (index.firstComment? pos).bind (directiveAt? b) with
    | some .inlineEnable => some true
    | some .inlineDisable => some false
    | _ => none

end EmbeddedSql
