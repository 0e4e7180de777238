import EmbeddedSql.Checked.Lexer
import EmbeddedSql.Checked.Literal
import EmbeddedSql.Report

/-!
# From a request to its report, checked

Tags are put back on the source with a running count of the units that the
characters before them take beyond the first. A token is moved by the count and
then grown by the corrections inside it, and what it grew by, a difference, is
added to the count. Directives are found in comments that may reach past the
buffer, by searching their units from both ends.

`report` is the whole way: it takes the request into the buffer, stitches the
literals, finds out which are enabled, and tags, clips and sorts.
-/

namespace EmbeddedSql

namespace Checked

open Utf16

/-! ## Tags -/

/-- Walks the corrections from an index on, as long as they lie before a bound
moved by what they have added. -/
def absorb (corrections : List Correction) (bound added next : Nat) : Option (Nat × Nat) :=
  if next < corrections.length then do
    let c ← corrections[next]?
    let limit ← add bound added
    if c.index < limit then
      let added ← add added c.skip
      let _ ← add next 1
      absorb corrections bound added (next + 1)
    else return (added, next)
  else some (added, next)
termination_by corrections.length - next

/-- A span of the content as a tag on a source in which the content starts at
`base`. -/
def tagAt (base : Nat) (category : Sql.Category) (escape : Bool) (s : Span) : Option SqlTag := do
  let s ← shift s base
  return ⟨s, category, escape⟩

/-- A span of the content, cut into its escapes and the rest. -/
def split (escapes : List Span) (base : Nat) (category : Sql.Category) (s : Span) :
    Option (List SqlTag) := do
  let whole ← normalize [s]
  let common ← commonParts whole escapes 0 0
  let marked ← common.mapM (tagAt base category true)
  let rest ← remainder escapes 0 whole
  let plain ← rest.mapM (tagAt base category false)
  return (marked ++ plain).mergeSort fun a b => decide (a.span.start ≤ b.span.start)

/-- The tags of tokens, from an index in the corrections on, the corrections
before it having added `skipped`. -/
def tagsFrom (corrections : List Correction) (escapes : List Span) (base skipped next : Nat) :
    List Sql.Token → Option (List SqlTag)
  | [] => some []
  | t :: rest =>
    if t.len = 0 ∨ t.category = .none then tagsFrom corrections escapes base skipped next rest
    else do
      let (skipped, next) ← absorb corrections t.start skipped next
      let start ← add t.start skipped
      let (len, next) ← absorb corrections start t.len next
      let grown ← sub len t.len
      let skipped ← add skipped grown
      let parts ← split escapes base t.category ⟨start, len⟩
      let more ← tagsFrom corrections escapes base skipped next rest
      return parts ++ more

/-- The tags of the tokens of a decoded content that starts at `base`. -/
def tagTokens (d : Decoded) (base : Nat) (tokens : List Sql.Token) : Option (List SqlTag) := do
  let escapes ← normalize ((d.corrections.filter Correction.isEscape).map Correction.span)
  tagsFrom d.corrections escapes base 0 0 tokens

/-! ## Directives -/

/-- The first index, from one on, where something else than a unit stands. -/
def firstOther (units : List CodeUnit) (u : CodeUnit) (i : Nat) : Option (Option Nat) :=
  if i < units.length then do
    let v ← units[i]?
    if v == u then
      let _ ← add i 1
      firstOther units u (i + 1)
    else return some i
  else some none
termination_by units.length - i

/-- The last index before `past`, and not before `first`, where something else
than a unit stands. -/
def lastOther (units : List CodeUnit) (u : CodeUnit) (first past : Nat) : Option (Option Nat) :=
  if first < past then do
    let i ← sub past 1
    let v ← units[i]?
    if v == u then lastOther units u first (past - 1) else return some i
  else some none
termination_by past

/-- The span from `first` to the last place before `past` where something else
than a unit stands. -/
def spanToOther (units : List CodeUnit) (u : CodeUnit) (first past : Nat) :
    Option (Option Span) := do
  let last ← lastOther units u first past
  match last with
  | none => return none
  | some last =>
    let past ← add last 1
    return some (Span.between first past)

/-- The content of a comment, relative to its start. -/
def commentContent (comment : List CodeUnit) : Option (Option Span) :=
  match comment with
  | a :: b :: _ =>
    if a == ascii '/' && b == ascii '/' then do
      let first ← firstOther comment (ascii '/') 2
      return first.map fun first => Span.between first comment.length
    else if a == ascii '/' && b == ascii '*' then do
      let first ← firstOther comment (ascii '*') 2
      match first with
      | none => return none
      | some first =>
        let past ← (if 4 ≤ comment.length ∧ [ascii '*', ascii '/'].isSuffixOf comment then
          sub comment.length 2 else some comment.length)
        spanToOther comment (ascii '*') first past
    else some none
  | _ => some none

/-- The directive of the comment at a span, if it holds one. -/
def directiveAt (b : Buffer) (s : Span) : Option (Option Directive) := do
  let comment ← slice b s
  let content ← commentContent comment
  match content with
  | none => return none
  | some content =>
    let content ← shift content s.start
    let units ← slice b content
    return Directive.ofText? (Utf16.decode units)

/-- The enabled spans, walking the comments in order. -/
def regionsFrom (b : Buffer) (last : Nat) (since : Option Nat) : List Span → Option (List Span)
  | [] => some (since.toList.map fun start => Span.between start last)
  | comment :: rest => do
    let directive ← directiveAt b comment
    match directive, since with
    | some .enableRegion, none =>
      let past ← stop comment
      regionsFrom b last (some past) rest
    | some .disableRegion, some start =>
      let past ← stop comment
      let more ← regionsFrom b last none rest
      return Span.between start past :: more
    | _, _ => regionsFrom b last since rest

/-- The positions where literals are highlighted by default. -/
def enabledRegions (b : Buffer) (index : TagIndex) (request : Span) (byDefault : Bool) :
    Option (List Span) := do
  let last ← stop request
  let comments ← spansOf index .comment (Span.between 0 last)
  let regions ← regionsFrom b last (if byDefault then some 0 else none) comments
  normalize regions

/-- What a comment right in front of a literal decides for it. -/
def inlineOverride (b : Buffer) (index : TagIndex) (literalStart : Nat) : Option (Option Bool) :=
  if literalStart = 0 then some none
  else do
    let before ← sub literalStart 1
    let comment ← firstComment index before
    match comment with
    | none => return none
    | some comment =>
      let directive ← directiveAt b comment
      match directive with
      | some .inlineEnable => return some true
      | some .inlineDisable => return some false
      | _ => return none

/-- Whether a literal with this first fragment is highlighted. -/
def isEnabled (b : Buffer) (index : TagIndex) (regions : List Span) (first : Span) :
    Option Bool := do
  let override ← inlineOverride b index first.start
  match override with
  | some on => return on
  | none => meets regions first

/-! ## Literals -/

/-- The head of a literal. -/
def headOf (style : LiteralStyle) (b : Buffer) (fragments : List Span) :
    Option (Except LiteralError LiteralHead) :=
  match fragments.head? with
  | none => some (.error .malformedHead)
  | some first => do
    let units ← slice b first
    readHead style units

/-- Decodes the parts of a content, up to the first that cannot be decoded. -/
def decodeAll (kind : LiteralKind) (b : Buffer) :
    List Span → Option (Except LiteralError (List (Nat × Decoded)))
  | [] => some (.ok [])
  | s :: rest => do
    let units ← slice b s
    let decoded ← decode kind units 0
    match decoded with
    | .error e => return .error e
    | .ok d =>
      let more ← decodeAll kind b rest
      return more.map ((s.start, d) :: ·)

/-- The tags of a part of a content, decoded. -/
def tagPart (part : Nat × Decoded) : Option (List SqlTag) := do
  let found ← tokens part.2.chars 0 0
  tagTokens part.2 part.1 found

/-- The tags of one literal, as a whole. -/
def tagLiteral (style : LiteralStyle) (b : Buffer) (fragments : List Span) :
    Option (Except LiteralError (List SqlTag)) := do
  let head ← headOf style b fragments
  match head with
  | .error e => return .error e
  | .ok head =>
    let content ← contentOf b head fragments
    match content with
    | .error e => return .error e
    | .ok content =>
      let decoded ← decodeAll head.kind b content
      match decoded with
      | .error e => return .error e
      | .ok decoded =>
        let tags ← decoded.mapM tagPart
        return .ok tags.flatten

/-! ## Reports -/

/-- The part of a tag inside a span. -/
def clip (request : Span) (t : SqlTag) : Option (Option SqlTag) := do
  let common ← inter t.span request
  return common.map fun s => { t with span := s }

/-- What one literal contributes to a report. -/
def contribution (h : Highlighter) (b : Buffer) (index : TagIndex) (regions : List Span)
    (request : Span) (literal : Literal) : Option Report :=
  match literal.fragments.head?, literal.fragments.getLast? with
  | some first, some last => do
    let past ← stop last
    let whole := Span.between first.start past
    let enabled ← isEnabled b index regions first
    if enabled then
      let tags ← tagLiteral h.style b literal.fragments
      match tags with
      | .ok tags =>
        let clipped ← tags.mapM (clip request)
        return { tags := clipped.filterMap fun t => t
                 recovered := literal.issue.toList.map (whole, ·) }
      | .error e =>
        -- The literal is named by its bounds where it is passed over.
        let _ ← stop whole
        return { skipped := [(whole, e)] }
    else return {}
  | _, _ => some {}

/-- **Highlights a request**, every operation checked. -/
def report (o : Overflow) (h : Highlighter) (b : Buffer) (index : TagIndex) (request : Span) :
    Option Report := do
  let common ← inter request b.full
  match common with
  | none => return {}
  | some request =>
    let literals ← literalsIn o b index request
    if literals.isEmpty then return {}
    else
      let regions ← enabledRegions b index request h.enabledByDefault
      let parts ← literals.mapM (contribution h b index regions request)
      let all := parts.foldr Report.append {}
      -- Tags are sorted by both bounds.
      let _ ← all.tags.mapM fun t => stop t.span
      return { all with tags := all.tags.mergeSort fun s t => decide (s.span ≤ t.span) }

end Checked

end EmbeddedSql
