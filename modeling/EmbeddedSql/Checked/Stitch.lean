import EmbeddedSql.Checked.Span
import EmbeddedSql.Literal.Stitch

/-!
# Looking up tags and stitching literals, checked

The walk over a buffer counts its own position up and down. Backward it takes
one from the position before each look, in the loop over the inside of a hole
and once more when the hole is crossed, and the only guards are the room that is
asked for around a hole and before a fragment. Forward it adds, and the guards
are on the other side. From one hole to the next, and from one fragment to the
next, the walk asks whether it has got on.

The depth of nesting in a hole is not counted in a word of 64 bits. It has a
signed word of 32 bits, and a hole with so many braces open at once that they do
not fit there has no meaning of its own: the walk is refused, or it goes on with
what is left of the count.
-/

namespace EmbeddedSql

namespace Checked

/-! ## Slices and look-ups -/

/-- The code units a span selects, both its bounds moved into the buffer. -/
def slice (b : Buffer) (s : Span) : Option (List CodeUnit) := do
  let past ← stop s
  cut b.units.toList (min s.start b.size) (min past b.size)

/-- Walks back from a tag while something before it reaches past a position. -/
def retreat (index : TagIndex) (pos scan : Nat) : Option Nat :=
  if 0 < scan then do
    let i ← sub scan 1
    let reach ← index.reach[i]?
    if pos < reach then retreat index pos (scan - 1) else return scan
  else some scan
termination_by scan

/-- The tags that share a position with a span, in order. -/
def query (index : TagIndex) (s : Span) : Option (List HostTag) := do
  let past ← stop (TagIndex.probe s)
  let last := index.startingBefore past
  if last = 0 then return []
  else
    let first ← retreat index s.start (min (index.startingBefore s.start) last)
    let candidates ← cut index.toList first last
    select (fun t => overlaps t.span (TagIndex.probe s)) candidates

/-- The tags at a position. -/
def tagsAt (index : TagIndex) (pos : Nat) : Option (List HostTag) := query index ⟨pos, 1⟩

/-- Whether a position is tagged with a kind. -/
def isKindAt (index : TagIndex) (pos : Nat) (kind : HostKind) : Option Bool := do
  let tags ← tagsAt index pos
  return tags.any fun t => t.kind == kind

/-- The positions of a kind of tag, for the tags that share a position with a
span. -/
def spansOf (index : TagIndex) (kind : HostKind) (s : Span) : Option (List Span) := do
  let tags ← query index s
  normalize ((tags.filter fun t => t.kind == kind).map HostTag.span)

/-- Whether a tag is of a string that stops past a position. -/
def reachesPast (pos : Nat) (t : HostTag) : Option Bool :=
  if t.kind == .string then do
    let past ← stop t.span
    return decide (pos < past)
  else some false

/-- The string tag over a position that starts first. -/
def nextString (index : TagIndex) (pos : Nat) : Option (Option Span) := do
  let tags ← tagsAt index pos
  let strings ← select (reachesPast pos) tags
  return strings.head?.map HostTag.span

/-- The later of two spans by stop, the second if they stop together. -/
def furthest (best : Option Span) (s : Span) : Option (Option Span) := do
  let past ← stop s
  match best with
  | none => return some s
  | some t =>
    let tStop ← stop t
    return if tStop ≤ past then some s else some t

/-- The string tag over a position that stops last. -/
def previousString (index : TagIndex) (pos : Nat) : Option (Option Span) := do
  let tags ← tagsAt index pos
  ((tags.filter fun t => t.kind == .string && decide (t.span.start ≤ pos)).map
    HostTag.span).foldlM furthest none

/-- The first comment over a position. -/
def firstComment (index : TagIndex) (pos : Nat) : Option (Option Span) := do
  let tags ← tagsAt index pos
  return (tags.find? fun t => t.kind == .comment).map HostTag.span

/-- Whether a brace that bounds or nests in a hole stands at a position. -/
def isHoleBrace (b : Buffer) (index : TagIndex) (pos : Nat) (brace : Char) : Option Bool :=
  if b.isAt pos brace then do
    let punctuation ← isKindAt index pos .punctuation
    if punctuation then
      let string ← isKindAt index pos .string
      return !string
    else return false
  else some false

/-! ## Growing a fragment -/

/-- Grows a span to the left, over string tags that touch it. -/
def extendBackward (index : TagIndex) (s : Span) : Option Span :=
  if 0 < s.start then do
    let before ← sub s.start 1
    let found ← previousString index before
    match found with
    | some prev =>
      if prev.start < s.start then
        let past ← stop s
        extendBackward index (Span.between prev.start past)
      else return s
    | none => return s
  else some s
termination_by s.start

/-- Grows a span to the right, over string tags that touch it. -/
def extendForward (b : Buffer) (index : TagIndex) (s : Span) : Option Span := do
  let past ← stop s
  if s.stop < b.size then
    let found ← nextString index past
    match found with
    | some next =>
      let _ ← stop next
      if s.stop < next.stop then extendForward b index (Span.between s.start next.stop)
      else return s
    | none => return s
  else return s
termination_by b.size - s.stop

/-- Grows a span on both sides. -/
def complete (b : Buffer) (index : TagIndex) (s : Span) : Option Span := do
  let left ← extendBackward index s
  let right ← extendForward b index s
  let past ← stop right
  return Span.between left.start past

/-! ## Crossing holes backward -/

/-- The opening brace that matches a closing one, looking to the left of a
position. -/
def matchBackward (o : Overflow) (b : Buffer) (index : TagIndex) (nesting : Int) (pos : Nat) :
    Option (Option Nat) :=
  if pos ≤ 2 then some none
  else do
    let before ← sub pos 1
    let opens ← isHoleBrace b index before '\x7b'
    if opens then
      let nesting ← o.fit (nesting - 1)
      if nesting = 0 then return some before else matchBackward o b index nesting (pos - 1)
    else
      let closes ← isHoleBrace b index before '\x7d'
      if closes then
        let nesting ← o.fit (nesting + 1)
        matchBackward o b index nesting (pos - 1)
      else matchBackward o b index nesting (pos - 1)
termination_by pos

/-- The fragment before the holes that end at a position. -/
def beforeHoles (o : Overflow) (b : Buffer) (index : TagIndex) (pos : Nat) :
    Option Stitch.Step := do
  let closes ← isHoleBrace b index pos '\x7d'
  if closes then
    let opening ← matchBackward o b index 1 pos
    match opening with
    | none => return .unresolvable
    | some first =>
      let before ← sub first 1
      let found ← previousString index before
      match found with
      | some prev =>
        let fragment ← extendBackward index prev
        return .fragment fragment
      | none =>
        if b.isAt before '\x7d' then
          if before < pos then beforeHoles o b index before else none
        else return .edge
  else return .edge
termination_by pos

/-- All fragments to the left of one, with whether a hole stopped the walk. -/
def walkBackward (o : Overflow) (b : Buffer) (index : TagIndex) (edge : Span) :
    Option (List Span × Bool) :=
  if 3 < edge.start then do
    let before ← sub edge.start 1
    let step ← beforeHoles o b index before
    match step with
    | .fragment prev =>
      if prev.start < edge.start then
        let more ← walkBackward o b index prev
        return (prev :: more.1, more.2)
      else none
    | .edge => return ([], false)
    | .unresolvable => return ([], true)
  else some ([], false)
termination_by edge.start

/-! ## Crossing holes forward -/

/-- The closing brace that matches an opening one, looking to the right of a
position. -/
def matchForward (o : Overflow) (b : Buffer) (index : TagIndex) (nesting : Int) (pos : Nat) :
    Option (Option Nat) := do
  let _ ← add pos 2
  if b.size ≤ pos + 2 then return none
  else
    let after ← add pos 1
    let closes ← isHoleBrace b index after '\x7d'
    if closes then
      let nesting ← o.fit (nesting - 1)
      if nesting = 0 then return some after else matchForward o b index nesting (pos + 1)
    else
      let opens ← isHoleBrace b index after '\x7b'
      if opens then
        let nesting ← o.fit (nesting + 1)
        matchForward o b index nesting (pos + 1)
      else matchForward o b index nesting (pos + 1)
termination_by b.size - pos

/-- The fragment behind the holes that start at a position. -/
def afterHoles (o : Overflow) (b : Buffer) (index : TagIndex) (pos : Nat) :
    Option Stitch.Step := do
  let opens ← isHoleBrace b index pos '\x7b'
  if opens then
    let closing ← matchForward o b index 1 pos
    match closing with
    | none => return .unresolvable
    | some last =>
      let after ← add last 1
      let found ← nextString index after
      match found with
      | some next =>
        let fragment ← extendForward b index next
        return .fragment fragment
      | none =>
        if b.isAt after '\x7b' then
          if pos < after ∧ after < b.size then afterHoles o b index after else none
        else return .edge
  else return .edge
termination_by b.size - pos

/-- All fragments to the right of one, with whether a hole stopped the walk. -/
def walkForward (o : Overflow) (b : Buffer) (index : TagIndex) (edge : Span) :
    Option (List Span × Bool) := do
  let past ← stop edge
  let _ ← add past 3
  if edge.stop + 3 < b.size then
    let step ← afterHoles o b index past
    match step with
    | .fragment next =>
      if edge.stop < next.stop then
        let more ← walkForward o b index next
        return (next :: more.1, more.2)
      else none
    | .edge => return ([], false)
    | .unresolvable => return ([], true)
  else return ([], false)
termination_by b.size - edge.stop

/-! ## Literals -/

/-- The fragments of one literal, in normal form, and whether a hole next to
them could not be crossed. -/
structure Literal where
  /-- The fragments, without the holes. -/
  fragments : List Span
  /-- Set if a hole could not be crossed. -/
  issue : Option LiteralError
deriving DecidableEq

/-- The literal that a span of string text belongs to. -/
def stitch (o : Overflow) (b : Buffer) (index : TagIndex) (seed : Span) : Option Literal := do
  let whole ← complete b index seed
  let before ← walkBackward o b index whole
  let after ← walkForward o b index whole
  let fragments ← normalize (whole :: before.1 ++ after.1)
  return ⟨fragments, if before.2 || after.2 then some .unresolvableSplit else none⟩

/-- The literals of a list of seeds, each literal once. -/
def stitchAll (o : Overflow) (b : Buffer) (index : TagIndex) (visited : List Span) :
    List Span → Option (List Literal)
  | [] => some []
  | seed :: rest => do
    let seen ← holds visited seed.start
    if seen then stitchAll o b index visited rest
    else
      let literal ← stitch o b index seed
      let visited ← normalize (visited ++ literal.fragments)
      let more ← stitchAll o b index visited rest
      return literal :: more

/-- The literals that reach into a request. -/
def literalsIn (o : Overflow) (b : Buffer) (index : TagIndex) (request : Span) : Option (List Literal) := do
  let seeds ← spansOf index .string request
  stitchAll o b index [] seeds

end Checked

end EmbeddedSql
