import EmbeddedSql.Buffer
import EmbeddedSql.Host.Index
import EmbeddedSql.Literal.Error

/-!
# Stitching fragments into literals

Host tags show an interpolated literal as fragments with holes between them,
and nothing says which fragments belong together. They are found by walking:
from a fragment, across the braces of a hole to the fragment on the other
side, first backward and then forward, until no hole is next to the fragment
reached. A brace counts only if it is tagged as punctuation and not as part of
a string, so what is written inside a literal never misleads the walk.

A hole whose brace has no match, or too little room around it to be one, ends
the walk on that side, and the literal is marked as cut.

How deep the braces of a hole nest is counted here without a bound. A machine
has a signed word of 32 bits for it, and that holds every depth there can be in
a buffer of up to `2 ^ 31` code units. This is the size up to which the walk
here is the walk of a machine, whatever its word does with a sum that does not
fit. `Checked` has the walk with that word, for buffers of any size.
-/

namespace EmbeddedSql

/-- The fragments of one literal. -/
structure StitchedLiteral where
  /-- The fragments, without the holes. -/
  fragments : SpanSet
  /-- Set if a hole next to a fragment could not be crossed. -/
  issue : Option LiteralError
deriving DecidableEq

/-- The span from the first fragment to the last. -/
def StitchedLiteral.hull? (l : StitchedLiteral) : Option Span := l.fragments.hull?

namespace Stitch

/-- What lies beyond a fragment. -/
inductive Step where
  /-- Nothing that belongs to the literal. -/
  | edge
  /-- Another fragment. -/
  | fragment (s : Span)
  /-- A hole that cannot be crossed. -/
  | unresolvable
deriving DecidableEq, Repr

/-- Whether a brace that bounds or nests in a hole stands at a position. -/
def isHoleBrace (b : Buffer) (index : TagIndex) (pos : Nat) (brace : Char) : Bool :=
  b.isAt pos brace && index.isKindAt pos .punctuation && !index.isKindAt pos .string

/-! ## Growing a fragment -/

/-- Grows a span to the left, over string tags that touch it. -/
def extendBackward (index : TagIndex) (s : Span) : Span :=
  if 0 < s.start then
    match index.previousString? (s.start - 1) with
    | some prev =>
      if prev.start < s.start then extendBackward index (Span.between prev.start s.stop) else s
    | none => s
  else s
termination_by s.start

/-- Grows a span to the right, over string tags that touch it. -/
def extendForward (b : Buffer) (index : TagIndex) (s : Span) : Span :=
  if s.stop < b.size then
    match index.nextString? s.stop with
    | some next =>
      if s.stop < next.stop then extendForward b index (Span.between s.start next.stop) else s
    | none => s
  else s
termination_by b.size - s.stop
decreasing_by simp only [Span.stop_between]; omega

/-- Grows a span on both sides. -/
def complete (b : Buffer) (index : TagIndex) (s : Span) : Span :=
  Span.between (extendBackward index s).start (extendForward b index s).stop

theorem start_extendBackward_le (index : TagIndex) (s : Span) :
    (extendBackward index s).start ≤ s.start := by
  fun_induction extendBackward index s with
  | case1 s _ prev _ hlt ih => exact Nat.le_trans ih (Nat.le_of_lt hlt)
  | case2 => exact Nat.le_refl _
  | case3 => exact Nat.le_refl _
  | case4 => exact Nat.le_refl _

theorem stop_le_extendForward (b : Buffer) (index : TagIndex) (s : Span) :
    s.stop ≤ (extendForward b index s).stop := by
  fun_induction extendForward b index s with
  | case1 s _ next _ hlt ih =>
    refine Nat.le_trans (Nat.le_of_lt hlt) (Nat.le_trans ?_ ih)
    rw [Span.stop_between]
    omega
  | case2 => exact Nat.le_refl _
  | case3 => exact Nat.le_refl _
  | case4 => exact Nat.le_refl _

/-! ## Crossing holes backward -/

/-- The opening brace that matches a closing one, looking to the left of a
position. Room is needed for at least a marker and a quote before it. `nesting`
is the number of open braces, a word of 32 bits in a buffer of up to `2 ^ 31`
code units. -/
def matchBackward (b : Buffer) (index : TagIndex) (nesting : Nat) : Nat → Option Nat
  | 0 => none
  | pos + 1 =>
    if pos < 2 then none
    else if isHoleBrace b index pos '\x7b' then
      if nesting ≤ 1 then some pos else matchBackward b index (nesting - 1) pos
    else if isHoleBrace b index pos '\x7d' then matchBackward b index (nesting + 1) pos
    else matchBackward b index nesting pos

theorem matchBackward_lt {b : Buffer} {index : TagIndex} {nesting pos first : Nat}
    (h : matchBackward b index nesting pos = some first) : first < pos := by
  induction pos generalizing nesting with
  | zero => simp [matchBackward] at h
  | succ pos ih =>
    unfold matchBackward at h
    split at h
    · simp at h
    · split at h
      · split at h
        · cases h; omega
        · exact Nat.lt_succ_of_lt (ih h)
      · split at h
        · exact Nat.lt_succ_of_lt (ih h)
        · exact Nat.lt_succ_of_lt (ih h)

/-- The fragment before the holes that end at a position. Between two holes
there may be nothing. A block of code before a literal is not a hole of it:
what precedes its opening brace is no string. -/
def beforeHoles (b : Buffer) (index : TagIndex) (pos : Nat) : Step :=
  if isHoleBrace b index pos '\x7d' then
    match h : matchBackward b index 1 pos with
    | none => .unresolvable
    | some first =>
      have := matchBackward_lt h
      match index.previousString? (first - 1) with
      | some prev => .fragment (extendBackward index prev)
      | none => if b.isAt (first - 1) '\x7d' then beforeHoles b index (first - 1) else .edge
  else .edge
termination_by pos

theorem start_le_of_beforeHoles {b : Buffer} {index : TagIndex} {pos : Nat} {s : Span}
    (h : beforeHoles b index pos = .fragment s) : s.start ≤ pos := by
  fun_induction beforeHoles b index pos with
  | case1 => simp at h
  | case2 pos _ first hfirst h₁ prev hprev =>
    cases h
    have h₂ := TagIndex.start_le_of_previousString? hprev
    have h₃ := start_extendBackward_le index prev
    omega
  | case3 pos _ first hfirst h₁ _ _ ih =>
    have h₂ := ih h
    omega
  | case4 => simp at h
  | case5 => simp at h

/-- All fragments to the left of one, with whether a hole stopped the walk.
Room is needed for a marker, a quote and two braces. -/
def walkBackward (b : Buffer) (index : TagIndex) (edge : Span) : List Span × Bool :=
  if 3 < edge.start then
    match h : beforeHoles b index (edge.start - 1) with
    | .fragment prev =>
      have := start_le_of_beforeHoles h
      let (more, cut) := walkBackward b index prev
      (prev :: more, cut)
    | .edge => ([], false)
    | .unresolvable => ([], true)
  else ([], false)
termination_by edge.start

/-! ## Crossing holes forward -/

/-- The closing brace that matches an opening one, looking to the right of a
position. Room is needed for at least a quote behind it. `nesting` is the number
of open braces, a word of 32 bits in a buffer of up to `2 ^ 31` code units. -/
def matchForward (b : Buffer) (index : TagIndex) (nesting pos : Nat) : Option Nat :=
  if pos + 2 < b.size then
    if isHoleBrace b index (pos + 1) '\x7d' then
      if nesting ≤ 1 then some (pos + 1) else matchForward b index (nesting - 1) (pos + 1)
    else if isHoleBrace b index (pos + 1) '\x7b' then matchForward b index (nesting + 1) (pos + 1)
    else matchForward b index nesting (pos + 1)
  else none
termination_by b.size - pos

theorem lt_of_matchForward {b : Buffer} {index : TagIndex} {nesting pos last : Nat}
    (h : matchForward b index nesting pos = some last) : pos < last ∧ last + 1 < b.size := by
  fun_induction matchForward b index nesting pos with
  | case1 nesting pos hroom => cases h; omega
  | case2 nesting pos _ _ _ ih => have := ih h; omega
  | case3 nesting pos _ _ _ ih => have := ih h; omega
  | case4 nesting pos _ _ _ ih => have := ih h; omega
  | case5 => simp at h

/-- The fragment behind the holes that start at a position. -/
def afterHoles (b : Buffer) (index : TagIndex) (pos : Nat) : Step :=
  if isHoleBrace b index pos '\x7b' then
    match h : matchForward b index 1 pos with
    | none => .unresolvable
    | some last =>
      have := lt_of_matchForward h
      match index.nextString? (last + 1) with
      | some next => .fragment (extendForward b index next)
      | none => if b.isAt (last + 1) '\x7b' then afterHoles b index (last + 1) else .edge
  else .edge
termination_by b.size - pos

theorem lt_stop_of_afterHoles {b : Buffer} {index : TagIndex} {pos : Nat} {s : Span}
    (h : afterHoles b index pos = .fragment s) : pos < s.stop := by
  fun_induction afterHoles b index pos with
  | case1 => simp at h
  | case2 pos _ last hlast h₁ next hnext =>
    cases h
    have h₂ := TagIndex.lt_stop_of_nextString? hnext
    have h₃ := stop_le_extendForward b index next
    omega
  | case3 pos _ last hlast h₁ _ _ ih =>
    have h₂ := ih h
    omega
  | case4 => simp at h
  | case5 => simp at h

/-- All fragments to the right of one, with whether a hole stopped the walk.
Room is needed for two braces and a quote. -/
def walkForward (b : Buffer) (index : TagIndex) (edge : Span) : List Span × Bool :=
  if edge.stop + 3 < b.size then
    match h : afterHoles b index edge.stop with
    | .fragment next =>
      have := lt_stop_of_afterHoles h
      let (more, cut) := walkForward b index next
      (next :: more, cut)
    | .edge => ([], false)
    | .unresolvable => ([], true)
  else ([], false)
termination_by b.size - edge.stop

end Stitch

/-- **The literal that a span of string text belongs to.** -/
def stitch (b : Buffer) (index : TagIndex) (seed : Span) : StitchedLiteral :=
  let whole := Stitch.complete b index seed
  let (before, cutBefore) := Stitch.walkBackward b index whole
  let (after, cutAfter) := Stitch.walkForward b index whole
  ⟨SpanSet.ofSpans (whole :: before ++ after),
    if cutBefore || cutAfter then some .unresolvableSplit else none⟩

/-- The literals of a list of seeds, each literal once. -/
def stitchAll (b : Buffer) (index : TagIndex) (visited : SpanSet) :
    List Span → List StitchedLiteral
  | [] => []
  | seed :: rest =>
    if visited.contains seed.start then stitchAll b index visited rest
    else
      let literal := stitch b index seed
      literal :: stitchAll b index (visited.union literal.fragments) rest

/-- **The literals that reach into a request**, in the order in which they are
first met. -/
def literalsIn (b : Buffer) (index : TagIndex) (request : Span) : List StitchedLiteral :=
  stitchAll b index .empty (index.spansOf .string request).toList

end EmbeddedSql
