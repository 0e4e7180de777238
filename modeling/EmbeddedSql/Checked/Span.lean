import EmbeddedSql.SpanSet
import Mathlib.Algebra.Group.Int.Defs
import Mathlib.Algebra.Group.Nat.Defs

/-!
# Operations that can fail

The rest of this library counts in natural numbers. A sum is never too large
there, a difference that would be negative is zero, and looking past the end of
a list answers `none`. A machine is stricter: a sum must fit in a word of 64
bits, nothing can be taken from less than itself, and an index or a slice must
lie inside what it is taken from.

One count is kept apart, in a signed word of 32 bits. Whether a sum that does
not fit there is refused or loses its upper bits is not settled by a program but
by how it is built, so it is a parameter (`Overflow`).

Under `Checked` the way from a request to its report is written once more in
these stricter operations. Lists are read by index, loops count their indices
themselves, and every step that a machine could refuse is `none` when it would
be refused. So is a round of a loop that does not come closer to its end: most
rounds count an index on, and the others ask. Where a sum or a difference has
been checked and the loop goes on from it, it is written out again, so that one
can see the progress. Where a condition cuts an evaluation short, as in
`overlaps`, only what is evaluated can fail. A search by halving may look at any
element, so there every element has to pass.

This module has the operations on words, lists and spans, and those on sets of
spans, which are plain lists here.
-/

namespace EmbeddedSql

namespace Checked

/-! ## Words and slices -/

/-- A sum that fits in a word. -/
def add (a b : Nat) : Option Nat := if a + b < 2 ^ 64 then some (a + b) else none

/-- A difference that is not negative. -/
def sub (a b : Nat) : Option Nat := if b ≤ a then some (a - b) else none

/-- What becomes of a sum that does not fit in a signed word of 32 bits. -/
inductive Overflow where
  /-- Its lower bits are kept. -/
  | wraps
  /-- It is refused. -/
  | refuses
deriving DecidableEq, Repr

/-- The signed word with the lower 32 bits of an integer. -/
def wrap (n : Int) : Int := (n + 2 ^ 31) % 2 ^ 32 - 2 ^ 31

/-- A sum in a signed word of 32 bits. -/
def Overflow.fit (o : Overflow) (n : Int) : Option Int :=
  if -2 ^ 31 ≤ n ∧ n < 2 ^ 31 then some n
  else match o with
    | .wraps => some (wrap n)
    | .refuses => none

/-- The elements from one index up to another. -/
def cut {α : Type} (xs : List α) (i j : Nat) : Option (List α) :=
  if i ≤ j ∧ j ≤ xs.length then some ((xs.take j).drop i) else none

/-- The elements that pass a test, all of them tested. -/
def select {α : Type} (test : α → Option Bool) : List α → Option (List α)
  | [] => some []
  | x :: xs => do
    let keep ← test x
    let rest ← select test xs
    return if keep then x :: rest else rest

/-! ## Spans -/

/-- The position just past the last one. -/
def stop (s : Span) : Option Nat := add s.start s.len

/-- Whether a position lies in a span. -/
def contains (s : Span) (p : Nat) : Option Bool :=
  if s.start ≤ p then do
    let stop ← stop s
    return decide (p < stop)
  else some false

/-- Whether two spans share a position. -/
def overlaps (s t : Span) : Option Bool :=
  if s.isEmpty || t.isEmpty then some false
  else do
    let past ← stop t
    if s.start < past then
      let past ← stop s
      return decide (t.start < past)
    else return false

/-- The positions two spans share, if there are any. -/
def inter (s t : Span) : Option (Option Span) := do
  let sStop ← stop s
  let tStop ← stop t
  return if max s.start t.start < min sStop tStop then
    some (Span.between (max s.start t.start) (min sStop tStop)) else none

/-- The same span, moved to the right. -/
def shift (s : Span) (delta : Nat) : Option Span := do
  let start ← add s.start delta
  return ⟨start, s.len⟩

/-! ## Sets of spans -/

/-- Joins a growing span with the spans that follow it. -/
def coalesce (cur : Span) : List Span → Option (List Span)
  | [] => some [cur]
  | s :: rest => do
    let past ← stop cur
    if s.start ≤ past then
      let sStop ← stop s
      coalesce (Span.between cur.start (max past sStop)) rest
    else
      let more ← coalesce s rest
      return cur :: more

/-- The non-empty spans of a list, sorted and joined. -/
def normalize (spans : List Span) : Option (List Span) :=
  match (spans.filter fun s => !s.isEmpty).mergeSort fun s t => decide (s ≤ t) with
  | [] => some []
  | s :: rest => coalesce s rest

/-- The common parts of two lists of spans, from an index in each of them on. -/
def commonParts (as bs : List Span) (i j : Nat) : Option (List Span) :=
  if i < as.length ∧ j < bs.length then do
    let a ← as[i]?
    let b ← bs[j]?
    let common ← inter a b
    let aStop ← stop a
    let bStop ← stop b
    if aStop ≤ bStop then
      let _ ← add i 1
      let more ← commonParts as bs (i + 1) j
      return common.toList ++ more
    else
      let _ ← add j 1
      let more ← commonParts as bs i (j + 1)
      return common.toList ++ more
  else some []
termination_by (as.length - i) + (bs.length - j)

/-- The index of the first hole, from an index on, that stops past a position. -/
def skipPast (holes : List Span) (pos j : Nat) : Option Nat :=
  if j < holes.length then do
    let hole ← holes[j]?
    let past ← stop hole
    if past ≤ pos then
      let _ ← add j 1
      skipPast holes pos (j + 1)
    else return j
  else some j
termination_by holes.length - j

/-- What is left of a span from a cursor on. -/
def tailOf (s : Span) (cursor : Nat) : Option (List Span) := do
  let past ← stop s
  return if cursor < past then [Span.between cursor past] else []

/-- What is left of a span, from a cursor on, after the holes from an index on
are taken out of it. -/
def punch (s : Span) (holes : List Span) (cursor k : Nat) : Option (List Span) :=
  if k < holes.length then do
    let hole ← holes[k]?
    let past ← stop s
    if hole.start < past then
      let holeStop ← stop hole
      let _ ← add k 1
      let more ← punch s holes (max cursor holeStop) (k + 1)
      return (if cursor < hole.start then [Span.between cursor hole.start] else []) ++ more
    else tailOf s cursor
  else tailOf s cursor
termination_by holes.length - k

/-- What is left of a list of spans after the holes from an index on are taken
out. -/
def remainder (holes : List Span) (j : Nat) : List Span → Option (List Span)
  | [] => some []
  | s :: rest => do
    let j ← skipPast holes s.start j
    let parts ← punch s holes s.start j
    let more ← remainder holes j rest
    return parts ++ more

/-- The index of the first span that stops past a position. -/
def firstPast (spans : List Span) (p : Nat) : Option Nat := do
  let stops ← spans.mapM stop
  return bisect (fun i => stops[i]?.any (· ≤ p)) 0 stops.length

/-- Whether a position is in a set. -/
def holds (spans : List Span) (p : Nat) : Option Bool := do
  let i ← firstPast spans p
  match spans[i]? with
  | some s => contains s p
  | none => return false

/-- Whether a span shares a position with a set. -/
def meets (spans : List Span) (t : Span) : Option Bool := do
  let i ← firstPast spans t.start
  match spans[i]? with
  | some s => overlaps s t
  | none => return false

end Checked

end EmbeddedSql
