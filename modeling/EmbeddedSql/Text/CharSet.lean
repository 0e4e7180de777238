import EmbeddedSql.Bisect

/-!
# Sets of characters

A property of characters that a standard gives as a table is kept as that
table: ranges of code points, in order. Membership looks at the one range that
could hold the character.
-/

namespace EmbeddedSql

/-- A set of characters, as ranges of code points in ascending order, both
ends included. -/
structure CharSet where
  /-- The ranges. -/
  ranges : Array (Nat × Nat)

namespace CharSet

/-- Whether a character is in the set. -/
def contains (s : CharSet) (c : Char) : Bool :=
  let n := c.toNat
  let i := bisect (fun i => s.ranges[i]?.any fun r => r.2 < n) 0 s.ranges.size
  s.ranges[i]?.any fun r => r.1 ≤ n

end CharSet

end EmbeddedSql
