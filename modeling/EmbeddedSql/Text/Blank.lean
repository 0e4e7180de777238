/-!
# Blank characters

The characters with the Unicode property *White_Space*. They separate SQL
tokens and are trimmed off comments and settings.
-/

namespace EmbeddedSql

/-- Whether a character is blank: a space of any width, a tab, or a line or
paragraph separator. -/
def isBlank (c : Char) : Bool :=
  let n := c.toNat
  decide (0x9 ≤ n ∧ n ≤ 0xD) || n == 0x20 || n == 0x85 || n == 0xA0 || n == 0x1680 ||
    decide (0x2000 ≤ n ∧ n ≤ 0x200A) || n == 0x2028 || n == 0x2029 || n == 0x202F ||
    n == 0x205F || n == 0x3000

/-- A text without the blank characters at its two ends. -/
def trimBlank (cs : List Char) : List Char :=
  ((cs.dropWhile isBlank).reverse.dropWhile isBlank).reverse

end EmbeddedSql
