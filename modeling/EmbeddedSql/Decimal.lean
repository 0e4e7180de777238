/-!
# Decimals and doubles

A number with a fraction is kept as a double, `m · 2^q` with `m < 2^53`, and is
written with as few decimal digits as read back as the same double. Both
directions are exact arithmetic on natural numbers: a decimal is rounded to
the nearest double, a tie going to the even one, and the digits of a double
are found by trying ever finer decimal grids until one of its two neighbours
on the grid reads back.
-/

namespace EmbeddedSql

/-- The decimal `coefficient · 10^exponent`. -/
structure Decimal where
  /-- The digits. -/
  coefficient : Nat
  /-- The place of the last digit. -/
  exponent : Int
deriving DecidableEq, Repr

/-- The double `mantissa · 2^exponent`. -/
structure Binary64 where
  /-- The bits. -/
  mantissa : Nat
  /-- The place of the last bit. -/
  exponent : Int
deriving DecidableEq, Repr

/-- A quotient, rounded to the nearest number. A tie goes to the even
neighbour. -/
def divHalfEven (num den : Nat) : Nat :=
  let q := num / den
  let r := 2 * (num % den)
  if r < den ∨ r = den ∧ q % 2 = 0 then q else q + 1

/-- How many digits a number has. -/
def digitCount (n : Nat) : Nat := (Nat.toDigits 10 n).length

/-- Scales a fraction down by a power. -/
def scaleDown (base : Nat) (exponent : Int) (fraction : Nat × Nat) : Nat × Nat :=
  (fraction.1 * base.pow (-exponent).toNat, fraction.2 * base.pow exponent.toNat)

namespace Binary64

/-- How many bits a mantissa has. -/
def width : Nat := 53

/-- The least place of a last bit. -/
def leastExponent : Int := -1074

/-- The greatest place of a last bit. -/
def greatestExponent : Int := 971

/-- Zero. -/
def zero : Binary64 := ⟨0, leastExponent⟩

/-- The double nearest to a positive fraction, unless it is out of range. -/
def nearest? (num den : Nat) : Option Binary64 :=
  let low := max ((num.log2 : Int) - den.log2 - width) leastExponent
  let cut (q : Int) : Nat × Nat := scaleDown 2 q (num, den)
  let q := if Nat.pow 2 width ≤ (cut low).1 / (cut low).2 then low + 1 else low
  let m := divHalfEven (cut q).1 (cut q).2
  let rounded : Binary64 := if m = Nat.pow 2 width then ⟨m / 2, q + 1⟩ else ⟨m, q⟩
  if rounded.exponent ≤ greatestExponent then some rounded else none

/-- A double as a fraction. -/
def fraction (b : Binary64) : Nat × Nat :=
  (b.mantissa * Nat.pow 2 b.exponent.toNat, Nat.pow 2 (-b.exponent).toNat)

end Binary64

/-- A power of ten beyond the reciprocal of every double but zero. -/
def Decimal.reach : Nat := 330

/-- The double nearest to a decimal, unless it is out of range. -/
def Decimal.nearest? (d : Decimal) : Option Binary64 :=
  let order := digitCount d.coefficient + d.exponent
  if d.coefficient = 0 ∨ order < -(Decimal.reach : Int) then some .zero
  else if (Decimal.reach : Int) < order then none
  else
    let (num, den) := scaleDown 10 (-d.exponent) (d.coefficient, 1)
    Binary64.nearest? num den

namespace Binary64

/-- How many digits suffice for every double to read back. -/
def sufficientDigits : Nat := 17

/-- The two decimals of `n` digits between which a double lies, the nearer one
first. A tie goes to the even one. -/
def neighbours (b : Binary64) (n : Nat) : List Decimal :=
  let (num, den) := b.fraction
  let order : Int := (digitCount (num * Nat.pow 10 Decimal.reach / den) : Int) - Decimal.reach
  let place := order - n
  let (num, den) := scaleDown 10 place (num, den)
  let low : Decimal := ⟨num / den, place⟩
  let high : Decimal := ⟨num / den + 1, place⟩
  if divHalfEven num den = num / den then [low, high] else [high, low]

/-- **The shortest decimal that reads back** as a double. -/
def shortest (b : Binary64) : Decimal :=
  if b.mantissa = 0 then ⟨0, 0⟩
  else
    let found := (List.range sufficientDigits).findSome? fun n =>
      (b.neighbours (n + 1)).find? fun d => d.nearest? == some b
    match found with
    | some d => if d.coefficient % 10 = 0 then ⟨d.coefficient / 10, d.exponent + 1⟩ else d
    | none => ⟨0, 0⟩

end Binary64

end EmbeddedSql
