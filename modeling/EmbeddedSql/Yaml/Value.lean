import EmbeddedSql.Decimal
import EmbeddedSql.Yaml.Node

/-!
# Values

What the nodes of a document mean. A scalar that is written plainly is a
string only if it reads as nothing else: as null, a boolean, or a number. A
tag of a document's own stays with the value it is put on; of the standard
tags those of scalars say how the text is to be read.

Integers are 64-bit numbers of either sign. A plain scalar that is an integer
of up to 128 bits but does not fit is refused, and one that is larger still is
a number with a fraction.
-/

namespace EmbeddedSql

namespace Yaml

/-- A number with a fraction, or what stands in for one. -/
inductive Floating where
  /-- A finite number. -/
  | finite (negative : Bool) (magnitude : Binary64)
  /-- An infinity. -/
  | infinite (negative : Bool)
  /-- Not a number. -/
  | nan
deriving DecidableEq, Repr

/-- A value. -/
inductive Value where
  /-- Nothing. -/
  | null
  /-- A truth value. -/
  | bool (b : Bool)
  /-- An integer. -/
  | int (n : Int)
  /-- A number with a fraction. -/
  | float (f : Floating)
  /-- A text. -/
  | string (text : List Char)
  /-- Several values. -/
  | sequence (items : List Value)
  /-- Keys and their values, in the order in which they are written. -/
  | mapping (entries : List (Value × Value))
  /-- A value with a tag. -/
  | tagged (tag : List Char) (value : Value)

/-! ## Plain scalars -/

/-- Whether a text spells nothing. -/
def isNullText (text : List Char) : Bool :=
  ["null", "Null", "NULL", "~"].any (·.toList == text)

/-- The truth value that a text spells. -/
def boolOf? (text : List Char) : Option Bool :=
  if ["true", "True", "TRUE"].any (·.toList == text) then some true
  else if ["false", "False", "FALSE"].any (·.toList == text) then some false
  else none

/-- A text without the character in front of it, if it is that one. -/
def without (c : Char) (text : List Char) : List Char :=
  if text.head? == some c then text.tail else text

/-- Whether a text starts with a sign. -/
def isSigned (text : List Char) : Bool := text.head?.any fun c => c == '+' || c == '-'

/-- Whether a text is made of digits and still no number: several digits with
a zero in front. -/
def isPadded (text : List Char) : Bool :=
  match if isSigned text then text.tail else text with
  | '0' :: c :: cs => (c :: cs).all Char.isDigit
  | _ => false

/-- Reads digits of a base. There must be at least one. -/
def digitsOf? (base : Nat) (text : List Char) : Option Nat :=
  if text.isEmpty then none
  else text.foldlM (fun n c => do
    let d ← hexDigitValue? c
    if d < base then some (n * base + d) else none) 0

/-- The base that two characters announce, and the text behind them. -/
def announcedBase? : List Char → Option (Nat × List Char)
  | '0' :: 'x' :: rest => some (16, rest)
  | '0' :: 'o' :: rest => some (8, rest)
  | '0' :: 'b' :: rest => some (2, rest)
  | _ => none

/-- Reads a number without a sign, in the base that it announces. -/
def magnitude? (padded : Bool) (text : List Char) : Option Nat :=
  match announcedBase? text with
  | some (base, rest) => digitsOf? base rest
  | none => if padded then none else digitsOf? 10 text

/-- The integer that a text spells. -/
def integer? (text : List Char) : Option Int :=
  match text with
  | '-' :: rest => (magnitude? (isPadded text) rest).map fun n => -(n : Int)
  | _ => (magnitude? (isPadded text) (without '+' text)).map Int.ofNat

/-- Reads the places of an exponent. -/
def exponent? : List Char → Option Int
  | '-' :: digits => (digitsOf? 10 digits).map fun n => -(n : Int)
  | digits => (digitsOf? 10 (without '+' digits)).map Int.ofNat

/-- Reads a decimal: digits, perhaps with a point among them, and perhaps an
exponent. -/
def decimal? (text : List Char) : Option Decimal := do
  let whole := text.takeWhile Char.isDigit
  let rest := text.dropWhile Char.isDigit
  let (part, rest) := match rest with
    | '.' :: rest => (rest.takeWhile Char.isDigit, rest.dropWhile Char.isDigit)
    | _ => ([], rest)
  let coefficient ← digitsOf? 10 (whole ++ part)
  let exponent ← match rest with
    | [] => some 0
    | 'e' :: rest => exponent? rest
    | 'E' :: rest => exponent? rest
    | _ => none
  return ⟨coefficient, exponent - part.length⟩

/-- Whether a text spells an infinity. -/
def isInfinityText (text : List Char) : Bool :=
  [".inf", ".Inf", ".INF"].any (·.toList == text)

/-- The number with a fraction that a text spells. What is out of range is no
number. -/
def floating? (text : List Char) : Option Floating :=
  let bare := without '+' text
  if text.head? == some '+' && isSigned bare then none
  else if isInfinityText bare then some (.infinite false)
  else if text.head? == some '-' && isInfinityText text.tail then some (.infinite true)
  else if [".nan", ".NaN", ".NAN"].any (·.toList == text) then some .nan
  else
    let negative := bare.head? == some '-'
    (decimal? (without '-' bare)).bind fun d => d.nearest?.map (.finite negative)

/-- The integer values. What needs up to 128 bits and more than 64 is
refused. -/
inductive IntegerReading where
  /-- A value. -/
  | value (n : Int)
  /-- Refused. -/
  | refused
  /-- No integer at all. -/
  | other

/-- Reads an integer. -/
def integerReading (text : List Char) : IntegerReading :=
  match integer? text with
  | none => .other
  | some n =>
    if -Int.pow 2 63 ≤ n ∧ n < Int.pow 2 64 then .value n
    else if -Int.pow 2 127 ≤ n ∧ n < Int.pow 2 128 then .refused
    else .other

/-- The value of a plain scalar without a tag. -/
def plainValue? (text : List Char) : Option Value :=
  if text.isEmpty || isNullText text then some .null
  else match boolOf? text, integerReading text with
    | some b, _ => some (.bool b)
    | none, .value n => some (.int n)
    | none, .refused => none
    | none, .other =>
      if isPadded text then some (.string text)
      else some ((floating? text).elim (.string text) .float)

/-- Whether a text, written plainly, would be something else than itself. -/
def readsOtherwise (text : List Char) : Bool :=
  match plainValue? text with
  | some (.string _) => isPadded text
  | _ => true

/-! ## Tags -/

/-- A standard tag. -/
def standardTag (name : String) : Tag := .ofText ("tag:yaml.org,2002:" ++ name)

/-- Whether a document defines a tag for itself. -/
def isOwnTag (tag : Tag) : Bool := tag.head? == some 0x21

/-- A name without the exclamation mark in front of it, unless it is nothing
else. -/
def unmarked : List Char → List Char
  | '!' :: c :: rest => c :: rest
  | name => name

/-- The name of a tag that a document defines for itself. Up to two exclamation
marks in front of it do not count. A tag that is no text has no name. -/
def ownName? (tag : Option Tag) : Option (List Char) := do
  let tag ← tag
  if !isOwnTag tag then none
  let text ← String.fromUTF8? ⟨tag.toArray⟩
  return unmarked (unmarked text.toList)

/-- The value of a scalar whose tag gives it no name. -/
def scalarValue? (tag : Option Tag) (style : ScalarStyle) (text : List Char) : Option Value :=
  let untagged := if style = .plain then plainValue? text else some (.string text)
  match tag with
  | none => untagged
  | some tag =>
    if tag = standardTag "bool" then (boolOf? text).map .bool
    else if tag = standardTag "int" then
      match integerReading text with
      | .value n => some (.int n)
      | _ => none
    else if tag = standardTag "float" then (floating? text).map .float
    else if tag = standardTag "null" then if isNullText text then some .null else none
    else if isOwnTag tag then untagged
    else some (.string text)

/-! ## Equal keys -/

/-- Whether two numbers count as the same key: the two zeros do. -/
def Floating.sameKey : Floating → Floating → Bool
  | .finite s m, .finite t n => m == n && (s == t || m.mantissa == 0)
  | f, g => f == g

mutual

/-- Whether two values count as the same key. The order of a mapping does not
matter. -/
def Value.sameKey : Value → Value → Bool
  | .null, .null => true
  | .bool a, .bool b => a == b
  | .int a, .int b => a == b
  | .float a, .float b => a.sameKey b
  | .string a, .string b => a == b
  | .sequence as, .sequence bs => sameItems as bs
  | .mapping as, .mapping bs => as.length == bs.length && sameEntries as bs
  | .tagged s a, .tagged t b => s == t && a.sameKey b
  | _, _ => false

/-- Whether two lists of values are the same one by one. -/
def sameItems : List Value → List Value → Bool
  | [], [] => true
  | a :: as, b :: bs => a.sameKey b && sameItems as bs
  | _, _ => false

/-- Whether each entry of one mapping is one of the other. -/
def sameEntries : List (Value × Value) → List (Value × Value) → Bool
  | [], _ => true
  | (k, v) :: rest, entries =>
    entries.any (fun e => k.sameKey e.1 && v.sameKey e.2) && sameEntries rest entries

end

/-! ## Nodes -/

/-- Computes with a number of references that may still be followed. -/
abbrev Follows := StateT Nat Option

/-- Follows a reference to an anchor, if one more may be followed. -/
def Document.follow (d : Document) (anchor : Nat) : Follows Node := do
  match ← get with
  | 0 => failure
  | n + 1 =>
    set n
    liftM (d.target? anchor)

mutual

/-- The value of a node. `depth` bounds how far collections nest, and `fuel`
the depth of calls. -/
def valueOf (d : Document) : (fuel depth : Nat) → Node → Follows Value
  | 0, _, _ => failure
  | fuel + 1, depth, node => do
    match node with
    | .alias n => valueOf d fuel depth (← d.follow n)
    | .scalar tag style text =>
      match ownName? tag with
      | some name => .tagged name <$> liftM (scalarValue? none style text)
      | none => liftM (scalarValue? tag style text)
    | .sequence tag items =>
      let value ← .sequence <$> valuesOf d fuel depth items
      return (ownName? tag).elim value (.tagged · value)
    | .mapping tag entries =>
      let value ← .mapping <$> entriesOf d fuel depth [] entries
      return (ownName? tag).elim value (.tagged · value)

/-- The values of the items of a sequence. -/
def valuesOf (d : Document) : (fuel depth : Nat) → List Node → Follows (List Value)
  | fuel + 1, depth + 1, node :: rest => do
    let value ← valueOf d fuel depth node
    return value :: (← valuesOf d fuel (depth + 1) rest)
  | _, _ + 1, [] => return []
  | _, _, _ => failure

/-- The values of the entries of a mapping. No key may come twice. -/
def entriesOf (d : Document) :
    (fuel depth : Nat) → List (Value × Value) → List (Node × Node) → Follows (List (Value × Value))
  | fuel + 1, depth + 1, seen, (k, v) :: rest => do
    let key ← valueOf d fuel depth k
    if seen.any (·.1.sameKey key) then failure
    let value ← valueOf d fuel depth v
    entriesOf d fuel (depth + 1) (seen ++ [(key, value)]) rest
  | _, _ + 1, seen, [] => return seen
  | _, _, _, _ => failure

end

end Yaml

end EmbeddedSql
