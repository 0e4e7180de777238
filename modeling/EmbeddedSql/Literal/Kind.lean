/-!
# Kinds of literals

A quoted literal may be *verbatim* (no backslash escapes, a doubled quote
stands for one), *interpolated* (with holes, and doubled braces for braces),
and *raw* (no escapes at all), in any combination. A literal whose opening was
not understood is of no kind.
-/

namespace EmbeddedSql

/-- What is known about how a literal is written. -/
inductive LiteralKind where
  /-- Nothing. -/
  | unknown
  /-- It is quoted, and has or lacks each of the three traits. -/
  | quoted (verbatim interpolated raw : Bool)
deriving DecidableEq, Repr, Inhabited

namespace LiteralKind

/-- An ordinary quoted literal. -/
def plain : LiteralKind := quoted false false false

/-- A verbatim literal. -/
def verbatim : LiteralKind := quoted true false false

/-- An interpolated literal. -/
def interpolated : LiteralKind := quoted false true false

/-- A raw literal. -/
def raw : LiteralKind := quoted false false true

/-- Whether backslashes are ordinary characters and quotes are doubled. -/
def isVerbatim : LiteralKind → Bool
  | unknown => false
  | quoted v _ _ => v

/-- Whether the literal may have holes. -/
def isInterpolated : LiteralKind → Bool
  | unknown => false
  | quoted _ i _ => i

/-- Whether every character stands for itself. -/
def isRaw : LiteralKind → Bool
  | unknown => false
  | quoted _ _ r => r

/-- Whether nothing is known. -/
def isUnknown : LiteralKind → Bool
  | unknown => true
  | quoted .. => false

/-- Everything that is known of either kind. -/
def join : LiteralKind → LiteralKind → LiteralKind
  | unknown, k => k
  | k, unknown => k
  | quoted v i r, quoted v' i' r' => quoted (v || v') (i || i') (r || r')

/-- Whether all that is known of the second kind is known of the first. -/
def includes : LiteralKind → LiteralKind → Bool
  | _, unknown => true
  | unknown, quoted .. => false
  | quoted v i r, quoted v' i' r' => (v || !v') && (i || !i') && (r || !r')

/-- The kind as a number: one bit for being quoted and one for each trait. -/
def bits : LiteralKind → Nat
  | unknown => 0
  | quoted v i r => 1 + 2 * v.toNat + 4 * i.toNat + 8 * r.toNat

/-- The kind in words, its traits in a fixed order. -/
def text : LiteralKind → String
  | unknown => "Unknown"
  | quoted v i r =>
    " | ".intercalate (["Quoted"] ++ (if v then ["Verbatim"] else []) ++
      (if i then ["Interpolated"] else []) ++ (if r then ["Raw"] else []))

end LiteralKind

end EmbeddedSql
