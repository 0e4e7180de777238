/-!
# YAML tokens

What a YAML text says, one mark at a time. The marks that open and close block
collections are not written: they stand for changes of indentation.

A tag is kept as bytes, since escapes can put any bytes into it; the first zero
byte ends it.
-/

namespace EmbeddedSql

namespace Yaml

/-- How a scalar is written. -/
inductive ScalarStyle where
  | plain
  | singleQuoted
  | doubleQuoted
  | literal
  | folded
deriving DecidableEq, Repr

/-- The bytes of a tag. -/
abbrev Tag := List UInt8

/-- The bytes of a text. -/
def Tag.ofText (text : String) : Tag := text.toUTF8.toList

/-- A mark of a YAML text. -/
inductive Token where
  /-- The end of the text. -/
  | streamEnd
  /-- A version, `%YAML 1.2`. -/
  | version (major minor : Nat)
  /-- A handle for tags and what it stands for. -/
  | tagHandle (handle : List Char) (uri : Tag)
  /-- Three dashes. -/
  | documentStart
  /-- Three dots. -/
  | documentEnd
  /-- The indentation of a block sequence begins. -/
  | blockSequenceStart
  /-- The indentation of a block mapping begins. -/
  | blockMappingStart
  /-- An indentation ends. -/
  | blockEnd
  /-- An opening bracket. -/
  | flowSequenceStart
  /-- A closing bracket. -/
  | flowSequenceEnd
  /-- An opening brace. -/
  | flowMappingStart
  /-- A closing brace. -/
  | flowMappingEnd
  /-- The dash of an entry. -/
  | blockEntry
  /-- A comma. -/
  | flowEntry
  /-- A key begins. -/
  | key
  /-- A value begins. -/
  | value
  /-- A reference to an anchor. -/
  | alias (name : List Char)
  /-- An anchor. -/
  | anchor (name : List Char)
  /-- A tag, as a handle and the rest. -/
  | tag (handle : List Char) (suffix : Tag)
  /-- A scalar. -/
  | scalar (style : ScalarStyle) (text : List Char)
deriving DecidableEq, Repr

end Yaml

end EmbeddedSql
