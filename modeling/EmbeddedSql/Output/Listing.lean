import EmbeddedSql.Sql.Tag

/-!
# Listing tags

Tags as a JSON array of objects, one field a line, indented by two spaces. An
empty array takes no line of its own. No text in a listing needs escaping: the
only strings are the names of categories.
-/

namespace EmbeddedSql

namespace Listing

/-- One tag, indented as a member of the array. -/
def tag (t : SqlTag) : String :=
  "  \x7b\n" ++
    ",\n".intercalate
      [s!"    \"start\": {t.span.start}", s!"    \"length\": {t.span.len}",
        "    \"category\": \"" ++ t.category.name ++ "\"",
        "    \"escape\": " ++ (if t.escape then "true" else "false")] ++
    "\n  \x7d"

end Listing

/-- **The listing of some tags**, with a line break at its end. -/
def listing (tags : List SqlTag) : String :=
  if tags.isEmpty then "[]\n" else "[\n" ++ ",\n".intercalate (tags.map Listing.tag) ++ "\n]\n"

end EmbeddedSql
