/-!
# The words of SQL

Key words and built-in functions. Both are recognized whatever the case of
their ASCII letters; other letters are compared as they are.
-/

namespace EmbeddedSql

namespace Sql

/-- The key words, in capitals. -/
def keywords : List String := [
    "ABORT", "ACTION", "ADD", "ALL", "ALTER", "ALWAYS", "ANALYZE", "AND", "ANY", "ARRAY", "AS",
    "ASC", "ASYMMETRIC", "AT", "BEGIN", "BETWEEN", "BIGINT", "BIGSERIAL", "BOOLEAN", "BOTH",
    "BY", "BYTEA", "CASCADE", "CASE", "CAST", "CHAR", "CHARACTER", "CHECK", "COLLATE", "COLUMN",
    "COMMIT", "CONCURRENTLY", "CONFLICT", "CONSTRAINT", "CREATE", "CROSS", "CURRENT", "CURSOR",
    "DATABASE", "DATE", "DECIMAL", "DECLARE", "DEFAULT", "DEFERRABLE", "DELETE", "DESC",
    "DISTINCT", "DO", "DOUBLE", "DROP", "ELSE", "END", "ESCAPE", "EXCEPT", "EXISTS", "EXPLAIN",
    "EXTENSION", "FALSE", "FETCH", "FILTER", "FIRST", "FLOAT", "FOLLOWING", "FOR", "FOREIGN",
    "FROM", "FULL", "FUNCTION", "GENERATED", "GRANT", "GROUP", "GROUPING", "HAVING", "IDENTITY",
    "IF", "ILIKE", "IN", "INDEX", "INNER", "INSERT", "INT", "INTEGER", "INTERSECT", "INTERVAL",
    "INTO", "IS", "ISNULL", "JOIN", "JSON", "JSONB", "KEY", "LANGUAGE", "LAST", "LATERAL",
    "LEADING", "LEFT", "LIKE", "LIMIT", "LOCK", "MATERIALIZED", "NATURAL", "NO", "NOT",
    "NOTHING", "NOTNULL", "NULL", "NULLS", "NUMERIC", "OF", "OFFSET", "ON", "ONLY", "OR",
    "ORDER", "OUTER", "OVER", "OVERLAPS", "PARTITION", "PRECEDING", "PRIMARY", "PROCEDURE",
    "RANGE", "REAL", "RECURSIVE", "REFERENCES", "RENAME", "REPLACE", "RESTRICT", "RETURNING",
    "RETURNS", "REVOKE", "RIGHT", "ROLLBACK", "ROW", "ROWS", "SAVEPOINT", "SCHEMA", "SELECT",
    "SEQUENCE", "SERIAL", "SET", "SIMILAR", "SMALLINT", "SOME", "SYMMETRIC", "TABLE", "TEMP",
    "TEMPORARY", "TEXT", "THEN", "TIME", "TIMESTAMP", "TIMESTAMPTZ", "TO", "TRAILING",
    "TRANSACTION", "TRIGGER", "TRUE", "TRUNCATE", "TYPE", "UNBOUNDED", "UNION", "UNIQUE",
    "UNLOGGED", "UPDATE", "USING", "UUID", "VACUUM", "VALUES", "VARCHAR", "VARIADIC", "VARYING",
    "VIEW", "WHEN", "WHERE", "WINDOW", "WITH", "WITHIN", "WITHOUT", "ZONE"]

/-- The built-in functions, in small letters. -/
def functions : List String := [
    "abs", "age", "array_agg", "array_length", "avg", "bool_and", "bool_or", "btrim", "ceil",
    "char_length", "clock_timestamp", "coalesce", "concat", "concat_ws", "count",
    "current_date", "current_time", "current_timestamp", "current_user", "date_part",
    "date_trunc", "dense_rank", "extract", "first_value", "floor", "format", "gen_random_uuid",
    "generate_series", "greatest", "initcap", "json_agg", "json_build_object", "jsonb_agg",
    "jsonb_build_object", "jsonb_set", "lag", "last_value", "lead", "least", "length",
    "localtimestamp", "lower", "lpad", "ltrim", "max", "md5", "min", "mod", "now", "nullif",
    "position", "random", "rank", "regexp_replace", "replace", "round", "row_number", "rpad",
    "rtrim", "split_part", "string_agg", "strpos", "substring", "sum", "to_char", "to_date",
    "to_timestamp", "trim", "trunc", "unnest", "upper"]

/-- Whether a word is a key word. -/
def isKeyword (word : List Char) : Bool :=
  keywords.contains (String.ofList (word.map Char.toUpper))

/-- Whether a word names a built-in function. -/
def isFunction (word : List Char) : Bool :=
  functions.contains (String.ofList (word.map Char.toLower))

end Sql

end EmbeddedSql
