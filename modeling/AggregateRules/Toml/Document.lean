/-!
# Toml/Document — what a TOML text says

A document is a table: named contents, each name once, in the order in which they came to be.  The
tables a text spells out by headers, by dotted keys or in braces are told apart while it is read and
no longer afterwards.  Numbers and date-times are kept as they were written.
-/

namespace AggregateRules.Toml

/-- A content. -/
inductive Value where
  | string (s : String)
  | integer (written : String)
  | float (written : String)
  | boolean (b : Bool)
  | dateTime (written : String)
  | array (items : List Value)
  | table (entries : List (String × Value))
  deriving Inhabited

/-- A document. -/
abbrev Document := List (String × Value)

end AggregateRules.Toml
