/-!
# TOML values

A TOML document is a table. Numbers and dates are kept as they are written.
-/

namespace WordTemplate

inductive Toml where
  | string (value : String)
  | boolean (value : Bool)
  | number (literal : String)
  | date (literal : String)
  | array (items : List Toml)
  | table (entries : List (String × Toml))
  deriving Repr, Inhabited

end WordTemplate
