/-! TOML values -/

namespace PrunedHistory.Toml

/-- A value of a document. Floats and dates are passed over by what reads plans, so their text is enough. -/
inductive Value where
  | string (text : List Char)
  | integer (n : Int)
  /-- A float, as it was written. -/
  | float (text : List Char)
  | boolean (b : Bool)
  /-- A date, a time or both, as it was written. -/
  | dateTime (text : List Char)
  | array (items : List Value)
  | table (entries : List (List Char × Value))

/-- The entries of a table, each key once. -/
abbrev Table := List (List Char × Value)

/-- The most parts that a key has, and the most arrays and inline tables that lie one in another. -/
def depthLimit : Nat := 79

end PrunedHistory.Toml
