import ParallelLint.Number.Spelling

set_option autoImplicit false

namespace ParallelLint.Toml

/-- How a table came about. -/
structure Origin where
  /-- Only named as a parent so far. -/
  implied : Bool
  dotted : Bool
  inline : Bool
  deriving DecidableEq, Repr, Inhabited

def Origin.header : Origin := ⟨false, false, false⟩
def Origin.braces : Origin := ⟨false, false, true⟩

inductive Value where
  | string (text : String)
  | integer (n : Int)
  | float (x : Number.Extended)
  | boolean (b : Bool)
  | datetime (text : String)
  | array (items : List Value)
  /-- Tables under one header in double brackets. -/
  | tables (items : List (List (String × Value)))
  | table (origin : Origin) (fields : List (String × Value))

abbrev Fields := List (String × Value)

end ParallelLint.Toml
