import SchemaEvolution.Query.Binary64

/-!
# Values in queries

A value never becomes part of the text of a query: it is bound to a parameter.
-/

namespace SchemaEvolution

/-- A value that is bound to a parameter. -/
inductive BoundValue where
  | null
  | bool (b : Bool)
  | int (n : Int64)
  | float (x : Binary64)
  | text (s : String)
  | blob (bytes : List UInt8)
  deriving DecidableEq, Inhabited, Repr

namespace BoundValue

def isNull : BoundValue → Bool
  | .null => true
  | _ => false

/-- The value, or `NULL` when there is none. -/
def ofOption : Option BoundValue → BoundValue
  | some v => v
  | none => .null

end BoundValue

end SchemaEvolution
