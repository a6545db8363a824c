import SchemaEvolution.Schema.ColumnType

/-!
# Columns

The shape of a column says what it holds; a property is a shape with a name.
-/

namespace SchemaEvolution

/-- Type, nullability and default of a column. -/
structure ColumnShape where
  type : ColumnType
  /-- Whether `NULL` is allowed. A serial column never allows it, whatever is said here. -/
  nullable : Bool := false
  /-- The default, as it was written; how it is read depends on the type. -/
  default : Option String := none
  deriving DecidableEq, Inhabited, Repr

/-- A named column. -/
structure Property where
  name : String
  shape : ColumnShape
  deriving DecidableEq, Inhabited, Repr

namespace Property

def isSerial (p : Property) : Bool := p.shape.type.isSerial

/-- Whether the column allows `NULL`; serial columns never do. -/
def isNullable (p : Property) : Bool := p.shape.nullable && !p.shape.type.isSerial

theorem isNullable_of_isSerial {p : Property} (h : p.isSerial = true) : p.isNullable = false := by
  simp_all [isNullable, isSerial]

end Property

end SchemaEvolution
