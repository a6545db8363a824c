/-!
# Column types

The types that a column, a function parameter or a function result may have. Each type carries its
own detail: a length, a precision, the enum that it refers to. A dialect spells them in SQL.
-/

namespace SchemaEvolution

/-- A column type. -/
inductive ColumnType where
  /-- An auto-incrementing 32-bit integer. -/
  | serial
  /-- An auto-incrementing 64-bit integer. -/
  | bigSerial
  | smallInt
  | integer
  | bigInt
  | boolean
  /-- A single precision float. -/
  | real
  /-- A double precision float. -/
  | double
  | decimal (precision scale : UInt8)
  /-- A text of fixed length. -/
  | char (length : UInt32)
  /-- A text of limited length. -/
  | varchar (length : UInt32)
  | text
  | uuid
  | date
  | time
  | dateTime
  | timestamp
  | blob
  | json
  /-- An enum, designated by its name or by its reference. -/
  | enum (reference : String)
  | array (element : ColumnType)
  deriving DecidableEq, Inhabited, Repr

namespace ColumnType

/-- Whether the database counts the column up by itself. -/
def isSerial : ColumnType → Bool
  | .serial | .bigSerial => true
  | _ => false

/-- Whether the type is one of dates and times. -/
def isTemporal : ColumnType → Bool
  | .date | .time | .dateTime | .timestamp => true
  | _ => false

/-- Whether the type is one of numbers. -/
def isNumeric : ColumnType → Bool
  | .serial | .bigSerial | .smallInt | .integer | .bigInt | .real | .double | .decimal _ _ => true
  | _ => false

/-- Whether the type is an array. -/
def isArray : ColumnType → Bool
  | .array _ => true
  | _ => false

/-- The enum that the type itself refers to. -/
def enumReference? : ColumnType → Option String
  | .enum reference => some reference
  | _ => none

/-- The type of what is left when every array around it is taken away. -/
def innermost : ColumnType → ColumnType
  | .array element => element.innermost
  | type => type

theorem isNumeric_of_isSerial {type : ColumnType} (h : type.isSerial = true) :
    type.isNumeric = true := by
  cases type <;> simp_all [isSerial, isNumeric]

end ColumnType

end SchemaEvolution
