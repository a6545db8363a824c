import SchemaEvolution.Default.Literal
import SchemaEvolution.Fault
import SchemaEvolution.Schema.Column
import SchemaEvolution.Schema.EnumHistory

/-!
# Declarations of columns

How a dialect spells a type, and how it declares a column. Types that refer to enums need the
values of the enum, which an `EnumScope` supplies.
-/

namespace SchemaEvolution

/-! ## Enums -/

/-- What the enums are at some moment: finds the one that a text designates, with its values. -/
abbrev EnumScope := String → Except SchemaFault Enumeration

/-- The scope without enums. -/
def EnumScope.empty : EnumScope := fun reference => .error (.unknownEnum reference)

/-- The scope of a single enum. -/
def Enumeration.scope (s : Enumeration) : EnumScope := fun reference =>
  if s.isDesignatedBy reference then .ok s else .error (.unknownEnum reference)

namespace Dialect

/-! ## Types -/

/-- A type with its detail in parentheses. -/
def sizedType (word : String) (details : List Nat) : String :=
  word ++ "(" ++ String.intercalate ", " (details.map Text.Decimal.string) ++ ")"

/-- How a type is spelled. MySQL lists the values of an enum in the type, PostgreSQL names it, and
SQLite has neither enums nor sizes. -/
def typeName (d : Dialect) (property : String) (type : ColumnType) (enums : EnumScope) :
    Except SchemaFault String :=
  match d with
  | .mysql =>
    match type with
    | .serial => .ok "INT"
    | .integer => .ok "INT"
    | .bigSerial => .ok "BIGINT"
    | .bigInt => .ok "BIGINT"
    | .smallInt => .ok "SMALLINT"
    | .boolean => .ok "BOOLEAN"
    | .real => .ok "FLOAT"
    | .double => .ok "DOUBLE"
    | .decimal precision scale => .ok (sizedType "DECIMAL" [precision.toNat, scale.toNat])
    | .char length => .ok (sizedType "CHAR" [length.toNat])
    | .varchar length => .ok (sizedType "VARCHAR" [length.toNat])
    | .text => .ok "TEXT"
    | .uuid => .ok "CHAR(36)"
    | .date => .ok "DATE"
    | .time => .ok "TIME"
    | .dateTime => .ok "DATETIME"
    | .timestamp => .ok "TIMESTAMP"
    | .blob => .ok "BLOB"
    | .json => .ok "JSON"
    | .enum reference => (enums reference).map fun s => "ENUM(" ++ literals s.values ++ ")"
    | .array _ => .error (.unsupportedType property .mysql)
  | .postgres =>
    match type with
    | .serial => .ok "SERIAL"
    | .bigSerial => .ok "BIGSERIAL"
    | .smallInt => .ok "SMALLINT"
    | .integer => .ok "INTEGER"
    | .bigInt => .ok "BIGINT"
    | .boolean => .ok "BOOLEAN"
    | .real => .ok "REAL"
    | .double => .ok "DOUBLE PRECISION"
    | .decimal precision scale => .ok (sizedType "DECIMAL" [precision.toNat, scale.toNat])
    | .char length => .ok (sizedType "CHAR" [length.toNat])
    | .varchar length => .ok (sizedType "VARCHAR" [length.toNat])
    | .text => .ok "TEXT"
    | .uuid => .ok "UUID"
    | .date => .ok "DATE"
    | .time => .ok "TIME"
    | .dateTime => .ok "TIMESTAMP"
    | .timestamp => .ok "TIMESTAMP"
    | .blob => .ok "BYTEA"
    | .json => .ok "JSONB"
    | .enum reference => (enums reference).map fun s => quote .postgres s.name
    | .array element =>
      if element.isSerial || element.isArray then .error (.unsupportedType property .postgres)
      else (typeName .postgres property element enums).map (· ++ "[]")
  | .sqlite =>
    match type with
    | .serial => .ok "INTEGER"
    | .bigSerial => .ok "INTEGER"
    | .smallInt => .ok "INTEGER"
    | .integer => .ok "INTEGER"
    | .bigInt => .ok "INTEGER"
    | .boolean => .ok "INTEGER"
    | .real => .ok "REAL"
    | .double => .ok "REAL"
    | .decimal _ _ => .ok "NUMERIC"
    | .blob => .ok "BLOB"
    | .array _ => .error (.unsupportedType property .sqlite)
    | _ => .ok "TEXT"
termination_by structural type

/-! ## Declarations -/

/-- What stands between the type and the default: a serial column says so, any other says if it
allows no `NULL`. -/
def nullability (d : Dialect) (shape : ColumnShape) : String :=
  if shape.type.isSerial then d.serialKeyword
  else if shape.nullable then "" else " NOT NULL"

/-- The default of a column, if it has one. -/
def defaultClause (d : Dialect) (p : Property) : Except SchemaFault String :=
  match p.shape.default with
  | none => .ok ""
  | some raw => (d.defaultText p.name p.shape.type raw).map (" DEFAULT " ++ ·)

/-- How a column is declared. -/
def declaration (d : Dialect) (p : Property) (enums : EnumScope) : Except SchemaFault String := do
  let type ← d.typeName p.name p.shape.type enums
  let default ← d.defaultClause p
  return d.quote p.name ++ " " ++ type ++ d.nullability p.shape ++ default

end Dialect

/-- A column as it stands in a table, with the declaration that was last written for it. -/
structure LiveColumn where
  property : Property
  declaration : String
  deriving DecidableEq, Inhabited, Repr

namespace LiveColumn

abbrev name (c : LiveColumn) : String := c.property.name

/-- The column of a property, declared now. -/
def declare (d : Dialect) (p : Property) (enums : EnumScope) : Except SchemaFault LiveColumn :=
  (d.declaration p enums).map (LiveColumn.mk p)

end LiveColumn

end SchemaEvolution
