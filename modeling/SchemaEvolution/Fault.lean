import SchemaEvolution.Dialect.Basic

/-!
# Faults

Why a history is refused, and why a query cannot be built. Each cause carries what its message
mentions.
-/

namespace SchemaEvolution

/-- Why a default does not fit its column. -/
inductive DefaultFault where
  | notBoolean
  | notNumber
  | notTemporal
  /-- Columns of this type have no default. -/
  | unsupported
  deriving DecidableEq, Repr

def DefaultFault.message : DefaultFault → String
  | .notBoolean => "expected a boolean"
  | .notNumber => "expected a number"
  | .notTemporal => "expected ISO date/time text"
  | .unsupported => "defaults are not supported for this type"

/-- Why no changelog can be computed. -/
inductive SchemaFault where
  /-- A table has no step at all. -/
  | missingVersions (table : String)
  /-- The first step of a table does not name it. -/
  | missingBaseName (table : String)
  /-- The steps of a table do not ascend strictly. -/
  | unorderedTimeline (table version : String)
  /-- A table is created with an edit other than an addition. -/
  | nonAddOnCreation (table property : String)
  /-- A table is created without properties. -/
  | emptyTable (table : String)
  | duplicateProperty (table property : String)
  | unknownProperty (table property : String)
  /-- A property is retyped from or to an enum. -/
  | enumRetype (table property : String)
  | unknownEnum (reference : String)
  /-- An enum is used before it has values. -/
  | enumNotDefined (reference version : String)
  /-- A constraint lists no columns. -/
  | emptyConstraint (table name : String)
  | nullablePrimaryKey (table name column : String)
  /-- A table gets a second primary key. -/
  | duplicatePrimaryKey (table : String)
  /-- A primary key to remove is not there. -/
  | missingPrimaryKey (table name : String)
  /-- The name of a constraint or index is in use, on whatever table. -/
  | duplicateName (name : String)
  /-- A foreign key to remove is not there. -/
  | unknownConstraint (table name : String)
  /-- A serial column refers to another table. -/
  | serialForeignKey (table name column : String)
  /-- What a foreign key refers to does not exist. -/
  | unknownReference (table name referencedTable column : String)
  /-- An index lists no columns. -/
  | emptyIndex (table name : String)
  /-- Another index covers the same columns. -/
  | duplicateIndexColumns (table name existing : String)
  /-- An index to remove is not there. -/
  | unknownIndex (table name : String)
  /-- A table ends with several serial columns. -/
  | multipleSerial (table : String)
  /-- The dialect has no such type. -/
  | unsupportedType (property : String) (dialect : Dialect)
  | invalidDefault (property value : String) (fault : DefaultFault)
  deriving DecidableEq, Repr

/-- What is said of a fault. -/
def SchemaFault.message : SchemaFault → String
  | .missingVersions table =>
    "table definition '" ++ table ++ "' without any scheme version"
  | .missingBaseName table =>
    "first version of table definition '" ++ table ++ "' does not supply a table name"
  | .unorderedTimeline table version =>
    "versions of '" ++ table ++ "' are not strictly ascending at '" ++ version ++ "'"
  | .nonAddOnCreation table property =>
    "table '" ++ table ++ "' is created with a non-add change on property '" ++ property ++ "'"
  | .emptyTable table => "table '" ++ table ++ "' is created without any property"
  | .duplicateProperty table property =>
    "property '" ++ property ++ "' already exists in table '" ++ table ++ "'"
  | .unknownProperty table property =>
    "property '" ++ property ++ "' does not exist in table '" ++ table ++ "'"
  | .enumRetype table property =>
    "property '" ++ property ++ "' of table '" ++ table
      ++ "' cannot be retyped from or to an enum"
  | .unknownEnum reference => "unknown enum reference '" ++ reference ++ "'"
  | .enumNotDefined reference version =>
    "enum '" ++ reference ++ "' has no values at version '" ++ version ++ "'"
  | .emptyConstraint table name =>
    "constraint '" ++ name ++ "' on table '" ++ table ++ "' has no columns"
  | .nullablePrimaryKey table name column =>
    "primary key '" ++ name ++ "' on table '" ++ table ++ "' uses nullable column '"
      ++ column ++ "'"
  | .duplicatePrimaryKey table => "table '" ++ table ++ "' already has primary key"
  | .missingPrimaryKey table name =>
    "table '" ++ table ++ "' has no primary key '" ++ name ++ "' to remove"
  | .duplicateName name => "constraint or index name '" ++ name ++ "' is already in use"
  | .unknownConstraint table name =>
    "constraint '" ++ name ++ "' does not exist on table '" ++ table ++ "'"
  | .serialForeignKey table name column =>
    "foreign key '" ++ name ++ "' on table '" ++ table ++ "' uses auto-increment column '"
      ++ column ++ "'"
  | .unknownReference table name referencedTable column =>
    "foreign key '" ++ name ++ "' on table '" ++ table ++ "' references unknown column '"
      ++ column ++ "' of '" ++ referencedTable ++ "'"
  | .emptyIndex table name => "index '" ++ name ++ "' on table '" ++ table ++ "' has no columns"
  | .duplicateIndexColumns table name existing =>
    "index '" ++ name ++ "' on table '" ++ table ++ "' duplicates the columns of index '"
      ++ existing ++ "'"
  | .unknownIndex table name =>
    "index '" ++ name ++ "' does not exist on table '" ++ table ++ "'"
  | .multipleSerial table =>
    "table '" ++ table ++ "' has more than one auto-increment property"
  | .unsupportedType property dialect =>
    "cannot render type for property '" ++ property ++ "' in the " ++ dialect.name ++ " dialect"
  | .invalidDefault property value fault =>
    "invalid default '" ++ value ++ "' for property '" ++ property ++ "': " ++ fault.message

/-- Why a query cannot be built. -/
inductive QueryFault where
  /-- The dialect cannot turn a conflicting insertion into an update. -/
  | upsertUnsupported (dialect : Dialect)
  /-- Nothing says which columns an insertion can conflict in. -/
  | missingConflictKey (table : String)
  deriving DecidableEq, Repr

def QueryFault.message : QueryFault → String
  | .upsertUnsupported dialect => "upsert is not supported by the " ++ dialect.name ++ " dialect"
  | .missingConflictKey table => "upsert into '" ++ table ++ "' has no conflict key"

end SchemaEvolution
