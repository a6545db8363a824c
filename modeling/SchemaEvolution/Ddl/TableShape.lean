import SchemaEvolution.Ddl.Statement
import SchemaEvolution.Dialect.Declaration

/-!
# Operations on tables

Each operation is a list of statements. An empty list means that the dialect has nothing to do.

SQLite cannot alter a column. It builds the table anew beside the old one, copies the rows, puts the
new table in the place of the old one and creates again the indices that went with it. It also
refuses to drop a column that an index covers, so those indices are dropped first. Primary keys are
unique indices there, except a single serial column, which is the primary key by its declaration.
-/

namespace SchemaEvolution

/-! ## What a table looks like -/

/-- An index as it stands on a table. -/
structure IndexShape where
  name : String
  columns : List String
  unique : Bool
  deriving DecidableEq, Repr

/-- Whether an index mentions a column. -/
def IndexShape.mentions (i : IndexShape) (column : String) : Bool := column ∈ i.columns

/-- Whether all columns of an index are there. -/
def IndexShape.isComplete (i : IndexShape) (columns : List LiveColumn) : Bool :=
  i.columns.all fun c => columns.any (·.name == c)

/-- A table as it stands. -/
structure TableShape where
  name : String
  columns : List LiveColumn
  primaryKey : Option IndexShape := none
  indices : List IndexShape := []
  deriving DecidableEq, Repr

/-- Whether the columns of a key are exactly one serial column. -/
def isOneSerial (key : List String) (columns : List LiveColumn) : Bool :=
  match key with
  | [column] => columns.any fun c => c.name == column && c.property.isSerial
  | _ => false

namespace Dialect

/-! ## Tables -/

def tableCreation (_ : Dialect) (table : String) (columns : List LiveColumn) : List Ddl :=
  [.createTable table (columns.map (·.declaration))]

def tableRenaming (_ : Dialect) (table new : String) : List Ddl := [.renameTable table new]

/-! ## Keys and indices -/

def indexCreation (_ : Dialect) (unique : Bool) (table name : String) (columns : List String) :
    List Ddl :=
  [.createIndex unique table name columns]

def indexRemoval (_ : Dialect) (table name : String) : List Ddl := [.dropIndex table name]

def primaryKeyCreation (d : Dialect) (table name : String) (key : List String)
    (columns : List LiveColumn) : List Ddl :=
  if d.serialIsPrimaryKey && isOneSerial key columns then []
  else
    match d with
    | .sqlite => [.createIndex true table name key]
    | _ => [.addPrimaryKey table name key]

def primaryKeyRemoval (d : Dialect) (table name : String) (key : List String)
    (columns : List LiveColumn) : List Ddl :=
  if d.serialIsPrimaryKey && isOneSerial key columns then []
  else
    match d with
    | .mysql => [.dropPrimaryKey table]
    | .postgres => [.dropConstraint table name]
    | .sqlite => [.dropIndex table name]

def foreignKeyCreation (d : Dialect)
    (table name column referencedTable referencedColumn : String) : List Ddl :=
  match d with
  | .sqlite => []
  | _ => [.addForeignKey table name column referencedTable referencedColumn]

def foreignKeyRemoval (d : Dialect) (table name : String) : List Ddl :=
  match d with
  | .mysql => [.dropForeignKey table name]
  | .postgres => [.dropConstraint table name]
  | .sqlite => []

/-! ## Columns -/

def columnAddition (_ : Dialect) (table : String) (column : LiveColumn) : List Ddl :=
  [.addColumn table column.declaration]

def columnRenaming (_ : Dialect) (table column new : String) : List Ddl :=
  [.renameColumn table column new]

/-- The name of the table that a rebuild fills. -/
def stagingName (table : String) : String := table ++ "_rebuild"

/-- Builds a table anew, in the shape that it is given in. -/
def rebuild (d : Dialect) (t : TableShape) : List Ddl :=
  d.tableCreation (stagingName t.name) t.columns
    ++ [.copyRows t.name (stagingName t.name) (t.columns.map (·.name)), .dropTable t.name]
    ++ d.tableRenaming (stagingName t.name) t.name
    ++ (t.primaryKey.toList.filter (·.isComplete t.columns)).flatMap
      (fun k => d.primaryKeyCreation t.name k.name k.columns t.columns)
    ++ (t.indices.filter (·.isComplete t.columns)).flatMap
      (fun i => d.indexCreation i.unique t.name i.name i.columns)

/-- Gives a column another shape. The table already has the column as it is afterwards. -/
def columnRetyping (d : Dialect) (t : TableShape) (before after : LiveColumn) (enums : EnumScope) :
    Except SchemaFault (List Ddl) :=
  match d with
  | .mysql => .ok [.modifyColumn t.name after.declaration]
  | .postgres => do
    let p := after.property
    if p.isSerial then throw (.unsupportedType p.name .postgres)
    let type ← typeName .postgres p.name p.shape.type enums
    let default ←
      if before.property.shape.default = p.shape.default then pure []
      else
        match p.shape.default with
        | none => pure [Ddl.setDefault t.name p.name none]
        | some raw => do
          let value ← defaultText .postgres p.name p.shape.type raw
          pure [Ddl.setDefault t.name p.name (some value)]
    return [.setType t.name p.name type, .setNullable t.name p.name p.isNullable] ++ default
  | .sqlite => .ok (if before.declaration = after.declaration then [] else rebuild .sqlite t)

/-- Drops a column. The table still has it. -/
def columnRemoval (d : Dialect) (t : TableShape) (column : String) : List Ddl :=
  match d with
  | .sqlite =>
    (t.primaryKey.toList.filter (·.mentions column)).flatMap
        (fun k => d.primaryKeyRemoval t.name k.name k.columns t.columns)
      ++ (t.indices.filter (·.mentions column)).flatMap (fun i => d.indexRemoval t.name i.name)
      ++ [.dropColumn t.name column]
  | _ => [.dropColumn t.name column]

end Dialect

end SchemaEvolution
