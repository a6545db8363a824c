import SchemaEvolution.Changelog.Basic
import SchemaEvolution.Ddl.TableShape
import SchemaEvolution.Schema.TableHistory

/-!
# Tables in the making

A table while the timeline is walked: what it is so far, and which steps of its history are still
to come. Constraints and indices are known by name; they follow their columns when those are
renamed.
-/

namespace SchemaEvolution

/-- A constraint of a table. -/
inductive Constraint where
  | primaryKey (name : String) (columns : List String)
  /-- A foreign key to a column of the table with the id `references`. -/
  | foreignKey (name column references referencedColumn : String)
  deriving DecidableEq, Inhabited, Repr

namespace Constraint

def name : Constraint → String
  | .primaryKey name _ => name
  | .foreignKey name _ _ _ => name

/-- The columns of its own table that a constraint lists. -/
def columns : Constraint → List String
  | .primaryKey _ columns => columns
  | .foreignKey _ column _ _ => [column]

def isPrimaryKey : Constraint → Bool
  | .primaryKey _ _ => true
  | .foreignKey _ _ _ _ => false

/-- The new name of a column that may be the one that is renamed. -/
def renamed (name new column : String) : String := if column = name then new else column

/-- Follows a column of its own table that is renamed. -/
def followColumn (name new : String) : Constraint → Constraint
  | .primaryKey key columns => .primaryKey key (columns.map (renamed name new))
  | .foreignKey key column references referencedColumn =>
    .foreignKey key (renamed name new column) references referencedColumn

/-- Follows a column of the table with an id that is renamed. -/
def followReference (id name new : String) : Constraint → Constraint
  | .foreignKey key column references referencedColumn =>
    .foreignKey key column references
      (if references = id then renamed name new referencedColumn else referencedColumn)
  | c => c

end Constraint

/-- A table while the timeline is walked. -/
structure LiveTable where
  id : String
  name : String
  columns : List LiveColumn
  constraints : List Constraint
  indices : List IndexShape
  /-- Whether the table has been created. -/
  created : Bool
  /-- The steps to come. -/
  pending : List TableStep
  deriving DecidableEq, Inhabited, Repr

namespace LiveTable

/-- The first label that does not come after the one before it. -/
def firstUnordered? : List TableStep → Option String
  | a :: b :: rest => if a.version < b.version then firstUnordered? (b :: rest) else some b.version
  | _ => none

/-- A table before its first step. It needs one, which names the table, and the labels have to
ascend. -/
def ofHistory (t : TableHistory) : Except SchemaFault LiveTable :=
  match t.steps with
  | [] => .error (.missingVersions t.id)
  | first :: _ =>
    match first.name with
    | none => .error (.missingBaseName t.id)
    | some name =>
      match firstUnordered? t.steps with
      | some version => .error (.unorderedTimeline t.id version)
      | none => .ok ⟨t.id, name, [], [], [], false, t.steps⟩

/-- The next of the steps to come, if it is one at this version, and the table without it. -/
def takeStep? (t : LiveTable) (version : String) : Option (TableStep × LiveTable) :=
  match t.pending with
  | [] => none
  | s :: rest => if s.version = version then some (s, { t with pending := rest }) else none

/-- The column with a name. -/
def column? (t : LiveTable) (name : String) : Option LiveColumn := t.columns.find? (·.name == name)

def hasColumn (t : LiveTable) (name : String) : Bool := t.columns.any (·.name == name)

/-- Puts a column in the place of the one with a name. -/
def setColumn (t : LiveTable) (name : String) (column : LiveColumn) : LiveTable :=
  { t with columns := t.columns.map fun c => if c.name = name then column else c }

/-- Takes the column with a name away. -/
def dropColumn (t : LiveTable) (name : String) : LiveTable :=
  { t with columns := t.columns.filter (·.name != name) }

/-- The primary key, as an index. -/
def primaryKey? (t : LiveTable) : Option IndexShape :=
  t.constraints.findSome? fun
    | .primaryKey name columns => some ⟨name, columns, true⟩
    | _ => none

/-- Constraints and indices follow a column that is renamed. -/
def followColumn (t : LiveTable) (name new : String) : LiveTable :=
  { t with
    constraints := t.constraints.map (·.followColumn name new)
    indices := t.indices.map fun i =>
      { i with columns := i.columns.map (Constraint.renamed name new) } }

/-- What the table looks like. -/
def shape (t : LiveTable) : TableShape := ⟨t.name, t.columns, t.primaryKey?, t.indices⟩

/-- How many serial columns the table has. -/
def serials (t : LiveTable) : Nat := t.columns.countP (·.property.isSerial)

/-- What the table is after the last version. -/
def final (t : LiveTable) : FinalTable := ⟨t.name, t.columns.map (·.property)⟩

end LiveTable

end SchemaEvolution
