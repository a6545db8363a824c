import SchemaEvolution.Changelog.EnumRegistry
import SchemaEvolution.Changelog.LiveTable
import SchemaEvolution.Schema.SchemaHistory

/-!
# Walking the timeline

The live schema holds the tables, the enums in use and the names of constraints and indices, which
are unique across all tables. Each edit takes it to the next one and says what is to be done in the
database, or refuses with the first thing that is wrong. The dialect only decides the statements.

At a version, all property edits of all tables come first, then all constraint edits, then all index
edits; so a foreign key may refer to what the same version creates.
-/

namespace SchemaEvolution

/-- What does not change during a walk. -/
structure Setting where
  dialect : Dialect
  history : SchemaHistory

/-- The schema at a point of the walk. -/
structure LiveSchema where
  tables : List LiveTable
  enums : EnumRegistry
  /-- The names of all constraints and indices. -/
  names : List String
  deriving DecidableEq, Repr

namespace LiveSchema

/-- What a step leads to: the schema after it, and what it does in the database. -/
abbrev Outcome := Except SchemaFault (LiveSchema × List Operation)

/-- The tables before the first version; of tables with one id only the first counts. -/
def tablesOf : List String → List TableHistory → Except SchemaFault (List LiveTable)
  | _, [] => .ok []
  | ids, t :: ts =>
    if t.id ∈ ids then tablesOf ids ts
    else do
      let table ← LiveTable.ofHistory t
      let tables ← tablesOf (t.id :: ids) ts
      return table :: tables

/-- The schema before the first version. -/
def start (h : SchemaHistory) : Except SchemaFault LiveSchema := do
  return { tables := ← tablesOf [] h.tables, enums := .ofTimeline h.timeline, names := [] }

/-- Takes a step for each element of a list, in turn. -/
def forEach (f : LiveSchema → α → Outcome) : LiveSchema → List α → Outcome
  | s, [] => .ok (s, [])
  | s, a :: as => do
    let (s, operations) ← f s a
    let (s, rest) ← forEach f s as
    return (s, operations ++ rest)

/-- The table with an id. -/
def table? (s : LiveSchema) (id : String) : Option LiveTable := s.tables.find? (·.id == id)

/-- Puts a table in the place of the one with its id. -/
def setTable (s : LiveSchema) (t : LiveTable) : LiveSchema :=
  { s with tables := s.tables.map fun u => if u.id = t.id then t else u }

/-- The columns of enum types in the tables that have been created. -/
def enumUses (s : LiveSchema) : List EnumUse :=
  (s.tables.filter (·.created)).flatMap fun t =>
    (t.columns.filter (·.property.shape.type.enumReference?.isSome)).map fun c =>
      ⟨t.name, c.property⟩

/-! ## Names -/

/-- Takes a name into use. -/
def reserve (s : LiveSchema) (name : String) : Except SchemaFault LiveSchema :=
  if name ∈ s.names then .error (.duplicateName name)
  else .ok { s with names := name :: s.names }

/-- Frees a name. -/
def release (s : LiveSchema) (name : String) : LiveSchema :=
  { s with names := s.names.filter (· != name) }

/-! ## Columns -/

/-- Takes the enum that a type refers to into use. It has to have values at the version. -/
def requireEnum (c : Setting) (version : String) (s : LiveSchema) (type : ColumnType) :
    Except SchemaFault LiveSchema :=
  match type.innermost.enumReference? with
  | none => .ok s
  | some reference =>
    match c.history.enum? reference with
    | none => .error (.unknownEnum reference)
    | some e =>
      let enums := s.enums.register e
      (enums.scopeAt version reference).map fun _ => { s with enums }

/-- Declares a property as it is at a version, with the enums in use. -/
def redeclare (c : Setting) (version : String) (s : LiveSchema) (p : Property) :
    Except SchemaFault LiveColumn :=
  LiveColumn.declare c.dialect p (s.enums.scopeAt version)

/-- Declares a property that is new, or has a new shape. -/
def declare (c : Setting) (version : String) (s : LiveSchema) (p : Property) :
    Except SchemaFault (LiveSchema × LiveColumn) := do
  let s ← requireEnum c version s p.shape.type
  let column ← redeclare c version s p
  return (s, column)

/-! ## Creating a table -/

/-- Declares the columns of a new table, after those that it has already. -/
def declareAll (c : Setting) (version table : String) :
    LiveSchema → List LiveColumn → List PropertyEdit →
      Except SchemaFault (LiveSchema × List LiveColumn)
  | s, columns, [] => .ok (s, columns)
  | s, columns, .add name shape :: edits =>
    if columns.any (·.name == name) then .error (.duplicateProperty table name)
    else do
      let (s, column) ← declare c version s ⟨name, shape⟩
      declareAll c version table s (columns ++ [column]) edits
  | _, _, edit :: _ => .error (.nonAddOnCreation table edit.subject)

/-- Creates a table in its first step. -/
def createTable (c : Setting) (version : String) (s : LiveSchema) (t : LiveTable)
    (step : TableStep) : Outcome :=
  if step.properties.isEmpty then .error (.emptyTable t.name)
  else do
    let (s, columns) ← declareAll c version t.name s [] step.properties
    return (s.setTable { t with columns, created := true },
      [⟨version, "create-table-" ++ t.name, c.dialect.tableCreation t.name columns⟩])

/-! ## Editing properties -/

def addProperty (c : Setting) (version : String) (s : LiveSchema) (t : LiveTable) (p : Property) :
    Outcome :=
  if t.hasColumn p.name then .error (.duplicateProperty t.name p.name)
  else do
    let (s, column) ← declare c version s p
    return (s.setTable { t with columns := t.columns ++ [column] },
      [⟨version, "add-column-" ++ t.name ++ "-" ++ p.name,
        c.dialect.columnAddition t.name column⟩])

/-- Foreign keys of all tables follow a column that is renamed. -/
def followReferences (s : LiveSchema) (id name new : String) : LiveSchema :=
  { s with
    tables := s.tables.map fun t =>
      { t with constraints := t.constraints.map (·.followReference id name new) } }

def renameProperty (c : Setting) (version : String) (s : LiveSchema) (t : LiveTable)
    (name new : String) : Outcome :=
  match t.column? name with
  | none => .error (.unknownProperty t.name name)
  | some column =>
    if t.hasColumn new then .error (.duplicateProperty t.name new)
    else do
      let column ← redeclare c version s { column.property with name := new }
      let t' := (t.setColumn name column).followColumn name new
      return ((s.setTable t').followReferences t.id name new,
        [⟨version, "rename-column-" ++ t.name ++ "-" ++ name,
          c.dialect.columnRenaming t.name name new⟩])

def retypeProperty (c : Setting) (version : String) (s : LiveSchema) (t : LiveTable)
    (p : Property) : Outcome :=
  match t.column? p.name with
  | none => .error (.unknownProperty t.name p.name)
  | some before =>
    if before.property.shape.type.enumReference?.isSome || p.shape.type.enumReference?.isSome then
      .error (.enumRetype t.name p.name)
    else do
      let (s, after) ← declare c version s p
      let t' := t.setColumn p.name after
      let statements ← c.dialect.columnRetyping t'.shape before after (s.enums.scopeAt version)
      return (s.setTable t',
        [⟨version, "retype-column-" ++ t.name ++ "-" ++ p.name, statements⟩])

def removeProperty (c : Setting) (version : String) (s : LiveSchema) (t : LiveTable)
    (name : String) : Outcome :=
  if t.hasColumn name then
    .ok (s.setTable (t.dropColumn name),
      [⟨version, "remove-column-" ++ t.name ++ "-" ++ name,
        c.dialect.columnRemoval t.shape name⟩])
  else .error (.unknownProperty t.name name)

/-- Does something to the table with an id. -/
def withTable (s : LiveSchema) (id : String) (f : LiveTable → Outcome) : Outcome :=
  match s.table? id with
  | some t => f t
  | none => .ok (s, [])

/-- Makes a property edit in the table with an id. -/
def editProperty (c : Setting) (version id : String) (s : LiveSchema) (edit : PropertyEdit) :
    Outcome :=
  s.withTable id fun t =>
    match edit with
    | .add name shape => s.addProperty c version t ⟨name, shape⟩
    | .rename name new => s.renameProperty c version t name new
    | .retype name shape => s.retypeProperty c version t ⟨name, shape⟩
    | .remove name => s.removeProperty c version t name

/-- Renames a table, if it gets another name. -/
def renameTable (c : Setting) (version : String) (s : LiveSchema) (t : LiveTable)
    (name : Option String) : LiveSchema × List Operation :=
  match name with
  | none => (s, [])
  | some new =>
    if new = t.name then (s, [])
    else
      (s.setTable { t with name := new },
        [⟨version, "rename-table-" ++ t.name, c.dialect.tableRenaming t.name new⟩])

/-- Makes the property edits of a step in the table with an id: creates the table, or renames it and
edits its properties. -/
def editTable (c : Setting) (version : String) (s : LiveSchema) (due : String × TableStep) :
    Outcome :=
  s.withTable due.1 fun t =>
    if t.created then do
      let (s, renamed) := s.renameTable c version t due.2.name
      let (s, operations) ← forEach (editProperty c version due.1) s due.2.properties
      return (s, renamed ++ operations)
    else s.createTable c version t due.2

/-! ## Editing constraints -/

/-- Checks the columns of a primary key. -/
def checkKeyColumns (t : LiveTable) (name : String) : List String → Except SchemaFault Unit
  | [] => .ok ()
  | column :: columns =>
    match t.column? column with
    | none => .error (.unknownProperty t.name column)
    | some c =>
      if c.property.isNullable then .error (.nullablePrimaryKey t.name name column)
      else checkKeyColumns t name columns

def addPrimaryKey (c : Setting) (version : String) (s : LiveSchema) (t : LiveTable)
    (name : String) (columns : List String) : Outcome :=
  if columns.isEmpty then .error (.emptyConstraint t.name name)
  else if t.primaryKey?.isSome then .error (.duplicatePrimaryKey t.name)
  else do
    checkKeyColumns t name columns
    let s ← s.reserve name
    return (s.setTable { t with constraints := t.constraints ++ [.primaryKey name columns] },
      [⟨version, "add-primary-key-" ++ name,
        c.dialect.primaryKeyCreation t.name name columns t.columns⟩])

def addForeignKey (c : Setting) (version : String) (s : LiveSchema) (t : LiveTable)
    (name column references referencedColumn : String) : Outcome :=
  match t.column? column with
  | none => .error (.unknownProperty t.name column)
  | some own =>
    if own.property.isSerial then .error (.serialForeignKey t.name name column)
    else
      match (s.table? references).filter fun u => u.created && u.hasColumn referencedColumn with
      | none => .error (.unknownReference t.name name references referencedColumn)
      | some target => do
        let s ← s.reserve name
        let key := Constraint.foreignKey name column references referencedColumn
        return (s.setTable { t with constraints := t.constraints ++ [key] },
          [⟨version, "add-foreign-key-" ++ name,
            c.dialect.foreignKeyCreation t.name name column target.name referencedColumn⟩])

/-- The table without the constraint of a name. -/
def withoutConstraint (t : LiveTable) (name : String) : LiveTable :=
  { t with constraints := t.constraints.filter (·.name != name) }

def removePrimaryKey (c : Setting) (version : String) (s : LiveSchema) (t : LiveTable)
    (name : String) : Outcome :=
  match t.primaryKey?.filter (·.name == name) with
  | none => .error (.missingPrimaryKey t.name name)
  | some key =>
    .ok ((s.release name).setTable (withoutConstraint t name),
      [⟨version, "remove-primary-key-" ++ name,
        c.dialect.primaryKeyRemoval t.name name key.columns t.columns⟩])

def removeForeignKey (c : Setting) (version : String) (s : LiveSchema) (t : LiveTable)
    (name : String) : Outcome :=
  if t.constraints.any fun k => !k.isPrimaryKey && k.name == name then
    .ok ((s.release name).setTable (withoutConstraint t name),
      [⟨version, "remove-foreign-key-" ++ name, c.dialect.foreignKeyRemoval t.name name⟩])
  else .error (.unknownConstraint t.name name)

/-- Makes a constraint edit in the table with an id. -/
def editConstraint (c : Setting) (version id : String) (s : LiveSchema) (edit : ConstraintEdit) :
    Outcome :=
  s.withTable id fun t =>
    match edit with
    | .addPrimaryKey name columns => s.addPrimaryKey c version t name columns
    | .addForeignKey name column references referencedColumn =>
      s.addForeignKey c version t name column references referencedColumn
    | .remove .primary name => s.removePrimaryKey c version t name
    | .remove .foreign name => s.removeForeignKey c version t name

/-! ## Editing indices -/

def addIndex (c : Setting) (version : String) (s : LiveSchema) (t : LiveTable) (kind : IndexKind)
    (name : String) (columns : List String) : Outcome :=
  if columns.isEmpty then .error (.emptyIndex t.name name)
  else
    match columns.find? (!t.hasColumn ·) with
    | some missing => .error (.unknownProperty t.name missing)
    | none =>
      match t.indices.find? (·.columns == columns) with
      | some existing => .error (.duplicateIndexColumns t.name name existing.name)
      | none => do
        let unique := kind == .unique
        let s ← s.reserve name
        return (s.setTable { t with indices := t.indices ++ [⟨name, columns, unique⟩] },
          [⟨version, "add-index-" ++ name, c.dialect.indexCreation unique t.name name columns⟩])

def removeIndex (c : Setting) (version : String) (s : LiveSchema) (t : LiveTable)
    (name : String) : Outcome :=
  if t.indices.any (·.name == name) then
    .ok ((s.release name).setTable { t with indices := t.indices.filter (·.name != name) },
      [⟨version, "remove-index-" ++ name, c.dialect.indexRemoval t.name name⟩])
  else .error (.unknownIndex t.name name)

/-- Makes an index edit in the table with an id. -/
def editIndex (c : Setting) (version id : String) (s : LiveSchema) (edit : IndexEdit) : Outcome :=
  s.withTable id fun t =>
    match edit with
    | .add kind name columns => s.addIndex c version t kind name columns
    | .remove _ name => s.removeIndex c version t name

/-! ## Versions -/

/-- The steps of all tables at a version, with the ids of the tables, and the schema in which they
are no longer to come. -/
def takeDue (s : LiveSchema) (version : String) : LiveSchema × List (String × TableStep) :=
  ({ s with tables := s.tables.map fun t => ((t.takeStep? version).map (·.2)).getD t },
    s.tables.filterMap fun t => (t.takeStep? version).map fun taken => (t.id, taken.1))

/-- Makes all edits of a version. -/
def advance (c : Setting) (s : LiveSchema) (version : String) : Outcome := do
  let (s, due) := s.takeDue version
  let (s, properties) ← forEach (editTable c version) s due
  let (s, constraints) ← forEach
    (fun s d => forEach (editConstraint c version d.1) s d.2.constraints) s due
  let (s, indices) ← forEach (fun s d => forEach (editIndex c version d.1) s d.2.indices) s due
  return (s, properties ++ constraints ++ indices)

/-- What a walk along the timeline leads to. -/
structure Walk where
  final : LiveSchema
  /-- The columns of enum types that there were before each version. -/
  uses : List (String × List EnumUse)
  operations : List Operation

/-- Walks along a timeline. -/
def walk (c : Setting) : LiveSchema → List String → Except SchemaFault Walk
  | s, [] => .ok ⟨s, [], []⟩
  | s, version :: versions => do
    let (s', operations) ← s.advance c version
    let rest ← walk c s' versions
    return ⟨rest.final, (version, s.enumUses) :: rest.uses, operations ++ rest.operations⟩

end LiveSchema

end SchemaEvolution
