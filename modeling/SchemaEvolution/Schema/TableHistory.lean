import SchemaEvolution.Schema.Column

/-!
# Histories of tables

The history of a table has a step for each version at which the table changes. The first step names
the table and adds its first columns; a later step may rename it. In a step the property edits are
made in order, then the constraint edits, then the index edits.
-/

namespace SchemaEvolution

/-! ## Edits -/

/-- An edit of one property of a table. -/
inductive PropertyEdit where
  | add (name : String) (shape : ColumnShape)
  | rename (name new : String)
  /-- Gives the property another shape. -/
  | retype (name : String) (shape : ColumnShape)
  | remove (name : String)
  deriving DecidableEq, Inhabited, Repr

/-- The property that an edit is about, under the name that it has before the edit. -/
def PropertyEdit.subject : PropertyEdit → String
  | .add name _ | .rename name _ | .retype name _ | .remove name => name

inductive KeyKind where
  | primary
  | foreign
  deriving DecidableEq, Inhabited, Repr

/-- An edit of the constraints of a table. -/
inductive ConstraintEdit where
  | addPrimaryKey (name : String) (columns : List String)
  /-- A foreign key from a column to a column of the table with the id `references`. -/
  | addForeignKey (name column references referencedColumn : String)
  | remove (kind : KeyKind) (name : String)
  deriving DecidableEq, Inhabited, Repr

inductive IndexKind where
  | plain
  | unique
  deriving DecidableEq, Inhabited, Repr

/-- An edit of the indices of a table. -/
inductive IndexEdit where
  | add (kind : IndexKind) (name : String) (columns : List String)
  | remove (kind : IndexKind) (name : String)
  deriving DecidableEq, Inhabited, Repr

/-! ## Steps -/

/-- What changes in a table at one version. -/
structure TableStep where
  version : String
  /-- The name of the table from this version on. -/
  name : Option String := none
  properties : List PropertyEdit := []
  constraints : List ConstraintEdit := []
  indices : List IndexEdit := []
  deriving DecidableEq, Inhabited, Repr

namespace TableStep

/-- A step in which nothing changes. -/
def ofVersion (version : String) : TableStep := ⟨version, none, [], [], []⟩

def withName (s : TableStep) (name : String) : TableStep := { s with name := some name }

/-- Appends a property edit. -/
def withProperty (s : TableStep) (e : PropertyEdit) : TableStep :=
  { s with properties := s.properties ++ [e] }

/-- Appends a constraint edit. -/
def withConstraint (s : TableStep) (e : ConstraintEdit) : TableStep :=
  { s with constraints := s.constraints ++ [e] }

/-- Appends an index edit. -/
def withIndex (s : TableStep) (e : IndexEdit) : TableStep :=
  { s with indices := s.indices ++ [e] }

end TableStep

/-- A table: an identity that never changes, and what happens to the table. -/
structure TableHistory where
  id : String
  steps : List TableStep := []
  deriving DecidableEq, Inhabited, Repr

namespace TableHistory

/-- The name that the first step gives. -/
def firstName? (t : TableHistory) : Option String := t.steps.head?.bind (·.name)

/-- Appends a step. -/
def withStep (t : TableHistory) (s : TableStep) : TableHistory := { t with steps := t.steps ++ [s] }

end TableHistory

end SchemaEvolution
