import SchemaEvolution.Query.Piece

/-!
# Inserting, updating and deleting rows

An insertion binds every value to a parameter. A dialect that can do so hands back the key that it
generates, if it is asked to. An update or a deletion concerns all rows unless a filter says which.
-/

namespace SchemaEvolution

/-! ## Insertions -/

/-- A query that inserts a row. -/
structure Insert where
  table : String
  values : List (String × BoundValue) := []
  /-- The generated key that is asked for. -/
  returning : Option String := none
  deriving Repr

namespace Insert

/-- Sets the value of a column. -/
def withValue (i : Insert) (column : String) (v : BoundValue) : Insert :=
  { i with values := i.values ++ [(column, v)] }

/-- Asks for the generated key. -/
def withReturning (i : Insert) (column : String) : Insert := { i with returning := some column }

/-- What can be said about an insertion. -/
inductive Call where
  | value (column : String) (v : BoundValue)
  | returning (column : String)
  deriving DecidableEq, Repr

/-- An insertion about which nothing has been said. -/
def ofTable (table : String) : Insert := ⟨table, [], none⟩

/-- The insertion after one more call. -/
def apply (i : Insert) : Call → Insert
  | .value column v => i.withValue column v
  | .returning column => i.withReturning column

/-- The insertion into a table that calls describe, in order. -/
def ofCalls (table : String) (calls : List Call) : Insert := calls.foldl apply (.ofTable table)

/-- The insertion of values into columns. -/
def rowPieces (table : String) (values : List (String × BoundValue)) : List Piece :=
  [.text "INSERT INTO ", .name table, .text " ("] ++ Piece.names (values.map (·.1))
    ++ .text ") VALUES (" :: Piece.commas (values.map fun v => [.value v.2]) ++ [.text ")"]

/-- What asks for the key that is generated in a column, in a dialect that can hand it back. -/
def generatedKeyClause? (d : Dialect) (column : String) : Option (List Piece) :=
  if d.returnsKeys then some [.text "RETURNING ", .name column] else none

/-- What follows the values: the clause, if a key is asked for and the dialect has one. -/
def returningPieces (d : Dialect) (column : Option String) : List Piece :=
  match column.bind (generatedKeyClause? d) with
  | none => []
  | some clause => .text " " :: clause

/-- The query in pieces. -/
def pieces (i : Insert) (d : Dialect) : List Piece :=
  rowPieces i.table i.values ++ returningPieces d i.returning

/-- The query in a dialect. -/
def toQuery (i : Insert) (d : Dialect) : BoundQuery := Piece.toQuery d 0 (i.pieces d)

end Insert

/-! ## Updates -/

/-- A query that updates rows. -/
structure Update where
  table : String
  assignments : List (String × Expr) := []
  filter : Option Expr := none
  deriving Repr

namespace Update

/-- Assigns an expression to a column. -/
def assign (u : Update) (column : String) (e : Expr) : Update :=
  { u with assignments := u.assignments ++ [(column, e)] }

/-- Assigns a value to a column. -/
def assignValue (u : Update) (column : String) (v : BoundValue) : Update :=
  u.assign column (.constant v)

/-- What can be said about an update. -/
inductive Call where
  | value (column : String) (v : BoundValue)
  | expression (column : String) (e : Expr)
  /-- Says which rows are updated, in the place of what was said before. -/
  | filter (e : Expr)
  deriving Repr

/-- An update about which nothing has been said. -/
def ofTable (table : String) : Update := ⟨table, [], none⟩

/-- The update after one more call. -/
def apply (u : Update) : Call → Update
  | .value column v => u.assignValue column v
  | .expression column e => u.assign column e
  | .filter e => { u with filter := some e }

/-- The update of a table that calls describe, in order. -/
def ofCalls (table : String) (calls : List Call) : Update := calls.foldl apply (.ofTable table)

def assignmentPieces (a : String × Expr) : List Piece := .name a.1 :: .text " = " :: a.2.pieces

/-- The query in pieces. -/
def pieces (u : Update) : List Piece :=
  [.text "UPDATE ", .name u.table, .text " SET "]
    ++ Piece.commas (u.assignments.map assignmentPieces)
    ++ Piece.clause " WHERE " u.filter

/-- The query in a dialect. -/
def toQuery (u : Update) (d : Dialect) : BoundQuery := Piece.toQuery d 0 u.pieces

end Update

/-! ## Deletions -/

/-- A query that deletes rows. -/
structure Delete where
  table : String
  filter : Option Expr := none
  deriving Repr

namespace Delete

/-- The deletion of all rows. -/
def ofTable (table : String) : Delete := ⟨table, none⟩

/-- Says which rows are deleted, in the place of what was said before. -/
def withFilter (q : Delete) (e : Expr) : Delete := { q with filter := some e }

/-- The deletion from a table after filters were given, in order. -/
def ofFilters (table : String) (filters : List Expr) : Delete :=
  filters.foldl withFilter (.ofTable table)

/-- The query in pieces. -/
def pieces (q : Delete) : List Piece :=
  [.text "DELETE FROM ", .name q.table] ++ Piece.clause " WHERE " q.filter

/-- The query in a dialect. -/
def toQuery (q : Delete) (d : Dialect) : BoundQuery := Piece.toQuery d 0 q.pieces

end Delete

end SchemaEvolution
