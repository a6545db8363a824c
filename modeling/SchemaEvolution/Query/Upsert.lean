import SchemaEvolution.Fault
import SchemaEvolution.Query.Modification

/-!
# Inserting or updating rows

An upsert inserts a row; when the row conflicts with one that is there, that one is updated. The
conflict is in the columns that are named for it, or else in the key columns. Every other column is
updated; a column of the conflict never is.
-/

namespace SchemaEvolution

/-- A query that inserts a row or updates it. -/
structure Upsert where
  table : String
  keys : List (String × BoundValue) := []
  values : List (String × BoundValue) := []
  /-- The columns named for the conflict. -/
  conflict : List String := []
  deriving DecidableEq, Repr

namespace Upsert

/-- What can be said about an upsert. -/
inductive Call where
  /-- Sets a key column. -/
  | key (column : String) (v : BoundValue)
  /-- Sets any other column. -/
  | value (column : String) (v : BoundValue)
  /-- Names the columns of the conflict, in the place of those named before. -/
  | onConflict (columns : List String)
  deriving DecidableEq, Repr

/-- An upsert about which nothing has been said. -/
def ofTable (table : String) : Upsert := ⟨table, [], [], []⟩

/-- The upsert after one more call. -/
def apply (u : Upsert) : Call → Upsert
  | .key column v => { u with keys := u.keys ++ [(column, v)] }
  | .value column v => { u with values := u.values ++ [(column, v)] }
  | .onConflict columns => { u with conflict := columns }

/-- The upsert into a table that calls describe, in order. -/
def ofCalls (table : String) (calls : List Call) : Upsert := calls.foldl apply (.ofTable table)

/-- The columns that the row can conflict in. -/
def target (u : Upsert) : List String :=
  if u.conflict.isEmpty then u.keys.map (·.1) else u.conflict

/-- The columns that are updated on a conflict, with their values. -/
def updates (u : Upsert) : List (String × BoundValue) :=
  u.values.filter fun v => !u.target.contains v.1

/-- What is done on a conflict. -/
def conflictPieces (updates : List (String × BoundValue)) : List Piece :=
  if updates.isEmpty then [.text " DO NOTHING"]
  else
    .text " DO UPDATE SET "
      :: Piece.commas (updates.map fun v => [.name v.1, .text " = ", .value v.2])

/-- The query in pieces. -/
def pieces (u : Upsert) : List Piece :=
  Insert.rowPieces u.table (u.keys ++ u.values)
    ++ .text " ON CONFLICT (" :: Piece.names u.target ++ [.text ")"]
    ++ conflictPieces u.updates

/-- The query in a dialect that has one. -/
def toQuery (u : Upsert) (d : Dialect) : Except QueryFault BoundQuery :=
  if !d.hasUpsert then .error (.upsertUnsupported d)
  else if u.target.isEmpty then .error (.missingConflictKey u.table)
  else .ok (Piece.toQuery d 0 u.pieces)

end Upsert

end SchemaEvolution
