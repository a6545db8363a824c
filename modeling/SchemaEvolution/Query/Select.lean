import SchemaEvolution.Query.Piece

/-!
# Selecting rows
-/

namespace SchemaEvolution

inductive JoinKind where
  | inner
  | left
  | right
  | full
  deriving DecidableEq, Repr

def JoinKind.text : JoinKind → String
  | .inner => "INNER JOIN"
  | .left => "LEFT JOIN"
  | .right => "RIGHT JOIN"
  | .full => "FULL JOIN"

/-- A table that is joined where two columns are equal. -/
structure Join where
  kind : JoinKind
  table : String
  left : ColumnPath
  right : ColumnPath
  deriving DecidableEq, Repr

inductive SortOrder where
  | ascending
  | descending
  deriving DecidableEq, Inhabited, Repr

def SortOrder.text : SortOrder → String
  | .ascending => "ASC"
  | .descending => "DESC"

/-- A query that selects rows. -/
structure Select where
  table : String
  /-- What is selected; everything when the list is empty. -/
  columns : List Expr := []
  distinct : Bool := false
  joins : List Join := []
  filter : Option Expr := none
  groupBy : List ColumnPath := []
  having : Option Expr := none
  orderBy : List (Expr × SortOrder) := []
  limit : Option Nat := none
  offset : Option Nat := none
  deriving Repr

namespace Select

/-- What can be said about a selection. -/
inductive Call where
  /-- Says what is selected, in the place of all columns. -/
  | columns (es : List Expr)
  | distinct
  | join (j : Join)
  /-- Says which rows count, in the place of what was said before. -/
  | filter (e : Expr)
  /-- Names further columns that rows are grouped by. -/
  | groupBy (columns : List ColumnPath)
  /-- Says which groups count, in the place of what was said before. -/
  | having (e : Expr)
  /-- Sorts rows that are alike so far. -/
  | orderBy (e : Expr) (order : SortOrder)
  | limit (n : Nat)
  | offset (n : Nat)
  deriving Repr

/-- All columns of a table. -/
def ofTable (table : String) : Select := ⟨table, [], false, [], none, [], none, [], none, none⟩

/-- The selection after one more call. -/
def apply (s : Select) : Call → Select
  | .columns es => { s with columns := es }
  | .distinct => { s with distinct := true }
  | .join j => { s with joins := s.joins ++ [j] }
  | .filter e => { s with filter := some e }
  | .groupBy columns => { s with groupBy := s.groupBy ++ columns }
  | .having e => { s with having := some e }
  | .orderBy e order => { s with orderBy := s.orderBy ++ [(e, order)] }
  | .limit n => { s with limit := some n }
  | .offset n => { s with offset := some n }

/-- What is selected from a table by calls, in order. -/
def ofCalls (table : String) (calls : List Call) : Select := calls.foldl apply (.ofTable table)

def joinPieces (j : Join) : List Piece :=
  [.text (" " ++ j.kind.text ++ " "), .name j.table, .text " ON "] ++ j.left.pieces
    ++ .text " = " :: j.right.pieces

def orderPieces (o : Expr × SortOrder) : List Piece := o.1.pieces ++ [.text (" " ++ o.2.text)]

/-- A clause that holds a number, if there is one. -/
def countPieces (keyword : String) : Option Nat → List Piece
  | none => []
  | some n => [.text (keyword ++ Text.Decimal.string n)]

/-- A clause that holds a list, unless the list is empty. -/
def listPieces (keyword : String) : List (List Piece) → List Piece
  | [] => []
  | ps => .text keyword :: Piece.commas ps

/-- The query in pieces. -/
def pieces (s : Select) : List Piece :=
  .text "SELECT " :: (if s.distinct then [.text "DISTINCT "] else [])
    ++ (if s.columns.isEmpty then [.text "*"] else Piece.commas (s.columns.map Expr.pieces))
    ++ [.text " FROM ", .name s.table]
    ++ s.joins.flatMap joinPieces
    ++ Piece.clause " WHERE " s.filter
    ++ listPieces " GROUP BY " (s.groupBy.map ColumnPath.pieces)
    ++ Piece.clause " HAVING " s.having
    ++ listPieces " ORDER BY " (s.orderBy.map orderPieces)
    ++ countPieces " LIMIT " s.limit
    ++ countPieces " OFFSET " s.offset

/-- The query in a dialect. -/
def toQuery (s : Select) (d : Dialect) : BoundQuery := Piece.toQuery d 0 s.pieces

end Select

end SchemaEvolution
