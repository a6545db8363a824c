import SchemaEvolution.Dialect.Basic
import SchemaEvolution.Query.Expr

/-!
# Queries in pieces

A query is put together from pieces: text of SQL, names, and values. Only when a `Writer` writes it
are names quoted as the dialect has it, and values replaced by parameters. Parameters are called
`p1`, `p2` and so on, in the order of the values; a query may go on counting where another one
ended, because a writer keeps how many are in use.
-/

namespace SchemaEvolution

/-- A piece of a query. -/
inductive Piece where
  | text (s : String)
  | name (s : String)
  | value (v : BoundValue)
  deriving DecidableEq, Repr

/-- A value and the parameter that it is bound to. -/
structure Binding where
  name : String
  value : BoundValue
  deriving DecidableEq, Inhabited, Repr

/-- A query as it is sent: its text, and what its parameters stand for. -/
structure BoundQuery where
  sql : String
  bindings : List Binding
  deriving DecidableEq, Inhabited, Repr

/-- The name of a parameter. -/
def parameter (n : Nat) : String := "p" ++ Text.Decimal.string n

/-- The next parameter when `issued` are in use, and how many are in use then. -/
def nextParameter (issued : Nat) : String × Nat := (parameter (issued + 1), issued + 1)

/-- What has been written of a query, and how many parameters are in use. -/
structure Writer where
  issued : Nat
  query : BoundQuery
  deriving DecidableEq, Repr

namespace Writer

/-- A writer that has written nothing, when `issued` parameters are in use. -/
def start (issued : Nat) : Writer := ⟨issued, ⟨"", []⟩⟩

/-- Writes one more piece. A value takes the next parameter. -/
def write (d : Dialect) (w : Writer) : Piece → Writer
  | .text s => { w with query.sql := w.query.sql ++ s }
  | .name s => { w with query.sql := w.query.sql ++ d.quote s }
  | .value v =>
    let (name, issued) := nextParameter w.issued
    ⟨issued, w.query.sql ++ (":" ++ name), w.query.bindings ++ [⟨name, v⟩]⟩

/-- Writes pieces one after another. -/
def writeAll (d : Dialect) (w : Writer) (ps : List Piece) : Writer := ps.foldl (write d) w

end Writer

namespace Piece

/-- Writes pieces as a query that goes on counting parameters. -/
def toQuery (d : Dialect) (issued : Nat) (ps : List Piece) : BoundQuery :=
  ((Writer.start issued).writeAll d ps).query

/-- Puts commas between lists of pieces. -/
def commas : List (List Piece) → List Piece
  | [] => []
  | [ps] => ps
  | ps :: qs :: rest => ps ++ .text ", " :: commas (qs :: rest)

/-- Names with commas between them. -/
def names (ns : List String) : List Piece := commas (ns.map fun n => [.name n])

/-- Puts pieces in parentheses. -/
def parenthesized (ps : List Piece) : List Piece := .text "(" :: ps ++ [.text ")"]

end Piece

/-! ## Expressions in pieces -/

/-- A column, after its table if it has one. -/
def ColumnPath.pieces (c : ColumnPath) : List Piece :=
  match c.table with
  | some table => [.name table, .text ".", .name c.name]
  | none => [.name c.name]

namespace Expr

/-- An operand stands in parentheses unless it is atomic. -/
def asOperand (e : Expr) (ps : List Piece) : List Piece :=
  if e.isAtomic then ps else Piece.parenthesized ps

mutual

/-- An expression in pieces. A test against a set of one element is a comparison, and one against
the empty set is decided. -/
def pieces : Expr → List Piece
  | .column c => c.pieces
  | .constant v => [.value v]
  | .aggregate f none => [.text f.text, .text "(", .text "*", .text ")"]
  | .aggregate f (some c) => .text f.text :: Piece.parenthesized c.pieces
  | .math l op r => asOperand l l.pieces ++ .text (" " ++ op.text ++ " ") :: asOperand r r.pieces
  | .compare l op r =>
    asOperand l l.pieces ++ .text (" " ++ op.text ++ " ") :: asOperand r r.pieces
  | .between v low high =>
    asOperand v v.pieces ++ .text " BETWEEN " :: asOperand low low.pieces
      ++ .text " AND " :: asOperand high high.pieces
  | .inSet _ [] negated => [.text (if negated then "TRUE" else "FALSE")]
  | .inSet v [e] negated =>
    let op := if negated then ComparisonOp.notEq else .eq
    asOperand v v.pieces ++ .text (" " ++ op.text ++ " ") :: asOperand e e.pieces
  | .inSet v (e :: f :: rest) negated =>
    asOperand v v.pieces ++ .text (if negated then " NOT IN (" else " IN (")
      :: asOperand e e.pieces ++ furtherOperands (f :: rest) ++ [.text ")"]
  | .all [] => [.text "TRUE"]
  | .all (e :: rest) => Piece.parenthesized e.pieces ++ furtherParts " AND " rest
  | .any [] => [.text "FALSE"]
  | .any (e :: rest) => Piece.parenthesized e.pieces ++ furtherParts " OR " rest
  | .not e => .text "NOT (" :: e.pieces ++ [.text ")"]

/-- The operands of a set after the first. -/
def furtherOperands : List Expr → List Piece
  | [] => []
  | e :: rest => .text ", " :: asOperand e e.pieces ++ furtherOperands rest

/-- The parts of a conjunction or disjunction after the first. -/
def furtherParts (separator : String) : List Expr → List Piece
  | [] => []
  | e :: rest => .text separator :: Piece.parenthesized e.pieces ++ furtherParts separator rest

end

/-- Writes an expression, when `issued` parameters have been used before. The writer holds what the
expression is as a query, and how many parameters are in use behind it. -/
def write (d : Dialect) (issued : Nat) (e : Expr) : Writer :=
  (Writer.start issued).writeAll d e.pieces

/-- An expression as a query, when `issued` parameters have been used before. -/
def toQuery (d : Dialect) (issued : Nat) (e : Expr) : BoundQuery := (e.write d issued).query

end Expr

/-- A clause that holds an expression, if there is one. -/
def Piece.clause (keyword : String) : Option Expr → List Piece
  | none => []
  | some e => .text keyword :: e.pieces

end SchemaEvolution
