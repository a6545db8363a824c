import SchemaEvolution.Query.BoundValue

/-!
# Expressions

Conditions and other expressions of queries. Conjunctions and disjunctions take any number of
parts; joining two of a kind gives one of that kind, with the parts of both.
-/

namespace SchemaEvolution

/-- A column, with the table that it is in if that has to be said. -/
structure ColumnPath where
  table : Option String
  name : String
  deriving DecidableEq, Inhabited, Repr

inductive Aggregate where
  | count
  | sum
  | avg
  | min
  | max
  deriving DecidableEq, Repr

def Aggregate.text : Aggregate → String
  | .count => "COUNT"
  | .sum => "SUM"
  | .avg => "AVG"
  | .min => "MIN"
  | .max => "MAX"

inductive ArithmeticOp where
  | add
  | sub
  | mul
  | div
  deriving DecidableEq, Repr

def ArithmeticOp.text : ArithmeticOp → String
  | .add => "+"
  | .sub => "-"
  | .mul => "*"
  | .div => "/"

inductive ComparisonOp where
  | eq
  | notEq
  | lt
  | ltEq
  | gt
  | gtEq
  | like
  | notLike
  deriving DecidableEq, Repr

def ComparisonOp.text : ComparisonOp → String
  | .eq => "="
  | .notEq => "<>"
  | .lt => "<"
  | .ltEq => "<="
  | .gt => ">"
  | .gtEq => ">="
  | .like => "LIKE"
  | .notLike => "NOT LIKE"

/-- An expression. -/
inductive Expr where
  | column (c : ColumnPath)
  | constant (v : BoundValue)
  /-- An aggregate of a column, or of all rows. -/
  | aggregate (f : Aggregate) (c : Option ColumnPath)
  | math (left : Expr) (op : ArithmeticOp) (right : Expr)
  | compare (left : Expr) (op : ComparisonOp) (right : Expr)
  | between (value low high : Expr)
  | inSet (value : Expr) (set : List Expr) (negated : Bool)
  | all (parts : List Expr)
  | any (parts : List Expr)
  | not (e : Expr)
  deriving Inhabited, Repr

namespace Expr

/-- The parts of a conjunction; anything else is its only part. -/
def conjuncts : Expr → List Expr
  | .all parts => parts
  | e => [e]

/-- The parts of a disjunction; anything else is its only part. -/
def disjuncts : Expr → List Expr
  | .any parts => parts
  | e => [e]

/-- The conjunction of two expressions. -/
def and (a b : Expr) : Expr := .all (a.conjuncts ++ b.conjuncts)

/-- The disjunction of two expressions. -/
def or (a b : Expr) : Expr := .any (a.disjuncts ++ b.disjuncts)

/-- The number of all rows. -/
def countAll : Expr := .aggregate .count none

/-- Whether an expression is written without operators. -/
def isAtomic : Expr → Bool
  | .column _ => true
  | .constant _ => true
  | .aggregate _ _ => true
  | _ => false

end Expr

end SchemaEvolution
