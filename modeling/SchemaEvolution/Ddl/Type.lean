import SchemaEvolution.Ddl.Statement
import SchemaEvolution.Dialect.Declaration
import SchemaEvolution.Schema.FunctionHistory

/-!
# Operations on enums and functions

Only PostgreSQL has enums of its own. In MySQL the values stand in the columns, so each column that
uses an enum is declared again when the enum grows. SQLite has neither enums nor functions.
-/

namespace SchemaEvolution

/-- A column whose type is an enum, and the table that it is in. -/
structure EnumUse where
  table : String
  property : Property
  deriving DecidableEq, Repr

namespace Dialect

/-! ## Enums -/

def enumCreation (d : Dialect) (s : Enumeration) : List Ddl :=
  match d with
  | .postgres => [.createType s.name s.values]
  | _ => []

/-- Adds values to an enum, which has them already in `s`. `uses` are the columns of this type. -/
def enumGrowth (d : Dialect) (s : Enumeration) (added : List String) (uses : List EnumUse) :
    Except SchemaFault (List Ddl) :=
  match d with
  | .mysql => uses.mapM fun u => (declaration .mysql u.property s.scope).map (.modifyColumn u.table)
  | .postgres => .ok (added.map (.addValue s.name))
  | .sqlite => .ok []

/-! ## Functions -/

/-- The name that a parameter goes by in messages, and in MySQL in the function itself. Parameters
count from one. -/
def parameterName (position : Nat) : String := "p" ++ Text.Decimal.string position

/-- The types of the parameters, from a position on. -/
def parameterTypes (d : Dialect) (function : String) :
    Nat → List ColumnType → Except SchemaFault (List String)
  | _, [] => .ok []
  | position, type :: types => do
    let type ← d.typeName (function ++ "." ++ parameterName position) type EnumScope.empty
    let types ← parameterTypes d function (position + 1) types
    return type :: types

/-- Creates a function, in place of what it was before. -/
def functionCreation (d : Dialect) (function : String) (s : FunctionStep) :
    Except SchemaFault (List Ddl) :=
  match d with
  | .sqlite => .ok []
  | d => do
    let types ← d.parameterTypes function 1 s.parameters
    let returns ← d.typeName function s.returns EnumScope.empty
    match d with
    | .mysql =>
      let parameters := types.mapIdx fun i type => parameterName (i + 1) ++ " " ++ type
      return [.dropFunction function, .createFunction function parameters returns s.body]
    | _ => return [.createFunction function types returns s.body]

end Dialect

end SchemaEvolution
