import SchemaEvolution.Schema.ColumnType

/-!
# Histories of functions

A function is created anew in each step of its history; bodies are never compared.
-/

namespace SchemaEvolution

/-- A function as it is created at one version. -/
structure FunctionStep where
  version : String
  parameters : List ColumnType := []
  returns : ColumnType
  body : String
  deriving DecidableEq, Inhabited, Repr

/-- A function and its steps. -/
structure FunctionHistory where
  name : String
  steps : List FunctionStep := []
  deriving DecidableEq, Inhabited, Repr

/-- Appends a step. -/
def FunctionHistory.withStep (f : FunctionHistory) (s : FunctionStep) : FunctionHistory :=
  { f with steps := f.steps ++ [s] }

end SchemaEvolution
