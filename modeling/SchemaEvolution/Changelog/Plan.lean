import SchemaEvolution.Changelog.LiveSchema

/-!
# Computing a changelog

The timeline is walked once for the tables; what that tells about enums then gives the enum
operations, and functions are created anew in each of their steps. Operations are described in this
order: tables, enums, functions. In the changelog the queries of each kind stand under their
versions.
-/

namespace SchemaEvolution

/-- What is done about functions, in the order of the document. -/
def functionOperations (c : Setting) : Except SchemaFault (List Operation) := do
  let operations ← c.history.functions.mapM fun f =>
    f.steps.mapM fun s => do
      let statements ← c.dialect.functionCreation f.name s
      return Operation.mk s.version ("create-function-" ++ f.name) statements
  return operations.flatten

/-- Refuses tables with more than one serial column. -/
def checkSerials : List LiveTable → Except SchemaFault Unit
  | [] => .ok ()
  | t :: ts => if 1 < t.serials then .error (.multipleSerial t.name) else checkSerials ts

namespace LiveSchema.Walk

/-- The columns of enum types that there were before a version. -/
def usesAt (w : Walk) (version : String) : List EnumUse :=
  ((w.uses.find? (·.1 == version)).map (·.2)).getD []

end LiveSchema.Walk

namespace Changelog

/-- All that is done in the database, before it is described and written. -/
structure Plan where
  walk : LiveSchema.Walk
  enums : List Operation
  functions : List Operation

/-- Plans what takes a database along the whole timeline. -/
def plan (c : Setting) : Except SchemaFault Plan := do
  let start ← LiveSchema.start c.history
  let walk ← start.walk c c.history.timeline
  checkSerials walk.final.tables
  let enums ← walk.final.enums.operations c.dialect walk.usesAt
  let functions ← functionOperations c
  return ⟨walk, enums, functions⟩

/-- The changelog of a plan. -/
def ofPlan (c : Setting) (p : Plan) : Changelog :=
  let versions := c.history.timeline
  let tables := describeAll c.dialect [] p.walk.operations
  let enums := describeAll c.dialect tables.2 p.enums
  let functions := describeAll c.dialect enums.2 p.functions
  { versions
    tables := SortedMap.ofList (p.walk.final.tables.map fun t => (t.id, t.final))
    enumEntries := gather versions enums.1
    functionEntries := gather versions functions.1
    tableEntries := gather versions tables.1 }

/-- Computes the changelog of a history for a dialect. -/
def ofHistory (dialect : Dialect) (history : SchemaHistory) : Except SchemaFault Changelog :=
  (plan ⟨dialect, history⟩).map (ofPlan ⟨dialect, history⟩)

end Changelog

end SchemaEvolution
