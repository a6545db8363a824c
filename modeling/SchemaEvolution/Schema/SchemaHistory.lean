import SchemaEvolution.Schema.EnumHistory
import SchemaEvolution.Schema.FunctionHistory
import SchemaEvolution.Schema.TableHistory
import SchemaEvolution.Schema.Timeline

/-!
# Histories of schemas

Everything that a changelog is computed from: the histories of tables, enums and functions. The
timeline of a schema is made of all labels that occur in them.
-/

namespace SchemaEvolution

/-- The tables, enums and functions of a schema, with their histories. -/
structure SchemaHistory where
  tables : List TableHistory := []
  enums : List EnumHistory := []
  functions : List FunctionHistory := []
  deriving DecidableEq, Inhabited, Repr

namespace SchemaHistory

/-- Every label that a table, an enum or a function uses, in the order of the document. -/
def labels (h : SchemaHistory) : List String :=
  h.tables.flatMap (·.steps.map (·.version))
    ++ h.enums.flatMap (·.steps.map (·.version))
    ++ h.functions.flatMap (·.steps.map (·.version))

/-- The timeline of the whole schema. -/
def timeline (h : SchemaHistory) : List String := Timeline.ofLabels h.labels

/-- The first table with an id. -/
def table? (h : SchemaHistory) (id : String) : Option TableHistory :=
  h.tables.find? (·.id == id)

/-- The first enum that a text designates. -/
def enum? (h : SchemaHistory) (text : String) : Option EnumHistory :=
  h.enums.find? (·.isDesignatedBy text)

/-- Appends a table. -/
def withTable (h : SchemaHistory) (t : TableHistory) : SchemaHistory :=
  { h with tables := h.tables ++ [t] }

/-- Appends an enum. -/
def withEnum (h : SchemaHistory) (e : EnumHistory) : SchemaHistory :=
  { h with enums := h.enums ++ [e] }

/-- Appends a function. -/
def withFunction (h : SchemaHistory) (f : FunctionHistory) : SchemaHistory :=
  { h with functions := h.functions ++ [f] }

end SchemaHistory

end SchemaEvolution
