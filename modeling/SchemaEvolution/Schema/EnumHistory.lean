/-!
# Histories of enums

An enum gains values at some versions and never loses one. A text designates an enum when it is the
name that the enum has in SQL or the reference that columns use.
-/

namespace SchemaEvolution

/-- The values that an enum gains at one version. -/
structure EnumStep where
  version : String
  values : List String
  deriving DecidableEq, Inhabited, Repr

/-- An enum and what it gains at each version. -/
structure EnumHistory where
  name : String
  reference : String
  steps : List EnumStep := []
  deriving DecidableEq, Inhabited, Repr

namespace EnumHistory

/-- Whether a text designates this enum. -/
def isDesignatedBy (e : EnumHistory) (text : String) : Bool := e.reference == text || e.name == text

/-- What the enum gains at a version. When the version occurs more than once, the first counts. -/
def stepAt? (e : EnumHistory) (version : String) : Option EnumStep :=
  e.steps.find? (·.version == version)

/-- Appends a step. -/
def withStep (e : EnumHistory) (s : EnumStep) : EnumHistory := { e with steps := e.steps ++ [s] }

end EnumHistory

/-- An enum with the values that it has at one version. -/
structure Enumeration where
  name : String
  reference : String
  /-- In the order in which they were gained. -/
  values : List String
  deriving DecidableEq, Inhabited, Repr

namespace Enumeration

/-- The enum before it has any value. -/
def empty (e : EnumHistory) : Enumeration := ⟨e.name, e.reference, []⟩

/-- Appends a value unless it is there already. -/
def insertValue (values : List String) (value : String) : List String :=
  if value ∈ values then values else values ++ [value]

/-- The enum with further values, those left out that it has already. -/
def gaining (s : Enumeration) (values : List String) : Enumeration :=
  { s with values := values.foldl insertValue s.values }

/-- Whether a text designates the enum. -/
def isDesignatedBy (s : Enumeration) (text : String) : Bool := s.reference == text || s.name == text

end Enumeration

end SchemaEvolution
