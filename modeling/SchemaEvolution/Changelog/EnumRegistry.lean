import SchemaEvolution.Changelog.Description
import SchemaEvolution.Ddl.Type

/-!
# Enums along the timeline

A registry knows the timeline and the enums that some column has used so far. What an enum is at a
version follows from its history: it has gained everything up to there. As long as it has no value
it is not there at all.
-/

namespace SchemaEvolution

namespace EnumHistory

/-- What an enum is at each version of a timeline, when it is `current` before the first. -/
def snapshotsFrom (e : EnumHistory) (current : Enumeration) :
    List String → List (Option Enumeration)
  | [] => []
  | version :: versions =>
    let next :=
      match e.stepAt? version with
      | some step => current.gaining step.values
      | none => current
    (if next.values.isEmpty then none else some next) :: e.snapshotsFrom next versions

/-- What an enum is at each version of a timeline. -/
def snapshots (e : EnumHistory) (timeline : List String) : List (Option Enumeration) :=
  e.snapshotsFrom (.empty e) timeline

/-- What an enum is at one version of a timeline. -/
def snapshotAt? (e : EnumHistory) (timeline : List String) (version : String) :
    Option Enumeration :=
  ((timeline.zip (e.snapshots timeline)).find? (·.1 == version)).bind (·.2)

end EnumHistory

/-- The enums in use along a timeline. -/
structure EnumRegistry where
  timeline : List String
  /-- In the order in which they came into use. -/
  enums : List EnumHistory
  deriving DecidableEq, Repr

namespace EnumRegistry

/-- The registry without enums. -/
def ofTimeline (timeline : List String) : EnumRegistry := ⟨timeline, []⟩

/-- Takes an enum into use, unless there is one of the same name. -/
def register (g : EnumRegistry) (e : EnumHistory) : EnumRegistry :=
  if g.enums.any (·.name == e.name) then g else { g with enums := g.enums ++ [e] }

/-- The enum in use that a text designates. -/
def enum? (g : EnumRegistry) (text : String) : Option EnumHistory :=
  g.enums.find? (·.isDesignatedBy text)

/-- Whether a text designates an enum in use. -/
def isRegistered (g : EnumRegistry) (text : String) : Bool := (g.enum? text).isSome

/-- What the enum that a text designates is at a version. -/
def snapshot? (g : EnumRegistry) (text version : String) : Option Enumeration :=
  (g.enum? text).bind (·.snapshotAt? g.timeline version)

/-- The enums as they are at a version. -/
def scopeAt (g : EnumRegistry) (version : String) : EnumScope := fun text =>
  match g.enum? text with
  | none => .error (.unknownEnum text)
  | some e =>
    match e.snapshotAt? g.timeline version with
    | some s => .ok s
    | none => .error (.enumNotDefined text version)

/-! ## Operations -/

/-- What is done about an enum at a version: it is created with its first values, and later values
are added. `uses` are the columns of enum types that there are before the version. -/
def operation (d : Dialect) (e : EnumHistory) (version : String) (uses : List EnumUse)
    (before after : Option Enumeration) : Except SchemaFault (List Operation) :=
  match before, after with
  | _, none => .ok []
  | none, some now => .ok [⟨version, "create-enum-" ++ now.name, d.enumCreation now⟩]
  | some previous, some now =>
    if previous.values.length < now.values.length then do
      let uses := uses.filter fun u => u.property.shape.type.enumReference?.any e.isDesignatedBy
      let statements ← d.enumGrowth now (now.values.drop previous.values.length) uses
      return [⟨version, "add-enum-values-" ++ now.name, statements⟩]
    else .ok []

/-- What is done about all enums at the version that stands at a position of the timeline. -/
def operationsAt (d : Dialect) (g : EnumRegistry) (position : Nat) (version : String)
    (uses : List EnumUse) : Except SchemaFault (List Operation) := do
  let operations ← g.enums.mapM fun e =>
    let snapshots := e.snapshots g.timeline
    operation d e version uses (none :: snapshots)[position]?.join snapshots[position]?.join
  return operations.flatten

/-- What is done about all enums along the timeline. `uses` says which columns of enum types there
are before each version. -/
def operations (d : Dialect) (g : EnumRegistry) (uses : String → List EnumUse) :
    Except SchemaFault (List Operation) := do
  let operations ← g.timeline.zipIdx.mapM fun (version, position) =>
    g.operationsAt d position version (uses version)
  return operations.flatten

end EnumRegistry

end SchemaEvolution
