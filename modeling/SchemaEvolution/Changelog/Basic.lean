import SchemaEvolution.Schema.Column
import SchemaEvolution.SortedMap

/-!
# Changelogs

A changelog lists, version by version, the queries that take a database from one version to the
next. Queries for enums, for functions and for tables are kept apart, and versions without any are
left out of the three lists; `Changelog.entries` merges them.
-/

namespace SchemaEvolution

/-- A query and what it is for. -/
structure DescribedQuery where
  description : String
  query : String
  deriving DecidableEq, Inhabited, Repr

/-- The queries of one version. -/
structure VersionEntry where
  version : String
  queries : List DescribedQuery
  deriving DecidableEq, Inhabited, Repr

/-- A table after the last version. -/
structure FinalTable where
  name : String
  properties : List Property
  deriving DecidableEq, Inhabited, Repr

/-- The queries of every version, and the tables that they lead to. -/
structure Changelog where
  /-- Every label, in the order of the timeline. -/
  versions : List String
  /-- The tables after the last version, by their ids. -/
  tables : SortedMap FinalTable
  enumEntries : List VersionEntry
  functionEntries : List VersionEntry
  tableEntries : List VersionEntry
  deriving DecidableEq, Inhabited

namespace Changelog

/-- The name of a table after the last version. -/
def finalName? (c : Changelog) (id : String) : Option String := (c.tables.get? id).map (·.name)

/-- The properties of a table after the last version. -/
def finalProperties? (c : Changelog) (id : String) : Option (List Property) :=
  (c.tables.get? id).map (·.properties)

/-- The queries that a list of entries has for a version. -/
def queriesAt (entries : List VersionEntry) (version : String) : List DescribedQuery :=
  match entries.find? (·.version == version) with
  | some e => e.queries
  | none => []

/-- Every version with its queries: first those for enums, then those for functions, then those for
tables. A version without queries is there too, so that a database can pass through it. -/
def entries (c : Changelog) : List VersionEntry :=
  c.versions.map fun version =>
    ⟨version, queriesAt c.enumEntries version ++ queriesAt c.functionEntries version
      ++ queriesAt c.tableEntries version⟩

/-- How many queries the three lists hold. -/
def size (c : Changelog) : Nat :=
  ((c.enumEntries ++ c.functionEntries ++ c.tableEntries).flatMap (·.queries)).length

end Changelog

end SchemaEvolution
