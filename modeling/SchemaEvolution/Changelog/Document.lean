import SchemaEvolution.Changelog.Basic
import SchemaEvolution.Schema.Encoder
import SchemaEvolution.Schema.Form

/-!
# Changelogs as documents

The JSON form of a changelog. All five fields must be there; when a table occurs twice in a
document, the last one counts.
-/

namespace SchemaEvolution

open Json (Form ReadError Reading)

/-! ## Writing -/

def DescribedQuery.encode (q : DescribedQuery) : Json :=
  .object [("description", .string q.description), ("query", .string q.query)]

def VersionEntry.encode (e : VersionEntry) : Json :=
  .object [("version", .string e.version),
    ("statements", .array (e.queries.map DescribedQuery.encode))]

def FinalTable.encode (t : FinalTable) : Json :=
  .object [("name", .string t.name), ("properties", .array (t.properties.map Property.encode))]

namespace Changelog

def encode (c : Changelog) : Json :=
  .object [("versions", .strings c.versions),
    ("tables", .object (c.tables.entries.map fun e => (e.1, e.2.encode))),
    ("enum_changes", .array (c.enumEntries.map VersionEntry.encode)),
    ("function_changes", .array (c.functionEntries.map VersionEntry.encode)),
    ("table_changes", .array (c.tableEntries.map VersionEntry.encode))]

/-- The text of a changelog, on many lines. -/
def toText (c : Changelog) : String := c.encode.pretty

end Changelog

/-! ## Reading -/

def DescribedQuery.fields : List String := ["description", "query"]

def DescribedQuery.decode (reading : Reading) (v : Json) : Except ReadError DescribedQuery :=
  v.asRecord reading fields fun r => return {
    description := ← r.required "description" Json.asString
    query := ← r.required "query" Json.asString }

def DescribedQuery.form : Form := .ofFields (decode .streamed) fields [.text, .text]

def VersionEntry.fields : List String := ["version", "statements"]

def VersionEntry.decode (reading : Reading) (v : Json) : Except ReadError VersionEntry :=
  v.asRecord reading fields fun r => return {
    version := ← r.required "version" Json.asString
    queries := ← r.required "statements" (Json.asList (DescribedQuery.decode reading)) }

def VersionEntry.form : Form :=
  .ofFields (decode .streamed) fields [.text, .list DescribedQuery.form]

def FinalTable.fields : List String := ["name", "properties"]

def FinalTable.decode (reading : Reading) (v : Json) : Except ReadError FinalTable :=
  v.asRecord reading fields fun r => return {
    name := ← r.required "name" Json.asString
    properties := ← r.required "properties" (Json.asList Property.decode) }

def FinalTable.form : Form := .ofFields (decode .streamed) fields [.text, .list Property.form]

namespace Changelog

def fields : List String :=
  ["versions", "tables", "enum_changes", "function_changes", "table_changes"]

def decode (reading : Reading) (v : Json) : Except ReadError Changelog :=
  let entries := Json.asList (VersionEntry.decode reading)
  v.asRecord reading fields fun r => return {
    versions := ← r.required "versions" decodeNames
    tables := SortedMap.ofList
      (← r.required "tables" (Json.asMembers (FinalTable.decode reading)))
    enumEntries := ← r.required "enum_changes" entries
    functionEntries := ← r.required "function_changes" entries
    tableEntries := ← r.required "table_changes" entries }

def form : Form :=
  .ofFields (decode .streamed) fields
    [.list .text, .members FinalTable.form, .list VersionEntry.form, .list VersionEntry.form,
      .list VersionEntry.form]

/-- Reads a changelog from a value. -/
def ofValue (v : Json) : Except ReadError Changelog := form.decode (decode .streamed) v

/-- Reads a changelog from a text. -/
def ofText (text : String) : Except ReadError Changelog := do ofValue (← Json.read form text)

end Changelog

end SchemaEvolution
