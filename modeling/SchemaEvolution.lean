import SchemaEvolution.Text.Blank
import SchemaEvolution.Text.DecimalDigit
import SchemaEvolution.Text.Quoted
import SchemaEvolution.Text.WordChar
import SchemaEvolution.Json.Printer
import SchemaEvolution.Json.Form
import SchemaEvolution.Json.Reader
import SchemaEvolution.Schema.SchemaHistory
import SchemaEvolution.Schema.Encoder
import SchemaEvolution.Schema.Form
import SchemaEvolution.Dialect.Declaration
import SchemaEvolution.Ddl.TableShape
import SchemaEvolution.Ddl.Type
import SchemaEvolution.Changelog.Plan
import SchemaEvolution.Changelog.Document
import SchemaEvolution.Query.Positional
import SchemaEvolution.Query.Select
import SchemaEvolution.Query.Modification
import SchemaEvolution.Query.Upsert
import SchemaEvolution.Migration.MarkerTable
import SchemaEvolution.Migration.Pending
import SchemaEvolution.CommandLine
import SchemaEvolution.Main
import SchemaEvolution.Proofs.Walk.ForEach
import SchemaEvolution.Proofs.Walk.Edits
import SchemaEvolution.Proofs.Walk.Tables
import SchemaEvolution.Proofs.Walk.Effect
import SchemaEvolution.Proofs.Walk.Sound
import SchemaEvolution.Proofs.Walk.Outline
import SchemaEvolution.Proofs.Walk.Replay
import SchemaEvolution.Proofs.SortedMap
import SchemaEvolution.Proofs.Walk.Start
import SchemaEvolution.Proofs.FinalTables
import SchemaEvolution.Proofs.Extension.Extends
import SchemaEvolution.Proofs.Extension.Snapshots
import SchemaEvolution.Proofs.Extension.Scope
import SchemaEvolution.Proofs.Extension.Wider
import SchemaEvolution.Proofs.Descriptions
import SchemaEvolution.Proofs.Extension.Beginning
import SchemaEvolution.Proofs.Extension.ReleasedTables
import SchemaEvolution.Proofs.Walk.Enums
import SchemaEvolution.Proofs.Extension.EnumOperations
import SchemaEvolution.Proofs.Extension.Unwritten
import SchemaEvolution.Proofs.Extension.ReleasedEnums
import SchemaEvolution.Proofs.Indices.Declared
import SchemaEvolution.Proofs.Walk.Changes
import SchemaEvolution.Proofs.Statements
import SchemaEvolution.Proofs.Sql
import SchemaEvolution.Proofs.Indices.Catalog
import SchemaEvolution.Proofs.Indices.Intact
import SchemaEvolution.Proofs.Indices.KeyStep
import SchemaEvolution.Proofs.Indices.Matching
import SchemaEvolution.Proofs.Indices.Sqlite
import SchemaEvolution.Proofs.Query.Marked
import SchemaEvolution.Proofs.Query.Separated
import SchemaEvolution.Proofs.Query.Positional
import SchemaEvolution.Proofs.Query.Readback
import SchemaEvolution.Proofs.Query.Unambiguous
import SchemaEvolution.Proofs.Dialects.Bare
import SchemaEvolution.Proofs.KeyNames
import SchemaEvolution.Proofs.Dialects.Acceptance
import SchemaEvolution.Proofs.Dialects.Alike
import SchemaEvolution.Proofs.Dialects.Lockstep
import SchemaEvolution.Proofs.Dialects.Operations
import SchemaEvolution.Proofs.Dialects.Rendering
import SchemaEvolution.Proofs.Keys.WellFormed
import SchemaEvolution.Proofs.Keys.Conditions
import SchemaEvolution.Proofs.Keys.SerialKey
import SchemaEvolution.Proofs.Keys.Paired
import SchemaEvolution.Proofs.Enums.Lookup
import SchemaEvolution.Proofs.Enums.Definition
import SchemaEvolution.Proofs.Enums.Stored
import SchemaEvolution.Proofs.Enums.Redefined
import SchemaEvolution.Proofs.Enums.InSync
import SchemaEvolution.Proofs.Enums.Gathered
import SchemaEvolution.Proofs.Enums.TypeSql
import SchemaEvolution.Proofs.Enums.Replayed
import SchemaEvolution.Proofs.Enums.CreatedFirst
import SchemaEvolution.Proofs.Query.Numbered
import SchemaEvolution.Proofs.Query.ValuesApart
import SchemaEvolution.Proofs.Items
import SchemaEvolution.Proofs.Keys.Standing
import SchemaEvolution.Proofs.Order.Agreement
import SchemaEvolution.Proofs.Order.Scopes
import SchemaEvolution.Proofs.Order.Edits
import SchemaEvolution.Proofs.Order.Rounds
import SchemaEvolution.Proofs.Order.Walks
import SchemaEvolution.Proofs.Order.EnumOperations
import SchemaEvolution.Proofs.Order.Permuted
import SchemaEvolution.Proofs.Entries.Merged
import SchemaEvolution.Proofs.Entries.Described
import SchemaEvolution.Proofs.Entries.Staged
import SchemaEvolution.Proofs.Json.Steps
import SchemaEvolution.Proofs.Json.Numeral
import SchemaEvolution.Proofs.Json.Strings
import SchemaEvolution.Proofs.Json.Written
import SchemaEvolution.Proofs.Documents.Faithful
import SchemaEvolution.Proofs.Documents.Histories
import SchemaEvolution.Proofs.Documents.RoundTrip
import SchemaEvolution.Proofs.Documents.Places
import SchemaEvolution.Proofs.Documents.Steady
import SchemaEvolution.Proofs.Documents.MemberOrder
import SchemaEvolution.Proofs.Dialects.Retyping
import SchemaEvolution.Proofs.Indices.Rebuilt
import SchemaEvolution.Proofs.Enums.Rerendered
import SchemaEvolution.Proofs.Words.Delimited
import SchemaEvolution.Proofs.Words.Escaped
import SchemaEvolution.Proofs.Defaults.Numerals
import SchemaEvolution.Proofs.Defaults.Moments
import SchemaEvolution.Proofs.Defaults.Canonical
import SchemaEvolution.Proofs.Query.Upserted
import SchemaEvolution.Proofs.Names.Current
import SchemaEvolution.Proofs.Names.Staging
