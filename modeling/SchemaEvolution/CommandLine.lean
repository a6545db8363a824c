import SchemaEvolution.Changelog.Plan
import SchemaEvolution.Changelog.Document

/-!
# The command line

The command `changelog` reads a definitions document and prints its changelog, as SQL with comments
or as JSON. Everything but the reading of the file and the printing is done here.
-/

namespace SchemaEvolution.CommandLine

open Json (ReadError)

/-! ## Options -/

/-- What the user asks for. -/
structure Options where
  /-- The file that holds the definitions. -/
  path : String
  dialect : Dialect
  json : Bool
  deriving DecidableEq, Repr

/-- The file that is read when none is named. -/
def standardPath : String := "definitions.json"

/-- The options that follow the command, none of them twice: the dialect, if one is named, and
whether JSON is wanted. -/
def parseChangelog (dialect : Option Dialect) (json : Bool) :
    List String → Option (Option Dialect × Bool)
  | [] => some (dialect, json)
  | "--json" :: rest => if json then none else parseChangelog dialect true rest
  | "--dialect" :: name :: rest =>
    match dialect, Dialect.ofUserName? name with
    | none, some d => parseChangelog (some d) json rest
    | _, _ => none
  | _ => none

/-- The options of a command line, if it asks for something that there is. The dialect is that of
SQLite unless another one is named. -/
def parse : List String → Option Options
  | "--definitions" :: path :: "changelog" :: rest =>
    (parseChangelog none false rest).map fun o => ⟨path, o.1.getD .sqlite, o.2⟩
  | "changelog" :: rest =>
    (parseChangelog none false rest).map fun o => ⟨standardPath, o.1.getD .sqlite, o.2⟩
  | _ => none

/-- What a user is told who asks for anything else. -/
def usage : String :=
  "usage: [--definitions FILE] changelog [--dialect mysql|postgres|sqlite] [--json]"

/-! ## Failures -/

/-- Why there is no changelog to print. -/
inductive Failure where
  | usage
  /-- The file cannot be read. -/
  | io (message : String)
  | document (path : String) (e : ReadError)
  | schema (e : SchemaFault)

namespace Failure

def exitCode : Failure → Nat
  | .usage => 2
  | _ => 1

/-- What went wrong at the bottom. -/
def cause : Failure → String
  | .usage => CommandLine.usage
  | .io message => message
  | .document _ .malformed => "the text is not JSON"
  | .document _ .unfinished => "the text ends too early"
  | .document _ .mismatch => "the document is not of the expected shape"
  | .schema e => e.message

/-- What the cause is put under. -/
def heading : Failure → String
  | .usage => ""
  | .io _ => "IO error: "
  | .document path _ => "Failed to parse definitions '" ++ path ++ "': "
  | .schema _ => "Schema error: "

/-- A text whose lines after the first begin further to the right. -/
def indented (text : String) : String :=
  String.ofList (text.toList.flatMap fun c => if c = '\n' then "\n    ".toList else [c])

/-- What is written to the error output. -/
def report (f : Failure) : String :=
  match f with
  | .usage => CommandLine.usage ++ "\n"
  | f =>
    "Error: " ++ f.heading ++ f.cause ++ "\n\nCaused by:\n    " ++ indented f.cause ++ "\n"

end Failure

/-- What is said when there is no file at a path. -/
def missingFile : String := "No such file or directory (os error 2)"

/-! ## The command -/

/-- A changelog as SQL: each version with its queries, and a blank line after it. -/
def sqlText (c : Changelog) : String :=
  String.join (c.entries.map fun entry =>
    "-- version " ++ entry.version ++ "\n"
      ++ String.join (entry.queries.map fun q =>
        "-- " ++ q.description ++ "\n" ++ q.query ++ ";\n")
      ++ "\n")

/-- What is written about a changelog before it is printed. -/
def logLine (d : Dialect) (c : Changelog) : String :=
  " INFO changelog built dialect=" ++ d.name
    ++ " versions=" ++ Text.Decimal.string c.versions.length
    ++ " statements=" ++ Text.Decimal.string c.size

/-- What is written to the standard output. -/
structure Output where
  log : String
  text : String
  deriving DecidableEq, Repr

/-- Runs the command on the content of the file, or on what is said when it cannot be read. -/
def run (o : Options) (content : Except String String) : Except Failure Output := do
  let text ← content.mapError Failure.io
  let history ← (SchemaHistory.ofText text).mapError (Failure.document o.path)
  let changelog ← (Changelog.ofHistory o.dialect history).mapError Failure.schema
  return {
    log := logLine o.dialect changelog
    text := if o.json then changelog.toText ++ "\n" else sqlText changelog }

end SchemaEvolution.CommandLine
