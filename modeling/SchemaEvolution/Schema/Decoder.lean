import SchemaEvolution.Json.Decoder
import SchemaEvolution.Schema.SchemaHistory

/-!
# Reading histories

The JSON form of a schema with its history. Types without detail are names, the others are objects
with one member; edits are objects tagged by `op`; everything else is a record of fields.

A property joins its name and its shape in one object, so it cannot be written as an array; the
name is read as it comes, and the shape is taken from the other members, which are held.
-/

namespace SchemaEvolution

open Json (ReadError Reading Record)

/-! ## Column types -/

namespace ColumnType

/-- The type without detail that has a name. -/
def ofName? : String → Option ColumnType
  | "serial" => some .serial
  | "big_serial" => some .bigSerial
  | "small_int" => some .smallInt
  | "integer" => some .integer
  | "big_int" => some .bigInt
  | "boolean" => some .boolean
  | "real" => some .real
  | "double" => some .double
  | "text" => some .text
  | "uuid" => some .uuid
  | "date" => some .date
  | "time" => some .time
  | "date_time" => some .dateTime
  | "timestamp" => some .timestamp
  | "blob" => some .blob
  | "json" => some .json
  | _ => none

/-- The content of a type that has none: `null`, or also `{}` in a held object. -/
def decodeNothing (reading : Reading) : Json → Except ReadError Unit
  | .null => .ok ()
  | .object [] => if reading = .held then .ok () else .error .mismatch
  | v => .error (v.unexpected .scalar)

/-- The two parts of a decimal type: an array of exactly two numbers. -/
def decodeDecimal (reading : Reading) : Json → Except ReadError ColumnType
  | .array (p :: s :: rest) => do
    let p ← p.asNat UInt8.size
    let s ← s.asNat UInt8.size
    if rest.isEmpty then return .decimal (UInt8.ofNat p) (UInt8.ofNat s)
    else throw reading.misfit
  | .array [p] => do
    let _ ← p.asNat UInt8.size
    throw .mismatch
  | v => .error (v.unexpected .array)

/-- Reads a column type. -/
def decode (reading : Reading) : Json → Except ReadError ColumnType
  | .string name =>
    match ofName? name with
    | some type => .ok type
    | none => .error .mismatch
  | .object ((key, content) :: rest) => do
    let type ←
      match key with
      | "decimal" => decodeDecimal reading content
      | "char" => (content.asNat UInt32.size).map fun n => .char (UInt32.ofNat n)
      | "varchar" => (content.asNat UInt32.size).map fun n => .varchar (UInt32.ofNat n)
      | "enum" => content.asString.map .enum
      | "array" => (decode reading content).map .array
      | name =>
        match ofName? name with
        | some type => (decodeNothing reading content).map fun _ => type
        | none => .error .mismatch
    if rest.isEmpty then return type else throw reading.misfit
  | .unreadable _ => .error .malformed
  | _ => .error reading.misfit

end ColumnType

/-! ## Columns -/

namespace ColumnShape

def fields : List String := ["type", "nullable", "default"]

def ofRecord (reading : Reading) (r : Record) : Except ReadError ColumnShape := do
  return {
    type := ← r.required "type" (ColumnType.decode reading)
    nullable := ← r.withDefault "nullable" false Json.asBool
    default := ← r.withDefault "default" none (Json.asOption Json.asString) }

def decode (reading : Reading) (v : Json) : Except ReadError ColumnShape :=
  v.asRecord reading fields (ofRecord reading)

end ColumnShape

/-- Reads a property: the name and the fields of the shape side by side. -/
def Property.decode : Json → Except ReadError Property
  | .object ms => do
    let (name, rest) ← Json.takeField "name" Json.asString ms
    return { name, shape := ← ColumnShape.ofRecord .held rest }
  | v => .error (v.unexpected .object)

/-! ## Tables -/

/-- A list of names. -/
def decodeNames (v : Json) : Except ReadError (List String) := v.asList Json.asString

def PropertyEdit.tags : List String := ["add", "rename", "retype", "remove"]

/-- Reads an edit of a property. -/
def PropertyEdit.decode (v : Json) : Except ReadError PropertyEdit := do
  let (op, v) ← v.asTagged "op" tags
  match op with
  | "add" =>
    v.asRecord .held ["name", "column"] fun r => do
      return .add (← r.required "name" Json.asString)
        (← r.required "column" (ColumnShape.decode .held))
  | "rename" =>
    v.asRecord .held ["name", "to"] fun r => do
      return .rename (← r.required "name" Json.asString) (← r.required "to" Json.asString)
  | "retype" =>
    v.asRecord .held ["name", "column"] fun r => do
      return .retype (← r.required "name" Json.asString)
        (← r.required "column" (ColumnShape.decode .held))
  | "remove" =>
    v.asRecord .held ["name"] fun r => do
      return .remove (← r.required "name" Json.asString)
  | _ => throw .mismatch

/-- Reads a name out of a list of names. A name may also be the key of an object with one member
without content. -/
def decodeName (reading : Reading) (ofName? : String → Option α) : Json → Except ReadError α
  | .string name =>
    match ofName? name with
    | some a => .ok a
    | none => .error .mismatch
  | .object ((name, content) :: rest) =>
    match ofName? name with
    | some a => do
      ColumnType.decodeNothing reading content
      if rest.isEmpty then return a else throw reading.misfit
    | none => .error .mismatch
  | .unreadable _ => .error .malformed
  | _ => .error reading.misfit

def KeyKind.ofName? : String → Option KeyKind
  | "primary_key" => some .primary
  | "foreign_key" => some .foreign
  | _ => none

def ConstraintEdit.tags : List String := ["add_primary_key", "add_foreign_key", "remove"]

/-- Reads an edit of a constraint. -/
def ConstraintEdit.decode (v : Json) : Except ReadError ConstraintEdit := do
  let (op, v) ← v.asTagged "op" tags
  match op with
  | "add_primary_key" =>
    v.asRecord .held ["name", "columns"] fun r => do
      return .addPrimaryKey (← r.required "name" Json.asString) (← r.required "columns" decodeNames)
  | "add_foreign_key" =>
    v.asRecord .held ["name", "column", "references", "referenced_column"] fun r => do
      return .addForeignKey (← r.required "name" Json.asString)
        (← r.required "column" Json.asString) (← r.required "references" Json.asString)
        (← r.required "referenced_column" Json.asString)
  | "remove" =>
    v.asRecord .held ["kind", "name"] fun r => do
      return .remove (← r.required "kind" (decodeName .held KeyKind.ofName?))
        (← r.required "name" Json.asString)
  | _ => throw .mismatch

def IndexKind.ofName? : String → Option IndexKind
  | "index" => some .plain
  | "unique_index" => some .unique
  | _ => none

def IndexEdit.tags : List String := ["add", "remove"]

/-- Reads an edit of an index. An index is a plain one unless something else is said. -/
def IndexEdit.decode (v : Json) : Except ReadError IndexEdit := do
  let (op, v) ← v.asTagged "op" tags
  match op with
  | "add" =>
    v.asRecord .held ["kind", "name", "columns"] fun r => do
      return .add (← r.withDefault "kind" .plain (decodeName .held IndexKind.ofName?))
        (← r.required "name" Json.asString) (← r.required "columns" decodeNames)
  | "remove" =>
    v.asRecord .held ["kind", "name"] fun r => do
      return .remove (← r.withDefault "kind" .plain (decodeName .held IndexKind.ofName?))
        (← r.required "name" Json.asString)
  | _ => throw .mismatch

def TableStep.fields : List String := ["version", "name", "properties", "constraints", "indices"]

/-- Reads a step of a table. -/
def TableStep.decode (reading : Reading) (v : Json) : Except ReadError TableStep :=
  v.asRecord reading fields fun r => return {
    version := ← r.required "version" Json.asString
    name := ← r.withDefault "name" none (Json.asOption Json.asString)
    properties := ← r.withDefault "properties" [] (Json.asList PropertyEdit.decode)
    constraints := ← r.withDefault "constraints" [] (Json.asList ConstraintEdit.decode)
    indices := ← r.withDefault "indices" [] (Json.asList IndexEdit.decode) }

def TableHistory.fields : List String := ["id", "changes"]

/-- Reads a table. -/
def TableHistory.decode (reading : Reading) (v : Json) : Except ReadError TableHistory :=
  v.asRecord reading fields fun r => return {
    id := ← r.required "id" Json.asString
    steps := ← r.withDefault "changes" [] (Json.asList (TableStep.decode reading)) }

/-! ## Enums and functions -/

def EnumStep.fields : List String := ["version", "values"]

def EnumStep.decode (reading : Reading) (v : Json) : Except ReadError EnumStep :=
  v.asRecord reading fields fun r => return {
    version := ← r.required "version" Json.asString
    values := ← r.required "values" decodeNames }

def EnumHistory.fields : List String := ["name", "reference", "changes"]

/-- Reads an enum. -/
def EnumHistory.decode (reading : Reading) (v : Json) : Except ReadError EnumHistory :=
  v.asRecord reading fields fun r => return {
    name := ← r.required "name" Json.asString
    reference := ← r.required "reference" Json.asString
    steps := ← r.withDefault "changes" [] (Json.asList (EnumStep.decode reading)) }

def Enumeration.fields : List String := ["name", "reference", "values"]

/-- Reads an enum with its values. -/
def Enumeration.decode (reading : Reading) (v : Json) : Except ReadError Enumeration :=
  v.asRecord reading fields fun r => return {
    name := ← r.required "name" Json.asString
    reference := ← r.required "reference" Json.asString
    values := ← r.required "values" decodeNames }

def FunctionStep.fields : List String := ["version", "parameters", "returns", "body"]

def FunctionStep.decode (reading : Reading) (v : Json) : Except ReadError FunctionStep :=
  v.asRecord reading fields fun r => return {
    version := ← r.required "version" Json.asString
    parameters := ← r.withDefault "parameters" [] (Json.asList (ColumnType.decode reading))
    returns := ← r.required "returns" (ColumnType.decode reading)
    body := ← r.required "body" Json.asString }

def FunctionHistory.fields : List String := ["name", "versions"]

/-- Reads a function. -/
def FunctionHistory.decode (reading : Reading) (v : Json) : Except ReadError FunctionHistory :=
  v.asRecord reading fields fun r => return {
    name := ← r.required "name" Json.asString
    steps := ← r.withDefault "versions" [] (Json.asList (FunctionStep.decode reading)) }

/-! ## The whole document -/

namespace SchemaHistory

def fields : List String := ["tables", "enums", "functions"]

/-- Reads a history. -/
def decode (reading : Reading) (v : Json) : Except ReadError SchemaHistory :=
  v.asRecord reading fields fun r => return {
    tables := ← r.withDefault "tables" [] (Json.asList (TableHistory.decode reading))
    enums := ← r.withDefault "enums" [] (Json.asList (EnumHistory.decode reading))
    functions := ← r.withDefault "functions" [] (Json.asList (FunctionHistory.decode reading)) }

end SchemaHistory

end SchemaEvolution
