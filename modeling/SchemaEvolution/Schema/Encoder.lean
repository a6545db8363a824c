import SchemaEvolution.Json.Printer
import SchemaEvolution.Schema.SchemaHistory

/-!
# Writing histories

The JSON form that the decoders read. Every field is written, in the order in which its type
declares it, except a name or a default that is not set.
-/

namespace SchemaEvolution

/-- A member that is left out when there is no value. -/
def Json.optionalMember (key : String) : Option String → List (String × Json)
  | none => []
  | some s => [(key, .string s)]

/-! ## Columns -/

/-- The JSON form of a column type. -/
def ColumnType.encode : ColumnType → Json
  | .serial => .string "serial"
  | .bigSerial => .string "big_serial"
  | .smallInt => .string "small_int"
  | .integer => .string "integer"
  | .bigInt => .string "big_int"
  | .boolean => .string "boolean"
  | .real => .string "real"
  | .double => .string "double"
  | .decimal precision scale =>
    .object [("decimal", .array [.int precision.toNat, .int scale.toNat])]
  | .char length => .object [("char", .int length.toNat)]
  | .varchar length => .object [("varchar", .int length.toNat)]
  | .text => .string "text"
  | .uuid => .string "uuid"
  | .date => .string "date"
  | .time => .string "time"
  | .dateTime => .string "date_time"
  | .timestamp => .string "timestamp"
  | .blob => .string "blob"
  | .json => .string "json"
  | .enum reference => .object [("enum", .string reference)]
  | .array element => .object [("array", element.encode)]

/-- The members that say what a column holds. -/
def ColumnShape.members (shape : ColumnShape) : List (String × Json) :=
  [("type", shape.type.encode), ("nullable", .bool shape.nullable)]
    ++ Json.optionalMember "default" shape.default

def ColumnShape.encode (shape : ColumnShape) : Json := .object shape.members

/-- The JSON form of a property: the name, then the members of the shape. -/
def Property.encode (p : Property) : Json := .object (("name", .string p.name) :: p.shape.members)

/-! ## Tables -/

def PropertyEdit.encode : PropertyEdit → Json
  | .add name shape =>
    .object [("op", .string "add"), ("name", .string name), ("column", shape.encode)]
  | .rename name new =>
    .object [("op", .string "rename"), ("name", .string name), ("to", .string new)]
  | .retype name shape =>
    .object [("op", .string "retype"), ("name", .string name), ("column", shape.encode)]
  | .remove name => .object [("op", .string "remove"), ("name", .string name)]

def KeyKind.text : KeyKind → String
  | .primary => "primary_key"
  | .foreign => "foreign_key"

def ConstraintEdit.encode : ConstraintEdit → Json
  | .addPrimaryKey name columns =>
    .object [("op", .string "add_primary_key"), ("name", .string name),
      ("columns", .strings columns)]
  | .addForeignKey name column references referencedColumn =>
    .object [("op", .string "add_foreign_key"), ("name", .string name),
      ("column", .string column), ("references", .string references),
      ("referenced_column", .string referencedColumn)]
  | .remove kind name =>
    .object [("op", .string "remove"), ("kind", .string kind.text), ("name", .string name)]

def IndexKind.text : IndexKind → String
  | .plain => "index"
  | .unique => "unique_index"

def IndexEdit.encode : IndexEdit → Json
  | .add kind name columns =>
    .object [("op", .string "add"), ("kind", .string kind.text), ("name", .string name),
      ("columns", .strings columns)]
  | .remove kind name =>
    .object [("op", .string "remove"), ("kind", .string kind.text), ("name", .string name)]

def TableStep.encode (s : TableStep) : Json :=
  .object ([("version", .string s.version)] ++ Json.optionalMember "name" s.name
    ++ [("properties", .array (s.properties.map PropertyEdit.encode)),
      ("constraints", .array (s.constraints.map ConstraintEdit.encode)),
      ("indices", .array (s.indices.map IndexEdit.encode))])

def TableHistory.encode (t : TableHistory) : Json :=
  .object [("id", .string t.id), ("changes", .array (t.steps.map TableStep.encode))]

/-! ## Enums and functions -/

def EnumStep.encode (s : EnumStep) : Json :=
  .object [("version", .string s.version), ("values", .strings s.values)]

def EnumHistory.encode (e : EnumHistory) : Json :=
  .object [("name", .string e.name), ("reference", .string e.reference),
    ("changes", .array (e.steps.map EnumStep.encode))]

def Enumeration.encode (s : Enumeration) : Json :=
  .object [("name", .string s.name), ("reference", .string s.reference),
    ("values", .strings s.values)]

def FunctionStep.encode (s : FunctionStep) : Json :=
  .object [("version", .string s.version),
    ("parameters", .array (s.parameters.map ColumnType.encode)), ("returns", s.returns.encode),
    ("body", .string s.body)]

def FunctionHistory.encode (f : FunctionHistory) : Json :=
  .object [("name", .string f.name), ("versions", .array (f.steps.map FunctionStep.encode))]

/-! ## The whole document -/

namespace SchemaHistory

def encode (h : SchemaHistory) : Json :=
  .object [("tables", .array (h.tables.map TableHistory.encode)),
    ("enums", .array (h.enums.map EnumHistory.encode)),
    ("functions", .array (h.functions.map FunctionHistory.encode))]

/-- The text of a history, on one line. -/
def toText (h : SchemaHistory) : String := h.encode.compact

end SchemaHistory

end SchemaEvolution
