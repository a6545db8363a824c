import SchemaEvolution.Json.Reader
import SchemaEvolution.Schema.Decoder

/-!
# Histories as texts

The forms of the parts of a history, and the reading of a history from a text.
-/

namespace SchemaEvolution

open Json (Form ReadError)

namespace ColumnType

/-- The form of the content of a type with a name, which is no array. -/
def contentForm? : String → Option Form
  | "decimal" =>
    some (.tuple (Json.accepted (decodeDecimal .streamed)) [.number UInt8.size, .number UInt8.size])
  | "char" => some (.number UInt32.size)
  | "varchar" => some (.number UInt32.size)
  | "enum" => some .text
  | name => (ofName? name).map fun _ => .scalar (Json.accepted (decodeNothing .streamed))

def form : Form := .variant (Json.accepted (decode .streamed)) contentForm? "array"

end ColumnType

def ColumnShape.form : Form :=
  .ofFields (decode .streamed) fields
    [ColumnType.form, .scalar (Json.accepted Json.asBool), .optionalText]

def Property.form : Form := .tagged (Json.accepted decode) "name" .text false

def PropertyEdit.form : Form := .tagged (Json.accepted decode) "op" (.oneOf tags) true

def ConstraintEdit.form : Form := .tagged (Json.accepted decode) "op" (.oneOf tags) true

def IndexEdit.form : Form := .tagged (Json.accepted decode) "op" (.oneOf tags) true

def TableStep.form : Form :=
  .ofFields (decode .streamed) fields
    [.text, .optionalText, .list PropertyEdit.form, .list ConstraintEdit.form, .list IndexEdit.form]

def TableHistory.form : Form :=
  .ofFields (decode .streamed) fields [.text, .list TableStep.form]

def EnumStep.form : Form := .ofFields (decode .streamed) fields [.text, .list .text]

def EnumHistory.form : Form :=
  .ofFields (decode .streamed) fields [.text, .text, .list EnumStep.form]

def Enumeration.form : Form :=
  .ofFields (decode .streamed) fields [.text, .text, .list .text]

def FunctionStep.form : Form :=
  .ofFields (decode .streamed) fields [.text, .list ColumnType.form, ColumnType.form, .text]

def FunctionHistory.form : Form :=
  .ofFields (decode .streamed) fields [.text, .list FunctionStep.form]

namespace SchemaHistory

def form : Form :=
  .ofFields (decode .streamed) fields
    [.list TableHistory.form, .list EnumHistory.form, .list FunctionHistory.form]

/-- Reads a history from a value. -/
def ofValue (v : Json) : Except ReadError SchemaHistory := form.decode (decode .streamed) v

/-- Reads a history from a text. -/
def ofText (text : String) : Except ReadError SchemaHistory := do ofValue (← Json.read form text)

end SchemaHistory

end SchemaEvolution
