import SchemaEvolution.Default.Calendar
import SchemaEvolution.Default.Numeral
import SchemaEvolution.Fault
import SchemaEvolution.Schema.ColumnType

/-!
# Defaults in SQL

A default is written as plain text, and the type of its column says how it is read: as a boolean, a
number, a date or time, or a text. What is read is then written in the dialect. Texts keep their
blanks; everywhere else blanks at the ends do not count.
-/

namespace SchemaEvolution

namespace Default

open Text

/-- The default without blanks at its ends. -/
def trimmed (raw : String) : String := String.ofList (trim raw.toList)

/-- The words that stand for the moment of insertion. -/
def currentKeywords : List String := ["CURRENT_TIMESTAMP", "CURRENT_DATE", "CURRENT_TIME"]

/-- The canonical form of a date or time, as its type has it. -/
def canonical (type : ColumnType) (raw : String) : Option String :=
  let cs := trim raw.toList
  match type with
  | .date => (date? cs).map fun d => String.ofList (writeDate d)
  | .time => (clock? cs).map fun c => String.ofList (writeClock c)
  | _ => (moment? cs).map fun m => String.ofList (writeMoment m)

end Default

namespace Dialect

/-- The pattern of a date or time that MySQL is told to read it by. -/
def temporalPattern : ColumnType → String
  | .date => "%Y-%m-%d"
  | .time => "%H:%i:%s"
  | _ => "%Y-%m-%d %H:%i:%s"

/-- A date or time in canonical form, as a default. -/
def temporalText (d : Dialect) (type : ColumnType) (canonical : String) : String :=
  match d with
  | .mysql =>
    "(STR_TO_DATE(" ++ literal canonical ++ ", " ++ literal (temporalPattern type) ++ "))"
  | _ => literal canonical

/-- A default of a column in SQL. -/
def defaultText (d : Dialect) (property : String) (type : ColumnType) (raw : String) :
    Except SchemaFault String :=
  let invalid (fault : DefaultFault) := SchemaFault.invalidDefault property raw fault
  let text := Default.trimmed raw
  match type with
  | .boolean =>
    if text.toLower = "true" ∨ text.toLower = "1" then .ok (d.booleanText true)
    else if text.toLower = "false" ∨ text.toLower = "0" then .ok (d.booleanText false)
    else .error (invalid .notBoolean)
  | .blob => .error (invalid .unsupported)
  | .array _ => .error (invalid .unsupported)
  | type =>
    if type.isNumeric then
      if Default.isNumeral text.toList then .ok text else .error (invalid .notNumber)
    else if type.isTemporal then
      if text.toUpper ∈ Default.currentKeywords then .ok text.toUpper
      else
        match Default.canonical type raw with
        | some canonical => .ok (d.temporalText type canonical)
        | none => .error (invalid .notTemporal)
    else .ok (literal raw)

end Dialect

end SchemaEvolution
