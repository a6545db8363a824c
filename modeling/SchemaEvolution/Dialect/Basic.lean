import SchemaEvolution.Text.Decimal
import SchemaEvolution.Text.Quoted

/-!
# SQL dialects

Three dialects are supported. What they differ in is decided by functions on `Dialect`: those of
this module concern single words, the modules beside it types, defaults and whole statements.
-/

namespace SchemaEvolution

inductive Dialect where
  | mysql
  | postgres
  | sqlite
  deriving DecidableEq, Inhabited, Repr

namespace Dialect

/-- Every dialect. -/
def all : List Dialect := [.mysql, .postgres, .sqlite]

def name : Dialect → String
  | .mysql => "mysql"
  | .postgres => "postgres"
  | .sqlite => "sqlite"

/-- The dialect that a user names, in letters of either case. -/
def ofUserName? (s : String) : Option Dialect :=
  match s.toLower with
  | "mysql" => some .mysql
  | "postgres" => some .postgres
  | "postgresql" => some .postgres
  | "sqlite" => some .sqlite
  | _ => none

/-- The dialect that a document names, by its exact name. -/
def ofName? (s : String) : Option Dialect := all.find? (·.name == s)

/-- What is said of a name that is no dialect's. -/
def unknownMessage (s : String) : String :=
  "unknown dialect '" ++ s ++ "' (expected mysql, postgres or sqlite)"

/-! ## Words -/

/-- The character around identifiers. -/
def quoteMark : Dialect → Char
  | .mysql => '\x60'
  | .postgres => '"'
  | .sqlite => '"'

/-- Quotes an identifier. -/
def quote (d : Dialect) (name : String) : String := Text.Quoted.string d.quoteMark name

/-- Identifiers with commas between them. -/
def quoteAll (d : Dialect) (names : List String) : String :=
  String.intercalate ", " (names.map d.quote)

/-- Quotes a text as a literal. All dialects do it alike. -/
def literal (value : String) : String := Text.Quoted.string '\'' value

/-- Literals with commas between them. -/
def literals (values : List String) : String := String.intercalate ", " (values.map literal)

/-- The mark of a parameter, which only one dialect numbers. Positions count from one. -/
def parameterMark (d : Dialect) (position : Nat) : String :=
  match d with
  | .postgres => "$" ++ Text.Decimal.string position
  | _ => "?"

def booleanText (d : Dialect) (value : Bool) : String :=
  match d with
  | .sqlite => if value then "1" else "0"
  | _ => if value then "TRUE" else "FALSE"

/-- What a serial column is declared with. -/
def serialKeyword : Dialect → String
  | .mysql => " NOT NULL AUTO_INCREMENT PRIMARY KEY"
  | .postgres => ""
  | .sqlite => " PRIMARY KEY AUTOINCREMENT"

/-! ## What a dialect can do -/

/-- Whether a conflicting insertion can be turned into an update. -/
def hasUpsert : Dialect → Bool
  | .mysql => false
  | _ => true

/-- Whether an insertion can hand back the key that it generated. -/
def returnsKeys : Dialect → Bool
  | .mysql => false
  | _ => true

/-- Whether a serial column is the primary key by its own declaration. -/
def serialIsPrimaryKey : Dialect → Bool
  | .postgres => false
  | _ => true

end Dialect

end SchemaEvolution
