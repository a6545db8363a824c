import SchemaEvolution.Dialect.Basic

/-!
# Statements that change a schema

A statement is kept as data and written in SQL by `Ddl.text`; so what a statement does can be said
without reading SQL. Columns are given by their declarations, which are SQL already.
-/

namespace SchemaEvolution

/-- A statement that changes a schema. -/
inductive Ddl where
  | createTable (table : String) (declarations : List String)
  | dropTable (table : String)
  | renameTable (table new : String)
  /-- Copies some columns of all rows from one table to another. -/
  | copyRows (source target : String) (columns : List String)
  | addColumn (table declaration : String)
  | modifyColumn (table declaration : String)
  | renameColumn (table column new : String)
  | dropColumn (table column : String)
  | setType (table column type : String)
  | setNullable (table column : String) (nullable : Bool)
  /-- Sets the default of a column, or takes it away. -/
  | setDefault (table column : String) (default : Option String)
  | createType (name : String) (values : List String)
  | addValue (type value : String)
  | addPrimaryKey (table name : String) (columns : List String)
  /-- Drops a primary key that has no name of its own. -/
  | dropPrimaryKey (table : String)
  | addForeignKey (table name column referencedTable referencedColumn : String)
  | dropForeignKey (table name : String)
  | dropConstraint (table name : String)
  | createIndex (unique : Bool) (table name : String) (columns : List String)
  | dropIndex (table name : String)
  | dropFunction (name : String)
  | createFunction (name : String) (parameters : List String) (returns body : String)
  deriving DecidableEq, Repr

namespace Ddl

/-- The start of a statement that alters a table. -/
def alterTable (d : Dialect) (table : String) : String := "ALTER TABLE " ++ d.quote table

/-- The start of a statement that alters a column. -/
def alterColumn (d : Dialect) (table column : String) : String :=
  alterTable d table ++ " ALTER COLUMN " ++ d.quote column

/-- The start of a statement that adds a constraint. -/
def addConstraint (d : Dialect) (table name : String) : String :=
  alterTable d table ++ " ADD CONSTRAINT " ++ d.quote name

/-- The SQL of a statement, without a semicolon. -/
def text (d : Dialect) : Ddl → String
  | .createTable table declarations =>
    "CREATE TABLE " ++ d.quote table ++ " (\n"
      ++ String.intercalate ",\n" (declarations.map ("    " ++ ·)) ++ "\n)"
  | .dropTable table => "DROP TABLE " ++ d.quote table
  | .renameTable table new =>
    match d with
    | .mysql => "RENAME TABLE " ++ d.quote table ++ " TO " ++ d.quote new
    | _ => alterTable d table ++ " RENAME TO " ++ d.quote new
  | .copyRows source target columns =>
    "INSERT INTO " ++ d.quote target ++ " (" ++ d.quoteAll columns ++ ") SELECT "
      ++ d.quoteAll columns ++ " FROM " ++ d.quote source
  | .addColumn table declaration => alterTable d table ++ " ADD COLUMN " ++ declaration
  | .modifyColumn table declaration => alterTable d table ++ " MODIFY COLUMN " ++ declaration
  | .renameColumn table column new =>
    alterTable d table ++ " RENAME COLUMN " ++ d.quote column ++ " TO " ++ d.quote new
  | .dropColumn table column => alterTable d table ++ " DROP COLUMN " ++ d.quote column
  | .setType table column type => alterColumn d table column ++ " TYPE " ++ type
  | .setNullable table column true => alterColumn d table column ++ " DROP NOT NULL"
  | .setNullable table column false => alterColumn d table column ++ " SET NOT NULL"
  | .setDefault table column (some default) =>
    alterColumn d table column ++ " SET DEFAULT " ++ default
  | .setDefault table column none => alterColumn d table column ++ " DROP DEFAULT"
  | .createType name values =>
    "CREATE TYPE " ++ d.quote name ++ " AS ENUM (" ++ Dialect.literals values ++ ")"
  | .addValue type value =>
    "ALTER TYPE " ++ d.quote type ++ " ADD VALUE " ++ Dialect.literal value
  | .addPrimaryKey table name columns =>
    addConstraint d table name ++ " PRIMARY KEY (" ++ d.quoteAll columns ++ ")"
  | .dropPrimaryKey table => alterTable d table ++ " DROP PRIMARY KEY"
  | .addForeignKey table name column referencedTable referencedColumn =>
    addConstraint d table name ++ " FOREIGN KEY (" ++ d.quote column ++ ") REFERENCES "
      ++ d.quote referencedTable ++ " (" ++ d.quote referencedColumn ++ ")"
  | .dropForeignKey table name => alterTable d table ++ " DROP FOREIGN KEY " ++ d.quote name
  | .dropConstraint table name => alterTable d table ++ " DROP CONSTRAINT " ++ d.quote name
  | .createIndex unique table name columns =>
    "CREATE " ++ (if unique then "UNIQUE " else "") ++ "INDEX " ++ d.quote name ++ " ON "
      ++ d.quote table ++ " (" ++ d.quoteAll columns ++ ")"
  | .dropIndex table name =>
    match d with
    | .mysql => "DROP INDEX " ++ d.quote name ++ " ON " ++ d.quote table
    | .postgres => "DROP INDEX " ++ d.quote name
    | .sqlite => "DROP INDEX IF EXISTS " ++ d.quote name
  | .dropFunction name => "DROP FUNCTION IF EXISTS " ++ d.quote name
  | .createFunction name parameters returns body =>
    match d with
    | .mysql =>
      "CREATE FUNCTION " ++ d.quote name ++ "(" ++ String.intercalate ", " parameters
        ++ ") RETURNS " ++ returns ++ " DETERMINISTIC\nRETURN " ++ body
    | _ =>
      "CREATE OR REPLACE FUNCTION " ++ d.quote name ++ "(" ++ String.intercalate ", " parameters
        ++ ") RETURNS " ++ returns ++ " AS $$\n" ++ body ++ "\n$$ LANGUAGE SQL"

end Ddl

end SchemaEvolution
