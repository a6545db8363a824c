import Mathlib.Data.List.Forall2
import SchemaEvolution.Ddl.Statement

/-!
# The SQL of statements

What is executed is a text. `Ddl.IsSql` gives the SQL of every kind of statement, keyword by
keyword, with the names that it quotes; where a dialect has words of its own for a kind, the rule
says so. A statement has one text in a dialect, the one that `Ddl.text` writes (`Ddl.isSql_iff`). So
queries that are the texts of statements can be read without the writer.
-/

namespace SchemaEvolution

namespace Ddl

/-- The SQL of a statement in a dialect. -/
inductive IsSql (d : Dialect) : Ddl → String → Prop
  /-- A column or a constraint stands on each line between the parentheses. -/
  | createTable (table : String) (declarations : List String) :
    IsSql d (.createTable table declarations)
      ("CREATE TABLE " ++ d.quote table ++ " (\n"
        ++ ",\n".intercalate (declarations.map ("    " ++ ·)) ++ "\n)")
  | dropTable (table : String) : IsSql d (.dropTable table) ("DROP TABLE " ++ d.quote table)
  | renameTableMysql (hd : d = .mysql) (table new : String) :
    IsSql d (.renameTable table new) ("RENAME TABLE " ++ d.quote table ++ " TO " ++ d.quote new)
  | renameTable (hd : d ≠ .mysql) (table new : String) :
    IsSql d (.renameTable table new)
      ("ALTER TABLE " ++ d.quote table ++ " RENAME TO " ++ d.quote new)
  | copyRows (source target : String) (columns : List String) :
    IsSql d (.copyRows source target columns)
      ("INSERT INTO " ++ d.quote target ++ " (" ++ ", ".intercalate (columns.map d.quote)
        ++ ") SELECT " ++ ", ".intercalate (columns.map d.quote) ++ " FROM " ++ d.quote source)
  | addColumn (table declaration : String) :
    IsSql d (.addColumn table declaration)
      ("ALTER TABLE " ++ d.quote table ++ " ADD COLUMN " ++ declaration)
  | modifyColumn (table declaration : String) :
    IsSql d (.modifyColumn table declaration)
      ("ALTER TABLE " ++ d.quote table ++ " MODIFY COLUMN " ++ declaration)
  | renameColumn (table column new : String) :
    IsSql d (.renameColumn table column new)
      ("ALTER TABLE " ++ d.quote table ++ " RENAME COLUMN " ++ d.quote column ++ " TO "
        ++ d.quote new)
  | dropColumn (table column : String) :
    IsSql d (.dropColumn table column)
      ("ALTER TABLE " ++ d.quote table ++ " DROP COLUMN " ++ d.quote column)
  | setType (table column type : String) :
    IsSql d (.setType table column type)
      ("ALTER TABLE " ++ d.quote table ++ " ALTER COLUMN " ++ d.quote column ++ " TYPE " ++ type)
  | dropNotNull (table column : String) :
    IsSql d (.setNullable table column true)
      ("ALTER TABLE " ++ d.quote table ++ " ALTER COLUMN " ++ d.quote column ++ " DROP NOT NULL")
  | setNotNull (table column : String) :
    IsSql d (.setNullable table column false)
      ("ALTER TABLE " ++ d.quote table ++ " ALTER COLUMN " ++ d.quote column ++ " SET NOT NULL")
  | setDefault (table column default : String) :
    IsSql d (.setDefault table column (some default))
      ("ALTER TABLE " ++ d.quote table ++ " ALTER COLUMN " ++ d.quote column ++ " SET DEFAULT "
        ++ default)
  | dropDefault (table column : String) :
    IsSql d (.setDefault table column none)
      ("ALTER TABLE " ++ d.quote table ++ " ALTER COLUMN " ++ d.quote column ++ " DROP DEFAULT")
  | createType (name : String) (values : List String) :
    IsSql d (.createType name values)
      ("CREATE TYPE " ++ d.quote name ++ " AS ENUM ("
        ++ ", ".intercalate (values.map Dialect.literal) ++ ")")
  | addValue (type value : String) :
    IsSql d (.addValue type value)
      ("ALTER TYPE " ++ d.quote type ++ " ADD VALUE " ++ Dialect.literal value)
  | addPrimaryKey (table name : String) (columns : List String) :
    IsSql d (.addPrimaryKey table name columns)
      ("ALTER TABLE " ++ d.quote table ++ " ADD CONSTRAINT " ++ d.quote name ++ " PRIMARY KEY ("
        ++ ", ".intercalate (columns.map d.quote) ++ ")")
  | dropPrimaryKey (table : String) :
    IsSql d (.dropPrimaryKey table) ("ALTER TABLE " ++ d.quote table ++ " DROP PRIMARY KEY")
  | addForeignKey (table name column referencedTable referencedColumn : String) :
    IsSql d (.addForeignKey table name column referencedTable referencedColumn)
      ("ALTER TABLE " ++ d.quote table ++ " ADD CONSTRAINT " ++ d.quote name ++ " FOREIGN KEY ("
        ++ d.quote column ++ ") REFERENCES " ++ d.quote referencedTable ++ " ("
        ++ d.quote referencedColumn ++ ")")
  | dropForeignKey (table name : String) :
    IsSql d (.dropForeignKey table name)
      ("ALTER TABLE " ++ d.quote table ++ " DROP FOREIGN KEY " ++ d.quote name)
  | dropConstraint (table name : String) :
    IsSql d (.dropConstraint table name)
      ("ALTER TABLE " ++ d.quote table ++ " DROP CONSTRAINT " ++ d.quote name)
  | createIndex (table name : String) (columns : List String) :
    IsSql d (.createIndex false table name columns)
      ("CREATE INDEX " ++ d.quote name ++ " ON " ++ d.quote table ++ " ("
        ++ ", ".intercalate (columns.map d.quote) ++ ")")
  | createUniqueIndex (table name : String) (columns : List String) :
    IsSql d (.createIndex true table name columns)
      ("CREATE UNIQUE INDEX " ++ d.quote name ++ " ON " ++ d.quote table ++ " ("
        ++ ", ".intercalate (columns.map d.quote) ++ ")")
  /-- In MySQL an index belongs to its table. -/
  | dropIndexMysql (hd : d = .mysql) (table name : String) :
    IsSql d (.dropIndex table name) ("DROP INDEX " ++ d.quote name ++ " ON " ++ d.quote table)
  | dropIndexPostgres (hd : d = .postgres) (table name : String) :
    IsSql d (.dropIndex table name) ("DROP INDEX " ++ d.quote name)
  | dropIndexSqlite (hd : d = .sqlite) (table name : String) :
    IsSql d (.dropIndex table name) ("DROP INDEX IF EXISTS " ++ d.quote name)
  | dropFunction (name : String) :
    IsSql d (.dropFunction name) ("DROP FUNCTION IF EXISTS " ++ d.quote name)
  | createFunctionMysql (hd : d = .mysql) (name : String) (parameters : List String)
      (returns body : String) :
    IsSql d (.createFunction name parameters returns body)
      ("CREATE FUNCTION " ++ d.quote name ++ "(" ++ ", ".intercalate parameters ++ ") RETURNS "
        ++ returns ++ " DETERMINISTIC\nRETURN " ++ body)
  | createFunction (hd : d ≠ .mysql) (name : String) (parameters : List String)
      (returns body : String) :
    IsSql d (.createFunction name parameters returns body)
      ("CREATE OR REPLACE FUNCTION " ++ d.quote name ++ "(" ++ ", ".intercalate parameters
        ++ ") RETURNS " ++ returns ++ " AS $$\n" ++ body ++ "\n$$ LANGUAGE SQL")

variable {d : Dialect} {s : Ddl} {sql : String} {statements : List Ddl} {queries : List String}

/-- Whatever the dialect, the text of a statement is its SQL. -/
theorem isSql_text (d : Dialect) (s : Ddl) : s.IsSql d (s.text d) := by
  cases s with
  | renameTable table new =>
    cases d with
    | mysql => exact .renameTableMysql rfl table new
    | postgres => exact .renameTable (by decide) table new
    | sqlite => exact .renameTable (by decide) table new
  | setNullable table column nullable =>
    cases nullable with
    | true => exact .dropNotNull table column
    | false => exact .setNotNull table column
  | setDefault table column default =>
    cases default with
    | none => exact .dropDefault table column
    | some default => exact .setDefault table column default
  | createIndex unique table name columns =>
    cases unique with
    | true => exact .createUniqueIndex table name columns
    | false => exact .createIndex table name columns
  | dropIndex table name =>
    cases d with
    | mysql => exact .dropIndexMysql rfl table name
    | postgres => exact .dropIndexPostgres rfl table name
    | sqlite => exact .dropIndexSqlite rfl table name
  | createFunction name parameters returns body =>
    cases d with
    | mysql => exact .createFunctionMysql rfl name parameters returns body
    | postgres => exact .createFunction (by decide) name parameters returns body
    | sqlite => exact .createFunction (by decide) name parameters returns body
  | _ => constructor

/-- A statement has one text. -/
theorem IsSql.eq_text (h : s.IsSql d sql) : sql = s.text d := by
  cases h with
  | renameTableMysql hd => rw [hd]; rfl
  | renameTable hd =>
    cases d with
    | mysql => exact absurd rfl hd
    | _ => rfl
  | dropIndexMysql hd => rw [hd]; rfl
  | dropIndexPostgres hd => rw [hd]; rfl
  | dropIndexSqlite hd => rw [hd]; rfl
  | createFunctionMysql hd => rw [hd]; rfl
  | createFunction hd =>
    cases d with
    | mysql => exact absurd rfl hd
    | _ => rfl
  | _ => rfl

theorem isSql_iff : s.IsSql d sql ↔ sql = s.text d :=
  ⟨IsSql.eq_text, fun h => h ▸ isSql_text d s⟩

/-- Queries are the SQL of statements, one by one, when they are written for the statements. -/
theorem forall₂_isSql_iff :
    List.Forall₂ (IsSql d) statements queries ↔ queries = statements.map (text d) := by
  constructor
  · intro h
    induction h with
    | nil => rfl
    | cons hs _ ih => rw [List.map_cons, ← hs.eq_text, ← ih]
  · rintro rfl
    exact List.forall₂_map_right_iff.mpr <| List.forall₂_same.mpr fun s _ => isSql_text d s

theorem forall₂_isSql_map {α : Type} {statement : α → Ddl} {as : List α}
    (h : queries = as.map fun a => (statement a).text d) :
    List.Forall₂ (IsSql d) (as.map statement) queries := by
  rw [forall₂_isSql_iff, h, List.map_map]
  rfl

end Ddl

end SchemaEvolution
