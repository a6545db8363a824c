import SchemaEvolution.Proofs.Sql
import SchemaEvolution.Proofs.Words.Delimited

/-!
# Types of enums in SQL

Whether a query of PostgreSQL creates the type of a name, or adds a value to it, can be read off the
beginning of its text. Statements of other kinds begin with other words; and where the type has
another name the text goes on differently, because a quoted name ends where it was written to end.
-/

namespace SchemaEvolution

/-! ## How a text begins -/

namespace Text

/-- Whether a text begins with another. -/
def beginsWith (start text : String) : Bool := start.toList.isPrefixOf text.toList

/-- Whether there is a place at which two texts have different characters. -/
def differ : List Char → List Char → Bool
  | c :: cs, d :: ds => c != d || differ cs ds
  | _, _ => false

variable {first second start text : String} {cs ds rest : List Char}

theorem beginsWith_iff : beginsWith start text = true ↔ start.toList <+: text.toList :=
  List.isPrefixOf_iff_prefix

/-- Behind a common beginning the rest decides. -/
theorem beginsWith_append :
    beginsWith (first ++ start) (first ++ text) = beginsWith start text := by
  rw [beginsWith, beginsWith, String.toList_append, String.toList_append]
  induction first.toList with
  | nil => rfl
  | cons c cs ih => rw [List.cons_append, List.cons_append, List.isPrefixOf_cons_cons_self, ih]

/-- Texts that differ stay apart, whatever follows. -/
theorem isPrefixOf_of_differ (h : differ cs ds = true) (as bs : List Char) :
    (cs ++ as).isPrefixOf (ds ++ bs) = false := by
  fun_induction differ cs ds with
  | case1 c cs d ds ih =>
    rw [List.cons_append, List.cons_append, List.isPrefixOf_cons_cons]
    rcases Bool.or_eq_true_iff.mp h with hne | h
    · rw [beq_eq_false_iff_ne.mpr (bne_iff_ne.mp hne), Bool.false_and]
    · rw [ih h, Bool.and_false]
  | case2 => cases h

theorem beginsWith_of_differ (h : differ first.toList second.toList = true) :
    beginsWith (first ++ start) (second ++ text) = false := by
  rw [beginsWith, String.toList_append, String.toList_append]
  exact isPrefixOf_of_differ h ..

/-- Behind quoted names the same words only follow if the names are the same. -/
theorem beginsWith_quote {d : Dialect} {name other : String}
    (h : first.toList.head? = some ' ') :
    beginsWith (d.quote name ++ first) (d.quote other ++ (first ++ text)) = (other == name) := by
  have hhead : ∀ rest, (first.toList ++ rest).head? ≠ some d.quoteMark := by
    intro rest
    rw [List.head?_append, h, Option.some_or]
    cases d <;> decide
  refine Bool.eq_iff_iff.mpr ⟨fun hbegins => ?_, fun hname => ?_⟩
  · obtain ⟨rest, hrest⟩ := beginsWith_iff.mp hbegins
    rw [String.toList_append, String.toList_append, String.toList_append, List.append_assoc]
      at hrest
    obtain ⟨rfl, -⟩ :=
      (delimitsItself_string d.quoteMark).append_inj _ _ _ _ (hhead _) (hhead _) hrest
    exact beq_self_eq_true _
  · rw [beq_iff_eq.mp hname, beginsWith_append, beginsWith_iff, String.toList_append]
    exact List.prefix_append ..

end Text

/-! ## Statements about types -/

namespace Ddl

open Text (beginsWith)

/-- Whether a statement creates the type of a name. -/
def createsType (name : String) : Ddl → Bool
  | .createType type _ => type == name
  | _ => false

/-- Whether a statement adds a value to the type of a name. -/
def growsType (name : String) : Ddl → Bool
  | .addValue type _ => type == name
  | _ => false

/-- Whether a statement creates the type of a name or adds a value to it. -/
def concernsType (name : String) : Ddl → Bool
  | .createType type _ => type == name
  | .addValue type _ => type == name
  | _ => false

/-- How a query begins that creates the type of a name. -/
def typeCreation (name : String) : String :=
  "CREATE TYPE " ++ Dialect.quote .postgres name ++ " AS ENUM ("

/-- How a query begins that adds a value to the type of a name. -/
def valueAddition (name : String) : String :=
  "ALTER TYPE " ++ Dialect.quote .postgres name ++ " ADD VALUE "

/-- Whether a query creates the type of a name. -/
def sqlCreatesType (name sql : String) : Bool := beginsWith (typeCreation name) sql

/-- Whether a query creates the type of a name or adds a value to it. -/
def sqlConcernsType (name sql : String) : Bool :=
  beginsWith (typeCreation name) sql || beginsWith (valueAddition name) sql

variable {name sql : String} {s : Ddl}

theorem IsSql.beginsWith_typeCreation (h : s.IsSql .postgres sql) :
    beginsWith (typeCreation name) sql = s.createsType name := by
  cases h with
  | createType type values =>
    simp only [typeCreation, String.append_assoc, Text.beginsWith_append]
    exact Text.beginsWith_quote (by decide)
  | _ =>
    simp only [typeCreation, String.append_assoc]
    exact Text.beginsWith_of_differ (by decide)

theorem IsSql.beginsWith_valueAddition (h : s.IsSql .postgres sql) :
    beginsWith (valueAddition name) sql = s.growsType name := by
  cases h with
  | addValue type value =>
    simp only [valueAddition, String.append_assoc, Text.beginsWith_append]
    exact Text.beginsWith_quote (by decide)
  | _ =>
    simp only [valueAddition, String.append_assoc]
    exact Text.beginsWith_of_differ (by decide)

/-- The text of a statement tells whether it creates the type of a name. -/
@[simp] theorem sqlCreatesType_text :
    sqlCreatesType name (s.text .postgres) = s.createsType name :=
  (isSql_text .postgres s).beginsWith_typeCreation

@[simp] theorem sqlConcernsType_text :
    sqlConcernsType name (s.text .postgres) = s.concernsType name := by
  rw [sqlConcernsType, (isSql_text .postgres s).beginsWith_typeCreation,
    (isSql_text .postgres s).beginsWith_valueAddition]
  cases s <;> simp [createsType, growsType, concernsType]

theorem createsType_and_concernsType :
    (s.createsType name && s.concernsType name) = s.createsType name := by
  cases s <;> simp [createsType, concernsType]

/-! ## Queries about types -/

variable {statements : List Ddl} {xs : List (String × Ddl)}

/-- The queries that create a type are those of the statements that do. -/
theorem filter_sqlCreatesType :
    (statements.map (text .postgres)).filter (sqlCreatesType name)
      = (statements.filter (·.createsType name)).map (text .postgres) := by
  simp only [List.filter_map, Function.comp_def, sqlCreatesType_text]

/-- So it is for queries with their versions. -/
theorem filter_sqlCreatesType_dated :
    (xs.map fun x => (x.1, x.2.text .postgres)).filter (fun q => sqlCreatesType name q.2)
      = (xs.filter (·.2.createsType name)).map fun x => (x.1, x.2.text .postgres) := by
  simp only [List.filter_map, Function.comp_def, sqlCreatesType_text]

/-- The queries up to a version that concern a type are those of the statements that do. -/
theorem filter_sqlConcernsType_dated {version : String} :
    (((xs.map fun x => (x.1, x.2.text .postgres)).filter (·.1 ≤ version)).map (·.2)).filter
        (sqlConcernsType name)
      = (((xs.filter (·.1 ≤ version)).map (·.2)).filter (·.concernsType name)).map
          (text .postgres) := by
  simp only [List.filter_map, List.map_map, Function.comp_def, sqlConcernsType_text]

end Ddl

end SchemaEvolution
