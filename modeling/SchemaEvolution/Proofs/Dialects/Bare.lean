import SchemaEvolution.Changelog.Plan
import SchemaEvolution.Proofs.Walk.Replay

/-!
# Schemas without declarations

All that a dialect leaves behind in a schema are the declarations of the columns. Without them a
schema is bare; everything that an edit looks at is still there, and whatever an edit does to the
tables can be done to the bare ones as well.
-/

namespace SchemaEvolution

/-- A column without its declaration. -/
def LiveColumn.bare (k : LiveColumn) : LiveColumn := ⟨k.property, ""⟩

theorem LiveColumn.bare_eq_iff {k k' : LiveColumn} :
    k'.bare = k.bare ↔ k'.property = k.property := by
  simp [bare]

namespace LiveTable

variable {t t' : LiveTable} {name new : String} {column k : LiveColumn} {columns : List String}

/-- A table without the declarations of its columns. -/
def bare (t : LiveTable) : LiveTable := { t with columns := t.columns.map (·.bare) }

/-! ## What is there -/

theorem hasColumn_bare : t.bare.hasColumn name = t.hasColumn name := by
  simp only [hasColumn, bare, List.any_map]
  rfl

theorem column?_bare : t.bare.column? name = (t.column? name).map (·.bare) := by
  simp only [column?, bare, List.find?_map]
  rfl

theorem serials_bare : t.bare.serials = t.serials := by
  simp only [serials, bare, List.countP_map]
  rfl

/-- Where two tables differ in declarations only, they have columns of the same properties. -/
theorem exists_column? (h : t'.bare = t.bare) (hk : t.column? name = some k) :
    ∃ k', t'.column? name = some k' ∧ k'.property = k.property := by
  have hbare : t'.bare.column? name = some k.bare := by rw [h, column?_bare, hk]; rfl
  rw [column?_bare] at hbare
  obtain ⟨k', hk', hproperty⟩ := Option.map_eq_some_iff.mp hbare
  exact ⟨k', hk', LiveColumn.bare_eq_iff.mp hproperty⟩

/-! ## What is done -/

theorem bare_addColumn : ({ t with columns := t.columns ++ [column] } : LiveTable).bare
    = { t.bare with columns := t.bare.columns ++ [column.bare] } := by
  simp [bare]

theorem bare_setColumn : (t.setColumn name column).bare = t.bare.setColumn name column.bare := by
  simp only [bare, setColumn, List.map_map]
  congr 1
  refine List.map_congr_left fun k _ => ?_
  show (if k.name = name then column else k).bare = if k.name = name then column.bare else k.bare
  split <;> rfl

theorem bare_dropColumn : (t.dropColumn name).bare = t.bare.dropColumn name := by
  simp only [bare, dropColumn, List.filter_map]
  rfl

end LiveTable

namespace LiveSchema

variable {s s' : LiveSchema} {t t' : LiveTable} {id name new version : String}

/-- A schema without the declarations of its columns. -/
def bare (s : LiveSchema) : LiveSchema := { s with tables := s.tables.map (·.bare) }

theorem table?_bare : s.bare.table? id = (s.table? id).map (·.bare) :=
  table?_map (fun _ => rfl) rfl

/-- Where two schemas differ in declarations only, their tables do. -/
theorem exists_table? (h : s'.bare = s.bare) (ht : s.table? id = some t) :
    ∃ t', s'.table? id = some t' ∧ t'.bare = t.bare := by
  have hbare : s'.bare.table? id = some t.bare := by rw [h, table?_bare, ht]; rfl
  rw [table?_bare] at hbare
  exact Option.map_eq_some_iff.mp hbare

theorem table?_eq_none_of_bare (h : s'.bare = s.bare) (ht : s.table? id = none) :
    s'.table? id = none := by
  have hbare : s'.bare.table? id = none := by rw [h, table?_bare, ht]; rfl
  rw [table?_bare] at hbare
  exact Option.map_eq_none_iff.mp hbare

theorem enums_eq_of_bare (h : s'.bare = s.bare) : s'.enums = s.enums := by
  have henums : s'.bare.enums = s.bare.enums := by rw [h]
  exact henums

theorem names_eq_of_bare (h : s'.bare = s.bare) : s'.names = s.names := by
  have hnames : s'.bare.names = s.bare.names := by rw [h]
  exact hnames

theorem bare_setTable : (s.setTable t).bare = s.bare.setTable t.bare := by
  simp only [bare, setTable, List.map_map]
  congr 1
  refine List.map_congr_left fun u _ => ?_
  show (if u.id = t.id then t else u).bare = if u.id = t.id then t.bare else u.bare
  split <;> rfl

theorem bare_setTable_congr (h : s'.bare = s.bare) (ht : t'.bare = t.bare) :
    (s'.setTable t').bare = (s.setTable t).bare := by
  rw [bare_setTable, bare_setTable, h, ht]

theorem bare_followReferences :
    (s.followReferences id name new).bare = s.bare.followReferences id name new := by
  simp only [bare, followReferences, List.map_map]
  rfl

/-- The steps that are due do not depend on declarations. -/
theorem takeDue_bare : (s.bare.takeDue version).1 = (s.takeDue version).1.bare ∧
    (s.bare.takeDue version).2 = (s.takeDue version).2 := by
  constructor
  · have htables : (s.bare.takeDue version).1.tables = (s.takeDue version).1.bare.tables := by
      rw [takeDue_tables]
      simp only [bare, takeDue_tables, List.map_map]
      rfl
    exact congrArg (fun tables => ({ s with tables } : LiveSchema)) htables
  · rw [takeDue_due, takeDue_due]
    simp only [bare, List.filterMap_map]
    rfl

theorem checkSerials_bare {ts : List LiveTable} :
    checkSerials (ts.map (·.bare)) = checkSerials ts := by
  induction ts with
  | nil => rfl
  | cons t ts ih => rw [List.map_cons, checkSerials, checkSerials, LiveTable.serials_bare, ih]; rfl

end LiveSchema

end SchemaEvolution
