import Mathlib.Data.List.Nodup
import SchemaEvolution.Proofs.Walk.Edits

/-!
# Tables and their columns

How the tables of a schema are found and replaced, and how the columns of a table are. The tables
never change their ids and never their order: whatever is done to them is done in place.
-/

namespace SchemaEvolution

/-! ## Columns -/

namespace LiveTable

variable {t : LiveTable} {name new : String} {column k : LiveColumn}

/-- The names of the columns, in order. -/
def columnNames (t : LiveTable) : List String := t.columns.map (·.name)

theorem hasColumn_iff : t.hasColumn name = true ↔ name ∈ t.columnNames := by
  simp [hasColumn, columnNames]

theorem hasColumn_eq_false_iff : t.hasColumn name = false ↔ name ∉ t.columnNames := by
  rw [← hasColumn_iff, Bool.not_eq_true]

theorem column?_eq_some (h : t.column? name = some k) : k ∈ t.columns ∧ k.name = name :=
  ⟨List.mem_of_find?_eq_some h, by simpa using List.find?_some h⟩

theorem hasColumn_of_column? (h : t.column? name = some k) : t.hasColumn name = true := by
  obtain ⟨hm, rfl⟩ := column?_eq_some h
  exact hasColumn_iff.mpr (List.mem_map_of_mem hm)

/-- Columns with different names are different columns. -/
theorem eq_of_mem_columns (hn : t.columnNames.Nodup) {a b : LiveColumn} (ha : a ∈ t.columns)
    (hb : b ∈ t.columns) (h : a.name = b.name) : a = b :=
  List.inj_on_of_nodup_map hn ha hb h

theorem column?_of_mem (hn : t.columnNames.Nodup) (hk : k ∈ t.columns) :
    t.column? k.name = some k := by
  obtain ⟨found, hfound⟩ : ∃ found, t.column? k.name = some found :=
    Option.isSome_iff_exists.mp (List.find?_isSome.mpr ⟨k, hk, beq_self_eq_true k.name⟩)
  obtain ⟨hm, hname⟩ := column?_eq_some hfound
  rw [hfound, eq_of_mem_columns hn hm hk hname]

theorem columnNames_setColumn_self (h : column.name = name) :
    (t.setColumn name column).columnNames = t.columnNames := by
  simp only [columnNames, setColumn, List.map_map]
  refine List.map_congr_left fun k _ => ?_
  by_cases hk : k.name = name
  · simp [hk, h]
  · simp [hk]

theorem columnNames_setColumn (h : column.name = new) :
    (t.setColumn name column).columnNames
      = t.columnNames.map (Constraint.renamed name new) := by
  simp only [columnNames, setColumn, List.map_map]
  refine List.map_congr_left fun k _ => ?_
  by_cases hk : k.name = name
  · simp [hk, h, Constraint.renamed]
  · simp [hk, Constraint.renamed]

theorem mem_setColumn (hk : k ∈ (t.setColumn name column).columns) :
    k = column ∨ (k ∈ t.columns ∧ k.name ≠ name) := by
  obtain ⟨before, hb, rfl⟩ := List.mem_map.mp hk
  split
  · exact Or.inl rfl
  · next hne => exact Or.inr ⟨hb, hne⟩

theorem columnNames_dropColumn :
    (t.dropColumn name).columnNames = t.columnNames.filter (· != name) := by
  simp only [columnNames, dropColumn, List.filter_map]
  rfl

end LiveTable

/-- Renaming keeps names apart, when the new one is not in use. -/
theorem Constraint.nodup_map_renamed {name new : String} {names : List String}
    (hn : names.Nodup) (hnew : new ∉ names) : (names.map (renamed name new)).Nodup := by
  refine hn.map_on fun a ha b hb h => ?_
  unfold renamed at h
  split at h <;> split at h
  · simp_all
  · exact absurd (h ▸ hb) hnew
  · exact absurd (h ▸ ha) hnew
  · exact h

/-! ## Tables -/

namespace LiveSchema

variable {c : Setting} {version id name new : String} {s s' : LiveSchema} {t u : LiveTable}

theorem table?_eq_some (h : s.table? id = some t) : t ∈ s.tables ∧ t.id = id :=
  ⟨List.mem_of_find?_eq_some h, by simpa using List.find?_some h⟩

/-- What happens to every table in place happens to the one that is looked for. -/
theorem table?_map {f : LiveTable → LiveTable} (hf : ∀ u, (f u).id = u.id)
    (hs : s'.tables = s.tables.map f) : s'.table? id = (s.table? id).map f := by
  unfold table?
  rw [hs, List.find?_map]
  congr 2
  funext u
  simp [hf]

theorem table?_setTable :
    (s.setTable t).table? id = (s.table? id).map fun u => if u.id = t.id then t else u := by
  refine table?_map (fun u => ?_) rfl
  split
  · next h => exact h.symm
  · rfl

theorem table?_setTable_self (h : s.table? t.id = some u) :
    (s.setTable t).table? t.id = some t := by
  rw [table?_setTable, h]
  simp [(table?_eq_some h).2]

theorem table?_setTable_of_ne (h : id ≠ t.id) : (s.setTable t).table? id = s.table? id := by
  rw [table?_setTable]
  cases hu : s.table? id with
  | none => rfl
  | some u => simp [(table?_eq_some hu).2, h]

/-- Tables with other ids stay as they are. -/
theorem map_setTable_of_ne {us : List LiveTable} (h : ∀ u ∈ us, u.id ≠ t.id) :
    (us.map fun u => if u.id = t.id then t else u) = us := by
  calc (us.map fun u => if u.id = t.id then t else u)
      = us.map fun u => u := List.map_congr_left fun u hu => if_neg (h u hu)
    _ = us := List.map_id' us

theorem mem_setTable (h : u ∈ (s.setTable t).tables) :
    u = t ∨ (u ∈ s.tables ∧ u.id ≠ t.id) := by
  obtain ⟨v, hv, rfl⟩ := List.mem_map.mp h
  split
  · exact Or.inl rfl
  · next hne => exact Or.inr ⟨hv, hne⟩

/-- The ids of the tables, in order. -/
def ids (s : LiveSchema) : List String := s.tables.map (·.id)

theorem ids_setTable : (s.setTable t).ids = s.ids := by
  simp only [ids, setTable, List.map_map]
  refine List.map_congr_left fun u _ => ?_
  by_cases hu : u.id = t.id
  · simp [hu]
  · simp [hu]

theorem ids_followReferences : (s.followReferences id name new).ids = s.ids := by
  simp [ids, followReferences, Function.comp_def]

/-- Tables with different ids are different tables. -/
theorem table?_eq_of_mem (hn : s.ids.Nodup) (h : t ∈ s.tables) : s.table? t.id = some t := by
  cases hu : s.table? t.id with
  | none =>
    have := List.find?_eq_none.mp hu t h
    simp at this
  | some u =>
    obtain ⟨hm, hid⟩ := table?_eq_some hu
    rw [List.inj_on_of_nodup_map hn hm h hid]

/-! ## What leaves the tables alone -/

theorem requireEnum_frame {type : ColumnType} (h : s.requireEnum c version type = .ok s') :
    s'.tables = s.tables ∧ s'.names = s.names := by
  rcases requireEnum_ok h with rfl | ⟨_, _, _, rfl⟩ <;> exact ⟨rfl, rfl⟩

theorem declare_frame {p : Property} {column : LiveColumn}
    (h : s.declare c version p = .ok (s', column)) :
    s'.tables = s.tables ∧ s'.names = s.names :=
  requireEnum_frame (declare_ok.mp h).1

theorem declareAll_frame {table : String} {start columns : List LiveColumn}
    {edits : List PropertyEdit}
    (h : declareAll c version table s start edits = .ok (s', columns)) :
    s'.tables = s.tables ∧ s'.names = s.names := by
  induction edits generalizing s start with
  | nil =>
    obtain ⟨rfl, -⟩ := declareAll_nil_ok.mp h
    exact ⟨rfl, rfl⟩
  | cons edit edits ih =>
    obtain ⟨name, shape, s₁, column, -, -, h₁, h₂⟩ := declareAll_cons_ok.mp h
    obtain ⟨ht, hn⟩ := declare_frame h₁
    obtain ⟨ht', hn'⟩ := ih h₂
    exact ⟨ht'.trans ht, hn'.trans hn⟩

end LiveSchema

end SchemaEvolution
