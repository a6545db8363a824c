import SchemaEvolution.Proofs.Walk.Changes

/-!
# Indices in an SQLite database

In SQLite the indices of a table and its primary key are indices of the database, except a primary
key that is one serial column. Which indices there are follows from the statements alone: they come
with `CREATE INDEX`, and go with `DROP INDEX` and with the table that they are on.
-/

namespace SchemaEvolution

/-! ## Keys of a table -/

namespace LiveTable

variable {t : LiveTable} {k : IndexShape} {columns : List LiveColumn} {key : List String}

/-- The primary key of a table and its indices. -/
def keys (t : LiveTable) : List IndexShape := t.primaryKey?.toList ++ t.indices

/-- The keys that are indices of the database in SQLite. -/
def indexed (t : LiveTable) : List IndexShape :=
  t.primaryKey?.toList.filter (fun k => !isOneSerial k.columns t.columns) ++ t.indices

theorem mem_keys : k ∈ t.keys ↔ t.primaryKey? = some k ∨ k ∈ t.indices := by
  rw [keys, List.mem_append, Option.mem_toList]

theorem mem_indexed : k ∈ t.indexed ↔
    (t.primaryKey? = some k ∧ isOneSerial k.columns t.columns = false) ∨ k ∈ t.indices := by
  rw [indexed, List.mem_append, List.mem_filter, Option.mem_toList, Bool.not_eq_true']

theorem mem_keys_of_indexed (h : k ∈ t.indexed) : k ∈ t.keys := by
  rcases mem_indexed.mp h with ⟨hk, -⟩ | hk
  · exact mem_keys.mpr (Or.inl hk)
  · exact mem_keys.mpr (Or.inr hk)

theorem mem_keyNames_of_keys (h : k ∈ t.keys) : k.name ∈ t.keyNames := by
  rcases mem_keys.mp h with hk | hk
  · exact List.mem_append_left _ (List.mem_map_of_mem (mem_of_primaryKey? hk).1)
  · exact List.mem_append_right _ (List.mem_map_of_mem hk)

/-- A table does not have two keys of one name. -/
theorem eq_of_mem_keys (hn : t.keyNames.Nodup) {a b : IndexShape} (ha : a ∈ t.keys)
    (hb : b ∈ t.keys) (h : a.name = b.name) : a = b := by
  obtain ⟨-, hindices, hapart⟩ := List.nodup_append.mp hn
  have hcross : ∀ a b : IndexShape, t.primaryKey? = some a → b ∈ t.indices → a.name ≠ b.name :=
    fun a b ha hb => hapart a.name (List.mem_map_of_mem (mem_of_primaryKey? ha).1) b.name
      (List.mem_map_of_mem hb)
  rcases mem_keys.mp ha with ha | ha
  · rcases mem_keys.mp hb with hb | hb
    · exact Option.some.inj (ha.symm.trans hb)
    · exact absurd h (hcross a b ha hb)
  · rcases mem_keys.mp hb with hb | hb
    · exact absurd h.symm (hcross b a hb ha)
    · exact List.inj_on_of_nodup_map hindices ha hb h

theorem isComplete_iff :
    k.isComplete t.columns = true ↔ ∀ column ∈ k.columns, column ∈ t.columnNames := by
  simp [IndexShape.isComplete, columnNames]

theorem isOneSerial_iff :
    isOneSerial key columns = true ↔
      ∃ column ∈ columns, key = [column.name] ∧ column.property.isSerial = true := by
  unfold isOneSerial
  split
  · next name =>
    simp only [List.any_eq_true, Bool.and_eq_true, beq_iff_eq, List.cons.injEq, and_true]
    constructor
    · rintro ⟨column, hm, hname, hs⟩
      exact ⟨column, hm, hname.symm, hs⟩
    · rintro ⟨column, hm, hname, hs⟩
      exact ⟨column, hm, hname.symm, hs⟩
  · next hne =>
    simp only [Bool.false_eq_true, false_iff]
    rintro ⟨column, -, rfl, -⟩
    exact hne _ rfl

end LiveTable

/-! ## Statements and indices -/

/-- The indices of a database, by name, each with the id of the table that it is on. -/
abbrev Catalog := List (String × String)

namespace Ddl

variable {id table name : String} {present : Catalog} {ss : List Ddl} {ks : List IndexShape}

/-- What a statement about the table with an id does to the indices. -/
def onCatalog (id : String) (present : Catalog) : Ddl → Catalog
  | .createIndex _ _ name _ => (name, id) :: present
  | .dropIndex _ name => present.filter (·.1 != name)
  | .dropTable _ => present.filter (·.2 != id)
  | _ => present

/-- Whether a statement makes indices come or go. -/
def isAboutIndices : Ddl → Bool
  | .createIndex _ _ _ _ | .dropIndex _ _ | .dropTable _ => true
  | _ => false

theorem foldl_onCatalog_of_not (h : ∀ x ∈ ss, x.isAboutIndices = false) :
    ss.foldl (onCatalog id) present = present := by
  induction ss with
  | nil => rfl
  | cons x ss ih =>
    rw [List.forall_mem_cons] at h
    have hx : onCatalog id present x = present := by
      have := h.1
      cases x <;> first | rfl | cases this
    rw [List.foldl_cons, hx, ih h.2]

theorem mem_foldl_createIndex {entry : String × String} :
    entry ∈ (ks.map fun k => createIndex k.unique table k.name k.columns).foldl (onCatalog id)
        present ↔
      entry ∈ present ∨ (entry.2 = id ∧ ∃ k ∈ ks, k.name = entry.1) := by
  induction ks generalizing present with
  | nil => simp
  | cons k ks ih =>
    rw [List.map_cons, List.foldl_cons, ih, onCatalog, List.mem_cons, List.exists_mem_cons_iff]
    constructor
    · rintro ((rfl | h) | ⟨hid, h⟩)
      · exact Or.inr ⟨rfl, Or.inl rfl⟩
      · exact Or.inl h
      · exact Or.inr ⟨hid, Or.inr h⟩
    · rintro (h | ⟨hid, hname | h⟩)
      · exact Or.inl (Or.inr h)
      · exact Or.inl (Or.inl (Prod.ext hname.symm hid))
      · exact Or.inr ⟨hid, h⟩

theorem mem_foldl_dropIndex {entry : String × String} :
    entry ∈ (ks.map fun k => dropIndex table k.name).foldl (onCatalog id) present ↔
      entry ∈ present ∧ ∀ k ∈ ks, k.name ≠ entry.1 := by
  induction ks generalizing present with
  | nil => simp
  | cons k ks ih =>
    rw [List.map_cons, List.foldl_cons, ih, onCatalog, List.mem_filter, List.forall_mem_cons,
      and_assoc, bne_iff_ne, ne_comm]

end Ddl

/-- The indices that the statements of some changes lead to, in a database without any. -/
def catalog (xs : List Change) : Catalog :=
  xs.foldl (fun present x => x.statements.foldl (Ddl.onCatalog x.id) present) []

theorem catalog_concat {xs : List Change} {x : Change} :
    catalog (xs ++ [x]) = x.statements.foldl (Ddl.onCatalog x.id) (catalog xs) :=
  List.foldl_concat ..

/-! ## What SQLite is told -/

namespace Dialect

variable {t : LiveTable} {column : String}

/-- The statements that create some keys of a table as indices. -/
def creations (t : LiveTable) (ks : List IndexShape) : List Ddl :=
  ks.map fun k => .createIndex k.unique t.name k.name k.columns

theorem primaryKeyCreation_sqlite {k : IndexShape} (hk : t.primaryKey? = some k) :
    primaryKeyCreation .sqlite t.name k.name k.columns t.columns
      = creations t ([k].filter fun k => !isOneSerial k.columns t.columns) := by
  have hunique := (LiveTable.mem_of_primaryKey? hk).2
  unfold primaryKeyCreation
  cases hs : isOneSerial k.columns t.columns with
  | true => simp [creations, hs, serialIsPrimaryKey]
  | false => simp [creations, hs, hunique]

/-- A table that is built anew gets those of its indices back that have all their columns. -/
theorem rebuild_sqlite :
    rebuild .sqlite t.shape
      = [.createTable (stagingName t.name) (t.columns.map (·.declaration)),
          .copyRows t.name (stagingName t.name) (t.columns.map (·.name)), .dropTable t.name,
          .renameTable (stagingName t.name) t.name]
        ++ creations t (t.indexed.filter (·.isComplete t.columns)) := by
  -- the primary key comes back as an index unless it is one serial column
  have hprimary : (t.primaryKey?.toList.filter (·.isComplete t.columns)).flatMap
      (fun k => primaryKeyCreation .sqlite t.name k.name k.columns t.columns)
      = creations t ((t.primaryKey?.toList.filter fun k => !isOneSerial k.columns t.columns).filter
        (·.isComplete t.columns)) := by
    cases hk : t.primaryKey? with
    | none => rfl
    | some k =>
      rw [List.filter_filter, Option.toList_some]
      cases hc : k.isComplete t.columns with
      | true =>
        rw [List.filter_singleton, hc]
        simp [primaryKeyCreation_sqlite hk, hc, List.filter_singleton]
      | false => simp [creations, hc]
  have hindices : (t.indices.filter (·.isComplete t.columns)).flatMap
      (fun i => indexCreation .sqlite i.unique t.name i.name i.columns)
      = creations t (t.indices.filter (·.isComplete t.columns)) :=
    List.map_eq_flatMap.symm
  show _ ++ _ ++ _ ++ (t.primaryKey?.toList.filter (·.isComplete t.columns)).flatMap
      (fun k => primaryKeyCreation .sqlite t.name k.name k.columns t.columns)
    ++ (t.indices.filter (·.isComplete t.columns)).flatMap
      (fun i => indexCreation .sqlite i.unique t.name i.name i.columns) = _
  rw [hprimary, hindices, LiveTable.indexed, List.filter_append, creations, creations, creations,
    List.map_append, ← List.append_assoc]
  rfl

theorem primaryKeyRemoval_sqlite {k : IndexShape} :
    primaryKeyRemoval .sqlite t.name k.name k.columns t.columns
      = ([k].filter fun k => !isOneSerial k.columns t.columns).map fun k =>
        .dropIndex t.name k.name := by
  unfold primaryKeyRemoval
  cases hs : isOneSerial k.columns t.columns with
  | true => simp [hs, serialIsPrimaryKey]
  | false => simp [hs]

/-- Before a column is dropped, the indices go that mention it. -/
theorem columnRemoval_sqlite :
    columnRemoval .sqlite t.shape column
      = ((t.indexed.filter (·.mentions column)).map fun k => .dropIndex t.name k.name)
        ++ [.dropColumn t.name column] := by
  have hprimary : (t.primaryKey?.toList.filter (·.mentions column)).flatMap
      (fun k => primaryKeyRemoval .sqlite t.name k.name k.columns t.columns)
      = ((t.primaryKey?.toList.filter fun k => !isOneSerial k.columns t.columns).filter
        (·.mentions column)).map fun k => .dropIndex t.name k.name := by
    cases t.primaryKey? with
    | none => rfl
    | some k =>
      rw [List.filter_filter, Option.toList_some]
      cases hm : k.mentions column with
      | true => simp [primaryKeyRemoval_sqlite, hm, List.filter_singleton]
      | false => simp [hm]
  have hindices : (t.indices.filter (·.mentions column)).flatMap
      (fun i => indexRemoval .sqlite t.name i.name)
      = (t.indices.filter (·.mentions column)).map fun i => .dropIndex t.name i.name :=
    List.map_eq_flatMap.symm
  show (t.primaryKey?.toList.filter (·.mentions column)).flatMap
      (fun k => primaryKeyRemoval .sqlite t.name k.name k.columns t.columns)
    ++ (t.indices.filter (·.mentions column)).flatMap
      (fun i => indexRemoval .sqlite t.name i.name) ++ [.dropColumn t.name column] = _
  rw [hprimary, hindices, LiveTable.indexed, List.filter_append, List.map_append]

end Dialect

end SchemaEvolution
