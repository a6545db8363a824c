import SchemaEvolution.Proofs.KeyNames
import SchemaEvolution.Proofs.Walk.Changes

/-!
# Keys and the columns that they mention

A key mentions columns: those of its own table that it lists, and a foreign key one of another table
besides. The keys are well formed as long as all these columns are there, and no two indices of a
table list the same ones. When a column is removed, nobody looks at the keys that mention it. That
is the only way to lose well-formedness: whatever else an edit does keeps it, and a column that is
renamed is renamed wherever it is mentioned.
-/

namespace SchemaEvolution

/-! ## What keys mention -/

/-- The columns of its own table that a key lists. -/
def NamedKey.columns : NamedKey → List String
  | .constraint k => k.columns
  | .index i => i.columns

/-- What a column of some table is called when the column `name` of the table with the id `id` is
now called `new`. -/
def renamedIn (id name new table column : String) : String :=
  if table = id ∧ column = name then new else column

/-- A key of a table, where every column that it mentions goes by another name. The names are given
for the id of a table and the name of one of its columns. -/
def NamedKey.mapMentions (names : String → String → String) (table : String) :
    NamedKey → NamedKey
  | .constraint (.primaryKey name columns) =>
    .constraint (.primaryKey name (columns.map (names table)))
  | .constraint (.foreignKey name column references referencedColumn) =>
    .constraint (.foreignKey name (names table column) references
      (names references referencedColumn))
  | .index i => .index { i with columns := i.columns.map (names table) }

theorem renamedIn_self {id name new : String} :
    renamedIn id name new id = Constraint.renamed name new :=
  funext fun _ => by simp [renamedIn, Constraint.renamed]

theorem map_renamedIn_of_ne {id name new table : String} (h : table ≠ id)
    (columns : List String) : columns.map (renamedIn id name new table) = columns :=
  calc columns.map (renamedIn id name new table)
      = columns.map fun column => column :=
        List.map_congr_left fun _ _ => if_neg fun hm => h hm.1
    _ = columns := List.map_id' columns

theorem NamedKey.columns_mapMentions {names : String → String → String} {table : String}
    {k : NamedKey} : (k.mapMentions names table).columns = k.columns.map (names table) := by
  rcases k with (_ | _) | _ <;> rfl

/-- A foreign key was one before, with the same table to refer to. -/
theorem NamedKey.of_mapMentions_foreignKey {names : String → String → String}
    {table name column references referencedColumn : String} {k : NamedKey}
    (h : k.mapMentions names table
      = .constraint (.foreignKey name column references referencedColumn)) :
    ∃ own referred, k = .constraint (.foreignKey name own references referred) ∧
      referencedColumn = names references referred := by
  rcases k with (_ | ⟨_, own, _, referred⟩) | _ <;> cases h
  exact ⟨own, referred, rfl, rfl⟩

namespace LiveTable

variable {t u : LiveTable} {id name new : String} {k : NamedKey}

theorem mem_namedKeys : k ∈ t.namedKeys ↔
    (∃ constraint ∈ t.constraints, .constraint constraint = k) ∨
      ∃ i ∈ t.indices, .index i = k := by
  simp only [namedKeys, List.mem_append, List.mem_map]

theorem constraint_mem_namedKeys {constraint : Constraint} :
    .constraint constraint ∈ t.namedKeys ↔ constraint ∈ t.constraints := by
  simp [namedKeys]

theorem mem_withConstraint {constraint : Constraint} :
    k ∈ ({ t with constraints := t.constraints ++ [constraint] } : LiveTable).namedKeys ↔
      k = .constraint constraint ∨ k ∈ t.namedKeys := by
  simp only [namedKeys, List.map_append, List.mem_append, List.map_cons, List.map_nil,
    List.mem_singleton]
  tauto

theorem mem_withIndex {i : IndexShape} :
    k ∈ ({ t with indices := t.indices ++ [i] } : LiveTable).namedKeys ↔
      k = .index i ∨ k ∈ t.namedKeys := by
  simp only [namedKeys, List.map_append, List.mem_append, List.map_cons, List.map_nil,
    List.mem_singleton]
  tauto

/-- The table that has a column with a new name mentions it by that name. -/
theorem namedKeys_renamed :
    ((t.followColumn name new).followReference t.id name new).namedKeys
      = t.namedKeys.map (·.mapMentions (renamedIn t.id name new) t.id) := by
  simp only [namedKeys, followColumn, followReference, List.map_append, List.map_map]
  congr 1
  · refine List.map_congr_left fun k _ => ?_
    cases k with
    | primaryKey => simp [Constraint.followColumn, Constraint.followReference,
        NamedKey.mapMentions, renamedIn, Constraint.renamed]
    | foreignKey name column references referencedColumn =>
      by_cases h : references = t.id
      · simp [Constraint.followColumn, Constraint.followReference, NamedKey.mapMentions,
          renamedIn, Constraint.renamed, h]
      · simp [Constraint.followColumn, Constraint.followReference, NamedKey.mapMentions,
          renamedIn, Constraint.renamed, h]
  · refine List.map_congr_left fun i _ => ?_
    simp [NamedKey.mapMentions, renamedIn, Constraint.renamed]

/-- So do all other tables, in the foreign keys that refer to it. -/
theorem namedKeys_followReference (h : u.id ≠ id) :
    (u.followReference id name new).namedKeys
      = u.namedKeys.map (·.mapMentions (renamedIn id name new) u.id) := by
  simp only [namedKeys, followReference, List.map_append, List.map_map]
  congr 1
  · refine List.map_congr_left fun k _ => ?_
    cases k with
    | primaryKey name columns =>
      simp [Constraint.followReference, NamedKey.mapMentions, map_renamedIn_of_ne h]
    | foreignKey name column references referencedColumn =>
      by_cases hr : references = id
      · simp [Constraint.followReference, NamedKey.mapMentions, renamedIn, Constraint.renamed,
          h, hr]
      · simp [Constraint.followReference, NamedKey.mapMentions, renamedIn, h, hr]
  · refine List.map_congr_left fun i _ => ?_
    simp [NamedKey.mapMentions, map_renamedIn_of_ne h]

end LiveTable

namespace LiveSchema

/-- Whether there is a table with an id and a column, for a foreign key to refer to. -/
def Offers (s : LiveSchema) (id column : String) : Prop :=
  ∃ t, s.table? id = some t ∧ t.created = true ∧ t.hasColumn column = true

/-- Whether a key lists the column of its table with that id, or refers to it. -/
def IsMentioned (s : LiveSchema) (id column : String) : Prop :=
  (∃ t ∈ s.tables, t.id = id ∧ ∃ k ∈ t.namedKeys, column ∈ k.columns) ∨
    ∃ t ∈ s.tables, ∃ name own, .foreignKey name own id column ∈ t.constraints

/-- What holds of keys as long as no column that they mention is removed. -/
structure WellFormed (s : LiveSchema) : Prop where
  listed : ∀ t ∈ s.tables, ∀ k ∈ t.namedKeys, ∀ column ∈ k.columns, t.hasColumn column = true
  referred : ∀ t ∈ s.tables, ∀ name own references column,
    .foreignKey name own references column ∈ t.constraints → s.Offers references column
  distinct : ∀ t ∈ s.tables, (t.indices.map (·.columns)).Nodup

variable {c : Setting} {version id name new : String} {s s' : LiveSchema} {t t' u : LiveTable}
  {operations : List Operation}

/-! ## A table in the place of another -/

/-- When a table takes the place of another, what was offered is offered still, if it is no column
of the other one that the table lacks. -/
theorem Offers.setTable {references column : String} (h : s.Offers references column)
    (hs : s'.tables = s.tables) (ht : s.table? t'.id = some t) (hcreated : t'.created = true)
    (hstill : references = t'.id → t.hasColumn column = true → t'.hasColumn column = true) :
    (s'.setTable t').Offers references column := by
  obtain ⟨u, hu, hc, hcolumn⟩ := h
  have hfind : (s'.setTable t').table? references = some (if u.id = t'.id then t' else u) := by
    rw [show s'.setTable t' = { s' with tables := (s.setTable t').tables } by
      simp only [LiveSchema.setTable, hs]]
    show (s.setTable t').table? references = _
    rw [table?_setTable, hu]
    rfl
  obtain ⟨-, rfl⟩ := table?_eq_some hu
  by_cases hid : u.id = t'.id
  · rw [if_pos hid] at hfind
    obtain rfl := Option.some.inj ((hid ▸ hu).symm.trans ht)
    exact ⟨t', hfind, hcreated, hstill hid hcolumn⟩
  · rw [if_neg hid] at hfind
    exact ⟨u, hfind, hc, hcolumn⟩

/-- What is to be shown when a table takes the place of another: it still has the columns that
foreign keys refer to, and its own keys are well formed. -/
theorem WellFormed.replace (h : s.WellFormed) (hs : s'.tables = s.tables)
    (ht : s.table? t'.id = some t) (hcreated : t'.created = true)
    (hkept : ∀ column, t.hasColumn column = true → t'.hasColumn column = true ∨
      ∀ u ∈ s.tables, ∀ name own, .foreignKey name own t'.id column ∉ u.constraints)
    (hlisted : ∀ k ∈ t'.namedKeys, ∀ column ∈ k.columns, t'.hasColumn column = true)
    (hreferred : ∀ name own references column,
      .foreignKey name own references column ∈ t'.constraints → s.Offers references column ∧
        (.foreignKey name own references column ∈ t.constraints ∨ t'.columns = t.columns))
    (hdistinct : (t'.indices.map (·.columns)).Nodup) : (s'.setTable t').WellFormed := by
  have hmem : ∀ u ∈ (s'.setTable t').tables, u = t' ∨ u ∈ s.tables := by
    intro u hu
    exact (mem_setTable hu).imp_right fun hu => hs ▸ hu.1
  constructor
  · intro u hu
    rcases hmem u hu with rfl | hu
    · exact hlisted
    · exact h.listed u hu
  · have hold : ∀ u ∈ s.tables, ∀ name own references column,
        .foreignKey name own references column ∈ u.constraints →
        (s'.setTable t').Offers references column := by
      intro u hu name own references column hk
      refine (h.referred u hu _ _ _ _ hk).setTable hs ht hcreated fun hid hcolumn => ?_
      exact (hkept column hcolumn).resolve_right fun hnone => hnone u hu name own (hid ▸ hk)
    intro u hu name own references column hk
    rcases hmem u hu with rfl | hu
    · obtain ⟨hoffered, hk | hcolumns⟩ := hreferred name own references column hk
      · exact hold t (table?_eq_some ht).1 name own references column hk
      · refine hoffered.setTable hs ht hcreated fun _ hcolumn => ?_
        rw [LiveTable.hasColumn, hcolumns]
        exact hcolumn
    · exact hold u hu name own references column hk
  · intro u hu
    rcases hmem u hu with rfl | hu
    · exact hdistinct
    · exact h.distinct u hu

/-- The keys of the table are none but those that it had before. -/
theorem WellFormed.keep (h : s.WellFormed) (hs : s'.tables = s.tables)
    (ht : s.table? t'.id = some t) (hcreated : t'.created = true)
    (hconstraints : ∀ k ∈ t'.constraints, k ∈ t.constraints)
    (hindices : t'.indices.Sublist t.indices)
    (hkept : ∀ column, t.hasColumn column = true → t'.hasColumn column = true ∨
      ¬ s.IsMentioned t'.id column) : (s'.setTable t').WellFormed := by
  obtain ⟨hm, hid⟩ := table?_eq_some ht
  refine h.replace hs ht hcreated (fun column hcolumn => ?_) (fun k hk column hcolumn => ?_)
    (fun name own references column hk => ?_) ?_
  · refine (hkept column hcolumn).imp_right fun hnot u hu name own hk => ?_
    exact hnot (Or.inr ⟨u, hu, name, own, hk⟩)
  · have hk : k ∈ t.namedKeys := by
      refine LiveTable.mem_namedKeys.mpr ?_
      refine (LiveTable.mem_namedKeys.mp hk).imp ?_ ?_
      · exact fun ⟨constraint, hin, heq⟩ => ⟨constraint, hconstraints constraint hin, heq⟩
      · exact fun ⟨i, hin, heq⟩ => ⟨i, hindices.subset hin, heq⟩
    refine (hkept column (h.listed t hm k hk column hcolumn)).resolve_right fun hnot => ?_
    exact hnot (Or.inl ⟨t, hm, hid, k, hk, hcolumn⟩)
  · have hk := hconstraints _ hk
    exact ⟨h.referred t hm name own references column hk, Or.inl hk⟩
  · exact (h.distinct t hm).sublist (hindices.map _)

/-- The table has one key more, all columns of which are there. -/
theorem WellFormed.gain {k : NamedKey} (h : s.WellFormed) (hs : s'.tables = s.tables)
    (ht : s.table? t'.id = some t) (hcreated : t'.created = true)
    (hcolumns : t'.columns = t.columns)
    (hkeys : ∀ k' ∈ t'.namedKeys, k' = k ∨ k' ∈ t.namedKeys)
    (hlisted : ∀ column ∈ k.columns, t.hasColumn column = true)
    (hreferred : ∀ name own references column,
      k = .constraint (.foreignKey name own references column) → s.Offers references column)
    (hdistinct : (t'.indices.map (·.columns)).Nodup) : (s'.setTable t').WellFormed := by
  have hm := (table?_eq_some ht).1
  have hhas : ∀ column, t'.hasColumn column = t.hasColumn column := fun column => by
    rw [LiveTable.hasColumn, LiveTable.hasColumn, hcolumns]
  refine h.replace hs ht hcreated (fun column hcolumn => Or.inl ((hhas column).trans hcolumn))
    (fun k' hk' column hcolumn => ?_) (fun name own references column hk' => ?_) hdistinct
  · rw [hhas]
    rcases hkeys k' hk' with rfl | hk'
    · exact hlisted column hcolumn
    · exact h.listed t hm k' hk' column hcolumn
  · refine ⟨?_, Or.inr hcolumns⟩
    rcases hkeys _ (LiveTable.constraint_mem_namedKeys.mpr hk') with heq | hk'
    · exact hreferred name own references column heq.symm
    · exact h.referred t hm name own references column
        (LiveTable.constraint_mem_namedKeys.mp hk')

/-! ## Renaming -/

/-- What becomes of a table `u` when a column of the table `t` is renamed. -/
def afterRenaming (t : LiveTable) (name new : String) (column : LiveColumn) (u : LiveTable) :
    LiveTable :=
  (if u.id = t.id then (t.setColumn name column).followColumn name new else u).followReference
    t.id name new

section

variable {column : LiveColumn}

theorem id_afterRenaming : (afterRenaming t name new column u).id = u.id := by
  unfold afterRenaming
  split
  · next h => exact h.symm
  · rfl

theorem tables_renamed :
    ((s.setTable ((t.setColumn name column).followColumn name new)).followReferences
      t.id name new).tables = s.tables.map (afterRenaming t name new column) := by
  simp only [followReferences, setTable, List.map_map]
  rfl

theorem namedKeys_afterRenaming (h : u.id = t.id → u = t) :
    (afterRenaming t name new column u).namedKeys
      = u.namedKeys.map (·.mapMentions (renamedIn t.id name new) u.id) := by
  unfold afterRenaming
  by_cases hid : u.id = t.id
  · rw [if_pos hid, h hid]
    exact LiveTable.namedKeys_renamed (t := t.setColumn name column)
  · rw [if_neg hid]
    exact LiveTable.namedKeys_followReference hid

/-- A column that the table had, it has by its name of now. -/
theorem columnNames_afterRenaming (h : u.id = t.id → u = t) (hname : column.name = new) :
    (afterRenaming t name new column u).columnNames
      = u.columnNames.map (renamedIn t.id name new u.id) := by
  unfold afterRenaming
  by_cases hid : u.id = t.id
  · rw [if_pos hid, h hid]
    show (t.setColumn name column).columnNames = _
    rw [LiveTable.columnNames_setColumn hname, renamedIn_self]
  · rw [if_neg hid, map_renamedIn_of_ne hid]
    rfl

theorem indices_afterRenaming (h : u.id = t.id → u = t) :
    (afterRenaming t name new column u).indices.map (·.columns)
      = (u.indices.map (·.columns)).map (List.map (renamedIn t.id name new u.id)) := by
  unfold afterRenaming
  by_cases hid : u.id = t.id
  · rw [if_pos hid, h hid]
    simp only [LiveTable.followReference, LiveTable.followColumn, LiveTable.setColumn,
      List.map_map, renamedIn_self]
    rfl
  · rw [if_neg hid]
    simp only [LiveTable.followReference, List.map_map]
    exact List.map_congr_left fun i _ => (map_renamedIn_of_ne hid i.columns).symm

end

/-- A rename reaches every mention of the column, and no other. -/
theorem namedKeys_renameProperty (hn : s.ids.Nodup) (ht : s.table? t.id = some t)
    (he : s.renameProperty c version t name new = .ok (s', operations)) :
    s'.tables.map (fun u => (u.id, u.namedKeys))
      = s.tables.map fun u =>
          (u.id, u.namedKeys.map (·.mapMentions (renamedIn t.id name new) u.id)) := by
  obtain ⟨before, column, -, -, -, rfl, -⟩ := renameProperty_ok.mp he
  rw [tables_renamed, List.map_map]
  refine List.map_congr_left fun u hu => ?_
  have hself : u.id = t.id → u = t := List.inj_on_of_nodup_map hn hu (table?_eq_some ht).1
  exact Prod.ext id_afterRenaming (namedKeys_afterRenaming hself)

/-- Renaming back gives the columns again. -/
theorem map_renamed_back {columns : List String} (h : new ∉ columns) :
    (columns.map (Constraint.renamed name new)).map (Constraint.renamed new name) = columns := by
  rw [List.map_map]
  calc columns.map _ = columns.map fun column => column :=
        List.map_congr_left fun column hin => ?_
    _ = columns := List.map_id' columns
  have hne : column ≠ new := fun he => h (he ▸ hin)
  by_cases he : column = name
  · simp [Constraint.renamed, he]
  · simp [Constraint.renamed, he, hne]

/-- Lists of columns stay different when a column gets a name that none of them has. -/
theorem nodup_map_renamed {lists : List (List String)} (hnew : ∀ columns ∈ lists, new ∉ columns)
    (hn : lists.Nodup) : (lists.map (List.map (Constraint.renamed name new))).Nodup := by
  refine List.Nodup.of_map (List.map (Constraint.renamed new name)) ?_
  have hback : (lists.map (List.map (Constraint.renamed name new))).map
      (List.map (Constraint.renamed new name)) = lists := by
    rw [List.map_map]
    calc lists.map _ = lists.map fun columns => columns :=
          List.map_congr_left fun columns hin => map_renamed_back (hnew columns hin)
      _ = lists := List.map_id' lists
  rw [hback]
  exact hn

theorem WellFormed.renameProperty (h : s.WellFormed) (hn : s.ids.Nodup)
    (ht : s.table? t.id = some t)
    (he : s.renameProperty c version t name new = .ok (s', operations)) : s'.WellFormed := by
  obtain ⟨before, column, hb, hfree, hd, rfl, -⟩ := renameProperty_ok.mp he
  have hname : column.name = new := redeclare_name hd
  have hself : ∀ u ∈ s.tables, u.id = t.id → u = t := fun u hu =>
    List.inj_on_of_nodup_map hn hu (table?_eq_some ht).1
  have hcolumn : ∀ u ∈ s.tables, ∀ name', u.hasColumn name' = true →
      (afterRenaming t name new column u).hasColumn (renamedIn t.id name new u.id name')
        = true := by
    intro u hu name' hhas
    rw [LiveTable.hasColumn_iff] at hhas ⊢
    rw [columnNames_afterRenaming (hself u hu) hname]
    exact List.mem_map_of_mem hhas
  constructor
  · intro u' hu' k' hk' name' hname'
    rw [tables_renamed] at hu'
    obtain ⟨u, hu, rfl⟩ := List.mem_map.mp hu'
    rw [namedKeys_afterRenaming (hself u hu)] at hk'
    obtain ⟨k, hk, rfl⟩ := List.mem_map.mp hk'
    rw [NamedKey.columns_mapMentions] at hname'
    obtain ⟨old, hold, rfl⟩ := List.mem_map.mp hname'
    exact hcolumn u hu old (h.listed u hu k hk old hold)
  · intro u' hu' key own references name' hk'
    rw [tables_renamed] at hu'
    obtain ⟨u, hu, rfl⟩ := List.mem_map.mp hu'
    rw [← LiveTable.constraint_mem_namedKeys, namedKeys_afterRenaming (hself u hu)] at hk'
    obtain ⟨k, hk, heq⟩ := List.mem_map.mp hk'
    obtain ⟨own, old, rfl, rfl⟩ := NamedKey.of_mapMentions_foreignKey heq
    obtain ⟨v, hv, hc, hold⟩ := h.referred u hu key own references old
      (LiveTable.constraint_mem_namedKeys.mp hk)
    obtain ⟨hvm, rfl⟩ := table?_eq_some hv
    refine ⟨afterRenaming t name new column v, ?_, ?_, hcolumn v hvm old hold⟩
    · rw [table?_map (fun _ => id_afterRenaming) tables_renamed, hv]
      rfl
    · unfold afterRenaming
      split
      · next hid => rw [hself v hvm hid] at hc; exact hc
      · exact hc
  · intro u' hu'
    rw [tables_renamed] at hu'
    obtain ⟨u, hu, rfl⟩ := List.mem_map.mp hu'
    rw [indices_afterRenaming (hself u hu)]
    by_cases hid : u.id = t.id
    · obtain rfl := hself u hu hid
      rw [renamedIn_self]
      refine nodup_map_renamed (fun columns hin hnew => ?_) (h.distinct u hu)
      obtain ⟨i, hi, rfl⟩ := List.mem_map.mp hin
      have hhas := h.listed u hu (.index i)
        (LiveTable.mem_namedKeys.mpr (Or.inr ⟨i, hi, rfl⟩)) new hnew
      exact absurd (hhas.symm.trans hfree) (by simp)
    · rw [funext (map_renamedIn_of_ne hid), List.map_id']
      exact h.distinct u hu

/-! ## Each edit -/

/-- Whether an edit removes a column that some key mentions. -/
def RemovesMentioned (s : LiveSchema) (id : String) (e : TableEdit) : Prop :=
  ∃ column, e.removedColumn? = some column ∧ s.IsMentioned id column

/-- Nothing but the removal of a column that is mentioned can spoil the keys. -/
theorem Effect.wellFormed {e : TableEdit} (hs : s.Sound) (h : s.WellFormed)
    (ht : s.table? id = some t) (hc : t.created = !e.isCreation)
    (he : Effect c version s t e s' operations) (hnot : ¬ s.RemovesMentioned id e) :
    s'.WellFormed := by
  obtain ⟨hm, rfl⟩ := table?_eq_some ht
  cases he with
  | create he =>
    obtain ⟨-, s₁, columns, hd, rfl, -⟩ := createTable_ok.mp he
    -- a table that has not been created has neither columns nor keys
    obtain ⟨hcolumns, hkeys⟩ := hs.blank t hm hc
    refine h.keep (t := t) (declareAll_frame hd).1 ht rfl (fun _ hk => hk) (.refl _) ?_
    intro column hcolumn
    rw [LiveTable.hasColumn, hcolumns] at hcolumn
    cases hcolumn
  | @rename name =>
    unfold renameTable
    split
    · exact h
    · next new =>
      split
      · exact h
      · show (s.setTable { t with name := new }).WellFormed
        exact h.keep (t := t) rfl ht hc (fun _ hk => hk) (.refl _) fun _ => Or.inl
  | addProperty he =>
    obtain ⟨-, s₁, column, hd, rfl, -⟩ := addProperty_ok.mp he
    refine h.keep (t := t) (declare_frame hd).1 ht hc (fun _ hk => hk) (.refl _) ?_
    intro name hname
    refine Or.inl (LiveTable.hasColumn_iff.mpr ?_)
    rw [LiveTable.columnNames, List.map_append]
    exact List.mem_append_left _ (LiveTable.hasColumn_iff.mp hname)
  | renameProperty he => exact h.renameProperty hs.distinct ht he
  | retypeProperty he =>
    obtain ⟨before, after, s₁, statements, hb, -, -, hd, -, rfl, -⟩ := retypeProperty_ok.mp he
    refine h.keep (t := t) (declare_frame hd).1 ht hc (fun _ hk => hk) (.refl _) ?_
    intro name hname
    refine Or.inl (LiveTable.hasColumn_iff.mpr ?_)
    rw [LiveTable.columnNames_setColumn_self (declare_name hd)]
    exact LiveTable.hasColumn_iff.mp hname
  | @removeProperty name _ _ he =>
    obtain ⟨-, rfl, -⟩ := removeProperty_ok.mp he
    refine h.keep (t := t) rfl ht hc (fun _ hk => hk) (.refl _) ?_
    intro column hcolumn
    by_cases hname : column = name
    · subst hname
      exact Or.inr fun hmentioned => hnot ⟨column, rfl, hmentioned⟩
    · rw [LiveTable.hasColumn_iff, LiveTable.columnNames_dropColumn, List.mem_filter]
      exact Or.inl ⟨LiveTable.hasColumn_iff.mp hcolumn, bne_iff_ne.mpr hname⟩
  | addPrimaryKey he =>
    obtain ⟨-, -, hcheck, s₁, hr, rfl, -⟩ := addPrimaryKey_ok.mp he
    obtain ⟨-, rfl⟩ := reserve_ok.mp hr
    refine h.gain (t := t) rfl ht hc rfl (fun _ => LiveTable.mem_withConstraint.mp) ?_ ?_
      (h.distinct t hm)
    · intro column hcolumn
      obtain ⟨k, hk, -⟩ := checkKeyColumns_ok.mp hcheck column hcolumn
      exact LiveTable.hasColumn_of_column? hk
    · exact fun _ _ _ _ heq => by cases heq
  | addForeignKey he =>
    obtain ⟨own, target, s₁, hown, -, htarget, hcreated, hcolumn, hr, rfl, -⟩ :=
      addForeignKey_ok.mp he
    obtain ⟨-, rfl⟩ := reserve_ok.mp hr
    refine h.gain (t := t) rfl ht hc rfl (fun _ => LiveTable.mem_withConstraint.mp) ?_ ?_
      (h.distinct t hm)
    · exact List.forall_mem_singleton.mpr (LiveTable.hasColumn_of_column? hown)
    · intro _ _ _ _ heq
      cases heq
      exact ⟨target, htarget, hcreated, hcolumn⟩
  | removePrimaryKey he =>
    obtain ⟨key, -, -, rfl, -⟩ := removePrimaryKey_ok.mp he
    exact h.keep (t := t) rfl ht hc (fun _ hk => (List.mem_filter.mp hk).1) (.refl _)
      fun _ => Or.inl
  | removeForeignKey he =>
    obtain ⟨-, rfl, -⟩ := removeForeignKey_ok.mp he
    exact h.keep (t := t) rfl ht hc (fun _ hk => (List.mem_filter.mp hk).1) (.refl _)
      fun _ => Or.inl
  | addIndex he =>
    obtain ⟨-, hcolumns, hdistinct, s₁, hr, rfl, -⟩ := addIndex_ok.mp he
    obtain ⟨-, rfl⟩ := reserve_ok.mp hr
    refine h.gain (t := t) rfl ht hc rfl (fun _ => LiveTable.mem_withIndex.mp) hcolumns ?_ ?_
    · exact fun _ _ _ _ heq => by cases heq
    · rw [List.map_append, List.map_singleton, ← List.concat_eq_append]
      refine (h.distinct t hm).concat fun hin => ?_
      obtain ⟨i, hi, heq⟩ := List.mem_map.mp hin
      exact hdistinct i hi heq
  | removeIndex he =>
    obtain ⟨-, rfl, -⟩ := removeIndex_ok.mp he
    exact h.keep (t := t) rfl ht hc (fun _ hk => hk) List.filter_sublist fun _ => Or.inl

/-! ## All along a walk -/

theorem WellFormed.edit {e : String × TableEdit} (hs : s.Sound) (h : s.WellFormed)
    (he : s.edit c version e = .ok (s', operations)) (hnot : ¬ s.RemovesMentioned e.1 e.2) :
    s'.WellFormed := by
  rcases edit_ok he with ⟨rfl, -⟩ | ⟨t, ht, hc, he⟩
  · exact h
  · exact he.wellFormed hs h ht hc hnot

/-- Steps that are due say nothing about keys until they are taken. -/
theorem WellFormed.takeDue (h : s.WellFormed) : (s.takeDue version).1.WellFormed := by
  have hmem : ∀ u ∈ (s.takeDue version).1.tables,
      ∃ t ∈ s.tables, { t with pending := TableStep.beyond version t.pending } = u :=
    fun u hu => List.mem_map.mp (takeDue_tables ▸ hu)
  constructor
  · intro u hu
    obtain ⟨t, ht, rfl⟩ := hmem u hu
    exact h.listed t ht
  · intro u hu name own references column hk
    obtain ⟨t, ht, rfl⟩ := hmem u hu
    obtain ⟨v, hv, hoffered⟩ := h.referred t ht name own references column hk
    have hfind : (s.takeDue version).1.table? references
        = some { v with pending := TableStep.beyond version v.pending } := by
      have hmap : (s.takeDue version).1.table? references = (s.table? references).map
          fun t => { t with pending := TableStep.beyond version t.pending } :=
        table?_map (fun _ => rfl) takeDue_tables
      rw [hmap, hv]
      rfl
    exact ⟨_, hfind, hoffered⟩
  · intro u hu
    obtain ⟨t, ht, rfl⟩ := hmem u hu
    exact h.distinct t ht

/-- At the start there are no keys. -/
theorem wellFormed_start {h : SchemaHistory} (hs : LiveSchema.start h = .ok s) : s.WellFormed := by
  have hblank : ∀ u ∈ s.tables, u.constraints = [] ∧ u.indices = [] := by
    intro u hu
    obtain ⟨t, -, name, hu⟩ := tables_start hs hu
    rw [hu]
    exact ⟨rfl, rfl⟩
  constructor
  · intro u hu k hk
    rw [LiveTable.namedKeys, (hblank u hu).1, (hblank u hu).2] at hk
    cases hk
  · intro u hu name own references column hk
    rw [(hblank u hu).1] at hk
    cases hk
  · intro u hu
    rw [(hblank u hu).2]
    exact .nil

/-- A walk that never removes a column that is mentioned leads to well-formed keys. -/
theorem wellFormed_walk {versions : List String} {w : Walk} (hs : start c.history = .ok s)
    (hw : s.walk c versions = .ok w)
    (hnot : ∀ x ∈ changes c s versions, ¬ x.before.RemovesMentioned x.id x.edit) :
    w.final.WellFormed := by
  have hsound := sound_start hs
  have hstart : s.Sound ∧
      ((∀ x ∈ ([] : List Change), ¬ x.before.RemovesMentioned x.id x.edit) → s.WellFormed) :=
    ⟨hsound, fun _ => wellFormed_start hs⟩
  refine (changes_invariant (P := fun s xs => s.Sound ∧
      ((∀ x ∈ xs, ¬ x.before.RemovesMentioned x.id x.edit) → s.WellFormed))
    (fun s xs version ⟨hs, h⟩ => ⟨hs.takeDue, fun hxs => (h hxs).takeDue⟩)
    (fun version s xs e s' operations ⟨hs, h⟩ he => ⟨hs.edit he, fun hxs => ?_⟩)
    hsound hstart hw).2 hnot
  rw [List.forall_mem_append, List.forall_mem_singleton] at hxs
  exact (h hxs.1).edit hs he hxs.2

/-- In every state of a build, an edit that succeeds keeps the keys well formed, unless it removes a
column that some key mentions. And when a column is renamed, every mention of it is a mention of its
new name; of all else that the keys of any table are made of nothing changes. -/
theorem keys_stay_wellFormed {e : TableEdit} (hs : Reached c s)
    (he : s.edit c version (id, e) = .ok (s', operations)) :
    (s.WellFormed → ¬ s.RemovesMentioned id e → s'.WellFormed) ∧
      ∀ name new t, e = .property (.rename name new) → s.table? id = some t → t.created = true →
        s'.names = s.names ∧
        s'.tables.map (fun u => (u.id, u.namedKeys))
          = s.tables.map fun u =>
              (u.id, u.namedKeys.map (·.mapMentions (renamedIn id name new) u.id)) := by
  refine ⟨fun h hnot => h.edit hs.sound he hnot, ?_⟩
  rintro name new t rfl ht hc
  rcases edit_ok he with ⟨-, -, hidle⟩ | ⟨u, hu, -, heffect⟩
  · exact absurd ((hidle t ht).trans hc) (by simp [TableEdit.isCreation])
  · obtain rfl := Option.some.inj (hu.symm.trans ht)
    obtain ⟨-, rfl⟩ := table?_eq_some ht
    cases heffect with | renameProperty he =>
    refine ⟨?_, namedKeys_renameProperty hs.sound.distinct ht he⟩
    obtain ⟨before, column, -, -, -, rfl, -⟩ := renameProperty_ok.mp he
    rfl

/-- Books and their authors, with a foreign key and an index on two columns. -/
def authoredBooks : SchemaHistory where
  tables := [
    ⟨"authors", [⟨"1", some "authors", [.add "id" { type := .integer }],
      [.addPrimaryKey "authors_key" ["id"]], []⟩]⟩,
    ⟨"books", [⟨"1", some "books", [.add "title" { type := .text }, .add "id" { type := .integer }],
      [.addForeignKey "books_author" "id" "authors" "id"],
      [.add .plain "books_by_title" ["title", "id"]]⟩]⟩]

/-- When the author's id gets another name, the book's column of the same name keeps its own. -/
theorem keys_stay_wellFormed_authoredBooks :
    ∃ s s' operations, Reached ⟨.mysql, authoredBooks⟩ s ∧
      s.edit ⟨.mysql, authoredBooks⟩ "2" ("authors", .property (.rename "id" "number"))
        = .ok (s', operations) ∧
      s.WellFormed ∧ s'.WellFormed ∧
      s'.tables.map (fun u => (u.id, u.namedKeys)) =
        [("authors", [.constraint (.primaryKey "authors_key" ["number"])]),
          ("books", [.constraint (.foreignKey "books_author" "id" "authors" "number"),
            .index ⟨"books_by_title", ["title", "id"], false⟩])] := by
  obtain ⟨start, w, s', operations, t, hs, hw, hkept, he, ht, hc, hkeys⟩ :
      ∃ start w s' operations t, LiveSchema.start authoredBooks = .ok start ∧
        start.walk ⟨.mysql, authoredBooks⟩ ["1"] = .ok w ∧
        (∀ x ∈ changes ⟨.mysql, authoredBooks⟩ start ["1"], x.edit.removedColumn? = none) ∧
        w.final.edit ⟨.mysql, authoredBooks⟩ "2" ("authors", .property (.rename "id" "number"))
          = .ok (s', operations) ∧
        w.final.table? "authors" = some t ∧ t.created = true ∧
        (w.final.tables.map fun u =>
            (u.id, u.namedKeys.map (·.mapMentions (renamedIn "authors" "id" "number") u.id))) =
          [("authors", [.constraint (.primaryKey "authors_key" ["number"])]),
            ("books", [.constraint (.foreignKey "books_author" "id" "authors" "number"),
              .index ⟨"books_by_title", ["title", "id"], false⟩])] :=
    ⟨_, _, _, _, _, rfl, rfl, by decide, rfl, rfl, rfl, rfl⟩
  have hreached : Reached ⟨.mysql, authoredBooks⟩ w.final :=
    (Reached.start (c := ⟨.mysql, authoredBooks⟩) hs).walk hw
  have hwell : w.final.WellFormed :=
    wellFormed_walk (c := ⟨.mysql, authoredBooks⟩) hs hw fun x hx ⟨column, hcolumn, _⟩ => by
      rw [hkept x hx] at hcolumn
      cases hcolumn
  obtain ⟨hstay, hrename⟩ := keys_stay_wellFormed hreached he
  obtain ⟨-, hmentions⟩ := hrename "id" "number" t rfl ht hc
  refine ⟨w.final, s', operations, hreached, he, hwell, hstay hwell ?_, hmentions.trans hkeys⟩
  rintro ⟨column, hcolumn, -⟩
  cases hcolumn

end LiveSchema

end SchemaEvolution
