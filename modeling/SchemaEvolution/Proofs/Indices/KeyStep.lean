import SchemaEvolution.Proofs.Indices.Declared
import SchemaEvolution.Proofs.Indices.Intact

/-!
# What edits do to keys

Of the many kinds of edits only a few matter to the keys of a table: one adds a key, one removes a
key, a retyping may build the table anew, a column may be removed, and all others leave the keys as
they are, but for the names of columns. `KeyStep` lists these five, and `Effect.keyStep` says that
in SQLite every edit is one of them.
-/

namespace SchemaEvolution

namespace LiveTable

variable {t t' : LiveTable} {k : IndexShape} {name new : String} {column before : LiveColumn}

/-! ## The primary key -/

theorem mem_indexed_of_primaryKey (hn : t.keyNames.Nodup) (hk : t.primaryKey? = some k) :
    k ∈ t.indexed ↔ isOneSerial k.columns t.columns = false := by
  have hnot : k ∉ t.indices := fun hi =>
    (List.nodup_append.mp hn).2.2 k.name (List.mem_map_of_mem (mem_of_primaryKey? hk).1) k.name
      (List.mem_map_of_mem hi) rfl
  rw [mem_indexed, or_iff_left hnot, and_iff_right hk]

theorem mem_indexed_of_index (hk : k ∈ t.indices) : k ∈ t.indexed := mem_indexed.mpr (Or.inr hk)

theorem primaryKey?_withPrimaryKey {columns : List String} (h : t.primaryKey? = none) :
    ({ t with constraints := t.constraints ++ [.primaryKey name columns] } : LiveTable).primaryKey?
      = some ⟨name, columns, true⟩ := by
  rw [primaryKey?] at h
  rw [primaryKey?, List.findSome?_append, h]
  rfl

theorem primaryKey?_withForeignKey {own references referenced : String} :
    ({ t with constraints :=
      t.constraints ++ [.foreignKey name own references referenced] } : LiveTable).primaryKey?
      = t.primaryKey? := by
  rw [primaryKey?, List.findSome?_append, primaryKey?]
  exact Option.or_none

theorem primaryKey?_followReference {id : String} :
    (t.followReference id name new).primaryKey? = t.primaryKey? := by
  rw [primaryKey?, followReference, List.findSome?_map, primaryKey?]
  congr 1
  funext k
  cases k <;> rfl

theorem primaryKey?_followColumn :
    (t.followColumn name new).primaryKey?
      = t.primaryKey?.map fun k =>
        { k with columns := k.columns.map (Constraint.renamed name new) } := by
  rw [primaryKey?, followColumn, List.findSome?_map, primaryKey?, List.map_findSome?]
  congr 1
  funext k
  cases k <;> rfl

/-- Without its primary key a table has none. -/
theorem primaryKey?_withoutConstraint_self (hp : t.primaryKeys ≤ 1) (hk : t.primaryKey? = some k) :
    (LiveSchema.withoutConstraint t k.name).primaryKey? = none := by
  rw [Option.eq_none_iff_forall_ne_some]
  intro k' hk'
  obtain ⟨hm, hname⟩ := List.mem_filter.mp (mem_of_primaryKey? hk').1
  have heq := hk.symm.trans (primaryKey?_of_mem hp hm)
  have : k.name = k'.name := by rw [Option.some.inj heq]
  simp [Constraint.name, this] at hname

/-- Without one of its foreign keys it has the primary key that it had. -/
theorem primaryKey?_withoutConstraint (hn : t.keyNames.Nodup) (hp : t.primaryKeys ≤ 1)
    {foreign : Constraint} (hm : foreign ∈ t.constraints) (hf : foreign.isPrimaryKey = false) :
    (LiveSchema.withoutConstraint t foreign.name).primaryKey? = t.primaryKey? := by
  have hfewer : (LiveSchema.withoutConstraint t foreign.name).primaryKeys ≤ t.primaryKeys :=
    primaryKeys_withoutConstraint
  cases hk : t.primaryKey? with
  | none =>
    rw [primaryKey?_eq_none] at hk ⊢
    omega
  | some k =>
    obtain ⟨hkm, hunique⟩ := mem_of_primaryKey? hk
    have hne : k.name ≠ foreign.name := by
      intro he
      have hinj := List.inj_on_of_nodup_map (List.nodup_append.mp hn).1 hkm hm he
      rw [← hinj] at hf
      cases hf
    have hkept : .primaryKey k.name k.columns
        ∈ (LiveSchema.withoutConstraint t foreign.name).constraints :=
      List.mem_filter.mpr ⟨hkm, by simpa [Constraint.name] using hne⟩
    rw [primaryKey?_of_mem (Nat.le_trans hfewer hp) hkept, ← hunique]

/-! ## One serial column -/

/-- Whether the key of a column is one serial column, before and after the column changes. -/
theorem isOneSerial_setColumn {key : List String} (hn : t.columnNames.Nodup)
    (hb : t.column? name = some before) (hname : column.name = name)
    (hs : column.property.isSerial = before.property.isSerial) :
    isOneSerial key (t.setColumn name column).columns = isOneSerial key t.columns := by
  obtain ⟨hbm, hbn⟩ := column?_eq_some hb
  rw [Bool.eq_iff_iff, isOneSerial_iff, isOneSerial_iff]
  constructor
  · rintro ⟨c, hc, rfl, hserial⟩
    rcases LiveTable.mem_setColumn hc with rfl | ⟨hc, -⟩
    · exact ⟨before, hbm, by rw [hname, hbn], by rw [← hs, hserial]⟩
    · exact ⟨c, hc, rfl, hserial⟩
  · rintro ⟨c, hc, rfl, hserial⟩
    by_cases hcn : c.name = name
    · obtain rfl := eq_of_mem_columns hn hc hbm (hcn.trans hbn.symm)
      exact ⟨column, List.mem_map.mpr ⟨c, hc, if_pos hcn⟩, by rw [hname, hcn], by rw [hs, hserial]⟩
    · exact ⟨c, List.mem_map.mpr ⟨c, hc, if_neg hcn⟩, rfl, hserial⟩

/-- A new column makes no difference to a key that has all its columns. -/
theorem isOneSerial_append {key : List String} (hkey : ∀ c ∈ key, c ∈ t.columnNames)
    (hnew : column.name ∉ t.columnNames) :
    isOneSerial key (t.columns ++ [column]) = isOneSerial key t.columns := by
  rw [Bool.eq_iff_iff, isOneSerial_iff, isOneSerial_iff]
  constructor
  · rintro ⟨c, hc, rfl, hserial⟩
    rcases List.mem_append.mp hc with hc | hc
    · exact ⟨c, hc, rfl, hserial⟩
    · rw [List.mem_singleton.mp hc] at hkey
      exact absurd (hkey _ List.mem_cons_self) hnew
  · rintro ⟨c, hc, rfl, hserial⟩
    exact ⟨c, List.mem_append_left _ hc, rfl, hserial⟩

/-- Nor does a new name, if the key follows it and did not consist of that name before. -/
theorem isOneSerial_renamed {key : List String} (hn : t.columnNames.Nodup)
    (hkey : key ≠ [new]) (hb : t.column? name = some before)
    (hnew : new ∉ t.columnNames) (hname : column.name = new)
    (hs : column.property.isSerial = before.property.isSerial) :
    isOneSerial (key.map (Constraint.renamed name new)) (t.setColumn name column).columns
      = isOneSerial key t.columns := by
  obtain ⟨hbm, hbn⟩ := column?_eq_some hb
  rw [Bool.eq_iff_iff, isOneSerial_iff, isOneSerial_iff]
  constructor
  · rintro ⟨c, hc, hmap, hserial⟩
    obtain ⟨x, rfl, hx⟩ := List.map_eq_singleton_iff.mp hmap
    unfold Constraint.renamed at hx
    split at hx
    · next hxn =>
      rcases LiveTable.mem_setColumn hc with rfl | ⟨hc, -⟩
      · exact ⟨before, hbm, by rw [hxn, hbn], by rw [← hs, hserial]⟩
      · exact absurd (hx ▸ List.mem_map_of_mem hc) hnew
    · rcases LiveTable.mem_setColumn hc with rfl | ⟨hc, -⟩
      · exact absurd (by rw [hx, hname]) hkey
      · exact ⟨c, hc, by rw [hx], hserial⟩
  · rintro ⟨c, hc, rfl, hserial⟩
    by_cases hcn : c.name = name
    · obtain rfl := eq_of_mem_columns hn hc hbm (hcn.trans hbn.symm)
      exact ⟨column, List.mem_map.mpr ⟨c, hc, if_pos hcn⟩,
        by rw [hname, List.map_singleton, Constraint.renamed, if_pos hcn], by rw [hs, hserial]⟩
    · exact ⟨c, List.mem_map.mpr ⟨c, hc, if_neg hcn⟩,
        by rw [List.map_singleton, Constraint.renamed, if_neg hcn], hserial⟩

end LiveTable

/-! ## The five kinds of edits -/

/-- Whether two tables agree in what keys are about. -/
structure LiveTable.SameKeys (t u : LiveTable) : Prop where
  primaryKey : t.primaryKey? = u.primaryKey?
  indices : t.indices = u.indices
  columns : t.columns = u.columns

theorem LiveTable.SameKeys.keys {t u : LiveTable} (h : t.SameKeys u) : t.keys = u.keys := by
  rw [LiveTable.keys, h.primaryKey, h.indices, LiveTable.keys]

theorem LiveTable.SameKeys.indexed {t u : LiveTable} (h : t.SameKeys u) :
    t.indexed = u.indexed := by
  rw [LiveTable.indexed, h.primaryKey, h.indices, h.columns, LiveTable.indexed]

/-- Whether a table of a schema has become another one, and the other tables are as they were, for
all that keys are about. -/
structure LiveSchema.Placed (s s' : LiveSchema) (t' : LiveTable) : Prop where
  ids : s'.ids = s.ids
  self : ∃ u, s'.table? t'.id = some u ∧ u.SameKeys t'
  others : ∀ u' ∈ s'.tables, u'.id ≠ t'.id → ∃ u ∈ s.tables, u.id = u'.id ∧ u'.SameKeys u

/-- What an edit of a table, which takes it from `t` to `t'`, does to its keys with some
statements. -/
inductive KeyStep (t t' : LiveTable) (e : TableEdit) (ss : List Ddl) : Prop
  | keep (hss : ∀ x ∈ ss, x.isAboutIndices = false) (hadded : e.addedKey? = none)
      (hremoved : e.removedColumn? = none)
      (hkeys : ∀ k' ∈ t'.keys, ∃ k ∈ t.keys, k.name = k'.name ∧
        (k.isComplete t.columns = true →
          k'.isComplete t'.columns = true ∧ (k' ∈ t'.indexed ↔ k ∈ t.indexed)))
      (hnames : ∀ k ∈ t.keys, ∃ k' ∈ t'.keys, k'.name = k.name)
  | gain (k : IndexShape)
      (hss : (k ∈ t'.indexed ∧ ss = [.createIndex k.unique t.name k.name k.columns]) ∨
        (k ∉ t'.indexed ∧ ss = []))
      (hadded : e.addedKey? = some k.name) (hremoved : e.removedColumn? = none)
      (hnew : ∀ k' ∈ t.keys, k'.name ≠ k.name)
      (hkeys : ∀ k', k' ∈ t'.keys ↔ k' = k ∨ k' ∈ t.keys) (hcolumns : t'.columns = t.columns)
      (hcomplete : k.isComplete t.columns = true)
      (hindexed : ∀ k' ∈ t.keys, k' ∈ t'.indexed ↔ k' ∈ t.indexed)
  | lose (k : IndexShape) (hk : k ∈ t.keys)
      (hss : ss = [.dropIndex t.name k.name] ∨ (k ∉ t.indexed ∧ ss = []))
      (hadded : e.addedKey? = none) (hremoved : e.removedColumn? = none)
      (hkeys : ∀ k', k' ∈ t'.keys ↔ k' ∈ t.keys ∧ k'.name ≠ k.name)
      (hcolumns : t'.columns = t.columns)
      (hindexed : ∀ k' ∈ t'.keys, k' ∈ t'.indexed ↔ k' ∈ t.indexed)
  | rebuild (first second : List Ddl) (table : String)
      (hfirst : ∀ x ∈ first, x.isAboutIndices = false)
      (hsecond : ∀ x ∈ second, x.isAboutIndices = false)
      (hss : ss = first ++ .dropTable table :: (second
        ++ Dialect.creations t' (t'.indexed.filter (·.isComplete t'.columns))))
      (hadded : e.addedKey? = none) (hremoved : e.removedColumn? = none)
      (hkeys : t'.keys = t.keys) (hcolumns : t'.columnNames = t.columnNames)
  | dropColumn (column : String) (ht : t' = t.dropColumn column)
      (hss : ss = ((t.indexed.filter (·.mentions column)).map fun k => .dropIndex t.name k.name)
        ++ [.dropColumn t.name column])
      (hadded : e.addedKey? = none) (hremoved : e.removedColumn? = some column)

namespace LiveSchema

variable {c : Setting} {version id : String} {s s' s₁ : LiveSchema} {t t' : LiveTable}
  {e : TableEdit} {ss : List Ddl} {operations : List Operation}

theorem placed_setTable (hs : s₁.tables = s.tables) (ht : s.table? t'.id = some t) :
    s.Placed (s₁.setTable t') t' := by
  refine ⟨?_, ?_, fun u' hu' hne => ?_⟩
  · rw [ids_setTable, ids, hs, ids]
  · refine ⟨t', table?_setTable_self (u := t) ?_, rfl, rfl, rfl⟩
    rw [table?, hs]
    exact ht
  · rcases mem_setTable hu' with rfl | ⟨hu', -⟩
    · exact absurd rfl hne
    · exact ⟨u', hs ▸ hu', rfl, rfl, rfl, rfl⟩

theorem Placed.followReferences {name new : String} (h : s.Placed s' t') :
    s.Placed (s'.followReferences id name new) t' := by
  have hsame : ∀ u : LiveTable, (u.followReference id name new).SameKeys u := fun u =>
    ⟨LiveTable.primaryKey?_followReference, rfl, rfl⟩
  refine ⟨by rw [ids_followReferences, h.ids], ?_, fun u' hu' hne => ?_⟩
  · obtain ⟨u, hu, hkeys⟩ := h.self
    refine ⟨u.followReference id name new, ?_, ?_⟩
    · rw [table?_map (s := s') (f := (·.followReference id name new)) (fun _ => rfl) rfl, hu]
      rfl
    · exact ⟨(hsame u).primaryKey.trans hkeys.primaryKey, hkeys.indices, hkeys.columns⟩
  · obtain ⟨v, hv, rfl⟩ := List.mem_map.mp hu'
    obtain ⟨u, hu, hid, hkeys⟩ := h.others v hv hne
    exact ⟨u, hu, hid, (hsame v).primaryKey.trans hkeys.primaryKey, hkeys.indices, hkeys.columns⟩

/-- The keys of a table stay, and nothing changes for those that have all their columns. -/
theorem keyStep_keep (hn : t.keyNames.Nodup) (hss : ∀ x ∈ ss, x.isAboutIndices = false)
    (hadded : e.addedKey? = none) (hremoved : e.removedColumn? = none)
    (hprimary : t'.primaryKey? = t.primaryKey?) (hindices : t'.indices = t.indices)
    (hnames : t'.keyNames.Nodup)
    (hkeys : ∀ k ∈ t.keys, k.isComplete t.columns = true → k.isComplete t'.columns = true ∧
      isOneSerial k.columns t'.columns = isOneSerial k.columns t.columns) : KeyStep t t' e ss := by
  have hsame : t'.keys = t.keys := by rw [LiveTable.keys, hprimary, hindices, LiveTable.keys]
  refine .keep hss hadded hremoved (fun k hk => ?_) fun k hk => ⟨k, hsame ▸ hk, rfl⟩
  rw [hsame] at hk
  refine ⟨k, hk, rfl, fun hcomplete => ⟨(hkeys k hk hcomplete).1, ?_⟩⟩
  rcases LiveTable.mem_keys.mp hk with hpk | hi
  · rw [LiveTable.mem_indexed_of_primaryKey hnames (hprimary.trans hpk),
      LiveTable.mem_indexed_of_primaryKey hn hpk, (hkeys k hk hcomplete).2]
  · exact iff_of_true (LiveTable.mem_indexed_of_index (hindices ▸ hi))
      (LiveTable.mem_indexed_of_index hi)

/-- A further column makes no difference to keys that have all their columns. -/
theorem keyStep_addColumn {column : LiveColumn} (hn : t.keyNames.Nodup)
    (hnew : column.name ∉ t.columnNames) (hss : ∀ x ∈ ss, x.isAboutIndices = false)
    (hadded : e.addedKey? = none) (hremoved : e.removedColumn? = none) :
    KeyStep t { t with columns := t.columns ++ [column] } e ss := by
  refine keyStep_keep hn hss hadded hremoved rfl rfl hn fun k _ hk => ?_
  have hk := LiveTable.isComplete_iff.mp hk
  refine ⟨LiveTable.isComplete_iff.mpr fun c hc => ?_, LiveTable.isOneSerial_append hk hnew⟩
  rw [LiveTable.columnNames, List.map_append]
  exact List.mem_append_left _ (hk c hc)

/-- A retyping leaves the keys alone or builds the table anew. -/
theorem keyStep_retype {name : String} {before after : LiveColumn} {enums : EnumScope}
    (hn : t.keyNames.Nodup) (hcolumns : t.columnNames.Nodup) (hb : t.column? name = some before)
    (hname : after.name = name) (hbefore : before.IsDeclared .sqlite)
    (hafter : after.IsDeclared .sqlite) (hadded : e.addedKey? = none)
    (hremoved : e.removedColumn? = none)
    (hss : Dialect.sqlite.columnRetyping (t.setColumn name after).shape before after enums
      = .ok ss) : KeyStep t (t.setColumn name after) e ss := by
  have hnames : (t.setColumn name after).columnNames = t.columnNames :=
    LiveTable.columnNames_setColumn_self hname
  simp only [Dialect.columnRetyping, Except.ok.injEq] at hss
  split at hss
  · next hsame =>
    subst hss
    have hserial : after.property.isSerial = before.property.isSerial :=
      Dialect.isSerial_of_declaration_eq hafter hbefore
        (hname.trans (LiveTable.column?_eq_some hb).2.symm) hsame.symm
    refine keyStep_keep hn (by simp) hadded hremoved rfl rfl hn fun k _ hcomplete => ⟨?_, ?_⟩
    · rw [LiveTable.isComplete_iff, hnames]
      exact LiveTable.isComplete_iff.mp hcomplete
    · exact LiveTable.isOneSerial_setColumn hcolumns hb hname hserial
  · subst hss
    rw [Dialect.rebuild_sqlite]
    exact .rebuild [_, _] [_] _ (by simp [Ddl.isAboutIndices]) (by simp [Ddl.isAboutIndices]) rfl
      hadded hremoved rfl hnames

/-- Keys follow a column that is renamed. -/
theorem keyStep_rename {name new : String} {before column : LiveColumn} (hn : t.keyNames.Nodup)
    (hcolumns : t.columnNames.Nodup) (hb : t.column? name = some before)
    (hnew : t.hasColumn new = false) (hname : column.name = new)
    (hserial : column.property.isSerial = before.property.isSerial)
    (hss : ∀ x ∈ ss, x.isAboutIndices = false) (hadded : e.addedKey? = none)
    (hremoved : e.removedColumn? = none) :
    KeyStep t ((t.setColumn name column).followColumn name new) e ss := by
  have hprimary : ((t.setColumn name column).followColumn name new).primaryKey?
      = (t.setColumn name column).primaryKey?.map fun k =>
        { k with columns := k.columns.map (Constraint.renamed name new) } :=
    LiveTable.primaryKey?_followColumn
  have hnames : ((t.setColumn name column).followColumn name new).columnNames
      = t.columnNames.map (Constraint.renamed name new) := LiveTable.columnNames_setColumn hname
  have hkeyNames : ((t.setColumn name column).followColumn name new).keyNames.Nodup := by
    rw [LiveTable.keyNames_followColumn]
    exact hn
  have hnew : new ∉ t.columnNames := LiveTable.hasColumn_eq_false_iff.mp hnew
  -- keys follow the column, so those that were complete still are
  have hcomplete : ∀ k : IndexShape, k.isComplete t.columns = true →
      IndexShape.isComplete { k with columns := k.columns.map (Constraint.renamed name new) }
        ((t.setColumn name column).followColumn name new).columns = true := by
    intro k hk
    rw [LiveTable.isComplete_iff, hnames]
    intro c hc
    obtain ⟨x, hx, rfl⟩ := List.mem_map.mp hc
    exact List.mem_map_of_mem (LiveTable.isComplete_iff.mp hk x hx)
  refine .keep hss hadded hremoved (fun k' hk' => ?_) fun k hk => ?_
  · rcases LiveTable.mem_keys.mp hk' with hpk | hi
    · obtain ⟨k, hk, rfl⟩ := Option.map_eq_some_iff.mp (hprimary.symm.trans hpk)
      have hk : t.primaryKey? = some k := hk
      refine ⟨k, LiveTable.mem_keys.mpr (Or.inl hk), rfl, fun hc => ⟨hcomplete k hc, ?_⟩⟩
      rw [LiveTable.mem_indexed_of_primaryKey hkeyNames hpk,
        LiveTable.mem_indexed_of_primaryKey hn hk]
      have hlisted : k.columns ≠ [new] := fun he =>
        hnew (LiveTable.isComplete_iff.mp hc new (he ▸ List.mem_cons_self))
      rw [← LiveTable.isOneSerial_renamed hcolumns hlisted hb hnew hname hserial]
      rfl
    · obtain ⟨k, hk, rfl⟩ := List.mem_map.mp hi
      exact ⟨k, LiveTable.mem_keys.mpr (Or.inr hk), rfl, fun hc => ⟨hcomplete k hc,
        iff_of_true (LiveTable.mem_indexed_of_index hi) (LiveTable.mem_indexed_of_index hk)⟩⟩
  · rcases LiveTable.mem_keys.mp hk with hpk | hi
    · have hpk : (t.setColumn name column).primaryKey? = some k := hpk
      rw [hpk] at hprimary
      exact ⟨_, LiveTable.mem_keys.mpr (Or.inl hprimary), rfl⟩
    · exact ⟨_, LiveTable.mem_keys.mpr (Or.inr (List.mem_map_of_mem hi)), rfl⟩

theorem keyStep_addPrimaryKey {name : String} {columns : List String} (hn : t.keyNames.Nodup)
    (hfree : name ∉ t.keyNames) (hnone : t.primaryKey? = none)
    (hcolumns : ∀ column ∈ columns, column ∈ t.columnNames) :
    KeyStep t { t with constraints := t.constraints ++ [.primaryKey name columns] }
      (.constraint (.addPrimaryKey name columns))
      (Dialect.sqlite.primaryKeyCreation t.name name columns t.columns) := by
  have hprimary : LiveTable.primaryKey?
      { t with constraints := t.constraints ++ [.primaryKey name columns] }
      = some ⟨name, columns, true⟩ := LiveTable.primaryKey?_withPrimaryKey hnone
  have hnames := LiveTable.keyNames_withConstraint (t := t) (k := .primaryKey name columns)
  have hindexed := LiveTable.mem_indexed_of_primaryKey
    (hnames.nodup_iff.mpr (List.nodup_cons.mpr ⟨hfree, hn⟩)) hprimary
  have hkeys : ∀ k, k ∈ t.keys ↔ k ∈ t.indices := fun k => by simp [LiveTable.mem_keys, hnone]
  refine .gain ⟨name, columns, true⟩ ?_ rfl rfl ?_ (fun k => ?_) rfl ?_ fun k hk => ?_
  · rw [hindexed]
    unfold Dialect.primaryKeyCreation
    cases hs : isOneSerial columns t.columns with
    | true => exact Or.inr ⟨by simp, rfl⟩
    | false => exact Or.inl ⟨rfl, rfl⟩
  · exact fun k hk (he : k.name = name) => hfree (he ▸ LiveTable.mem_keyNames_of_keys hk)
  · rw [LiveTable.mem_keys, hprimary, hkeys, Option.some.injEq, eq_comm]
  · exact LiveTable.isComplete_iff.mpr hcolumns
  · have hi := (hkeys k).mp hk
    exact iff_of_true (LiveTable.mem_indexed_of_index hi) (LiveTable.mem_indexed_of_index hi)

theorem keyStep_addIndex {kind : IndexKind} {name : String} {columns : List String} {unique : Bool}
    (hfree : name ∉ t.keyNames) (hcolumns : ∀ column ∈ columns, column ∈ t.columnNames) :
    KeyStep t { t with indices := t.indices ++ [⟨name, columns, unique⟩] }
      (.index (.add kind name columns))
      (Dialect.sqlite.indexCreation unique t.name name columns) := by
  have hnew : ∀ k ∈ t.keys, k.name ≠ name := fun k hk he =>
    hfree (he ▸ LiveTable.mem_keyNames_of_keys hk)
  refine .gain ⟨name, columns, unique⟩ (Or.inl ⟨?_, rfl⟩) rfl rfl hnew (fun k => ?_) rfl ?_
    fun k hk => ?_
  · exact LiveTable.mem_indexed_of_index (List.mem_append_right _ (List.mem_singleton_self _))
  · rw [LiveTable.mem_keys, LiveTable.mem_keys, List.mem_append, List.mem_singleton, ← or_assoc,
      or_comm]
    rfl
  · exact LiveTable.isComplete_iff.mpr hcolumns
  · have hne : k ≠ ⟨name, columns, unique⟩ := fun he => hnew k hk (he ▸ rfl)
    rw [LiveTable.mem_indexed, LiveTable.mem_indexed, List.mem_append, List.mem_singleton,
      or_iff_left hne]
    rfl

theorem keyStep_removePrimaryKey {k : IndexShape} (hn : t.keyNames.Nodup)
    (hp : t.primaryKeys ≤ 1) (hk : t.primaryKey? = some k) :
    KeyStep t (withoutConstraint t k.name) (.constraint (.remove .primary k.name))
      (Dialect.sqlite.primaryKeyRemoval t.name k.name k.columns t.columns) := by
  have hprimary := LiveTable.primaryKey?_withoutConstraint_self hp hk
  have hkeys : ∀ k', k' ∈ (withoutConstraint t k.name).keys ↔ k' ∈ t.indices := fun k' => by
    rw [LiveTable.mem_keys, hprimary]
    exact or_iff_right (by simp)
  refine .lose k (LiveTable.mem_keys.mpr (Or.inl hk)) ?_ rfl rfl (fun k' => ?_) rfl fun k' hk' => ?_
  · rw [LiveTable.mem_indexed_of_primaryKey hn hk]
    unfold Dialect.primaryKeyRemoval
    cases hs : isOneSerial k.columns t.columns with
    | true => exact Or.inr ⟨by simp, rfl⟩
    | false => exact Or.inl rfl
  · rw [hkeys, LiveTable.mem_keys, hk]
    constructor
    · intro hi
      exact ⟨Or.inr hi, fun he => (List.nodup_append.mp hn).2.2 k.name
        (List.mem_map_of_mem (LiveTable.mem_of_primaryKey? hk).1) k'.name (List.mem_map_of_mem hi)
        he.symm⟩
    · rintro ⟨hpk | hi, hne⟩
      · exact absurd (by rw [Option.some.inj hpk]) hne
      · exact hi
  · have hi := (hkeys k').mp hk'
    exact iff_of_true (LiveTable.mem_indexed_of_index hi) (LiveTable.mem_indexed_of_index hi)

theorem keyStep_removeIndex {kind : IndexKind} {k : IndexShape} (hn : t.keyNames.Nodup)
    (hk : k ∈ t.indices) :
    KeyStep t { t with indices := t.indices.filter (·.name != k.name) }
      (.index (.remove kind k.name)) (Dialect.sqlite.indexRemoval t.name k.name) := by
  have hprimary : ∀ k', t.primaryKey? = some k' → k'.name ≠ k.name := fun k' hk' =>
    (List.nodup_append.mp hn).2.2 k'.name
      (List.mem_map_of_mem (LiveTable.mem_of_primaryKey? hk').1) k.name (List.mem_map_of_mem hk)
  refine .lose k (LiveTable.mem_keys.mpr (Or.inr hk)) (Or.inl rfl) rfl rfl (fun k' => ?_) rfl
    fun k' hk' => ?_
  · rw [LiveTable.mem_keys, LiveTable.mem_keys, List.mem_filter, bne_iff_ne, or_and_right]
    exact or_congr_left (and_iff_left_of_imp (hprimary k')).symm
  · rw [LiveTable.mem_indexed, LiveTable.mem_indexed, List.mem_filter]
    rcases LiveTable.mem_keys.mp hk' with hpk | hi
    · rw [bne_iff_ne, and_iff_left (hprimary k' hpk)]
      rfl
    · exact iff_of_true (Or.inr (List.mem_filter.mp hi)) (Or.inr (List.mem_filter.mp hi).1)

/-! ## Every edit -/

theorem Sound.mem_keyNames (h : s.Sound) (ht : t ∈ s.tables) {name : String}
    (hname : name ∈ t.keyNames) : name ∈ s.names :=
  (h.names name).mpr (List.mem_flatMap.mpr ⟨t, ht, hname⟩)

/-- In SQLite, what an edit does to the keys of its table is one of five things. -/
theorem Effect.keyStep {history : SchemaHistory} (h : s.Sound) (hd : s.Declared .sqlite)
    (ht : s.table? id = some t) (hc : t.created = !e.isCreation)
    (he : Effect ⟨.sqlite, history⟩ version s t e s' operations) :
    ∃ t', s.Placed s' t' ∧ t'.id = t.id ∧ KeyStep t t' e (operations.flatMap (·.statements)) := by
  obtain ⟨hm, rfl⟩ := table?_eq_some ht
  have hn := h.keyNames_nodup hm
  have hcolumns := h.columns t hm
  have hsame : ∀ k ∈ t.keys, k.isComplete t.columns = true → k.isComplete t.columns = true ∧
      isOneSerial k.columns t.columns = isOneSerial k.columns t.columns :=
    fun _ _ hk => ⟨hk, rfl⟩
  cases he with
  | create he =>
    obtain ⟨-, s₁, columns, hdeclare, rfl, rfl⟩ := createTable_ok.mp he
    have hblank := (h.blank t hm hc).2
    refine ⟨_, placed_setTable (declareAll_frame hdeclare).1 ht, rfl,
      keyStep_keep hn (by simp [Dialect.tableCreation, Ddl.isAboutIndices]) rfl rfl rfl rfl hn
        fun k hk => ?_⟩
    -- a table that is not created yet has no keys
    have hname := LiveTable.mem_keyNames_of_keys hk
    rw [hblank] at hname
    cases hname
  | @rename name =>
    have hnone : ∃ t', s.Placed s t' ∧ t'.id = t.id ∧ KeyStep t t' (.rename name) [] :=
      ⟨t, ⟨rfl, ⟨t, ht, rfl, rfl, rfl⟩, fun u hu _ => ⟨u, hu, rfl, rfl, rfl, rfl⟩⟩, rfl,
        keyStep_keep hn (by simp) rfl rfl rfl rfl hn hsame⟩
    unfold renameTable
    split
    · exact hnone
    · next new =>
      split
      · exact hnone
      · exact ⟨{ t with name := new }, placed_setTable rfl ht, rfl,
          keyStep_keep hn (by simp [Dialect.tableRenaming, Ddl.isAboutIndices]) rfl rfl rfl rfl hn
            hsame⟩
  | @addProperty name shape _ _ he =>
    obtain ⟨hfree, s₁, column, hdeclare, rfl, rfl⟩ := addProperty_ok.mp he
    have hnew : column.name ∉ t.columnNames := by
      rw [declare_name hdeclare]
      exact LiveTable.hasColumn_eq_false_iff.mp hfree
    exact ⟨_, placed_setTable (declare_frame hdeclare).1 ht, rfl,
      keyStep_addColumn hn hnew (by simp [Dialect.columnAddition, Ddl.isAboutIndices]) rfl rfl⟩
  | @renameProperty name new _ _ he =>
    obtain ⟨before, column, hb, hfree, hdeclare, rfl, rfl⟩ := renameProperty_ok.mp he
    have hproperty := (redeclare_ok hdeclare).1
    have hset : s.Placed (s.setTable ((t.setColumn name column).followColumn name new))
        ((t.setColumn name column).followColumn name new) := placed_setTable rfl ht
    exact ⟨_, hset.followReferences, rfl,
      keyStep_rename hn hcolumns hb hfree (redeclare_name hdeclare)
        (by rw [hproperty]; rfl) (by simp [Dialect.columnRenaming, Ddl.isAboutIndices]) rfl rfl⟩
  | @retypeProperty name shape _ _ he =>
    obtain ⟨before, after, s₁, statements, hb, -, -, hdeclare, hss, rfl, rfl⟩ :=
      retypeProperty_ok.mp he
    have hafter := (declare_ok.mp hdeclare).2
    refine ⟨_, placed_setTable (declare_frame hdeclare).1 ht, rfl, ?_⟩
    rw [List.flatMap_singleton]
    exact keyStep_retype hn hcolumns hb (declare_name hdeclare)
      (hd t hm before (LiveTable.column?_eq_some hb).1) (redeclare_isDeclared hafter) rfl rfl hss
  | @removeProperty name _ _ he =>
    obtain ⟨-, rfl, rfl⟩ := removeProperty_ok.mp he
    refine ⟨_, placed_setTable rfl ht, rfl, .dropColumn name rfl ?_ rfl rfl⟩
    rw [List.flatMap_singleton]
    exact Dialect.columnRemoval_sqlite
  | @addPrimaryKey name columns _ _ he =>
    obtain ⟨-, hnone, hcheck, s₁, hr, rfl, rfl⟩ := addPrimaryKey_ok.mp he
    obtain ⟨hfree, rfl⟩ := reserve_ok.mp hr
    refine ⟨_, placed_setTable rfl ht, rfl, ?_⟩
    rw [List.flatMap_singleton]
    refine keyStep_addPrimaryKey hn (fun hin => hfree (h.mem_keyNames hm hin)) hnone
      fun column hin => ?_
    obtain ⟨k, hk, -⟩ := checkKeyColumns_ok.mp hcheck column hin
    exact LiveTable.hasColumn_iff.mp (LiveTable.hasColumn_of_column? hk)
  | addForeignKey he =>
    obtain ⟨own, target, s₁, -, -, -, -, -, hr, rfl, rfl⟩ := addForeignKey_ok.mp he
    obtain ⟨hfree, rfl⟩ := reserve_ok.mp hr
    refine ⟨_, placed_setTable rfl ht, rfl,
      keyStep_keep hn (by simp [Dialect.foreignKeyCreation]) rfl rfl
        LiveTable.primaryKey?_withForeignKey rfl ?_ hsame⟩
    rw [LiveTable.keyNames_withConstraint.nodup_iff, List.nodup_cons]
    exact ⟨fun hin => hfree (h.mem_keyNames hm hin), hn⟩
  | removePrimaryKey he =>
    obtain ⟨key, hk, rfl, rfl, rfl⟩ := removePrimaryKey_ok.mp he
    refine ⟨_, placed_setTable rfl ht, rfl, ?_⟩
    rw [List.flatMap_singleton]
    exact keyStep_removePrimaryKey hn (h.primary t hm) hk
  | removeForeignKey he =>
    obtain ⟨⟨k, hk, hforeign, rfl⟩, rfl, rfl⟩ := removeForeignKey_ok.mp he
    refine ⟨_, placed_setTable rfl ht, rfl,
      keyStep_keep hn (by simp [Dialect.foreignKeyRemoval]) rfl rfl
        (LiveTable.primaryKey?_withoutConstraint hn (h.primary t hm) hk hforeign) rfl ?_ hsame⟩
    rw [LiveTable.keyNames_withoutConstraint hn (List.mem_map_of_mem hk)]
    exact hn.filter _
  | @addIndex kind name columns _ _ he =>
    obtain ⟨-, hall, -, s₁, hr, rfl, rfl⟩ := addIndex_ok.mp he
    obtain ⟨hfree, rfl⟩ := reserve_ok.mp hr
    refine ⟨_, placed_setTable rfl ht, rfl, ?_⟩
    rw [List.flatMap_singleton]
    exact keyStep_addIndex (fun hin => hfree (h.mem_keyNames hm hin))
      fun column hin => LiveTable.hasColumn_iff.mp (hall column hin)
  | @removeIndex kind name _ _ he =>
    obtain ⟨⟨i, hi, rfl⟩, rfl, rfl⟩ := removeIndex_ok.mp he
    refine ⟨_, placed_setTable rfl ht, rfl, ?_⟩
    rw [List.flatMap_singleton]
    exact keyStep_removeIndex hn hi

end LiveSchema

end SchemaEvolution
