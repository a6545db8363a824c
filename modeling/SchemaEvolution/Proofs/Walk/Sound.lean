import Mathlib.Data.List.Pairwise
import SchemaEvolution.Proofs.Walk.Effect

/-!
# What holds all along a walk

The names of constraints and indices are kept twice: in the tables, and in a list of names that
tells what is in use. A schema is sound when the two agree and every name stands in one place only;
moreover tables have ids of their own and columns names of their own, a table has one primary key at
most, and there is nothing in a table before it is created. Every edit keeps this, so it holds at
every point of every walk.
-/

namespace SchemaEvolution

namespace LiveTable

variable {t : LiveTable} {id name new : String} {columns : List String} {k : IndexShape}

/-- The names of the constraints and indices of a table. -/
def keyNames (t : LiveTable) : List String :=
  t.constraints.map (·.name) ++ t.indices.map (·.name)

/-- How many primary keys a table has. -/
def primaryKeys (t : LiveTable) : Nat := t.constraints.countP (·.isPrimaryKey)

theorem primaryKey?_eq_none : t.primaryKey? = none ↔ t.primaryKeys = 0 := by
  simp only [primaryKey?, primaryKeys, List.findSome?_eq_none_iff, List.countP_eq_zero]
  refine forall_congr' fun k => forall_congr' fun _ => ?_
  cases k <;> simp [Constraint.isPrimaryKey]

theorem mem_of_primaryKey? (h : t.primaryKey? = some k) :
    .primaryKey k.name k.columns ∈ t.constraints ∧ k.unique = true := by
  obtain ⟨constraint, hm, hk⟩ := List.exists_of_findSome?_eq_some h
  cases constraint with
  | primaryKey name columns =>
    obtain rfl := Option.some.inj hk
    exact ⟨hm, rfl⟩
  | foreignKey => cases hk

/-- A table's only primary key is the one that is found. -/
theorem primaryKey?_of_mem (h : t.primaryKeys ≤ 1)
    (hm : .primaryKey name columns ∈ t.constraints) :
    t.primaryKey? = some ⟨name, columns, true⟩ := by
  obtain ⟨front, back, hs⟩ := List.append_of_mem hm
  have hfront : ∀ k ∈ front, k.isPrimaryKey = false := by
    rw [primaryKeys, hs, List.countP_append, List.countP_cons_of_pos rfl] at h
    have hz : front.countP (·.isPrimaryKey) = 0 := by omega
    simpa using List.countP_eq_zero.mp hz
  rw [primaryKey?, hs, List.findSome?_append,
    List.findSome?_eq_none_iff.mpr fun k hk => ?_]
  · rfl
  · have := hfront k hk
    cases k with
    | primaryKey => cases this
    | foreignKey => rfl

/-! ## Keys come and go -/

theorem keyNames_withConstraint {k : Constraint} :
    ({ t with constraints := t.constraints ++ [k] } : LiveTable).keyNames.Perm
      (k.name :: t.keyNames) := by
  simp only [keyNames, List.map_append, List.map_cons, List.map_nil, List.append_assoc,
    List.singleton_append]
  exact List.perm_middle

theorem keyNames_withIndex :
    ({ t with indices := t.indices ++ [k] } : LiveTable).keyNames.Perm (k.name :: t.keyNames) := by
  simp only [keyNames, List.map_append, List.map_cons, List.map_nil, ← List.append_assoc]
  exact List.perm_append_singleton _ _

/-- A constraint and an index never have the same name. -/
theorem keyNames_withoutConstraint (hn : t.keyNames.Nodup)
    (hm : name ∈ t.constraints.map (·.name)) :
    (LiveSchema.withoutConstraint t name).keyNames = t.keyNames.filter (· != name) := by
  have hindices : (t.indices.map (·.name)).filter (· != name) = t.indices.map (·.name) := by
    refine List.filter_eq_self.mpr fun n hi => ?_
    have := (List.nodup_append.mp hn).2.2 name hm n hi
    simpa using this.symm
  rw [keyNames, keyNames, List.filter_append, hindices, List.filter_map]
  rfl

theorem keyNames_withoutIndex (hn : t.keyNames.Nodup) (hm : name ∈ t.indices.map (·.name)) :
    ({ t with indices := t.indices.filter (·.name != name) } : LiveTable).keyNames
      = t.keyNames.filter (· != name) := by
  have hconstraints :
      (t.constraints.map (·.name)).filter (· != name) = t.constraints.map (·.name) := by
    refine List.filter_eq_self.mpr fun n hc => ?_
    have := (List.nodup_append.mp hn).2.2 n hc name hm
    simpa using this
  rw [keyNames, keyNames, List.filter_append, hconstraints, List.filter_map]
  rfl

theorem primaryKeys_withoutConstraint :
    (LiveSchema.withoutConstraint t name).primaryKeys ≤ t.primaryKeys :=
  List.filter_sublist.countP_le

/-! ## Following a column -/

theorem keyNames_followColumn : (t.followColumn name new).keyNames = t.keyNames := by
  simp only [keyNames, followColumn, List.map_map]
  congr 1
  exact List.map_congr_left fun k _ => by cases k <;> rfl

theorem primaryKeys_followColumn : (t.followColumn name new).primaryKeys = t.primaryKeys := by
  simp only [primaryKeys, followColumn, List.countP_map]
  exact List.countP_congr fun k _ => by cases k <;> rfl

/-- The table after a column of the table with an id has been renamed. -/
def followReference (t : LiveTable) (id name new : String) : LiveTable :=
  { t with constraints := t.constraints.map (·.followReference id name new) }

theorem keyNames_followReference : (t.followReference id name new).keyNames = t.keyNames := by
  simp only [keyNames, followReference, List.map_map]
  congr 1
  exact List.map_congr_left fun k _ => by cases k <;> rfl

theorem primaryKeys_followReference :
    (t.followReference id name new).primaryKeys = t.primaryKeys := by
  simp only [primaryKeys, followReference, List.countP_map]
  exact List.countP_congr fun k _ => by cases k <;> rfl

end LiveTable

namespace LiveSchema

/-- The names of the constraints and indices of all tables. -/
def keyNames (s : LiveSchema) : List String := s.tables.flatMap (·.keyNames)

/-- What holds of a schema all along a walk. -/
structure Sound (s : LiveSchema) : Prop where
  distinct : s.ids.Nodup
  columns : ∀ t ∈ s.tables, t.columnNames.Nodup
  primary : ∀ t ∈ s.tables, t.primaryKeys ≤ 1
  blank : ∀ t ∈ s.tables, t.created = false → t.columns = [] ∧ t.keyNames = []
  keys : s.keyNames.Nodup
  names : ∀ name, name ∈ s.names ↔ name ∈ s.keyNames

variable {c : Setting} {version id name new : String} {s s' : LiveSchema} {t t' u : LiveTable}
  {operations : List Operation}

theorem Sound.keyNames_nodup (h : s.Sound) (hm : t ∈ s.tables) : t.keyNames.Nodup :=
  (List.nodup_flatMap.mp h.keys).1 t hm

/-- A table with columns has been created. -/
theorem Sound.created (h : s.Sound) (hm : t ∈ s.tables) {k : LiveColumn} (hk : k ∈ t.columns) :
    t.created = true := by
  by_contra hc
  rw [(h.blank t hm (eq_false_of_ne_true hc)).1] at hk
  cases hk

/-- Keys of different tables have different names. -/
theorem Sound.eq_of_keyName (h : s.Sound) (ht : t ∈ s.tables) (hu : u ∈ s.tables)
    (htname : name ∈ t.keyNames) (huname : name ∈ u.keyNames) : t = u := by
  by_contra hne
  have : Std.Symm (Function.onFun List.Disjoint LiveTable.keyNames) :=
    ⟨fun _ _ hab _ hx hx' => hab hx' hx⟩
  exact (List.nodup_flatMap.mp h.keys).2.forall ht hu hne htname huname

/-- Constraints with the same name are the same constraint. -/
theorem Sound.eq_of_constraintName (h : s.Sound) (ht : t ∈ s.tables) (hu : u ∈ s.tables)
    {k k' : Constraint} (hk : k ∈ t.constraints) (hk' : k' ∈ u.constraints)
    (hname : k.name = k'.name) : t = u ∧ k = k' := by
  have hin : k.name ∈ t.constraints.map (·.name) := List.mem_map_of_mem hk
  have hin' : k.name ∈ u.constraints.map (·.name) := hname ▸ List.mem_map_of_mem hk'
  obtain rfl := h.eq_of_keyName ht hu (List.mem_append_left _ hin) (List.mem_append_left _ hin')
  have hn : (t.constraints.map (·.name)).Nodup := (h.keyNames_nodup ht).of_append_left
  exact ⟨rfl, List.inj_on_of_nodup_map hn hk hk' hname⟩

/-! ## Replacing a table -/

/-- Where a table stands among the others, and another takes its place. -/
theorem setTable_split (hn : s.ids.Nodup) (ht : s.table? t'.id = some t) :
    ∃ front back, s.tables = front ++ t :: back ∧ (s.setTable t').tables = front ++ t' :: back := by
  obtain ⟨hm, hid⟩ := table?_eq_some ht
  obtain ⟨front, back, hs⟩ := List.append_of_mem hm
  have hne : ∀ u ∈ front ++ back, u.id ≠ t'.id := by
    intro u hu he
    rw [ids, hs, List.map_append, List.map_cons, List.nodup_middle, ← List.map_append,
      List.nodup_cons] at hn
    exact hn.1 (hid.trans he.symm ▸ List.mem_map_of_mem hu)
  refine ⟨front, back, hs, ?_⟩
  show s.tables.map _ = _
  rw [hs, List.map_append, List.map_cons, map_setTable_of_ne fun u hu => hne u (by simp [hu]),
    map_setTable_of_ne fun u hu => hne u (by simp [hu]), if_pos hid]

/-- The keys of all tables are those of one table and those of the others. -/
theorem keyNames_setTable (hn : s.ids.Nodup) (ht : s.table? t'.id = some t) :
    ∃ others, s.keyNames.Perm (t.keyNames ++ others) ∧
      (s.setTable t').keyNames.Perm (t'.keyNames ++ others) := by
  obtain ⟨front, back, hs, hs'⟩ := setTable_split hn ht
  have hperm : ∀ u : LiveTable, ((front ++ u :: back).flatMap (·.keyNames)).Perm
      (u.keyNames ++ (front ++ back).flatMap (·.keyNames)) := fun u =>
    List.Perm.flatMap_right LiveTable.keyNames List.perm_middle
  exact ⟨_, (by rw [keyNames, hs]; exact hperm t), (by rw [keyNames, hs']; exact hperm t')⟩

/-- What is to be shown when a table takes the place of another. -/
theorem Sound.replace (h : s.Sound) (hs : s'.tables = s.tables)
    (hcolumns : t'.columnNames.Nodup) (hprimary : t'.primaryKeys ≤ 1)
    (hcreated : t'.created = true) (hkeys : (s.setTable t').keyNames.Nodup)
    (hnames : ∀ name, name ∈ s'.names ↔ name ∈ (s.setTable t').keyNames) :
    (s'.setTable t').Sound := by
  have hset : (s'.setTable t').tables = (s.setTable t').tables := by
    simp only [LiveSchema.setTable, hs]
  have hmem : ∀ u ∈ (s'.setTable t').tables, u = t' ∨ u ∈ s.tables := by
    intro u hu
    rw [hset] at hu
    rcases mem_setTable hu with hu | ⟨hu, -⟩
    · exact Or.inl hu
    · exact Or.inr hu
  constructor
  · rw [ids_setTable, ids, hs]
    exact h.distinct
  · intro u hu
    rcases hmem u hu with rfl | hu
    · exact hcolumns
    · exact h.columns u hu
  · intro u hu
    rcases hmem u hu with rfl | hu
    · exact hprimary
    · exact h.primary u hu
  · intro u hu hc
    rcases hmem u hu with rfl | hu
    · rw [hcreated] at hc; cases hc
    · exact h.blank u hu hc
  · rw [keyNames, hset]
    exact hkeys
  · intro name
    rw [keyNames, hset]
    exact hnames name

/-- The table keeps its keys. -/
theorem Sound.keep (h : s.Sound) (hs : s'.tables = s.tables ∧ s'.names = s.names)
    (ht : s.table? t'.id = some t) (hcolumns : t'.columnNames.Nodup)
    (hprimary : t'.primaryKeys ≤ 1) (hcreated : t'.created = true)
    (hkeys : t'.keyNames = t.keyNames) : (s'.setTable t').Sound := by
  obtain ⟨others, hp, hp'⟩ := keyNames_setTable h.distinct ht
  rw [hkeys] at hp'
  have hperm : (s.setTable t').keyNames.Perm s.keyNames := hp'.trans hp.symm
  refine h.replace hs.1 hcolumns hprimary hcreated (hperm.nodup_iff.mpr h.keys) fun name => ?_
  rw [hs.2, h.names, hperm.mem_iff]

/-- The table gets a key with a name that was not in use. -/
theorem Sound.gain (h : s.Sound) (hr : s.reserve name = .ok s') (ht : s.table? t'.id = some t)
    (hcolumns : t'.columnNames = t.columnNames) (hprimary : t'.primaryKeys ≤ 1)
    (hcreated : t'.created = true) (hkeys : t'.keyNames.Perm (name :: t.keyNames)) :
    (s'.setTable t').Sound := by
  obtain ⟨hfree, rfl⟩ := reserve_ok.mp hr
  obtain ⟨others, hp, hp'⟩ := keyNames_setTable h.distinct ht
  have hperm : (s.setTable t').keyNames.Perm (name :: s.keyNames) :=
    hp'.trans ((hkeys.append_right others).trans (hp.symm.cons name))
  refine h.replace rfl ?_ hprimary hcreated ?_ fun n => ?_
  · rw [hcolumns]
    exact h.columns t (table?_eq_some ht).1
  · rw [hperm.nodup_iff, List.nodup_cons, ← h.names]
    exact ⟨hfree, h.keys⟩
  · rw [hperm.mem_iff, List.mem_cons, List.mem_cons, h.names]

/-- The table loses a key, whose name is free again. -/
theorem Sound.lose (h : s.Sound) (ht : s.table? t'.id = some t) (hname : name ∈ t.keyNames)
    (hcolumns : t'.columnNames = t.columnNames) (hprimary : t'.primaryKeys ≤ 1)
    (hcreated : t'.created = true) (hkeys : t'.keyNames = t.keyNames.filter (· != name)) :
    ((s.release name).setTable t').Sound := by
  obtain ⟨others, hp, hp'⟩ := keyNames_setTable h.distinct ht
  have hnodup : (t.keyNames ++ others).Nodup := hp.nodup_iff.mp h.keys
  have hothers : others.filter (· != name) = others := by
    refine List.filter_eq_self.mpr fun n hn => ?_
    have := (List.nodup_append.mp hnodup).2.2 name hname n hn
    simpa using this.symm
  -- no other table has a key of this name, so it may as well be taken from all of them
  have hperm : (s.setTable t').keyNames.Perm (s.keyNames.filter (· != name)) := by
    rw [hkeys] at hp'
    refine hp'.trans ((hp.filter _).trans ?_).symm
    rw [List.filter_append, hothers]
  refine h.replace rfl ?_ hprimary hcreated ?_ fun n => ?_
  · rw [hcolumns]
    exact h.columns t (table?_eq_some ht).1
  · rw [hperm.nodup_iff]
    exact h.keys.filter _
  · rw [hperm.mem_iff, List.mem_filter, ← h.names]
    exact List.mem_filter

/-- A schema stays sound when its tables change in place, all of them, in what soundness does not
speak of. -/
theorem Sound.map {f : LiveTable → LiveTable} (h : s.Sound) (hs : s'.tables = s.tables.map f)
    (hnames : s'.names = s.names)
    (hf : ∀ t, (f t).id = t.id ∧ (f t).columns = t.columns ∧ (f t).created = t.created ∧
      (f t).keyNames = t.keyNames ∧ (f t).primaryKeys = t.primaryKeys) : s'.Sound := by
  have hk : s'.keyNames = s.keyNames := by
    simp only [keyNames, hs, List.flatMap_map, (hf _).2.2.2.1]
  have hmem : ∀ u ∈ s'.tables, ∃ t ∈ s.tables, f t = u := fun u hu =>
    List.mem_map.mp (hs ▸ hu)
  constructor
  · simp only [ids, hs, List.map_map, Function.comp_def, (hf _).1]
    exact h.distinct
  · intro u hu
    obtain ⟨t, ht, rfl⟩ := hmem u hu
    rw [LiveTable.columnNames, (hf t).2.1]
    exact h.columns t ht
  · intro u hu
    obtain ⟨t, ht, rfl⟩ := hmem u hu
    rw [(hf t).2.2.2.2]
    exact h.primary t ht
  · intro u hu
    obtain ⟨t, ht, rfl⟩ := hmem u hu
    rw [(hf t).2.1, (hf t).2.2.1, (hf t).2.2.2.1]
    exact h.blank t ht
  · rw [hk]
    exact h.keys
  · intro name
    rw [hk, hnames]
    exact h.names name

/-- Foreign keys may follow a column of another table. -/
theorem Sound.followReferences (h : s.Sound) : (s.followReferences id name new).Sound :=
  h.map (f := (·.followReference id name new)) rfl rfl fun _ =>
    ⟨rfl, rfl, rfl, LiveTable.keyNames_followReference, LiveTable.primaryKeys_followReference⟩

/-! ## Each edit -/

/-- A column with a name of its own may follow. -/
theorem nodup_names_concat {columns : List LiveColumn} {column : LiveColumn}
    (hn : (columns.map (·.name)).Nodup) (hfree : columns.any (·.name == column.name) = false) :
    ((columns ++ [column]).map (·.name)).Nodup := by
  have hnot : column.name ∉ columns.map (·.name) := by simpa using hfree
  rw [List.map_append, List.map_singleton, ← List.concat_eq_append]
  exact hn.concat hnot

/-- The columns of a new table have names of their own. -/
theorem declareAll_nodup {table : String} {start columns : List LiveColumn}
    {edits : List PropertyEdit}
    (h : declareAll c version table s start edits = .ok (s', columns))
    (hn : (start.map (·.name)).Nodup) : (columns.map (·.name)).Nodup := by
  induction edits generalizing s start with
  | nil =>
    obtain ⟨-, rfl⟩ := declareAll_nil_ok.mp h
    exact hn
  | cons edit edits ih =>
    obtain ⟨name, shape, s₁, column, -, hfree, h₁, h₂⟩ := declareAll_cons_ok.mp h
    refine ih h₂ (nodup_names_concat hn ?_)
    rw [declare_name h₁]
    exact hfree

/-- Whatever an edit does, the schema stays sound. -/
theorem Effect.sound {e : TableEdit} (h : s.Sound) (ht : s.table? id = some t)
    (hc : t.created = !e.isCreation) (he : Effect c version s t e s' operations) : s'.Sound := by
  obtain ⟨hm, rfl⟩ := table?_eq_some ht
  have hcolumns := h.columns t hm
  have hprimary := h.primary t hm
  cases he with
  | create he =>
    obtain ⟨-, s₁, columns, hd, rfl, -⟩ := createTable_ok.mp he
    exact h.keep (declareAll_frame hd) ht (declareAll_nodup hd .nil) hprimary rfl rfl
  | @rename name =>
    unfold renameTable
    split
    · exact h
    · next new =>
      split
      · exact h
      · show (s.setTable { t with name := new }).Sound
        exact h.keep ⟨rfl, rfl⟩ ht hcolumns hprimary hc rfl
  | @addProperty name shape _ _ he =>
    obtain ⟨hfree, s₁, column, hd, rfl, -⟩ := addProperty_ok.mp he
    refine h.keep (declare_frame hd) ht (nodup_names_concat hcolumns ?_) hprimary hc rfl
    rw [declare_name hd]
    exact hfree
  | @renameProperty name new _ _ he =>
    obtain ⟨before, column, hb, hfree, hd, rfl, -⟩ := renameProperty_ok.mp he
    refine Sound.followReferences (h.keep (t := t) ⟨rfl, rfl⟩ ht ?_ ?_ hc ?_)
    · have hname : column.name = new := redeclare_name hd
      show (t.setColumn name column).columnNames.Nodup
      rw [LiveTable.columnNames_setColumn hname]
      exact Constraint.nodup_map_renamed hcolumns (LiveTable.hasColumn_eq_false_iff.mp hfree)
    · rw [LiveTable.primaryKeys_followColumn]
      exact hprimary
    · rw [LiveTable.keyNames_followColumn]
      rfl
  | @retypeProperty name shape _ _ he =>
    obtain ⟨before, after, s₁, statements, hb, -, -, hd, -, rfl, -⟩ := retypeProperty_ok.mp he
    refine h.keep (t := t) (declare_frame hd) ht ?_ hprimary hc rfl
    rw [LiveTable.columnNames_setColumn_self (declare_name hd)]
    exact hcolumns
  | removeProperty he =>
    obtain ⟨-, rfl, -⟩ := removeProperty_ok.mp he
    refine h.keep (t := t) ⟨rfl, rfl⟩ ht ?_ hprimary hc rfl
    rw [LiveTable.columnNames_dropColumn]
    exact hcolumns.filter _
  | addPrimaryKey he =>
    obtain ⟨-, hnone, -, s₁, hr, rfl, -⟩ := addPrimaryKey_ok.mp he
    refine h.gain hr ht rfl ?_ hc LiveTable.keyNames_withConstraint
    -- there was no primary key, so now there is one
    have hz : t.primaryKeys = 0 := LiveTable.primaryKey?_eq_none.mp hnone
    rw [LiveTable.primaryKeys, List.countP_append, ← LiveTable.primaryKeys, hz]
    exact Nat.le_refl 1
  | addForeignKey he =>
    obtain ⟨own, target, s₁, -, -, -, -, -, hr, rfl, -⟩ := addForeignKey_ok.mp he
    refine h.gain hr ht rfl ?_ hc LiveTable.keyNames_withConstraint
    rw [LiveTable.primaryKeys, List.countP_append]
    exact hprimary
  | removePrimaryKey he =>
    obtain ⟨key, hk, rfl, rfl, -⟩ := removePrimaryKey_ok.mp he
    have hname : key.name ∈ t.constraints.map (·.name) :=
      List.mem_map_of_mem (LiveTable.mem_of_primaryKey? hk).1
    exact h.lose ht (List.mem_append_left _ hname) rfl
      (Nat.le_trans LiveTable.primaryKeys_withoutConstraint hprimary) hc
      (LiveTable.keyNames_withoutConstraint (h.keyNames_nodup hm) hname)
  | removeForeignKey he =>
    obtain ⟨⟨k, hk, -, rfl⟩, rfl, -⟩ := removeForeignKey_ok.mp he
    have hname : k.name ∈ t.constraints.map (·.name) := List.mem_map_of_mem hk
    exact h.lose ht (List.mem_append_left _ hname) rfl
      (Nat.le_trans LiveTable.primaryKeys_withoutConstraint hprimary) hc
      (LiveTable.keyNames_withoutConstraint (h.keyNames_nodup hm) hname)
  | addIndex he =>
    obtain ⟨-, -, -, s₁, hr, rfl, -⟩ := addIndex_ok.mp he
    exact h.gain hr ht rfl hprimary hc LiveTable.keyNames_withIndex
  | removeIndex he =>
    obtain ⟨⟨i, hi, rfl⟩, rfl, -⟩ := removeIndex_ok.mp he
    have hname : i.name ∈ t.indices.map (·.name) := List.mem_map_of_mem hi
    exact h.lose ht (List.mem_append_right _ hname) rfl hprimary hc
      (LiveTable.keyNames_withoutIndex (h.keyNames_nodup hm) hname)

/-- Whether an edit has an effect or none, the schema stays sound. -/
theorem Sound.edit {e : String × TableEdit} (h : s.Sound)
    (he : s.edit c version e = .ok (s', operations)) : s'.Sound := by
  rcases edit_ok he with ⟨rfl, -⟩ | ⟨t, ht, hc, he⟩
  · exact h
  · exact he.sound h ht hc

end LiveSchema

end SchemaEvolution
