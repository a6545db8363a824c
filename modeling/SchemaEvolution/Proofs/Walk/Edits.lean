import SchemaEvolution.Proofs.Walk.ForEach

/-!
# What an edit does

Every edit either fails or leads to a schema that is given in full here, together with what has to
hold before and what is done in the database. Whoever wants to know what an edit can do asks these
lemmas and never unfolds the edit. They are equivalences, so they also serve to show that an edit
succeeds.
-/

namespace SchemaEvolution.LiveSchema

variable {c : Setting} {version id name new : String} {s s' : LiveSchema} {t : LiveTable}
  {p : Property} {columns : List String} {operations : List Operation}

theorem reserve_ok :
    s.reserve name = .ok s' ↔ name ∉ s.names ∧ { s with names := name :: s.names } = s' := by
  unfold reserve
  split
  · next h => simp [h]
  · next h => simp [h]

/-! ## Declaring columns -/

/-- Only the enums in use change when a type is made ready, and at most by one registration. -/
theorem requireEnum_ok {type : ColumnType} (h : s.requireEnum c version type = .ok s') :
    s' = s ∨ ∃ reference e, c.history.enum? reference = some e ∧
      s' = { s with enums := s.enums.register e } := by
  unfold requireEnum at h
  split at h
  · exact Or.inl (Except.ok.inj h).symm
  · split at h
    · simp at h
    · next reference _ e he =>
      obtain ⟨-, -, rfl⟩ := Except.map_ok.mp h
      exact Or.inr ⟨_, e, he, rfl⟩

theorem declare_ok {column : LiveColumn} :
    s.declare c version p = .ok (s', column) ↔
      s.requireEnum c version p.shape.type = .ok s' ∧
        s'.redeclare c version p = .ok column := by
  simp only [declare, Except.bind_ok, Except.pure_ok, Prod.mk.injEq]
  constructor
  · rintro ⟨s₁, h₁, column, h₂, rfl, rfl⟩
    exact ⟨h₁, h₂⟩
  · rintro ⟨h₁, h₂⟩
    exact ⟨s', h₁, column, h₂, rfl, rfl⟩

/-- A column is declared for the property that it holds. -/
theorem redeclare_ok {column : LiveColumn} (h : s.redeclare c version p = .ok column) :
    column.property = p ∧
      c.dialect.declaration p (s.enums.scopeAt version) = .ok column.declaration := by
  obtain ⟨declaration, hd, rfl⟩ := Except.map_ok.mp h
  exact ⟨rfl, hd⟩

theorem redeclare_name {column : LiveColumn} (h : s.redeclare c version p = .ok column) :
    column.name = p.name := by
  rw [LiveColumn.name, (redeclare_ok h).1]

theorem declare_name {column : LiveColumn} (h : s.declare c version p = .ok (s', column)) :
    column.name = p.name :=
  redeclare_name (declare_ok.mp h).2

/-! ## Tables -/

theorem createTable_ok {step : TableStep} :
    s.createTable c version t step = .ok (s', operations) ↔
      step.properties ≠ [] ∧ ∃ s₁ columns,
        declareAll c version t.name s [] step.properties = .ok (s₁, columns) ∧
        s₁.setTable { t with columns, created := true } = s' ∧
        [⟨version, "create-table-" ++ t.name, c.dialect.tableCreation t.name columns⟩]
          = operations := by
  unfold createTable
  split
  · next h => simp_all
  · next h =>
    simp only [Except.bind_ok, Except.pure_ok, Prod.exists, Prod.mk.injEq]
    simp_all

theorem declareAll_nil_ok {table : String} {start columns : List LiveColumn} :
    declareAll c version table s start [] = .ok (s', columns) ↔ s' = s ∧ columns = start := by
  simp [declareAll, eq_comm]

/-- A table is created with additions only, of columns with names of their own. -/
theorem declareAll_cons_ok {table : String} {start columns : List LiveColumn} {edit : PropertyEdit}
    {edits : List PropertyEdit} :
    declareAll c version table s start (edit :: edits) = .ok (s', columns) ↔
      ∃ name shape s₁ column, edit = .add name shape ∧ start.any (·.name == name) = false ∧
        s.declare c version ⟨name, shape⟩ = .ok (s₁, column) ∧
        declareAll c version table s₁ (start ++ [column]) edits = .ok (s', columns) := by
  cases edit with
  | add name shape =>
    rw [declareAll]
    split
    · next h =>
      simp only [reduceCtorEq, false_iff]
      rintro ⟨_, _, s₁, column, he, hn, -⟩
      cases he
      exact Bool.false_ne_true (hn.symm.trans h)
    · next h =>
      simp only [Except.bind_ok, Prod.exists]
      constructor
      · rintro ⟨s₁, column, h₁, h₂⟩
        exact ⟨name, shape, s₁, column, rfl, by simpa using h, h₁, h₂⟩
      · rintro ⟨_, _, s₁, column, he, -, h₁, h₂⟩
        cases he
        exact ⟨s₁, column, h₁, h₂⟩
  | _ => simp [declareAll]

/-! ## Properties -/

theorem addProperty_ok :
    s.addProperty c version t p = .ok (s', operations) ↔
      t.hasColumn p.name = false ∧ ∃ s₁ column, s.declare c version p = .ok (s₁, column) ∧
        s₁.setTable { t with columns := t.columns ++ [column] } = s' ∧
        [⟨version, "add-column-" ++ t.name ++ "-" ++ p.name,
          c.dialect.columnAddition t.name column⟩] = operations := by
  unfold addProperty
  split
  · next h => simp [h]
  · next h => simp only [h, Except.bind_ok, Except.pure_ok, Prod.exists, Prod.mk.injEq, true_and]

theorem renameProperty_ok :
    s.renameProperty c version t name new = .ok (s', operations) ↔
      ∃ before column, t.column? name = some before ∧ t.hasColumn new = false ∧
        s.redeclare c version { before.property with name := new } = .ok column ∧
        (s.setTable ((t.setColumn name column).followColumn name new)).followReferences t.id
          name new = s' ∧
        [⟨version, "rename-column-" ++ t.name ++ "-" ++ name,
          c.dialect.columnRenaming t.name name new⟩] = operations := by
  unfold renameProperty
  split
  · next h => simp [h]
  · next before h =>
    split
    · next hn => simp [hn]
    · next hn =>
      simp only [h, hn, Except.bind_ok, Except.pure_ok, Prod.mk.injEq, true_and,
        Option.some.injEq, exists_and_left, exists_eq_left']

theorem retypeProperty_ok :
    s.retypeProperty c version t p = .ok (s', operations) ↔
      ∃ before after s₁ statements, t.column? p.name = some before ∧
        before.property.shape.type.enumReference? = none ∧
        p.shape.type.enumReference? = none ∧
        s.declare c version p = .ok (s₁, after) ∧
        c.dialect.columnRetyping (t.setColumn p.name after).shape before after
          (s₁.enums.scopeAt version) = .ok statements ∧
        s₁.setTable (t.setColumn p.name after) = s' ∧
        [⟨version, "retype-column-" ++ t.name ++ "-" ++ p.name, statements⟩] = operations := by
  unfold retypeProperty
  split
  · next h => simp [h]
  · next before h =>
    split
    · next he =>
      simp only [reduceCtorEq, false_iff]
      rintro ⟨_, after, s₁, statements, hb, h₁, h₂, -⟩
      cases h.symm.trans hb
      simp [h₁, h₂] at he
    · next he =>
      simp only [Bool.or_eq_true, not_or, Bool.not_eq_true, Option.isSome_eq_false_iff,
        Option.isNone_iff_eq_none] at he
      simp only [Except.bind_ok, Except.pure_ok, Prod.exists, Prod.mk.injEq]
      constructor
      · rintro ⟨s₁, after, hd, statements, hs, hr⟩
        exact ⟨before, after, s₁, statements, h, he.1, he.2, hd, hs, hr⟩
      · rintro ⟨_, after, s₁, statements, hb, -, -, hd, hs, hr⟩
        cases h.symm.trans hb
        exact ⟨s₁, after, hd, statements, hs, hr⟩

theorem removeProperty_ok :
    s.removeProperty c version t name = .ok (s', operations) ↔
      t.hasColumn name = true ∧ s.setTable (t.dropColumn name) = s' ∧
        [⟨version, "remove-column-" ++ t.name ++ "-" ++ name,
          c.dialect.columnRemoval t.shape name⟩] = operations := by
  unfold removeProperty
  split
  · next h => simp [h]
  · next h => simp [h]

/-! ## Constraints -/

theorem checkKeyColumns_ok :
    checkKeyColumns t name columns = .ok () ↔
      ∀ column ∈ columns, ∃ k, t.column? column = some k ∧ k.property.isNullable = false := by
  induction columns with
  | nil => simp [checkKeyColumns]
  | cons column columns ih =>
    rw [checkKeyColumns, List.forall_mem_cons]
    split
    · next h => simp [h]
    · next k h =>
      split
      · next hn => simp [h, hn]
      · next hn => simp [h, hn, ih]

theorem addPrimaryKey_ok :
    s.addPrimaryKey c version t name columns = .ok (s', operations) ↔
      columns ≠ [] ∧ t.primaryKey? = none ∧ checkKeyColumns t name columns = .ok () ∧
        ∃ s₁, s.reserve name = .ok s₁ ∧
          s₁.setTable { t with constraints := t.constraints ++ [.primaryKey name columns] } = s' ∧
          [⟨version, "add-primary-key-" ++ name,
            c.dialect.primaryKeyCreation t.name name columns t.columns⟩] = operations := by
  unfold addPrimaryKey
  split
  · next h => simp_all
  · next h =>
    split
    · next hk =>
      simp only [reduceCtorEq, false_iff]
      rintro ⟨-, hn, -⟩
      simp [hn] at hk
    · next hk =>
      simp only [Except.bind_ok, Except.pure_ok, Prod.mk.injEq]
      constructor
      · rintro ⟨_, hc, s₁, hr⟩
        exact ⟨by simpa using h, by simpa using hk, hc, s₁, hr⟩
      · rintro ⟨-, -, hc, s₁, hr⟩
        exact ⟨(), hc, s₁, hr⟩

theorem addForeignKey_ok {column references referencedColumn : String} :
    s.addForeignKey c version t name column references referencedColumn = .ok (s', operations) ↔
      ∃ own target s₁, t.column? column = some own ∧ own.property.isSerial = false ∧
        s.table? references = some target ∧ target.created = true ∧
        target.hasColumn referencedColumn = true ∧ s.reserve name = .ok s₁ ∧
        s₁.setTable { t with constraints :=
          t.constraints ++ [.foreignKey name column references referencedColumn] } = s' ∧
        [⟨version, "add-foreign-key-" ++ name,
          c.dialect.foreignKeyCreation t.name name column target.name referencedColumn⟩]
            = operations := by
  unfold addForeignKey
  split
  · next h => simp [h]
  · next own h =>
    split
    · next hs =>
      simp only [reduceCtorEq, false_iff]
      rintro ⟨_, target, s₁, ho, hn, -⟩
      cases h.symm.trans ho
      simp [hs] at hn
    · next hs =>
      split
      · next hf =>
        simp only [reduceCtorEq, false_iff]
        rintro ⟨_, target, s₁, -, -, ht, hc, hr, -⟩
        simp [ht, hc, hr] at hf
      · next target hf =>
        simp only [Option.filter_eq_some_iff, Bool.and_eq_true] at hf
        simp only [Except.bind_ok, Except.pure_ok, Prod.mk.injEq]
        constructor
        · rintro ⟨s₁, hr, hs', ho⟩
          exact ⟨own, target, s₁, h, by simpa using hs, hf.1, hf.2.1, hf.2.2, hr, hs', ho⟩
        · rintro ⟨_, target', s₁, -, -, ht, -, -, hr, hs', ho⟩
          cases hf.1.symm.trans ht
          exact ⟨s₁, hr, hs', ho⟩

theorem removePrimaryKey_ok :
    s.removePrimaryKey c version t name = .ok (s', operations) ↔
      ∃ key, t.primaryKey? = some key ∧ key.name = name ∧
        (s.release name).setTable (withoutConstraint t name) = s' ∧
        [⟨version, "remove-primary-key-" ++ name,
          c.dialect.primaryKeyRemoval t.name name key.columns t.columns⟩] = operations := by
  unfold removePrimaryKey
  split
  · next h =>
    simp only [reduceCtorEq, false_iff]
    rintro ⟨key, hk, hn, -⟩
    simp [hk, hn] at h
  · next key h =>
    simp only [Option.filter_eq_some_iff, beq_iff_eq] at h
    simp only [Except.ok.injEq, Prod.mk.injEq]
    constructor
    · rintro ⟨hs', ho⟩
      exact ⟨key, h.1, h.2, hs', ho⟩
    · rintro ⟨key', hk, -, hs', ho⟩
      cases h.1.symm.trans hk
      exact ⟨hs', ho⟩

theorem removeForeignKey_ok :
    s.removeForeignKey c version t name = .ok (s', operations) ↔
      (∃ k ∈ t.constraints, k.isPrimaryKey = false ∧ k.name = name) ∧
        (s.release name).setTable (withoutConstraint t name) = s' ∧
        [⟨version, "remove-foreign-key-" ++ name, c.dialect.foreignKeyRemoval t.name name⟩]
          = operations := by
  unfold removeForeignKey
  split
  · next h => simp_all
  · next h => simp_all

/-! ## Indices -/

theorem addIndex_ok {kind : IndexKind} :
    s.addIndex c version t kind name columns = .ok (s', operations) ↔
      columns ≠ [] ∧ (∀ column ∈ columns, t.hasColumn column = true) ∧
        (∀ i ∈ t.indices, i.columns ≠ columns) ∧
        ∃ s₁, s.reserve name = .ok s₁ ∧
          s₁.setTable { t with indices := t.indices ++ [⟨name, columns, kind == .unique⟩] } = s' ∧
          [⟨version, "add-index-" ++ name,
            c.dialect.indexCreation (kind == .unique) t.name name columns⟩] = operations := by
  unfold addIndex
  split
  · next h => simp_all
  · next h =>
    split
    · next missing hm =>
      have hf := List.find?_some hm
      have hmem := List.mem_of_find?_eq_some hm
      simp only [reduceCtorEq, false_iff]
      rintro ⟨-, hall, -⟩
      simp [hall missing hmem] at hf
    · next hm =>
      split
      · next existing he =>
        have hf := List.find?_some he
        have hmem := List.mem_of_find?_eq_some he
        simp only [reduceCtorEq, false_iff]
        rintro ⟨-, -, hne, -⟩
        exact hne existing hmem (by simpa using hf)
      · next he =>
        simp only [Except.bind_ok, Except.pure_ok, Prod.mk.injEq]
        simp_all

theorem removeIndex_ok :
    s.removeIndex c version t name = .ok (s', operations) ↔
      (∃ i ∈ t.indices, i.name = name) ∧
        (s.release name).setTable { t with indices := t.indices.filter (·.name != name) } = s' ∧
        [⟨version, "remove-index-" ++ name, c.dialect.indexRemoval t.name name⟩]
          = operations := by
  unfold removeIndex
  split
  · next h => simp_all
  · next h => simp_all

end SchemaEvolution.LiveSchema
