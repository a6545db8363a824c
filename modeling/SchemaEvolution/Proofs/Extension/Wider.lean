import SchemaEvolution.Proofs.Extension.Scope
import SchemaEvolution.Proofs.Walk.Replay

/-!
# Walking an extended history

The walk of a history and the walk of one that extends it go side by side up to the last released
version. The wider schema has the tables of the narrow one, with more steps to come, and further
tables that are not created yet; it has the same enums in use, which may have grown, and the same
names. From related schemas, an edit does the same in the database and leads to related schemas.
-/

namespace SchemaEvolution

/-- What the walk of a history and that of an extended one agree upon. -/
structure Widening (c c' : Setting) where
  /-- The steps that a table has in addition, by its id. -/
  later : String → List TableStep
  /-- Whether the second enum is what the first has become. -/
  grown : EnumHistory → EnumHistory → Prop
  dialect : c'.dialect = c.dialect
  unreleased : ∀ id, ∀ step ∈ later id, step.version ∉ c.history.timeline
  enum? : ∀ text e, c.history.enum? text = some e →
    ∃ e', c'.history.enum? text = some e' ∧ grown e e'
  texts : ∀ e e', grown e e' → e'.name = e.name ∧ e'.reference = e.reference
  snapshot? : ∀ e e', grown e e' → ∀ version ∈ c.history.timeline, ∀ s,
    e.snapshotAt? c.history.timeline version = some s →
      ∃ s', e'.snapshotAt? c'.history.timeline version = some s' ∧ s'.name = s.name ∧
        (c.dialect = .mysql → s' = s)

namespace Widening

variable {c c' : Setting} (x : Widening c c')

/-- The table of the wider schema. -/
def table (t : LiveTable) : LiveTable := { t with pending := t.pending ++ x.later t.id }

/-- Whether a schema is wider than another one. -/
structure Wider (s s' : LiveSchema) : Prop where
  tables : ∃ fresh, s'.tables = s.tables.map x.table ++ fresh ∧
    ∀ u ∈ fresh, u.id ∉ s.ids ∧ u.created = false ∧
      ∀ step ∈ u.pending, step.version ∉ c.history.timeline
  timeline : s.enums.timeline = c.history.timeline
  timeline' : s'.enums.timeline = c'.history.timeline
  enums : List.Forall₂ x.grown s.enums.enums s'.enums.enums
  names : s'.names = s.names

variable {x} {s s' s₁ s₁' : LiveSchema} {t u : LiveTable} {id name new version : String}
  {operations operations' : List Operation}

/-! ## Tables -/

theorem Wider.table? (h : x.Wider s s') (ht : s.table? id = some t) :
    s'.table? id = some (x.table t) := by
  obtain ⟨fresh, hs, -⟩ := h.tables
  have hmap : (s.tables.map x.table).find? (·.id == id) = some (x.table t) := by
    rw [List.find?_map]
    exact congrArg (Option.map x.table) ht
  rw [LiveSchema.table?, hs, List.find?_append, hmap]
  rfl

theorem Wider.setTable (h : x.Wider s s') (hid : t.id ∈ s.ids) :
    x.Wider (s.setTable t) (s'.setTable (x.table t)) := by
  obtain ⟨fresh, hs, hfresh⟩ := h.tables
  refine ⟨⟨fresh, ?_, fun u hu => ?_⟩, h.timeline, h.timeline', h.enums, h.names⟩
  · have hkeep := LiveSchema.map_setTable_of_ne (t := x.table t) 
      fun u hu he => (hfresh u hu).1 (he ▸ hid)
    show s'.tables.map (fun u => if u.id = t.id then x.table t else u) = _
    rw [hs, List.map_append]
    refine (congrArg (_ ++ ·) hkeep).trans (congrArg (· ++ fresh) ?_)
    simp only [LiveSchema.setTable, List.map_map]
    refine List.map_congr_left fun u _ => ?_
    by_cases hu : u.id = t.id
    · simp [hu, table]
    · simp [hu, table]
  · rw [LiveSchema.ids_setTable]
    exact hfresh u hu

theorem Wider.followReferences (h : x.Wider s s') :
    x.Wider (s.followReferences id name new) (s'.followReferences id name new) := by
  obtain ⟨fresh, hs, hfresh⟩ := h.tables
  refine ⟨⟨fresh.map (·.followReference id name new), ?_, fun u hu => ?_⟩, h.timeline,
    h.timeline', h.enums, h.names⟩
  · show s'.tables.map (·.followReference id name new) = _
    rw [hs, List.map_append, List.map_map]
    simp only [LiveSchema.followReferences, List.map_map]
    rfl
  · obtain ⟨v, hv, rfl⟩ := List.mem_map.mp hu
    rw [LiveSchema.ids_followReferences]
    exact hfresh v hv

/-! ## Names -/

theorem Wider.reserve (h : x.Wider s s') (hs : s.reserve name = .ok s₁)
    (hs' : s'.reserve name = .ok s₁') : x.Wider s₁ s₁' := by
  obtain ⟨-, rfl⟩ := LiveSchema.reserve_ok.mp hs
  obtain ⟨-, rfl⟩ := LiveSchema.reserve_ok.mp hs'
  exact ⟨h.tables, h.timeline, h.timeline', h.enums, congrArg (name :: ·) h.names⟩

theorem Wider.release (h : x.Wider s s') : x.Wider (s.release name) (s'.release name) :=
  ⟨h.tables, h.timeline, h.timeline', h.enums, congrArg (List.filter _) h.names⟩

/-! ## Enums -/

theorem isDesignatedBy_eq {e e' : EnumHistory} (h : x.grown e e') {text : String} :
    e'.isDesignatedBy text = e.isDesignatedBy text := by
  rw [EnumHistory.isDesignatedBy, (x.texts e e' h).1, (x.texts e e' h).2,
    EnumHistory.isDesignatedBy]

/-- At a released version, the wider schema knows the enums that the narrow one knows. -/
theorem Wider.covers (h : x.Wider s s') (hv : version ∈ c.history.timeline) :
    (s'.enums.scopeAt version).Covers c.dialect (s.enums.scopeAt version) := by
  intro text found hfound
  unfold EnumRegistry.scopeAt at hfound ⊢
  cases he : s.enums.enum? text with
  | none =>
    rw [he] at hfound
    cases hfound
  | some e =>
    have hdesignated : ∀ a b, x.grown a b → b.isDesignatedBy text = a.isDesignatedBy text :=
      fun _ _ hr => isDesignatedBy_eq hr
    obtain ⟨e', he', hgrown⟩ := find?_of_forall₂ h.enums hdesignated he
    rw [he] at hfound
    rw [EnumRegistry.enum?, he']
    cases hsnap : e.snapshotAt? s.enums.timeline version with
    | none =>
      simp only [hsnap] at hfound
      cases hfound
    | some snapshot =>
      simp only [hsnap] at hfound
      obtain rfl := Except.ok.inj hfound
      obtain ⟨s', hs', hsame⟩ := x.snapshot? e e' hgrown version hv snapshot (h.timeline ▸ hsnap)
      exact ⟨s', by simp only [h.timeline', hs'], hsame⟩

theorem Wider.register (h : x.Wider s s') {e e' : EnumHistory} (he : x.grown e e') :
    x.Wider { s with enums := s.enums.register e } { s' with enums := s'.enums.register e' } := by
  have hany : s'.enums.enums.any (·.name == e'.name) = s.enums.enums.any (·.name == e.name) :=
    any_of_forall₂ h.enums fun a b hr => by rw [(x.texts a b hr).1, (x.texts e e' he).1]
  unfold EnumRegistry.register
  rw [hany]
  split
  · exact h
  · exact ⟨h.tables, h.timeline, h.timeline', List.rel_append h.enums (.cons he .nil), h.names⟩

theorem Wider.requireEnum (h : x.Wider s s') {type : ColumnType}
    (hs : s.requireEnum c version type = .ok s₁) (hs' : s'.requireEnum c' version type = .ok s₁') :
    x.Wider s₁ s₁' := by
  unfold LiveSchema.requireEnum at hs hs'
  split at hs
  · next hnone =>
    rw [hnone] at hs'
    obtain rfl := Except.ok.inj hs
    obtain rfl := Except.ok.inj hs'
    exact h
  · next reference hsome =>
    rw [hsome] at hs'
    split at hs
    · cases hs
    · next e he =>
      obtain ⟨e', he', hgrown⟩ := x.enum? reference e he
      simp only [he'] at hs'
      obtain ⟨-, -, rfl⟩ := Except.map_ok.mp hs
      obtain ⟨-, -, rfl⟩ := Except.map_ok.mp hs'
      exact h.register hgrown

/-! ## Columns -/

variable {p : Property} {column column' : LiveColumn}

theorem Wider.redeclare (h : x.Wider s s') (hv : version ∈ c.history.timeline)
    (hs : s.redeclare c version p = .ok column) (hs' : s'.redeclare c' version p = .ok column') :
    column' = column := by
  obtain ⟨hp, hd⟩ := LiveSchema.redeclare_ok hs
  obtain ⟨hp', hd'⟩ := LiveSchema.redeclare_ok hs'
  rw [x.dialect, Dialect.declaration_of_covers (h.covers hv) hd] at hd'
  obtain ⟨p₁, declaration⟩ := column
  obtain ⟨p₂, declaration'⟩ := column'
  obtain rfl : p₁ = p := hp
  obtain rfl : p₂ = p₁ := hp'
  exact congrArg (LiveColumn.mk p₂) (Except.ok.inj hd').symm

theorem Wider.declare (h : x.Wider s s') (hv : version ∈ c.history.timeline)
    (hs : s.declare c version p = .ok (s₁, column))
    (hs' : s'.declare c' version p = .ok (s₁', column')) : column' = column ∧ x.Wider s₁ s₁' := by
  obtain ⟨hr, hd⟩ := LiveSchema.declare_ok.mp hs
  obtain ⟨hr', hd'⟩ := LiveSchema.declare_ok.mp hs'
  have h₁ := h.requireEnum hr hr'
  exact ⟨h₁.redeclare hv hd hd', h₁⟩

theorem Wider.declareAll (h : x.Wider s s') (hv : version ∈ c.history.timeline) {table : String}
    {edits : List PropertyEdit} {start columns columns' : List LiveColumn}
    (hs : LiveSchema.declareAll c version table s start edits = .ok (s₁, columns))
    (hs' : LiveSchema.declareAll c' version table s' start edits = .ok (s₁', columns')) :
    columns' = columns ∧ x.Wider s₁ s₁' := by
  induction edits generalizing s s' start with
  | nil =>
    obtain ⟨rfl, rfl⟩ := LiveSchema.declareAll_nil_ok.mp hs
    obtain ⟨rfl, rfl⟩ := LiveSchema.declareAll_nil_ok.mp hs'
    exact ⟨rfl, h⟩
  | cons edit edits ih =>
    obtain ⟨name, shape, s₂, column, rfl, -, hd, hrest⟩ := LiveSchema.declareAll_cons_ok.mp hs
    obtain ⟨_, _, s₂', column', he, -, hd', hrest'⟩ := LiveSchema.declareAll_cons_ok.mp hs'
    cases he
    obtain ⟨rfl, h₂⟩ := h.declare hv hd hd'
    exact ih h₂ hrest hrest'

/-! ## Edits -/

theorem mem_ids_of_tables (hs : s₁.tables = s.tables) (hid : id ∈ s.ids) : id ∈ s₁.ids := by
  rw [LiveSchema.ids, hs]
  exact hid

theorem mem_ids_of_reserve (hs : s.reserve name = .ok s₁) (hid : id ∈ s.ids) : id ∈ s₁.ids := by
  obtain ⟨-, rfl⟩ := LiveSchema.reserve_ok.mp hs
  exact hid

/-- What an edit does in the narrow schema, it does in the wider one. -/
theorem Wider.effect {e : TableEdit} (h : x.Wider s s') (hv : version ∈ c.history.timeline)
    (hid : t.id ∈ s.ids) (he : LiveSchema.Effect c version s t e s₁ operations)
    (he' : LiveSchema.Effect c' version s' (x.table t) e s₁' operations') :
    operations' = operations ∧ x.Wider s₁ s₁' := by
  cases he with
  | create he =>
    cases he' with | create he' =>
    obtain ⟨-, s₂, columns, hd, rfl, rfl⟩ := LiveSchema.createTable_ok.mp he
    obtain ⟨-, s₂', columns', hd', rfl, rfl⟩ := LiveSchema.createTable_ok.mp he'
    obtain ⟨rfl, h₂⟩ := h.declareAll hv hd hd'
    exact ⟨by rw [x.dialect]; rfl,
      h₂.setTable (t := { t with columns := columns', created := true })
        (mem_ids_of_tables (LiveSchema.declareAll_frame hd).1 hid)⟩
  | @rename name =>
    cases he' with | rename =>
    unfold LiveSchema.renameTable
    split
    · exact ⟨rfl, h⟩
    · next new =>
      show (if new = t.name then _ else _ : LiveSchema × List Operation).2 = _ ∧
        x.Wider _ (if new = t.name then _ else _ : LiveSchema × List Operation).1
      split
      · exact ⟨rfl, h⟩
      · exact ⟨by rw [x.dialect]; rfl, h.setTable (t := { t with name := new }) hid⟩
  | addProperty he =>
    cases he' with | addProperty he' =>
    obtain ⟨-, s₂, column, hd, rfl, rfl⟩ := LiveSchema.addProperty_ok.mp he
    obtain ⟨-, s₂', column', hd', rfl, rfl⟩ := LiveSchema.addProperty_ok.mp he'
    obtain ⟨rfl, h₂⟩ := h.declare hv hd hd'
    exact ⟨by rw [x.dialect]; rfl,
      h₂.setTable (t := { t with columns := t.columns ++ [column'] })
        (mem_ids_of_tables (LiveSchema.declare_frame hd).1 hid)⟩
  | @renameProperty name new _ _ he =>
    cases he' with | renameProperty he' =>
    obtain ⟨before, column, hb, -, hd, rfl, rfl⟩ := LiveSchema.renameProperty_ok.mp he
    obtain ⟨before', column', hb', -, hd', rfl, rfl⟩ := LiveSchema.renameProperty_ok.mp he'
    obtain rfl : before' = before := Option.some.inj (hb'.symm.trans hb)
    obtain rfl := h.redeclare hv hd hd'
    exact ⟨by rw [x.dialect]; rfl,
      (h.setTable (t := (t.setColumn name column').followColumn name new) hid).followReferences⟩
  | @retypeProperty name shape _ _ he =>
    cases he' with | retypeProperty he' =>
    obtain ⟨before, after, s₂, statements, hb, -, -, hd, hr, rfl, rfl⟩ :=
      LiveSchema.retypeProperty_ok.mp he
    obtain ⟨before', after', s₂', statements', hb', -, -, hd', hr', rfl, rfl⟩ :=
      LiveSchema.retypeProperty_ok.mp he'
    obtain rfl : before' = before := Option.some.inj (hb'.symm.trans hb)
    obtain ⟨rfl, h₂⟩ := h.declare hv hd hd'
    -- the wider scope covers what the statements take from the narrow one
    have hr'' := Dialect.columnRetyping_of_covers (h₂.covers hv) hr
    rw [x.dialect] at hr'
    obtain rfl := Except.ok.inj (hr'.symm.trans hr'')
    exact ⟨rfl, h₂.setTable (t := t.setColumn name after')
      (mem_ids_of_tables (LiveSchema.declare_frame hd).1 hid)⟩
  | @removeProperty name _ _ he =>
    cases he' with | removeProperty he' =>
    obtain ⟨-, rfl, rfl⟩ := LiveSchema.removeProperty_ok.mp he
    obtain ⟨-, rfl, rfl⟩ := LiveSchema.removeProperty_ok.mp he'
    exact ⟨by rw [x.dialect]; rfl, h.setTable (t := t.dropColumn name) hid⟩
  | @addPrimaryKey name columns _ _ he =>
    cases he' with | addPrimaryKey he' =>
    obtain ⟨-, -, -, s₂, hr, rfl, rfl⟩ := LiveSchema.addPrimaryKey_ok.mp he
    obtain ⟨-, -, -, s₂', hr', rfl, rfl⟩ := LiveSchema.addPrimaryKey_ok.mp he'
    exact ⟨by rw [x.dialect]; rfl, (h.reserve hr hr').setTable
      (t := { t with constraints := t.constraints ++ [.primaryKey name columns] })
      (mem_ids_of_reserve hr hid)⟩
  | @addForeignKey name column references referencedColumn _ _ he =>
    cases he' with | addForeignKey he' =>
    obtain ⟨own, target, s₂, -, -, ht, -, -, hr, rfl, rfl⟩ := LiveSchema.addForeignKey_ok.mp he
    obtain ⟨own', target', s₂', -, -, ht', -, -, hr', rfl, rfl⟩ :=
      LiveSchema.addForeignKey_ok.mp he'
    -- what is referred to is a table of the narrow schema
    obtain rfl : target' = x.table target := Option.some.inj (ht'.symm.trans (h.table? ht))
    exact ⟨by rw [x.dialect]; rfl, (h.reserve hr hr').setTable (t := { t with
      constraints := t.constraints ++ [.foreignKey name column references referencedColumn] })
      (mem_ids_of_reserve hr hid)⟩
  | @removePrimaryKey name _ _ he =>
    cases he' with | removePrimaryKey he' =>
    obtain ⟨key, hk, rfl, rfl, rfl⟩ := LiveSchema.removePrimaryKey_ok.mp he
    obtain ⟨key', hk', -, rfl, rfl⟩ := LiveSchema.removePrimaryKey_ok.mp he'
    obtain rfl : key' = key := Option.some.inj (hk'.symm.trans hk)
    exact ⟨by rw [x.dialect]; rfl,
      h.release.setTable (t := LiveSchema.withoutConstraint t key'.name) hid⟩
  | @removeForeignKey name _ _ he =>
    cases he' with | removeForeignKey he' =>
    obtain ⟨-, rfl, rfl⟩ := LiveSchema.removeForeignKey_ok.mp he
    obtain ⟨-, rfl, rfl⟩ := LiveSchema.removeForeignKey_ok.mp he'
    exact ⟨by rw [x.dialect]; rfl,
      h.release.setTable (t := LiveSchema.withoutConstraint t name) hid⟩
  | @addIndex kind name columns _ _ he =>
    cases he' with | addIndex he' =>
    obtain ⟨-, -, -, s₂, hr, rfl, rfl⟩ := LiveSchema.addIndex_ok.mp he
    obtain ⟨-, -, -, s₂', hr', rfl, rfl⟩ := LiveSchema.addIndex_ok.mp he'
    exact ⟨by rw [x.dialect]; rfl, (h.reserve hr hr').setTable
      (t := { t with indices := t.indices ++ [⟨name, columns, kind == .unique⟩] })
      (mem_ids_of_reserve hr hid)⟩
  | @removeIndex kind name _ _ he =>
    cases he' with | removeIndex he' =>
    obtain ⟨-, rfl, rfl⟩ := LiveSchema.removeIndex_ok.mp he
    obtain ⟨-, rfl, rfl⟩ := LiveSchema.removeIndex_ok.mp he'
    exact ⟨by rw [x.dialect]; rfl,
      h.release.setTable (t := { t with indices := t.indices.filter (·.name != name) }) hid⟩

theorem Wider.edit {e : String × TableEdit} (h : x.Wider s s') (hv : version ∈ c.history.timeline)
    (hid : e.1 ∈ s.ids) (he : s.edit c version e = .ok (s₁, operations))
    (he' : s'.edit c' version e = .ok (s₁', operations')) :
    operations' = operations ∧ x.Wider s₁ s₁' := by
  obtain ⟨id, e⟩ := e
  obtain ⟨t, ht⟩ := LiveSchema.mem_ids_iff.mp hid
  have ht' := h.table? ht
  rcases LiveSchema.edit_ok he with ⟨rfl, rfl, hidle⟩ | ⟨u, hu, hc, he⟩
  · rcases LiveSchema.edit_ok he' with ⟨rfl, rfl, -⟩ | ⟨u', hu', hc', -⟩
    · exact ⟨rfl, h⟩
    · obtain rfl := Option.some.inj (ht'.symm.trans hu')
      exact absurd (hidle t ht) (by simp [show t.created = _ from hc'])
  · obtain rfl := Option.some.inj (ht.symm.trans hu)
    rcases LiveSchema.edit_ok he' with ⟨rfl, rfl, hidle'⟩ | ⟨u', hu', -, he'⟩
    · exact absurd (show _ = t.created from hidle' (x.table t) ht') (by simp [hc])
    · obtain rfl := Option.some.inj (ht'.symm.trans hu')
      exact h.effect hv ((LiveSchema.table?_eq_some ht).2 ▸ hid) he he'

theorem Wider.edits {edits : List (String × TableEdit)} (h : x.Wider s s') (hs : s.Sound)
    (hv : version ∈ c.history.timeline) (hids : ∀ e ∈ edits, e.1 ∈ s.ids)
    (he : LiveSchema.forEach (LiveSchema.edit c version) s edits = .ok (s₁, operations))
    (he' : LiveSchema.forEach (LiveSchema.edit c' version) s' edits = .ok (s₁', operations')) :
    operations' = operations ∧ x.Wider s₁ s₁' := by
  induction edits generalizing s s' operations operations' with
  | nil =>
    obtain ⟨rfl, rfl⟩ := LiveSchema.forEach_nil_ok.mp he
    obtain ⟨rfl, rfl⟩ := LiveSchema.forEach_nil_ok.mp he'
    exact ⟨rfl, h⟩
  | cons e edits ih =>
    obtain ⟨s₂, first, rest, h₁, h₂, rfl⟩ := LiveSchema.forEach_cons_ok.mp he
    obtain ⟨s₂', first', rest', h₁', h₂', rfl⟩ := LiveSchema.forEach_cons_ok.mp he'
    rw [List.forall_mem_cons] at hids
    obtain ⟨rfl, hwider⟩ := h.edit hv hids.1 h₁ h₁'
    obtain ⟨rfl, hwider⟩ := ih hwider (hs.edit h₁)
      (fun e he => (LiveSchema.ids_edit h₁).symm ▸ hids.2 e he) h₂ h₂'
    exact ⟨rfl, hwider⟩

/-! ## Versions -/

/-- At a released version, the same steps are due in both schemas. -/
theorem Wider.takeDue (h : x.Wider s s') (hv : version ∈ c.history.timeline) :
    (s'.takeDue version).2 = (s.takeDue version).2 ∧
      x.Wider (s.takeDue version).1 (s'.takeDue version).1 := by
  obtain ⟨fresh, hs, hfresh⟩ := h.tables
  -- neither an added step of an old table nor a step of a further table is due
  have hlater : ∀ t : LiveTable, ∀ step ∈ x.later t.id, step.version ≠ version :=
    fun t step hstep he => x.unreleased t.id step hstep (he ▸ hv)
  have hnone : ∀ u ∈ fresh, TableStep.due? version u.pending = none ∧
      TableStep.beyond version u.pending = u.pending := by
    intro u hu
    have hne : ∀ step ∈ u.pending, step.version ≠ version :=
      fun step hstep he => (hfresh u hu).2.2 step hstep (he ▸ hv)
    rw [← List.nil_append u.pending, (TableStep.due?_append hne).1, (TableStep.due?_append hne).2]
    exact ⟨rfl, rfl⟩
  constructor
  · rw [LiveSchema.takeDue_due, LiveSchema.takeDue_due, hs, List.filterMap_append,
      List.filterMap_map]
    have hfreshNone : fresh.filterMap (fun t =>
        (TableStep.due? version t.pending).map (t.id, ·)) = [] := by
      refine List.filterMap_eq_nil_iff.mpr fun u hu => ?_
      rw [(hnone u hu).1]
      rfl
    rw [hfreshNone, List.append_nil]
    refine List.filterMap_congr fun t _ => ?_
    show (TableStep.due? version (t.pending ++ x.later t.id)).map (t.id, ·) = _
    rw [(TableStep.due?_append (hlater t)).1]
  · refine ⟨⟨fresh, ?_, fun u hu => ?_⟩, h.timeline, h.timeline', h.enums, h.names⟩
    · rw [LiveSchema.takeDue_tables, LiveSchema.takeDue_tables, hs, List.map_append, List.map_map,
        List.map_map]
      congr 1
      · refine List.map_congr_left fun t _ => ?_
        show { t with pending := TableStep.beyond version (t.pending ++ x.later t.id) } = _
        rw [(TableStep.due?_append (hlater t)).2]
        rfl
      · calc (fresh.map fun t => { t with pending := TableStep.beyond version t.pending })
            = fresh.map fun t => t := List.map_congr_left fun u hu => by rw [(hnone u hu).2]
          _ = fresh := List.map_id' fresh
    · rw [LiveSchema.ids_takeDue]
      exact hfresh u hu

theorem Wider.advance (h : x.Wider s s') (hs : s.Sound) (hs' : s'.Sound)
    (hv : version ∈ c.history.timeline) (he : s.advance c version = .ok (s₁, operations))
    (he' : s'.advance c' version = .ok (s₁', operations')) :
    operations' = operations ∧ x.Wider s₁ s₁' := by
  have hscript := LiveSchema.advance_script hs he
  have hscript' := LiveSchema.advance_script hs' he'
  obtain ⟨hdue, hwider⟩ := h.takeDue hv
  rw [hdue] at hscript'
  refine hwider.edits hs.takeDue hv (fun e he => ?_) hscript hscript'
  obtain ⟨d, hd, hde⟩ := mem_script he
  rw [LiveSchema.ids_takeDue, ← hde]
  exact LiveSchema.mem_ids_of_due hd

/-- The columns of enum types are those of the tables that have been created, which both schemas
have. -/
theorem Wider.enumUses (h : x.Wider s s') : s'.enumUses = s.enumUses := by
  obtain ⟨fresh, hs, hfresh⟩ := h.tables
  have hnone : fresh.filter (·.created) = [] :=
    List.filter_eq_nil_iff.mpr fun u hu => by simp [(hfresh u hu).2.1]
  rw [LiveSchema.enumUses, hs, List.filter_append, hnone, List.append_nil, List.filter_map,
    List.flatMap_map]
  rfl

/-- Up to the last released version, the walk of the extended history does the same; it goes on from
a wider schema. -/
theorem Wider.walk {versions later : List String} {w w' : LiveSchema.Walk} (h : x.Wider s s')
    (hs : s.Sound) (hs' : s'.Sound) (hv : ∀ version ∈ versions, version ∈ c.history.timeline)
    (hw : s.walk c versions = .ok w) (hw' : s'.walk c' (versions ++ later) = .ok w') :
    ∃ middle rest, x.Wider w.final middle ∧ middle.Sound ∧ middle.walk c' later = .ok rest ∧
      w'.final = rest.final ∧ w'.operations = w.operations ++ rest.operations ∧
      w'.uses = w.uses ++ rest.uses := by
  induction versions generalizing s s' w w' with
  | nil =>
    obtain rfl := Except.ok.inj hw
    exact ⟨s', w', h, hs', hw', rfl, rfl, rfl⟩
  | cons version versions ih =>
    simp only [List.cons_append, LiveSchema.walk, Except.bind_ok, Except.pure_ok,
      Prod.exists] at hw hw'
    obtain ⟨s₁, first, h₁, w₁, h₂, rfl⟩ := hw
    obtain ⟨s₁', first', h₁', w₁', h₂', rfl⟩ := hw'
    rw [List.forall_mem_cons] at hv
    obtain ⟨rfl, hwider⟩ := h.advance hs hs' hv.1 h₁ h₁'
    obtain ⟨middle, rest, hm, hsm, hrest, hf, ho, hu⟩ :=
      ih hwider (hs.advance h₁) (hs'.advance h₁') hv.2 h₂ h₂'
    exact ⟨middle, rest, hm, hsm, hrest, hf, by rw [ho, List.append_assoc],
      by rw [hu, h.enumUses]; rfl⟩

end Widening

end SchemaEvolution
