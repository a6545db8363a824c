import SchemaEvolution.Proofs.Walk.Sound

/-!
# Tables in outline

What a changelog tells of a table is its name and its properties. In outline a table is that, with
whether it has been created and which steps are still to come; declarations, constraints and indices
are left out. On outlines an edit is a plain function, which neither dialect nor enums have a part
in.
-/

namespace SchemaEvolution

/-- What an edit makes of a list of properties. -/
def PropertyEdit.apply (ps : List Property) : PropertyEdit → List Property
  | .add name shape => ps ++ [⟨name, shape⟩]
  | .rename name new => ps.map fun p => if p.name = name then { p with name := new } else p
  | .retype name shape => ps.map fun p => if p.name = name then { p with shape } else p
  | .remove name => ps.filter (·.name != name)

/-- A table in outline. -/
structure Outline where
  table : FinalTable
  created : Bool
  /-- The steps to come. -/
  pending : List TableStep

def LiveTable.outline (t : LiveTable) : Outline := ⟨t.final, t.created, t.pending⟩

/-- What an edit makes of a table, as far as name and properties go. -/
def TableEdit.onTable (t : FinalTable) : TableEdit → FinalTable
  | .create step => { t with properties := step.properties.foldl PropertyEdit.apply [] }
  | .rename name => { t with name := name.getD t.name }
  | .property edit => { t with properties := edit.apply t.properties }
  | .constraint _ | .index _ => t

/-- What an edit makes of a table in outline. Only a table that is not yet created is created, and
nothing else is done to it before that. -/
def Outline.after (o : Outline) (e : TableEdit) : Outline :=
  if e.isCreation = o.created then o else { o with table := e.onTable o.table, created := true }

namespace LiveSchema

variable {c : Setting} {version id id' name new : String} {s s' : LiveSchema} {t t' : LiveTable}
  {before : LiveColumn}
  {e : TableEdit} {operations : List Operation}

/-- The outline of the table with an id. -/
def outline? (s : LiveSchema) (id : String) : Option Outline := (s.table? id).map (·.outline)

theorem outline?_setTable {o : Outline} (hs : s'.tables = s.tables)
    (ht : s.table? t.id = some t) (hid : t'.id = t.id) (ho : t'.outline = o) :
    (s'.setTable t').outline? id = if id = t.id then some o else s.outline? id := by
  have hlookup : ∀ id, s'.table? id = s.table? id := fun id => by rw [table?, hs, table?]
  unfold outline?
  rw [← hid] at ht ⊢
  by_cases h : id = t'.id
  · subst h
    rw [if_pos rfl, table?_setTable_self ((hlookup _).trans ht), ← ho]
    rfl
  · rw [if_neg h, table?_setTable_of_ne h, hlookup]

theorem outline?_followReferences :
    (s.followReferences id' name new).outline? id = s.outline? id := by
  unfold outline?
  rw [table?_map (s := s) (f := (·.followReference id' name new)) (fun _ => rfl) rfl,
    Option.map_map]
  rfl

/-- The properties of a new table are those that its first step adds. -/
theorem declareAll_properties {table : String} {start columns : List LiveColumn}
    {edits : List PropertyEdit}
    (h : declareAll c version table s start edits = .ok (s', columns)) :
    columns.map (·.property) = edits.foldl PropertyEdit.apply (start.map (·.property)) := by
  induction edits generalizing s start with
  | nil =>
    obtain ⟨-, rfl⟩ := declareAll_nil_ok.mp h
    rfl
  | cons edit edits ih =>
    obtain ⟨name, shape, s₁, column, rfl, -, h₁, h₂⟩ := declareAll_cons_ok.mp h
    rw [ih h₂, List.map_append, List.map_singleton, (redeclare_ok (declare_ok.mp h₁).2).1]
    rfl

theorem outline?_self (ht : s.table? id = some t) :
    s.outline? id' = if id' = id then some t.outline else s.outline? id' := by
  split
  · next h => rw [h, outline?, ht]; rfl
  · rfl

/-! ## Columns in outline -/

theorem properties_renamed {column : LiveColumn} (hn : t.columnNames.Nodup)
    (hb : t.column? name = some before)
    (hcolumn : column.property = { before.property with name := new }) :
    (t.setColumn name column).columns.map (·.property)
      = PropertyEdit.apply (t.columns.map (·.property)) (.rename name new) := by
  obtain ⟨hbm, hbn⟩ := LiveTable.column?_eq_some hb
  simp only [LiveTable.setColumn, PropertyEdit.apply, List.map_map]
  refine List.map_congr_left fun k hk => ?_
  by_cases hkn : k.name = name
  · obtain rfl := LiveTable.eq_of_mem_columns hn hk hbm (hkn.trans hbn.symm)
    simp [hkn, hcolumn]
  · simp [hkn]

theorem properties_retyped {column : LiveColumn} {shape : ColumnShape}
    (hcolumn : column.property = ⟨name, shape⟩) :
    (t.setColumn name column).columns.map (·.property)
      = PropertyEdit.apply (t.columns.map (·.property)) (.retype name shape) := by
  simp only [LiveTable.setColumn, PropertyEdit.apply, List.map_map]
  refine List.map_congr_left fun k _ => ?_
  by_cases hkn : k.property.name = name
  · simp [hkn, hcolumn]
  · simp [hkn]

theorem properties_removed :
    (t.dropColumn name).columns.map (·.property)
      = PropertyEdit.apply (t.columns.map (·.property)) (.remove name) := by
  simp only [LiveTable.dropColumn, PropertyEdit.apply, List.filter_map]
  rfl

/-! ## Edits in outline -/

/-- In outline, an edit that has an effect is the plain function. -/
theorem Effect.outline (h : s.Sound) (ht : s.table? id = some t)
    (hc : t.created = !e.isCreation) (he : Effect c version s t e s' operations) :
    s'.outline? id' =
      if id' = id then some ⟨e.onTable t.final, true, t.pending⟩ else s.outline? id' := by
  obtain ⟨hm, rfl⟩ := table?_eq_some ht
  cases he with
  | create he =>
    obtain ⟨-, s₁, columns, hd, rfl, -⟩ := createTable_ok.mp he
    refine outline?_setTable (declareAll_frame hd).1 ht rfl ?_
    simp only [LiveTable.outline, LiveTable.final, declareAll_properties hd]
    rfl
  | @rename name =>
    have hkeep : t.outline = ⟨t.final, true, t.pending⟩ := by rw [LiveTable.outline, hc]; rfl
    unfold renameTable
    split
    · exact hkeep ▸ outline?_self ht
    · next new =>
      split
      · next h =>
        subst h
        exact hkeep ▸ outline?_self ht
      · exact outline?_setTable rfl ht rfl (by rw [LiveTable.outline, hc]; rfl)
  | addProperty he =>
    obtain ⟨-, s₁, column, hd, rfl, -⟩ := addProperty_ok.mp he
    refine outline?_setTable (declare_frame hd).1 ht rfl ?_
    simp only [LiveTable.outline, LiveTable.final, hc, List.map_append, List.map_singleton,
      (redeclare_ok (declare_ok.mp hd).2).1]
    rfl
  | @renameProperty name new _ _ he =>
    obtain ⟨before, column, hb, -, hd, rfl, -⟩ := renameProperty_ok.mp he
    rw [outline?_followReferences]
    refine outline?_setTable (t := t) rfl ht rfl ?_
    show Outline.mk ⟨t.name, (t.setColumn name column).columns.map (·.property)⟩ _ _ = _
    rw [properties_renamed (h.columns t hm) hb (redeclare_ok hd).1]
    exact congrArg (Outline.mk _ · _) hc
  | @retypeProperty name shape _ _ he =>
    obtain ⟨before, after, s₁, statements, hb, -, -, hd, -, rfl, -⟩ := retypeProperty_ok.mp he
    refine outline?_setTable (t := t) (declare_frame hd).1 ht rfl ?_
    show Outline.mk ⟨t.name, (t.setColumn name after).columns.map (·.property)⟩ _ _ = _
    rw [properties_retyped (redeclare_ok (declare_ok.mp hd).2).1]
    exact congrArg (Outline.mk _ · _) hc
  | @removeProperty name _ _ he =>
    obtain ⟨-, rfl, -⟩ := removeProperty_ok.mp he
    refine outline?_setTable (t := t) rfl ht rfl ?_
    show Outline.mk ⟨t.name, (t.dropColumn name).columns.map (·.property)⟩ _ _ = _
    rw [properties_removed]
    exact congrArg (Outline.mk _ · _) hc
  -- keys do not show in outline
  | addPrimaryKey he =>
    obtain ⟨-, -, -, s₁, hr, rfl, -⟩ := addPrimaryKey_ok.mp he
    obtain ⟨-, rfl⟩ := reserve_ok.mp hr
    exact outline?_setTable rfl ht rfl (congrArg (Outline.mk _ · _) hc)
  | addForeignKey he =>
    obtain ⟨own, target, s₁, -, -, -, -, -, hr, rfl, -⟩ := addForeignKey_ok.mp he
    obtain ⟨-, rfl⟩ := reserve_ok.mp hr
    exact outline?_setTable rfl ht rfl (congrArg (Outline.mk _ · _) hc)
  | removePrimaryKey he =>
    obtain ⟨key, -, rfl, rfl, -⟩ := removePrimaryKey_ok.mp he
    exact outline?_setTable (t := t) rfl ht rfl (congrArg (Outline.mk _ · _) hc)
  | removeForeignKey he =>
    obtain ⟨-, rfl, -⟩ := removeForeignKey_ok.mp he
    exact outline?_setTable (t := t) rfl ht rfl (congrArg (Outline.mk _ · _) hc)
  | addIndex he =>
    obtain ⟨-, -, -, s₁, hr, rfl, -⟩ := addIndex_ok.mp he
    obtain ⟨-, rfl⟩ := reserve_ok.mp hr
    exact outline?_setTable rfl ht rfl (congrArg (Outline.mk _ · _) hc)
  | removeIndex he =>
    obtain ⟨-, rfl, -⟩ := removeIndex_ok.mp he
    exact outline?_setTable rfl ht rfl (congrArg (Outline.mk _ · _) hc)

/-- In outline, every edit that succeeds is the plain function. -/
theorem outline?_edit (h : s.Sound) (he : s.edit c version (id, e) = .ok (s', operations)) :
    s'.outline? id' = (s.outline? id').map fun o => if id' = id then o.after e else o := by
  rcases edit_ok he with ⟨rfl, -, hidle⟩ | ⟨t, ht, hc, he⟩
  · by_cases hid : id' = id
    · subst hid
      cases ht : s'.table? id' with
      | none => simp [outline?, ht]
      | some t => simp [outline?, ht, Outline.after, LiveTable.outline, hidle t ht]
    · simp [hid]
  · rw [he.outline h ht hc]
    by_cases hid : id' = id
    · subst hid
      simp [outline?, ht, Outline.after, LiveTable.outline, hc]
    · simp [hid]

theorem mem_ids_iff : id ∈ s.ids ↔ ∃ t, s.table? id = some t := by
  constructor
  · intro h
    obtain ⟨t, ht, rfl⟩ := List.mem_map.mp h
    exact Option.isSome_iff_exists.mp (List.find?_isSome.mpr ⟨t, ht, by simp⟩)
  · rintro ⟨t, ht⟩
    obtain ⟨hm, rfl⟩ := table?_eq_some ht
    exact List.mem_map_of_mem hm

/-- The tables stand in the order in which they stood, whatever is done to one of them. -/
theorem Effect.ids (he : Effect c version s t e s' operations) : s'.ids = s.ids := by
  have hset : ∀ {s₁ : LiveSchema} {t' : LiveTable}, s₁.tables = s.tables →
      (s₁.setTable t').ids = s.ids := fun hs => by
    rw [ids_setTable, LiveSchema.ids, hs, LiveSchema.ids]
  cases he with
  | create he =>
    obtain ⟨-, s₁, columns, hd, rfl, -⟩ := createTable_ok.mp he
    exact hset (declareAll_frame hd).1
  | rename =>
    unfold renameTable
    split
    · rfl
    · split
      · rfl
      · exact hset rfl
  | addProperty he =>
    obtain ⟨-, s₁, column, hd, rfl, -⟩ := addProperty_ok.mp he
    exact hset (declare_frame hd).1
  | renameProperty he =>
    obtain ⟨before, column, -, -, -, rfl, -⟩ := renameProperty_ok.mp he
    rw [ids_followReferences]
    exact hset rfl
  | retypeProperty he =>
    obtain ⟨before, after, s₁, statements, -, -, -, hd, -, rfl, -⟩ := retypeProperty_ok.mp he
    exact hset (declare_frame hd).1
  | removeProperty he =>
    obtain ⟨-, rfl, -⟩ := removeProperty_ok.mp he
    exact hset rfl
  | addPrimaryKey he =>
    obtain ⟨-, -, -, s₁, hr, rfl, -⟩ := addPrimaryKey_ok.mp he
    obtain ⟨-, rfl⟩ := reserve_ok.mp hr
    exact hset rfl
  | addForeignKey he =>
    obtain ⟨own, target, s₁, -, -, -, -, -, hr, rfl, -⟩ := addForeignKey_ok.mp he
    obtain ⟨-, rfl⟩ := reserve_ok.mp hr
    exact hset rfl
  | removePrimaryKey he =>
    obtain ⟨key, -, -, rfl, -⟩ := removePrimaryKey_ok.mp he
    exact hset rfl
  | removeForeignKey he =>
    obtain ⟨-, rfl, -⟩ := removeForeignKey_ok.mp he
    exact hset rfl
  | addIndex he =>
    obtain ⟨-, -, -, s₁, hr, rfl, -⟩ := addIndex_ok.mp he
    obtain ⟨-, rfl⟩ := reserve_ok.mp hr
    exact hset rfl
  | removeIndex he =>
    obtain ⟨-, rfl, -⟩ := removeIndex_ok.mp he
    exact hset rfl

theorem ids_edit (he : s.edit c version (id, e) = .ok (s', operations)) : s'.ids = s.ids := by
  rcases edit_ok he with ⟨rfl, -, -⟩ | ⟨t, -, -, he⟩
  · rfl
  · exact he.ids

end LiveSchema

end SchemaEvolution
