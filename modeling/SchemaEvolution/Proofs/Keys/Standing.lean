import SchemaEvolution.Proofs.Items
import SchemaEvolution.Proofs.Sql

/-!
# Keys mention what stands

When a primary key, a foreign key or an index is added, the statements before it in the changelog
have created the table and given it the name that is used now, and its columns are properties that
the table has got by then; and so it is with the table and the column that a foreign key refers to,
wherever in the document they are and even if they came about in the same version. For at every
version keys are edited after all tables.

What a table is at a place of the changelog is read off the changes before that place: its name is
what the statements say, the last one that creates or renames it; its properties are what the edits
have made of them.
-/

namespace SchemaEvolution

/-- The name of a table after a statement that is issued for it. -/
def Ddl.nameAfter (name : String) : Ddl → String
  | .createTable table _ => table
  | .renameTable _ new => new
  | _ => name

/-- What is known of the table with an id after a change. One that does nothing tells nothing. -/
def Change.told (id : String) (t : FinalTable) (x : Change) : FinalTable :=
  if x.id = id ∧ x.operations ≠ [] then
    ⟨x.statements.foldl Ddl.nameAfter t.name, (x.edit.onTable t).properties⟩
  else t

/-- Whether a change creates the table with an id, in one statement. -/
def Change.CreatesTable (x : Change) (id : String) : Prop :=
  x.id = id ∧ x.edit.isCreation = true ∧
    ∃ table declarations, x.statements = [.createTable table declarations]

/-- Whether changes have created the table with an id, and have made it what it is. -/
structure Stands (xs : List Change) (id : String) (t : FinalTable) : Prop where
  created : ∃ x ∈ xs, x.CreatesTable id
  told : xs.foldl (Change.told id) ⟨"", []⟩ = t

/-- Whether a table has a property of a name. -/
def FinalTable.HasProperty (t : FinalTable) (name : String) : Prop :=
  ∃ p ∈ t.properties, p.name = name

/-- Whether a change after some others, if it adds a key or an index, mentions only what stands. -/
def Change.MentionsStanding (x : Change) (xs : List Change) : Prop :=
  match x.edit with
  | .constraint (.addPrimaryKey name columns) =>
    ∃ t, Stands xs x.id t ∧ (∀ column ∈ columns, t.HasProperty column) ∧
      ∀ statement ∈ x.statements, statement = .addPrimaryKey t.name name columns ∨
        statement = .createIndex true t.name name columns
  | .constraint (.addForeignKey name column references referencedColumn) =>
    ∃ t target, Stands xs x.id t ∧ t.HasProperty column ∧
      Stands xs references target ∧ target.HasProperty referencedColumn ∧
      ∀ statement ∈ x.statements,
        statement = .addForeignKey t.name name column target.name referencedColumn
  | .index (.add kind name columns) =>
    ∃ t, Stands xs x.id t ∧ (∀ column ∈ columns, t.HasProperty column) ∧
      ∀ statement ∈ x.statements, statement = .createIndex (kind == .unique) t.name name columns
  | _ => True

variable {id : String} {xs : List Change} {x : Change} {t : FinalTable}

theorem Stands.concat_idle (h : Stands xs id t) (hidle : x.id ≠ id ∨ x.operations = []) :
    Stands (xs ++ [x]) id t where
  created := by
    obtain ⟨y, hy, hcreates⟩ := h.created
    exact ⟨y, List.mem_append_left _ hy, hcreates⟩
  told := by
    have hnot : ¬(x.id = id ∧ x.operations ≠ []) := by
      rintro ⟨hid, hne⟩
      rcases hidle with h | h
      · exact h hid
      · exact hne h
    rw [List.foldl_append, h.told, List.foldl_cons, List.foldl_nil, Change.told, if_neg hnot]

theorem Stands.concat (h : Stands xs id t) : Stands (xs ++ [x]) id (x.told id t) where
  created := by
    obtain ⟨y, hy, hcreates⟩ := h.created
    exact ⟨y, List.mem_append_left _ hy, hcreates⟩
  told := by rw [List.foldl_append, h.told, List.foldl_cons, List.foldl_nil]

namespace Dialect

/-! ## Statements that leave the name of a table -/

variable {d : Dialect} {name key : String} {columns : List String} {ks : List LiveColumn}

theorem foldl_nameAfter {statements : List Ddl}
    (h : ∀ statement ∈ statements, statement.nameAfter name = name) :
    statements.foldl Ddl.nameAfter name = name := by
  induction statements with
  | nil => rfl
  | cons statement statements ih =>
    obtain ⟨hfirst, hrest⟩ := List.forall_mem_cons.mp h
    rw [List.foldl_cons, hfirst, ih hrest]

theorem primaryKeyCreation_mem {statement : Ddl}
    (h : statement ∈ d.primaryKeyCreation name key columns ks) :
    statement = .addPrimaryKey name key columns ∨
      statement = .createIndex true name key columns := by
  unfold primaryKeyCreation at h
  split at h
  · cases h
  · split at h
    · exact Or.inr (List.mem_singleton.mp h)
    · exact Or.inl (List.mem_singleton.mp h)

theorem primaryKeyRemoval_nameAfter : ∀ statement ∈ d.primaryKeyRemoval name key columns ks,
    ∀ table, statement.nameAfter table = table := by
  unfold primaryKeyRemoval
  split
  · exact List.forall_mem_nil _
  · split
    · exact List.forall_mem_singleton.mpr fun _ => rfl
    · exact List.forall_mem_singleton.mpr fun _ => rfl
    · exact List.forall_mem_singleton.mpr fun _ => rfl

theorem foreignKeyCreation_mem {column table referenced : String} {statement : Ddl}
    (h : statement ∈ d.foreignKeyCreation name key column table referenced) :
    statement = .addForeignKey name key column table referenced := by
  unfold foreignKeyCreation at h
  split at h
  · cases h
  · exact List.mem_singleton.mp h

theorem foreignKeyRemoval_nameAfter : ∀ statement ∈ d.foreignKeyRemoval name key,
    ∀ table, statement.nameAfter table = table := by
  unfold foreignKeyRemoval
  split
  · exact List.forall_mem_singleton.mpr fun _ => rfl
  · exact List.forall_mem_singleton.mpr fun _ => rfl
  · exact List.forall_mem_nil _

/-- A table that is built anew has the name that it had. -/
theorem rebuild_nameAfter (t : TableShape) :
    (rebuild d t).foldl Ddl.nameAfter t.name = t.name := by
  have hkeys : ∀ statement ∈ (t.primaryKey.toList.filter (·.isComplete t.columns)).flatMap
      fun k => d.primaryKeyCreation t.name k.name k.columns t.columns,
      statement.nameAfter t.name = t.name := by
    intro statement hin
    obtain ⟨k, -, hin⟩ := List.mem_flatMap.mp hin
    rcases primaryKeyCreation_mem hin with rfl | rfl
    · rfl
    · rfl
  have hindices : ∀ statement ∈ (t.indices.filter (·.isComplete t.columns)).flatMap
      fun i => d.indexCreation i.unique t.name i.name i.columns,
      statement.nameAfter t.name = t.name := by
    intro statement hin
    obtain ⟨i, -, hin⟩ := List.mem_flatMap.mp hin
    rw [List.mem_singleton.mp hin]
    rfl
  -- what is left of what names a table is that the new one gets the name of the old one
  have hnamed : (d.tableCreation (stagingName t.name) t.columns
      ++ [Ddl.copyRows t.name (stagingName t.name) (t.columns.map (·.name)), Ddl.dropTable t.name]
      ++ d.tableRenaming (stagingName t.name) t.name).foldl Ddl.nameAfter t.name = t.name := rfl
  rw [rebuild, List.foldl_append, List.foldl_append, hnamed, foldl_nameAfter hkeys,
    foldl_nameAfter hindices]

theorem columnRetyping_nameAfter {t : TableShape} {before after : LiveColumn} {enums : EnumScope}
    {statements : List Ddl} (h : d.columnRetyping t before after enums = .ok statements) :
    statements.foldl Ddl.nameAfter t.name = t.name := by
  cases d with
  | mysql =>
    obtain rfl := Except.ok.inj h
    rfl
  | postgres =>
    obtain ⟨type, rest, -, rfl, hrest⟩ := columnRetyping_postgres h
    refine foldl_nameAfter (List.forall_mem_cons.mpr ⟨rfl, fun statement hin => ?_⟩)
    rcases hrest statement hin with ⟨_, rfl⟩ | ⟨_, rfl⟩
    · rfl
    · rfl
  | sqlite =>
    obtain rfl := Except.ok.inj h
    split
    · rfl
    · exact rebuild_nameAfter t

theorem columnRemoval_nameAfter {t : TableShape} {column : String} :
    (d.columnRemoval t column).foldl Ddl.nameAfter t.name = t.name := by
  refine foldl_nameAfter fun statement hin => ?_
  unfold columnRemoval at hin
  split at hin
  · rcases List.mem_append.mp hin with hin | hin
    · rcases List.mem_append.mp hin with hin | hin
      · obtain ⟨k, -, hin⟩ := List.mem_flatMap.mp hin
        exact primaryKeyRemoval_nameAfter statement hin _
      · obtain ⟨i, -, hin⟩ := List.mem_flatMap.mp hin
        rw [List.mem_singleton.mp hin]
        rfl
    · rw [List.mem_singleton.mp hin]
      rfl
  · rw [List.mem_singleton.mp hin]
    rfl

end Dialect

namespace LiveSchema

open Dialect

variable {c : Setting} {version : String} {versions : List String} {s s' : LiveSchema}
  {t : LiveTable} {e : TableEdit} {operations : List Operation}

/-! ## What changes tell -/

/-- The statements of an edit tell the name that the table has afterwards. -/
theorem Effect.nameAfter (he : Effect c version s t e s' operations) :
    (operations.flatMap (·.statements)).foldl Ddl.nameAfter t.name = (e.onTable t.final).name := by
  cases he with
  | create h =>
    obtain ⟨-, _, _, -, -, rfl⟩ := createTable_ok.mp h
    rfl
  | rename =>
    unfold renameTable
    split
    · rfl
    · split
      · next hsame => exact hsame.symm
      · rfl
  | addProperty h =>
    obtain ⟨-, _, _, -, -, rfl⟩ := addProperty_ok.mp h
    rfl
  | renameProperty h =>
    obtain ⟨_, _, -, -, -, -, rfl⟩ := renameProperty_ok.mp h
    rfl
  | retypeProperty h =>
    obtain ⟨_, _, _, _, -, -, -, -, hr, -, rfl⟩ := retypeProperty_ok.mp h
    rw [List.flatMap_singleton]
    exact columnRetyping_nameAfter hr
  | removeProperty h =>
    obtain ⟨-, -, rfl⟩ := removeProperty_ok.mp h
    rw [List.flatMap_singleton]
    exact columnRemoval_nameAfter (t := t.shape)
  | addPrimaryKey h =>
    obtain ⟨-, -, -, _, -, -, rfl⟩ := addPrimaryKey_ok.mp h
    rw [List.flatMap_singleton]
    refine foldl_nameAfter fun statement hin => ?_
    rcases primaryKeyCreation_mem hin with rfl | rfl
    · rfl
    · rfl
  | addForeignKey h =>
    obtain ⟨_, _, _, -, -, -, -, -, -, -, rfl⟩ := addForeignKey_ok.mp h
    rw [List.flatMap_singleton]
    refine foldl_nameAfter fun statement hin => ?_
    rw [foreignKeyCreation_mem hin]
    rfl
  | removePrimaryKey h =>
    obtain ⟨_, -, -, -, rfl⟩ := removePrimaryKey_ok.mp h
    rw [List.flatMap_singleton]
    exact foldl_nameAfter fun statement hin => primaryKeyRemoval_nameAfter statement hin _
  | removeForeignKey h =>
    obtain ⟨-, -, rfl⟩ := removeForeignKey_ok.mp h
    rw [List.flatMap_singleton]
    exact foldl_nameAfter fun statement hin => foreignKeyRemoval_nameAfter statement hin _
  | addIndex h =>
    obtain ⟨-, -, -, _, -, -, rfl⟩ := addIndex_ok.mp h
    rfl
  | removeIndex h =>
    obtain ⟨-, -, rfl⟩ := removeIndex_ok.mp h
    rfl

/-- An edit that does nothing leaves the table as it is. -/
theorem Effect.onTable_of_idle (he : Effect c version s t e s' operations)
    (hidle : operations = []) : e.onTable t.final = t.final := by
  cases he with
  | create h =>
    obtain ⟨-, _, _, -, -, rfl⟩ := createTable_ok.mp h
    cases hidle
  | rename =>
    unfold renameTable at hidle
    split at hidle
    · rfl
    · split at hidle
      · next hsame =>
        rw [TableEdit.onTable, Option.getD_some, hsame]
        rfl
      · cases hidle
  | addProperty h =>
    obtain ⟨-, _, _, -, -, rfl⟩ := addProperty_ok.mp h
    cases hidle
  | renameProperty h =>
    obtain ⟨_, _, -, -, -, -, rfl⟩ := renameProperty_ok.mp h
    cases hidle
  | retypeProperty h =>
    obtain ⟨_, _, _, _, -, -, -, -, hr, -, rfl⟩ := retypeProperty_ok.mp h
    cases hidle
  | removeProperty h =>
    obtain ⟨-, -, rfl⟩ := removeProperty_ok.mp h
    cases hidle
  | _ => rfl

/-- What a change tells of its table is what the table is afterwards. -/
theorem Effect.told {id : String} (he : Effect c version s t e s' operations) :
    Change.told id t.final ⟨s, id, e, s', operations⟩ = e.onTable t.final := by
  unfold Change.told
  split
  · exact congrArg (FinalTable.mk · _) he.nameAfter
  · next hnot =>
    refine (he.onTable_of_idle ?_).symm
    by_contra hne
    exact hnot ⟨rfl, hne⟩

/-- A table that is created is what the change tells, whatever was known before. -/
theorem Effect.stands_of_creation {xs : List Change}
    (hc : e.isCreation = true) (he : Effect c version s t e s' operations) :
    Stands (xs ++ [⟨s, t.id, e, s', operations⟩]) t.id (e.onTable t.final) := by
  cases he with
  | create h =>
    obtain ⟨-, _, columns, -, -, rfl⟩ := createTable_ok.mp h
    refine ⟨⟨_, List.mem_append_right _ (List.mem_singleton.mpr rfl), rfl, rfl, t.name, _, rfl⟩, ?_⟩
    rw [List.foldl_append, List.foldl_cons, List.foldl_nil, Change.told,
      if_pos ⟨rfl, List.cons_ne_nil _ _⟩]
    rfl
  | _ => cases hc

/-- Whether all tables that have been created stand by the changes made. -/
def Recorded (s : LiveSchema) (xs : List Change) : Prop :=
  ∀ id o, s.outline? id = some o → o.created = true → Stands xs id o.table

theorem Recorded.edit {xs : List Change} {d : String × TableEdit} (h : s.Sound)
    (hr : s.Recorded xs) (he : s.edit c version d = .ok (s', operations)) :
    s'.Recorded (xs ++ [⟨s, d.1, d.2, s', operations⟩]) := by
  obtain ⟨id, e⟩ := d
  intro id' o' ho' hc'
  rcases edit_ok he with ⟨rfl, rfl, -⟩ | ⟨t, ht, hc, heffect⟩
  · exact (hr id' o' ho' hc').concat_idle (Or.inr rfl)
  · rw [heffect.outline h ht hc] at ho'
    split at ho'
    · next hid =>
      subst hid
      obtain rfl := Option.some.inj ho'
      have hlookup : s.outline? id' = some t.outline := by rw [outline?, ht]; rfl
      cases hcreation : e.isCreation with
      | true =>
        obtain ⟨-, rfl⟩ := table?_eq_some ht
        exact heffect.stands_of_creation hcreation
      | false =>
        have hcreated : t.created = true := by rw [hc, hcreation]; rfl
        have hstands := (hr id' t.outline hlookup hcreated).concat
          (x := ⟨s, id', e, s', operations⟩)
        rwa [show t.outline.table = t.final from rfl, heffect.told] at hstands
    · next hid => exact (hr id' o' ho' hc').concat_idle (Or.inl fun heq => hid heq.symm)

theorem Recorded.takeDue {xs : List Change} (hr : s.Recorded xs) :
    (s.takeDue version).1.Recorded xs := by
  intro id o' ho' hc'
  rw [outline?_takeDue] at ho'
  obtain ⟨o, ho, rfl⟩ := Option.map_eq_some_iff.mp ho'
  exact hr id o ho hc'

/-- At the start no table has been created. -/
theorem recorded_start {h : SchemaHistory} (hs : start h = .ok s) : s.Recorded [] := by
  intro id o ho hc
  obtain ⟨t, ht, rfl⟩ := Option.map_eq_some_iff.mp ho
  obtain ⟨_, -, _, hblank⟩ := tables_start hs (table?_eq_some ht).1
  rw [hblank] at hc
  cases hc

/-- Before every change of a walk, the tables that have been created stand by the changes before. -/
theorem recorded_of_changes {w : Walk} (h : s.Sound) (hr : s.Recorded [])
    (hw : s.walk c versions = .ok w) {before after : List Change} {x : Change}
    (hsplit : changes c s versions = before ++ x :: after) : x.before.Recorded before := by
  have hall := changes_invariant
    (P := fun s xs => s.Sound ∧ s.Recorded xs ∧
      ∀ (before : List Change) (x : Change) (after : List Change),
        xs = before ++ x :: after → x.before.Recorded before)
    (fun s xs version hs => ⟨hs.1.takeDue, hs.2.1.takeDue, hs.2.2⟩)
    (fun version s xs e s' operations ⟨hs, hr, hxs⟩ he =>
      ⟨hs.edit he, hr.edit hs he, fun before x after heq => ?_⟩)
    h ⟨h, hr, fun before x after heq => absurd heq (by simp)⟩ hw
  · exact hall.2.2 before x after hsplit
  · rcases append_cons_eq_concat heq.symm with ⟨rfl, rfl, -⟩ | ⟨between, rfl, -⟩
    · exact hr
    · exact hxs before x between rfl

/-! ## Keys -/

theorem hasProperty_of_hasColumn {column : String} (h : t.hasColumn column = true) :
    t.final.HasProperty column := by
  obtain ⟨k, hk, rfl⟩ := List.mem_map.mp (LiveTable.hasColumn_iff.mp h)
  exact ⟨k.property, List.mem_map_of_mem hk, rfl⟩

theorem hasProperty_of_column? {column : String} {k : LiveColumn} (h : t.column? column = some k) :
    t.final.HasProperty column := by
  obtain ⟨hk, rfl⟩ := LiveTable.column?_eq_some h
  exact ⟨k.property, List.mem_map_of_mem hk, rfl⟩

theorem Effect.mentionsStanding {xs : List Change} (hr : s.Recorded xs)
    (ht : s.table? id = some t) (hc : t.created = !e.isCreation)
    (he : Effect c version s t e s' operations) :
    Change.MentionsStanding ⟨s, id, e, s', operations⟩ xs := by
  have hstands : ∀ id u, s.table? id = some u → u.created = true → Stands xs id u.final := by
    intro id u hu hc
    exact hr id u.outline (by rw [outline?, hu]; rfl) hc
  cases he with
  | addPrimaryKey h =>
    obtain ⟨-, -, hcolumns, _, -, -, rfl⟩ := addPrimaryKey_ok.mp h
    refine ⟨t.final, hstands id t ht hc, fun column hin => ?_, fun statement hin => ?_⟩
    · obtain ⟨k, hk, -⟩ := checkKeyColumns_ok.mp hcolumns column hin
      exact hasProperty_of_column? hk
    · rw [Change.statements, List.flatMap_singleton] at hin
      exact primaryKeyCreation_mem hin
  | addForeignKey h =>
    obtain ⟨own, target, _, hown, -, htarget, hcreated, hreferenced, -, -, rfl⟩ :=
      addForeignKey_ok.mp h
    refine ⟨t.final, target.final, hstands id t ht hc, hasProperty_of_column? hown,
      hstands _ target htarget hcreated, hasProperty_of_hasColumn hreferenced,
      fun statement hin => ?_⟩
    rw [Change.statements, List.flatMap_singleton] at hin
    exact foreignKeyCreation_mem hin
  | addIndex h =>
    obtain ⟨-, hcolumns, -, _, -, -, rfl⟩ := addIndex_ok.mp h
    refine ⟨t.final, hstands id t ht hc, fun column hin => ?_, fun statement hin => ?_⟩
    · exact hasProperty_of_hasColumn (hcolumns column hin)
    · rw [Change.statements, List.flatMap_singleton] at hin
      exact List.mem_singleton.mp hin
  | _ => trivial

/-- Every change of a walk that adds a key mentions only what stands before it. -/
theorem mentionsStanding_of_changes {w : Walk} (h : s.Sound) (hr : s.Recorded [])
    (hw : s.walk c versions = .ok w) {before after : List Change} {x : Change}
    (hsplit : changes c s versions = before ++ x :: after) : x.MentionsStanding before := by
  have hx : x ∈ changes c s versions := by rw [hsplit]; simp
  obtain ⟨version, -, he⟩ := edit_of_mem_changes hx
  rcases edit_ok he with ⟨-, -, hidle⟩ | ⟨t, ht, hc, heffect⟩
  · -- a key is not edited in a table that is not there
    have hnever : (∀ step : TableStep, x.edit ∉ step.tableEdits) → x.edit.isCreation = true := by
      intro hlater
      obtain ⟨-, t, ht, hc⟩ := later_of_mem_changes h hw hx hlater
      exact (hidle t ht).trans hc
    unfold Change.MentionsStanding
    split
    · next hk => simp [hk, TableStep.tableEdits, TableEdit.isCreation] at hnever
    · next hk => simp [hk, TableStep.tableEdits, TableEdit.isCreation] at hnever
    · next hk => simp [hk, TableStep.tableEdits, TableEdit.isCreation] at hnever
    · trivial
  · exact heffect.mentionsStanding (recorded_of_changes h hr hw hsplit) ht hc

end LiveSchema

namespace Changelog

open LiveSchema

variable {d : Dialect} {h : SchemaHistory} {log : Changelog}

/-- In every dialect, and whatever the order of the tables is, each primary key, each foreign key
and each index is added where the changelog has created the table before, under the name that is
used, with the columns that are listed; and a foreign key where the changelog has done so with the
table and the column that it refers to. What the changelog holds is the SQL of these statements. -/
theorem keys_mention_what_stands (hlog : ofHistory d h = .ok log) :
    ∃ (p : Plan) (start : LiveSchema), plan ⟨d, h⟩ = .ok p ∧ LiveSchema.start h = .ok start ∧
      log.entries.flatMap (fun e => e.queries.map (·.query))
        = ((p.items ⟨d, h⟩ start h.timeline).flatMap (·.statements)).map (Ddl.text d) ∧
      List.Forall₂ (Ddl.IsSql d) ((p.items ⟨d, h⟩ start h.timeline).flatMap (·.statements))
        (log.entries.flatMap fun e => e.queries.map (·.query)) ∧
      ∀ earlier x rest, p.items ⟨d, h⟩ start h.timeline = earlier ++ .change x :: rest →
        x.MentionsStanding (earlier.filterMap (·.change?)) := by
  obtain ⟨p, hp, rfl⟩ := Except.map_ok.mp hlog
  obtain ⟨start, hs, hw, -⟩ := plan_ok hp
  have hqueries := Plan.map_query_entries hs hw
  refine ⟨p, start, hp, hs, hqueries, Ddl.forall₂_isSql_iff.mpr hqueries,
    fun earlier x rest hsplit => ?_⟩
  have hchanges : changes ⟨d, h⟩ start h.timeline
      = earlier.filterMap (·.change?) ++ x :: rest.filterMap (·.change?) := by
    rw [← Plan.change?_items (p := p), hsplit, List.filterMap_append, List.filterMap_cons]
    rfl
  exact mentionsStanding_of_changes (sound_start hs) (recorded_start hs) hw hchanges

/-- A foreign key to a table that stands later in the document, and that gets another name and the
column referred to at the version of the key. -/
def creditedBooks : SchemaHistory where
  tables := [⟨"app.books", [⟨"1", some "books", [.add "author" { type := .text }], [], []⟩,
      ⟨"2", none, [], [.addForeignKey "books_author" "author" "app.authors" "code"], []⟩]⟩,
    ⟨"app.authors", [⟨"1", some "authors", [.add "name" { type := .text }], [], []⟩,
      ⟨"2", some "writers", [.add "code" { type := .text }], [], []⟩]⟩]
  enums := []

theorem keys_mention_what_stands_creditedBooks :
    ∃ (p : Plan) (start : LiveSchema), plan ⟨.postgres, creditedBooks⟩ = .ok p ∧
      LiveSchema.start creditedBooks = .ok start ∧
      ∃ earlier x, p.items ⟨.postgres, creditedBooks⟩ start creditedBooks.timeline
          = earlier ++ [.change x] ∧
        x.statements = [.addForeignKey "books" "books_author" "author" "writers" "code"] ∧
        ∃ target, Stands (earlier.filterMap (·.change?)) "app.authors" target ∧
          target.name = "writers" ∧ target.HasProperty "code" := by
  obtain ⟨log, hlog⟩ := Except.exists_of_isOk
    (show (ofHistory .postgres creditedBooks).isOk = true by decide)
  obtain ⟨p, start, hp, hs, -, -, hall⟩ := keys_mention_what_stands hlog
  have hitems : ∃ earlier x, p.items ⟨.postgres, creditedBooks⟩ start creditedBooks.timeline
      = earlier ++ [.change x] ∧
        x.edit = .constraint (.addForeignKey "books_author" "author" "app.authors" "code") ∧
        x.statements = [.addForeignKey "books" "books_author" "author" "writers" "code"] := by
    obtain rfl := Except.ok.inj (hs.symm.trans rfl)
    obtain rfl := Except.ok.inj (hp.symm.trans rfl)
    exact ⟨[_, _, _, _, _, _, _, _, _, _, _], _, rfl, rfl, rfl⟩
  obtain ⟨earlier, x, hitems, hedit, hstatements⟩ := hitems
  have hstanding := hall earlier x [] hitems
  rw [Change.MentionsStanding, hedit] at hstanding
  obtain ⟨t, target, -, -, htarget, hcode, hstatement⟩ := hstanding
  have heq := hstatement _ (hstatements ▸ List.mem_singleton.mpr rfl)
  obtain ⟨-, -, -, hname, -⟩ := Ddl.addForeignKey.inj heq
  exact ⟨p, start, hp, hs, earlier, x, hitems, hstatements, target, htarget, hname.symm, hcode⟩

end Changelog

end SchemaEvolution
