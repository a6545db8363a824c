import SchemaEvolution.Proofs.Indices.Sqlite

/-!
# Tables that are built anew

When SQLite builds a table anew it copies the declarations that stand in the table, which were
written at earlier versions, maybe under other names. They never are out of date: a declaration says
what the property of its column says, whatever the enums were when it was written. So a retyping
leads to the table that its properties describe, with the keys that it has at that moment.
-/

namespace SchemaEvolution

/-! ## Declarations in SQLite -/

namespace Dialect

variable {p : Property} {enums enums' : EnumScope}

/-- SQLite has no enums, so it does not matter to a declaration what they are. -/
theorem declaration_sqlite : declaration .sqlite p enums = declaration .sqlite p enums' := by
  have htype : typeName .sqlite p.name p.shape.type enums
      = typeName .sqlite p.name p.shape.type enums' := by
    cases p.shape.type <;> rfl
  rw [declaration, htype, declaration]

theorem declaration_of_isDeclared {k : LiveColumn} (h : k.IsDeclared .sqlite) :
    declaration .sqlite k.property enums = .ok k.declaration := by
  obtain ⟨enums', h⟩ := h
  exact declaration_sqlite.trans h

/-- The declarations that stand in a table are those of its properties. -/
theorem mapM_declaration {columns : List LiveColumn} (h : ∀ k ∈ columns, k.IsDeclared .sqlite) :
    (columns.map (·.property)).mapM (declaration .sqlite · enums)
      = .ok (columns.map (·.declaration)) := by
  induction columns with
  | nil => rfl
  | cons k columns ih =>
    rw [List.forall_mem_cons] at h
    rw [List.map_cons, Except.mapM_cons_ok]
    exact ⟨_, _, declaration_of_isDeclared h.1, ih h.2, rfl⟩

end Dialect

/-! ## What a table is built from -/

namespace Property

/-- Whether there is a property for each column of a key. -/
def cover (ps : List Property) (key : List String) : Bool :=
  key.all fun column => ps.any (·.name == column)

/-- Whether the columns of a key are exactly one serial column. -/
def areOneSerial (ps : List Property) (key : List String) : Bool :=
  match key with
  | [column] => ps.any fun p => p.name == column && p.isSerial
  | _ => false

variable {columns : List LiveColumn}

theorem cover_map {k : IndexShape} :
    cover (columns.map (·.property)) k.columns = k.isComplete columns := by
  simp only [cover, IndexShape.isComplete, List.any_map]
  rfl

theorem areOneSerial_map {key : List String} :
    areOneSerial (columns.map (·.property)) key = isOneSerial key columns := by
  match key with
  | [] | _ :: _ :: _ => rfl
  | [column] =>
    rw [areOneSerial, List.any_map]
    rfl

end Property

/-- The statements that build a table with these columns, declared by these texts, in the place of
the table that is there, and create its keys again as far as they have all their columns. -/
def Ddl.rebuilding (table : String) (ps : List Property) (texts : List String)
    (key : Option IndexShape) (indices : List IndexShape) : List Ddl :=
  [.createTable (table ++ "_rebuild") texts,
      .copyRows table (table ++ "_rebuild") (ps.map (·.name)),
      .dropTable table, .renameTable (table ++ "_rebuild") table]
    ++ (key.toList.filter fun k => Property.cover ps k.columns
        && !Property.areOneSerial ps k.columns).map
      (fun k => .createIndex true table k.name k.columns)
    ++ (indices.filter fun i => Property.cover ps i.columns).map
      (fun i => .createIndex i.unique table i.name i.columns)

theorem Dialect.rebuild_eq_rebuilding {t : LiveTable} :
    rebuild .sqlite t.shape = Ddl.rebuilding t.name (t.columns.map (·.property))
      (t.columns.map (·.declaration)) t.primaryKey? t.indices := by
  have hkey : creations t ((t.primaryKey?.toList.filter
      fun k => !isOneSerial k.columns t.columns).filter (·.isComplete t.columns))
      = (t.primaryKey?.toList.filter fun k => Property.cover (t.columns.map (·.property)) k.columns
          && !Property.areOneSerial (t.columns.map (·.property)) k.columns).map
        fun k => .createIndex true t.name k.name k.columns := by
    simp only [List.filter_filter, Property.cover_map, Property.areOneSerial_map]
    refine List.map_congr_left fun k hk => ?_
    have hunique := (LiveTable.mem_of_primaryKey?
      (Option.mem_toList.mp (List.mem_filter.mp hk).1)).2
    rw [hunique]
  rw [rebuild_sqlite, LiveTable.indexed, List.filter_append, creations, List.map_append,
    ← creations, hkey, Ddl.rebuilding, ← List.append_assoc]
  simp only [Property.cover_map, List.map_map]
  rfl

/-! ## Retypings -/

namespace LiveSchema

variable {h : SchemaHistory} {version id name : String} {shape : ColumnShape}
  {s s' : LiveSchema} {operations : List Operation}

/-- What a retyping does: nothing if the column is declared as before, else it builds the table anew
from the properties that it has now. -/
theorem retype_sqlite (hdeclared : s.Declared .sqlite)
    (he : s.edit ⟨.sqlite, h⟩ version (id, .property (.retype name shape))
      = .ok (s', operations)) (hdone : operations ≠ []) (enums : EnumScope) :
    ∃ t old, s.table? id = some t ∧ t.column? name = some old ∧
      ((Dialect.declaration .sqlite ⟨name, shape⟩ enums
            = Dialect.declaration .sqlite old.property enums ∧
          operations.flatMap (·.statements) = []) ∨
        (Dialect.declaration .sqlite ⟨name, shape⟩ enums
            ≠ Dialect.declaration .sqlite old.property enums ∧
          ∃ ps texts, ps = PropertyEdit.apply (t.columns.map (·.property)) (.retype name shape) ∧
            ps.mapM (Dialect.declaration .sqlite · enums) = .ok texts ∧
            operations.flatMap (·.statements)
              = Ddl.rebuilding t.name ps texts t.primaryKey? t.indices)) := by
  obtain ⟨-, hnone, -⟩ | ⟨t, ht, -, he⟩ := edit_ok he
  · exact absurd hnone hdone
  cases he with
  | retypeProperty he =>
    obtain ⟨old, after, s₁, statements, hold, -, -, hd, hss, -, rfl⟩ := retypeProperty_ok.mp he
    have hbefore : old.IsDeclared .sqlite :=
      hdeclared t (table?_eq_some ht).1 old (LiveTable.column?_eq_some hold).1
    have hredeclare := (declare_ok.mp hd).2
    have hafter : after.IsDeclared .sqlite := redeclare_isDeclared hredeclare
    have hproperty : after.property = ⟨name, shape⟩ := (redeclare_ok hredeclare).1
    have hsame : old.declaration = after.declaration ↔
        Dialect.declaration .sqlite ⟨name, shape⟩ enums
          = Dialect.declaration .sqlite old.property enums := by
      rw [← hproperty, Dialect.declaration_of_isDeclared hafter,
        Dialect.declaration_of_isDeclared hbefore, Except.ok.injEq, eq_comm]
    have hcolumns : ∀ k ∈ (t.setColumn name after).columns, k.IsDeclared .sqlite := by
      intro k hk
      rcases LiveTable.mem_setColumn hk with rfl | ⟨hk, -⟩
      · exact hafter
      · exact hdeclared t (table?_eq_some ht).1 k hk
    refine ⟨t, old, ht, hold, ?_⟩
    simp only [Dialect.columnRetyping, Except.ok.injEq] at hss
    rw [List.flatMap_singleton, ← hss]
    by_cases hdecl : old.declaration = after.declaration
    · exact .inl ⟨hsame.mp hdecl, if_pos hdecl⟩
    · refine .inr ⟨mt hsame.mpr hdecl, _, _, properties_retyped hproperty,
        Dialect.mapM_declaration hcolumns, ?_⟩
      rw [if_neg hdecl, Dialect.rebuild_eq_rebuilding]
      rfl

end LiveSchema

namespace Changelog

open LiveSchema

variable {h : SchemaHistory} {log : Changelog} {version : String} {passed later : List String}

/-- What stands in an SQLite changelog at a version is the SQL of what its changes do, and each
retyping among them leads to the table that its properties describe: it does nothing if the column
is declared as before; else it builds the table anew with all its columns, each as its property
declares it now, copies the rows column by column, and creates the keys again that have all their
columns. -/
theorem sqlite_rebuilds_current_table (hlog : ofHistory .sqlite h = .ok log)
    (hsplit : h.timeline = passed ++ version :: later) :
    ∃ start w, LiveSchema.start h = .ok start ∧ start.walk ⟨.sqlite, h⟩ passed = .ok w ∧
      ∃ xs, xs = changesOf ⟨.sqlite, h⟩ version (w.final.takeDue version).1
          (script (w.final.takeDue version).2) ∧
        (queriesAt log.enumEntries version ++ queriesAt log.functionEntries version
            ++ queriesAt log.tableEntries version).map (·.query)
          = (xs.flatMap (·.statements)).map (Ddl.text .sqlite) ∧
        List.Forall₂ (Ddl.IsSql .sqlite) (xs.flatMap (·.statements))
          ((queriesAt log.enumEntries version ++ queriesAt log.functionEntries version
            ++ queriesAt log.tableEntries version).map (·.query)) ∧
        ∀ x ∈ xs, ∀ name shape, x.edit = .property (.retype name shape) → x.operations ≠ [] →
          ∀ enums : EnumScope,
            ∃ t old, x.before.table? x.id = some t ∧ t.column? name = some old ∧
              ((Dialect.declaration .sqlite ⟨name, shape⟩ enums
                    = Dialect.declaration .sqlite old.property enums ∧
                  x.statements = []) ∨
                (Dialect.declaration .sqlite ⟨name, shape⟩ enums
                    ≠ Dialect.declaration .sqlite old.property enums ∧
                  ∃ ps texts,
                    ps = PropertyEdit.apply (t.columns.map (·.property)) (.retype name shape) ∧
                    ps.mapM (Dialect.declaration .sqlite · enums) = .ok texts ∧
                    x.statements
                      = Ddl.rebuilding t.name ps texts t.primaryKey? t.indices)) := by
  obtain ⟨start, p, hs, hw, -, henums, hfunctions, rfl⟩ := ofHistory_ok hlog
  have hsound := sound_start hs
  obtain ⟨w, s', operations, hpassed, hadvance, hoperations, -⟩ :=
    walk_at_version hsound (hsplit ▸ nodup_timeline) (hsplit ▸ hw)
  have hscript := advance_script (hsound.walk hpassed) hadvance
  have hv : version ∈ h.timeline := hsplit ▸ List.mem_append_right _ List.mem_cons_self
  have hqueries := map_query_sqlite henums hfunctions hv hoperations hscript
  refine ⟨start, w, hs, hpassed, _, rfl, hqueries, Ddl.forall₂_isSql_iff.mpr hqueries,
    fun x hx name shape hedit hdone enums => ?_⟩
  have hdeclared : x.before.Declared .sqlite :=
    before_of_mem_changesOf (Q := fun s => s.Declared .sqlite)
      (fun _ _ _ _ hs he => Declared.edit (c := ⟨.sqlite, h⟩) hs he)
      (Declared.walk (c := ⟨.sqlite, h⟩) (declared_start hs) hsound hpassed).takeDue hscript hx
  have he := (edit_of_mem_changesOf hx).2
  rw [hedit] at he
  exact retype_sqlite hdeclared he hdone enums

/-- A table that is renamed together with a column, before another column gets a type that SQLite
tells from the old one. -/
def shelvedBooks : SchemaHistory where
  tables := [⟨"books",
    [⟨"1", some "books", [.add "id" { type := .serial }, .add "title" { type := .text }],
        [.addPrimaryKey "books_key" ["id"]], [.add .plain "by_title" ["title"]]⟩,
      ⟨"2", some "shelf", [.rename "title" "heading", .retype "heading" { type := .varchar 80 },
        .retype "id" { type := .bigInt }], [], []⟩]⟩]

/-- The table is built anew under its new name, with what its properties say at that moment. -/
theorem sqlite_rebuilds_current_table_shelvedBooks :
    ∃ start w, LiveSchema.start shelvedBooks = .ok start ∧
      start.walk ⟨.sqlite, shelvedBooks⟩ ["1"] = .ok w ∧
      ∃ x ∈ changesOf ⟨.sqlite, shelvedBooks⟩ "2" (w.final.takeDue "2").1
          (script (w.final.takeDue "2").2),
        ∃ t ps texts, x.before.table? x.id = some t ∧
          ps = PropertyEdit.apply (t.columns.map (·.property)) (.retype "id" { type := .bigInt }) ∧
          ps.mapM (Dialect.declaration .sqlite · EnumScope.empty) = .ok texts ∧
          x.statements = Ddl.rebuilding t.name ps texts t.primaryKey? t.indices := by
  obtain ⟨log, hlog⟩ := Except.exists_of_isOk
    (show (ofHistory .sqlite shelvedBooks).isOk = true by decide)
  have hsplit : shelvedBooks.timeline = ["1"] ++ "2" :: [] := by decide
  obtain ⟨start, w, hs, hw, xs, rfl, -, -, hxs⟩ := sqlite_rebuilds_current_table hlog hsplit
  obtain ⟨x, hx, hedit, hdone, hwritten⟩ : ∃ x ∈ changesOf ⟨.sqlite, shelvedBooks⟩ "2"
      (w.final.takeDue "2").1 (script (w.final.takeDue "2").2),
      x.edit = .property (.retype "id" { type := .bigInt }) ∧ x.operations ≠ [] ∧
        x.statements ≠ [] := by
    obtain rfl := Except.ok.inj (hs.symm.trans rfl)
    obtain rfl := Except.ok.inj (hw.symm.trans rfl)
    decide
  obtain ⟨t, old, ht, -, ⟨-, hnone⟩ | ⟨-, ps, texts, hps, htexts, hstatements⟩⟩ :=
    hxs x hx _ _ hedit hdone EnumScope.empty
  · exact absurd hnone hwritten
  · exact ⟨_, _, hs, hw, x, hx, t, ps, texts, ht, hps, htexts, hstatements⟩

end Changelog

end SchemaEvolution
