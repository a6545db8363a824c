import SchemaEvolution.Proofs.Indices.Rebuilt
import SchemaEvolution.Proofs.Names.Current

/-!
# Tables under a name for the time being

Before SQLite puts a table that is built anew in the place of the old one, the new one stands under
a name made from the current name of the table. Nobody checks whether that name is free, and the
names of tables are never compared with each other. So what stands in the way is told by the
histories: another table that has been given just that name last.
-/

namespace SchemaEvolution

theorem Ddl.staging_of_mem_rebuilding {table staging : String} {ps : List Property}
    {texts declarations : List String} {key : Option IndexShape} {indices : List IndexShape}
    (h : .createTable staging declarations ∈ rebuilding table ps texts key indices) :
    staging = table ++ "_rebuild" := by
  simp only [rebuilding, List.mem_append, List.mem_map, List.mem_cons, reduceCtorEq, and_false,
    exists_false, or_false, List.not_mem_nil, createTable.injEq] at h
  exact h.1

namespace LiveSchema

variable {h : SchemaHistory} {version id name : String} {shape : ColumnShape}
  {s s' : LiveSchema} {operations : List Operation}

/-- The table that a retyping creates goes by a name made from the current name of the table. -/
theorem staging_of_retype (hdeclared : s.Declared .sqlite)
    (he : s.edit ⟨.sqlite, h⟩ version (id, .property (.retype name shape)) = .ok (s', operations))
    {staging : String} {texts : List String}
    (hcreate : .createTable staging texts ∈ operations.flatMap (·.statements)) :
    ∃ current, s.name? id = some current ∧ staging = current ++ "_rebuild" := by
  have hdone : operations ≠ [] := fun hnone => by simp [hnone] at hcreate
  obtain ⟨t, ht, hname⟩ := table?_of_property he hdone
  obtain ⟨u, old, hu, -, ⟨-, hnone⟩ | ⟨-, ps, texts, -, -, hstatements⟩⟩ :=
    retype_sqlite hdeclared he hdone EnumScope.empty
  · rw [hnone] at hcreate
    cases hcreate
  · obtain rfl := Option.some.inj (ht.symm.trans hu)
    rw [hstatements] at hcreate
    exact ⟨t.name, hname, Ddl.staging_of_mem_rebuilding hcreate⟩

end LiveSchema

namespace Changelog

open LiveSchema

variable {h : SchemaHistory} {log : Changelog} {version : String} {passed later : List String}

/-- What stands in an SQLite changelog at a version is the SQL of what its changes do. Whenever a
retyping has SQLite build a table anew, the new table is created under the current name of the table
with `_rebuild` behind it. A table that has been created goes by that name already exactly if
another table has been given it last by then. -/
theorem sqlite_staging_name_taken (hlog : ofHistory .sqlite h = .ok log)
    (hsplit : h.timeline = passed ++ version :: later) :
    ∃ start w, LiveSchema.start h = .ok start ∧ start.walk ⟨.sqlite, h⟩ passed = .ok w ∧
      ∃ xs, xs = changesOf ⟨.sqlite, h⟩ version (w.final.takeDue version).1
          (script (w.final.takeDue version).2) ∧
        (queriesAt log.enumEntries version ++ queriesAt log.functionEntries version
            ++ queriesAt log.tableEntries version).map (·.query)
          = (xs.flatMap (·.statements)).map (Ddl.text .sqlite) ∧
        List.Forall₂ (Ddl.IsSql .sqlite) (xs.flatMap (·.statements))
          ((queriesAt log.enumEntries version ++ queriesAt log.functionEntries version
            ++ queriesAt log.tableEntries version).map (·.query)) ∧
        ∀ x ∈ xs, ∀ name shape, x.edit = .property (.retype name shape) →
          ∀ staging texts, .createTable staging texts ∈ x.statements →
            ∃ current, x.before.name? x.id = some current ∧
              h.nameDuring? version x.id x.id = some current ∧
              staging = current ++ "_rebuild" ∧
              (staging ∈ x.before.currentNames ↔
                ∃ id, id ≠ x.id ∧ h.nameDuring? version x.id id = some staging) := by
  obtain ⟨start, p, hs, hw, -, henums, hfunctions, rfl⟩ := ofHistory_ok hlog
  have hsound := sound_start hs
  obtain ⟨w, s', operations, hpassed, hadvance, hoperations, -⟩ :=
    walk_at_version hsound (hsplit ▸ nodup_timeline) (hsplit ▸ hw)
  have hscript := advance_script (hsound.walk hpassed) hadvance
  have hv : version ∈ h.timeline := hsplit ▸ List.mem_append_right _ List.mem_cons_self
  have hqueries := map_query_sqlite henums hfunctions hv hoperations hscript
  refine ⟨start, w, hs, hpassed, _, rfl, hqueries, Ddl.forall₂_isSql_iff.mpr hqueries,
    fun x hx name shape hedit staging texts hcreate => ?_⟩
  obtain ⟨hbefore, hdeclared⟩ : x.before.Sound ∧ x.before.Declared .sqlite :=
    before_of_mem_changesOf (Q := fun s => s.Sound ∧ s.Declared .sqlite)
      (fun _ _ _ _ hs he => ⟨hs.1.edit he, Declared.edit (c := ⟨.sqlite, h⟩) hs.2 he⟩)
      ⟨(hsound.walk hpassed).takeDue,
        (Declared.walk (c := ⟨.sqlite, h⟩) (declared_start hs) hsound hpassed).takeDue⟩
      hscript hx
  have hmade := (edit_of_mem_changesOf hx).2
  rw [hedit] at hmade
  have hdone : x.operations ≠ [] := fun hnone => by simp [Change.statements, hnone] at hcreate
  have hnames := name?_before_property hs (walk_ok hpassed) hsplit hadvance hx hedit hdone
  obtain ⟨current, hcurrent, rfl⟩ := staging_of_retype hdeclared hmade hcreate
  refine ⟨current, hcurrent, (hnames x.id).symm.trans hcurrent, rfl, ?_⟩
  rw [mem_currentNames hbefore.distinct]
  refine exists_congr fun id => ?_
  rw [hnames id]
  refine (and_iff_right_of_imp ?_).symm
  rintro hid rfl
  -- the name of the table itself is shorter
  rw [← hnames, hcurrent, Option.some.injEq] at hid
  simpa using congrArg String.length hid

/-- A table with a copy of it, whose name is that of the table with `_rebuild` behind it. -/
def copiedNotes : SchemaHistory where
  tables := [⟨"notes", [⟨"1", some "notes", [.add "text" { type := .text }], [], []⟩,
      ⟨"2", none, [.retype "text" { type := .integer }], [], []⟩]⟩,
    ⟨"copies", [⟨"1", some "notes_rebuild", [.add "text" { type := .text }], [], []⟩]⟩]

/-- The copy stands in the way when the table is built anew. -/
theorem sqlite_staging_name_taken_copiedNotes :
    ∃ start w, LiveSchema.start copiedNotes = .ok start ∧
      start.walk ⟨.sqlite, copiedNotes⟩ ["1"] = .ok w ∧
      ∃ x ∈ changesOf ⟨.sqlite, copiedNotes⟩ "2" (w.final.takeDue "2").1
          (script (w.final.takeDue "2").2),
        ∃ staging texts, .createTable staging texts ∈ x.statements ∧
          staging = "notes_rebuild" ∧ staging ∈ x.before.currentNames := by
  obtain ⟨log, hlog⟩ := Except.exists_of_isOk
    (show (ofHistory .sqlite copiedNotes).isOk = true by decide)
  have hsplit : copiedNotes.timeline = ["1"] ++ "2" :: [] := by decide
  obtain ⟨start, w, hs, hw, xs, rfl, -, -, hxs⟩ := sqlite_staging_name_taken hlog hsplit
  obtain ⟨x, hx, hedit, hid, hcreate⟩ : ∃ x ∈ changesOf ⟨.sqlite, copiedNotes⟩ "2"
      (w.final.takeDue "2").1 (script (w.final.takeDue "2").2),
      x.edit = .property (.retype "text" { type := .integer }) ∧ x.id = "notes" ∧
        .createTable "notes_rebuild" ["\"text\" INTEGER NOT NULL"] ∈ x.statements := by
    obtain rfl := Except.ok.inj (hs.symm.trans rfl)
    obtain rfl := Except.ok.inj (hw.symm.trans rfl)
    decide
  obtain ⟨-, -, -, -, hiff⟩ := hxs x hx _ _ hedit _ _ hcreate
  refine ⟨start, w, hs, hw, x, hx, _, _, hcreate, rfl, hiff.mpr ⟨"copies", ?_, ?_⟩⟩
  · rw [hid]
    decide
  · rw [hid]
    decide

/-- Tables that go by different names at every moment may still stand in each other's way. -/
theorem staging_name_not_free :
    ∃ log start, ofHistory .sqlite copiedNotes = .ok log ∧
      LiveSchema.start copiedNotes = .ok start ∧
      (∀ x ∈ start.changes ⟨.sqlite, copiedNotes⟩ copiedNotes.timeline,
        x.before.currentNames.Nodup ∧ x.after.currentNames.Nodup) ∧
      ∃ x ∈ start.changes ⟨.sqlite, copiedNotes⟩ copiedNotes.timeline,
        ∃ name shape staging texts, x.edit = .property (.retype name shape) ∧
          .createTable staging texts ∈ x.statements ∧ staging ∈ x.before.currentNames := by
  obtain ⟨log, hlog⟩ := Except.exists_of_isOk
    (show (ofHistory .sqlite copiedNotes).isOk = true by decide)
  obtain ⟨start, hs⟩ := Except.exists_of_isOk
    (show (LiveSchema.start copiedNotes).isOk = true by decide)
  obtain ⟨hnodup, x, hx, hedit, hcreate, htaken⟩ :
      (∀ x ∈ start.changes ⟨.sqlite, copiedNotes⟩ copiedNotes.timeline,
        x.before.currentNames.Nodup ∧ x.after.currentNames.Nodup) ∧
      ∃ x ∈ start.changes ⟨.sqlite, copiedNotes⟩ copiedNotes.timeline,
        x.edit = .property (.retype "text" { type := .integer }) ∧
          .createTable "notes_rebuild" ["\"text\" INTEGER NOT NULL"] ∈ x.statements ∧
          "notes_rebuild" ∈ x.before.currentNames := by
    obtain rfl := Except.ok.inj (hs.symm.trans rfl)
    decide
  exact ⟨log, start, hlog, hs, hnodup, x, hx, _, _, _, _, hedit, hcreate, htaken⟩

end Changelog

end SchemaEvolution
