import SchemaEvolution.Proofs.Extension.Unwritten
import SchemaEvolution.Proofs.FinalTables
import SchemaEvolution.Proofs.Indices.Matching
import SchemaEvolution.Proofs.Sql

/-!
# Indices along a timeline

In SQLite a changelog only holds what is done about tables, in the order in which it is done. So the
indices that a database has at the end of a version are those that the changes up to it lead to, and
they are the indices of the keys that are complete and intact. A key that is complete need not be
intact.
-/

namespace SchemaEvolution

namespace Changelog

variable {h : SchemaHistory} {p : Plan} {version : String} {passed later : List String}
  {log : Changelog}

/-! ## What a changelog holds -/

/-- There are no functions in SQLite. -/
theorem functionOperations_sqlite {os : List Operation}
    (hos : functionOperations ⟨.sqlite, h⟩ = .ok os) : written os = [] := by
  rw [written_eq_nil]
  intro o ho
  obtain ⟨parts, hparts, hflat⟩ := Except.bind_ok.mp hos
  obtain rfl := Except.pure_ok.mp hflat
  obtain ⟨part, hpart, ho⟩ := List.mem_flatten.mp ho
  obtain ⟨f, -, hf⟩ := (Except.mem_of_mapM_ok hparts).mp hpart
  obtain ⟨step, -, hstep⟩ := (Except.mem_of_mapM_ok hf).mp ho
  obtain ⟨statements, hstatements, ho⟩ := Except.bind_ok.mp hstep
  obtain rfl := Except.pure_ok.mp ho
  exact (Except.ok.inj hstatements).symm

/-- The queries of a version are those for tables. -/
theorem queriesAt_sqlite
    (henums : p.walk.final.enums.operations .sqlite p.walk.usesAt = .ok p.enums)
    (hfunctions : functionOperations ⟨.sqlite, h⟩ = .ok p.functions) (hv : version ∈ h.timeline) :
    queriesAt (ofPlan ⟨.sqlite, h⟩ p).enumEntries version
        ++ queriesAt (ofPlan ⟨.sqlite, h⟩ p).functionEntries version
        ++ queriesAt (ofPlan ⟨.sqlite, h⟩ p).tableEntries version
      = queriesOf (describeAll .sqlite [] p.walk.operations).1 version := by
  have hwritten : written p.enums = [] :=
    (EnumRegistry.written_operationsFrom (EnumRegistry.operations_ok henums)).mpr
      fun _ _ => trivial
  have henumQueries : queriesAt (ofPlan ⟨.sqlite, h⟩ p).enumEntries version = [] :=
    (queriesAt_gather nodup_timeline hv).trans (queriesOf_of_written_eq_nil hwritten)
  have hfunctionQueries : queriesAt (ofPlan ⟨.sqlite, h⟩ p).functionEntries version = [] :=
    (queriesAt_gather nodup_timeline hv).trans
      (queriesOf_of_written_eq_nil (functionOperations_sqlite hfunctions))
  rw [henumQueries, hfunctionQueries]
  exact queriesAt_gather nodup_timeline hv

/-- The queries of a version are the statements of its changes. -/
theorem map_query_sqlite {s s' : LiveSchema} {edits : List (String × TableEdit)}
    {operations : List Operation}
    (henums : p.walk.final.enums.operations .sqlite p.walk.usesAt = .ok p.enums)
    (hfunctions : functionOperations ⟨.sqlite, h⟩ = .ok p.functions) (hv : version ∈ h.timeline)
    (hoperations : p.walk.operations.filter (·.version == version) = operations)
    (hscript : LiveSchema.forEach (LiveSchema.edit ⟨.sqlite, h⟩ version) s edits
      = .ok (s', operations)) :
    (queriesAt (ofPlan ⟨.sqlite, h⟩ p).enumEntries version
        ++ queriesAt (ofPlan ⟨.sqlite, h⟩ p).functionEntries version
        ++ queriesAt (ofPlan ⟨.sqlite, h⟩ p).tableEntries version).map (·.query)
      = ((LiveSchema.changesOf ⟨.sqlite, h⟩ version s edits).flatMap (·.statements)).map
          (Ddl.text .sqlite) := by
  rw [queriesAt_sqlite henums hfunctions hv, map_query_queriesOf, hoperations,
    ← LiveSchema.changesOf_operations hscript, List.flatMap_assoc]
  rfl

/-- The first entries of a changelog hold what is done at their versions, in order. -/
theorem entries_sqlite {start : LiveSchema} {w : LiveSchema.Walk}
    (hs : LiveSchema.start h = .ok start) (hw : start.walk ⟨.sqlite, h⟩ h.timeline = .ok p.walk)
    (henums : p.walk.final.enums.operations .sqlite p.walk.usesAt = .ok p.enums)
    (hfunctions : functionOperations ⟨.sqlite, h⟩ = .ok p.functions)
    (hsplit : h.timeline = passed ++ later) (hpassed : start.walk ⟨.sqlite, h⟩ passed = .ok w) :
    ((ofPlan ⟨.sqlite, h⟩ p).entries.take passed.length).flatMap (fun e => e.queries.map (·.query))
      = (w.operations.flatMap (·.statements)).map (Ddl.text .sqlite) := by
  have hsound := LiveSchema.sound_start hs
  have hn : (passed ++ later).Nodup := hsplit ▸ nodup_timeline
  -- what is done later is done at other versions
  obtain ⟨w', rest, hw', hrest, -, -, hoperations⟩ := LiveSchema.walk_split (hsplit ▸ hw)
  obtain rfl := Except.ok.inj (hpassed.symm.trans hw')
  have hhere : ∀ version ∈ passed, p.walk.operations.filter (·.version == version)
      = w.operations.filter (·.version == version) := by
    intro version hv
    have hnone : rest.operations.filter (·.version == version) = [] := by
      refine List.filter_eq_nil_iff.mpr fun o ho he => ?_
      obtain ⟨v, hvl, e, hev⟩ := LiveSchema.walk_accounts (hsound.walk hpassed) hrest o ho
      rw [beq_iff_eq, hev.version] at he
      exact (List.nodup_append.mp hn).2.2 version hv v hvl he.symm
    rw [hoperations, List.filter_append, hnone, List.append_nil]
  have hqueries : ∀ version ∈ passed,
      (queriesAt (ofPlan ⟨.sqlite, h⟩ p).enumEntries version
        ++ queriesAt (ofPlan ⟨.sqlite, h⟩ p).functionEntries version
        ++ queriesAt (ofPlan ⟨.sqlite, h⟩ p).tableEntries version).map (·.query)
      = ((w.operations.filter (·.version == version)).flatMap (·.statements)).map
          (Ddl.text .sqlite) := by
    intro version hv
    rw [queriesAt_sqlite henums hfunctions (hsplit ▸ List.mem_append_left _ hv),
      map_query_queriesOf, hhere version hv]
  rw [map_query_take_entries hsplit, List.flatMap_congr hqueries, ← List.map_flatMap,
    ← List.flatMap_assoc, LiveSchema.walk_byVersion hsound (List.nodup_append.mp hn).1 hpassed]

/-! ## The indices of every version -/

/-- At the end of every version an SQLite database has the indices of exactly those indexed keys
that are complete and intact. The statements that lead there are those whose SQL the changelog
holds. -/
theorem sqlite_indices_match (hlog : ofHistory .sqlite h = .ok log)
    (hsplit : h.timeline = passed ++ later) :
    ∃ start w, LiveSchema.start h = .ok start ∧ start.walk ⟨.sqlite, h⟩ passed = .ok w ∧
      (log.entries.take passed.length).flatMap (fun e => e.queries.map (·.query))
        = (start.changes ⟨.sqlite, h⟩ passed).flatMap
          (fun x => x.statements.map (Ddl.text .sqlite)) ∧
      List.Forall₂ (Ddl.IsSql .sqlite)
        ((start.changes ⟨.sqlite, h⟩ passed).flatMap (·.statements))
        ((log.entries.take passed.length).flatMap fun e => e.queries.map (·.query)) ∧
      ∀ name, name ∈ (catalog (start.changes ⟨.sqlite, h⟩ passed)).map (·.1) ↔
        ∃ t ∈ w.final.tables, ∃ k ∈ t.indexed, k.name = name ∧ k.isComplete t.columns = true ∧
          Intact (start.changes ⟨.sqlite, h⟩ passed) name := by
  obtain ⟨start, p, hs, hw, -, henums, hfunctions, rfl⟩ := ofHistory_ok hlog
  obtain ⟨w, -, hpassed, -⟩ := LiveSchema.walk_split (hsplit ▸ hw)
  have hqueries : ((ofPlan ⟨.sqlite, h⟩ p).entries.take passed.length).flatMap
      (fun e => e.queries.map (·.query))
        = ((start.changes ⟨.sqlite, h⟩ passed).flatMap (·.statements)).map (Ddl.text .sqlite) := by
    rw [entries_sqlite hs hw henums hfunctions hsplit hpassed,
      ← LiveSchema.changes_operations (LiveSchema.sound_start hs) hpassed, List.flatMap_assoc]
    rfl
  refine ⟨start, w, hs, hpassed, hqueries.trans (List.map_flatMap ..),
    Ddl.forall₂_isSql_iff.mpr hqueries, fun name => ?_⟩
  have hmatched := LiveSchema.matched_walk hs hpassed
  constructor
  · -- an index is one of some table, and the table knows it
    intro hname
    obtain ⟨⟨name, id⟩, hin, rfl⟩ := List.mem_map.mp hname
    obtain ⟨t, ht, rfl⟩ := List.mem_map.mp (hmatched.ids _ hin)
    have htable := hmatched.tables t ht
    obtain ⟨hintact, k, hk, rfl⟩ := htable.known name hin
    exact ⟨t, ht, k, (htable.present k hk hintact).mp hin, rfl, htable.complete k hk hintact,
      hintact⟩
  · rintro ⟨t, ht, k, hk, rfl, -, hintact⟩
    have hkeys := LiveTable.mem_keys_of_indexed hk
    have hin := ((hmatched.tables t ht).present k hkeys hintact).mpr hk
    exact List.mem_map_of_mem hin

/-- A table with a serial key and an index, the first of which gets another type. -/
def retypedBooks : SchemaHistory where
  tables := [⟨"books",
    [⟨"1", some "books", [.add "id" { type := .serial }, .add "title" { type := .text }],
        [.addPrimaryKey "books_key" ["id"]], [.add .plain "books_title" ["title"]]⟩,
      ⟨"2", none, [.retype "id" { type := .bigInt }], [], []⟩]⟩]

theorem sqlite_indices_match_retypedBooks :
    ∃ start w, LiveSchema.start retypedBooks = .ok start ∧
      start.walk ⟨.sqlite, retypedBooks⟩ ["1", "2"] = .ok w ∧
      ∀ name ∈ ["books_key", "books_title"],
        ∃ t ∈ w.final.tables, ∃ k ∈ t.indexed, k.name = name ∧ k.isComplete t.columns = true ∧
          Intact (start.changes ⟨.sqlite, retypedBooks⟩ ["1", "2"]) name := by
  obtain ⟨log, hlog⟩ := Except.exists_of_isOk
    (show (ofHistory .sqlite retypedBooks).isOk = true by decide)
  have hsplit : retypedBooks.timeline = ["1", "2"] ++ [] := by decide
  obtain ⟨start, w, hs, hw, -, -, hindices⟩ := sqlite_indices_match hlog hsplit
  refine ⟨start, w, hs, hw, fun name hname => (hindices name).mp ?_⟩
  obtain rfl := Except.ok.inj (hs.symm.trans rfl)
  revert name
  decide

/-! ## Columns that return -/

/-- A table with an index on a column that is removed and added again. -/
def returningColumn : SchemaHistory where
  tables := [⟨"a", [⟨"1", some "a", [.add "x" { type := .text }, .add "y" { type := .text }], [],
      [.add .plain "i" ["x"]]⟩,
    ⟨"2", none, [.remove "x"], [], []⟩, ⟨"3", none, [.add "x" { type := .text }], [], []⟩]⟩]

/-- The index goes with the column, and does not come back with it. -/
theorem returning_column_has_no_index :
    (ofHistory .sqlite returningColumn).isOk = true ∧
      ∃ start w, LiveSchema.start returningColumn = .ok start ∧
        start.walk ⟨.sqlite, returningColumn⟩ returningColumn.timeline = .ok w ∧
        (∃ t ∈ w.final.tables, ∃ k ∈ t.indices, k.name = "i" ∧ k.isComplete t.columns = true) ∧
        "i" ∉ (catalog (start.changes ⟨.sqlite, returningColumn⟩ returningColumn.timeline)).map
          (·.1) :=
  ⟨by decide, _, _, rfl, rfl, ⟨_, List.mem_singleton_self _, _, List.mem_singleton_self _, rfl,
    rfl⟩, by decide⟩

end Changelog

end SchemaEvolution
