import SchemaEvolution.Proofs.Dialects.Lockstep
import SchemaEvolution.Proofs.Dialects.Operations

/-!
# The dialect decides how, not what

Which versions there are and what the tables are in the end follows from the history alone. A
dialect has a say in whether there is a changelog at all, but a small one: what MySQL accepts SQLite
accepts too, and without arrays MySQL accepts what PostgreSQL accepts.
-/

namespace SchemaEvolution

/-- What a table is after all steps of its history. -/
def TableHistory.final? (t : TableHistory) : Option FinalTable :=
  (t.steps.filterMap (·.name)).getLast?.map fun name =>
    ⟨name, (t.steps.flatMap (·.properties)).foldl PropertyEdit.apply []⟩

/-- All types in a history: of columns, and of parameters and results of functions. -/
def SchemaHistory.types (h : SchemaHistory) : List ColumnType :=
  h.tables.flatMap (·.steps.flatMap (·.types)) ++ h.functions.flatMap (·.steps.flatMap (·.types))

namespace Changelog

variable {d d' : Dialect} {h : SchemaHistory} {log log' : Changelog}
  {allowed : ColumnType → Prop}

/-! ## Versions and tables -/

theorem versions_eq_timeline (hlog : ofHistory d h = .ok log) : log.versions = h.timeline := by
  obtain ⟨start, p, -, -, -, -, -, rfl⟩ := ofHistory_ok hlog
  rfl

/-- What a changelog says of a table can be read off the history, without regard to the dialect. -/
theorem get?_tables_eq_final? (hlog : ofHistory d h = .ok log) (id : String) :
    log.tables.get? id = (h.table? id).bind (·.final?) := by
  obtain ⟨start, p, hs, hw, -, -, -, rfl⟩ := ofHistory_ok hlog
  have hsound := LiveSchema.sound_start hs
  have hwalk := LiveSchema.walk_ok hw
  rw [get?_tables (hsound.walk hw)]
  cases ht : h.table? id with
  | none =>
    have hstart := LiveSchema.table?_start hs id
    rw [ht] at hstart
    rw [LiveSchema.outline?_walk_eq_none hsound hwalk (by rw [LiveSchema.outline?, hstart]; rfl)]
    rfl
  | some t =>
    obtain rfl : t.id = id := by simpa using List.find?_some ht
    obtain ⟨-, o, ho, -, hname, hproperties⟩ := outline?_final hs hwalk ht
    rw [ho, Option.bind_some, TableHistory.final?, hname, ← hproperties]
    rfl

/-! ## Acceptance -/

/-- A dialect that accepts all types of a history as another one does has a changelog if the other
one has one. -/
theorem ofHistory_carried (hd : d.Accepts d' allowed) (hallowed : ∀ type ∈ h.types, allowed type)
    (hlog : ofHistory d h = .ok log) : ∃ log', ofHistory d' h = .ok log' := by
  obtain ⟨start, p, hs, hw, hserials, -, hfunctions, -⟩ := ofHistory_ok hlog
  have hsound := LiveSchema.sound_start hs
  have hdeclared : ∀ d, start.Declared d := fun _ => LiveSchema.declared_start hs
  have hc : Setting.Accepts ⟨d, h⟩ ⟨d', h⟩ allowed := ⟨hd, rfl⟩
  rw [SchemaHistory.types, List.forall_mem_append] at hallowed
  -- every step that is taken is a step of some table in the history
  have htaken : ∀ x ∈ start.taken ⟨d, h⟩ h.timeline, ∀ type ∈ x.2.2.types, allowed type := by
    intro x hx type htype
    obtain ⟨o, ho, hstep⟩ := LiveSchema.mem_taken hsound hx
    obtain ⟨u, hu, rfl⟩ := Option.map_eq_some_iff.mp ho
    obtain ⟨t, ht, name, heq⟩ := LiveSchema.tables_start hs (LiveSchema.table?_eq_some hu).1
    rw [heq] at hstep
    exact hallowed.1 type (List.mem_flatMap.mpr
      ⟨t, List.mem_of_find?_eq_some ht, List.mem_flatMap.mpr ⟨x.2.2, hstep, htype⟩⟩)
  obtain ⟨w, hw', hfinal⟩ :=
    LiveSchema.walk_carried hc ⟨rfl, hdeclared d'⟩ htaken hw
  have hserials' : checkSerials w.final.tables = .ok () := by
    have htables : w.final.tables.map (·.bare) = p.walk.final.tables.map (·.bare) :=
      congrArg LiveSchema.tables hfinal
    rw [← LiveSchema.checkSerials_bare, htables, LiveSchema.checkSerials_bare]
    exact hserials
  obtain ⟨enums, henums⟩ := LiveSchema.exists_operations hsound (hdeclared d') hw'
  obtain ⟨functions, hfunctions'⟩ := functionOperations_carried hc
    (fun f hf s hs type htype => hallowed.2 type
      (List.mem_flatMap.mpr ⟨f, hf, List.mem_flatMap.mpr ⟨s, hs, htype⟩⟩)) hfunctions
  exact ⟨_, Except.map_ok.mpr ⟨_, plan_of_walk hs hw' hserials' henums hfunctions', rfl⟩⟩

/-! ## The whole -/

/-- A dialect only decides how things are written. Changelogs of one history have the same versions
and the same tables, whatever the dialects. If there is one for MySQL then there is one for SQLite;
and if there is one for PostgreSQL, and no type in the history is an array, there is one for
MySQL. -/
theorem dialect_affects_rendering_only (h : SchemaHistory) :
    (∀ d d' log log', ofHistory d h = .ok log → ofHistory d' h = .ok log' →
      log.versions = log'.versions ∧ log.tables = log'.tables) ∧
    ((∃ log, ofHistory .mysql h = .ok log) → ∃ log, ofHistory .sqlite h = .ok log) ∧
    ((∀ type ∈ h.types, type.isArray = false) →
      (∃ log, ofHistory .postgres h = .ok log) → ∃ log, ofHistory .mysql h = .ok log) := by
  refine ⟨fun d d' log log' hlog hlog' => ⟨?_, SortedMap.ext_get? fun id => ?_⟩, ?_, ?_⟩
  · rw [versions_eq_timeline hlog, versions_eq_timeline hlog']
  · rw [get?_tables_eq_final? hlog, get?_tables_eq_final? hlog']
  · rintro ⟨log, hlog⟩
    exact ofHistory_carried Dialect.sqlite_accepts (fun _ _ => trivial) hlog
  · rintro hplain ⟨log, hlog⟩
    exact ofHistory_carried Dialect.mysql_accepts hplain hlog

/-- Books of a genre, which later gains a value while a column is renamed; and a function. -/
def genreBooks : SchemaHistory where
  tables := [⟨"books",
    [⟨"1", some "book", [.add "id" { type := .serial },
        .add "kind" { type := .enum "Genre", default := some "novel" }], [], []⟩,
      ⟨"2", none, [.rename "kind" "genre"], [], []⟩]⟩]
  enums := [⟨"genre", "Genre", [⟨"1", ["novel"]⟩, ⟨"2", ["poem"]⟩]⟩]
  functions := [⟨"twice", [⟨"1", [.integer], .integer, "SELECT 2"⟩]⟩]

theorem dialect_affects_rendering_only_genreBooks :
    (∀ type ∈ genreBooks.types, type.isArray = false) ∧
      (∃ log, ofHistory .postgres genreBooks = .ok log) ∧
      ∃ log log', ofHistory .mysql genreBooks = .ok log ∧ ofHistory .sqlite genreBooks = .ok log' ∧
        log.versions = log'.versions ∧ log.tables = log'.tables := by
  obtain ⟨hsame, hsqlite, hmysql⟩ := dialect_affects_rendering_only genreBooks
  have hplain : ∀ type ∈ genreBooks.types, type.isArray = false := by decide
  have hpostgres : ∃ log, ofHistory .postgres genreBooks = .ok log :=
    Except.exists_of_isOk (by decide)
  obtain ⟨log, hlog⟩ := hmysql hplain hpostgres
  obtain ⟨log', hlog'⟩ := hsqlite ⟨log, hlog⟩
  exact ⟨hplain, hpostgres, log, log', hlog, hlog', hsame _ _ log log' hlog hlog'⟩

end Changelog

end SchemaEvolution
