import SchemaEvolution.Proofs.Dialects.Rendering
import SchemaEvolution.Proofs.Enums.CreatedFirst
import SchemaEvolution.Proofs.Order.EnumOperations
import SchemaEvolution.Proofs.Order.Walks

/-!
# The order of tables

In a history whose tables have ids of their own, and keys with names of their own, the tables may
come in any order. There is a changelog for each order or for none; and the changelogs have the same
versions and tables, and the same queries at each version, up to the order among them.
-/

namespace SchemaEvolution

/-! ## Histories with the same tables -/

/-- Labels that are the same, in whatever order and however often, make the same timeline. -/
theorem Timeline.ofLabels_congr {labels labels' : List String}
    (h : ∀ label, label ∈ labels ↔ label ∈ labels') : ofLabels labels = ofLabels labels' := by
  have hnodup : ∀ labels, (ofLabels labels).Nodup := fun labels =>
    (pairwise_ofLabels labels).imp fun hlt he => absurd (he ▸ hlt) (String.lt_irrefl _)
  have hperm : (ofLabels labels).Perm (ofLabels labels') :=
    (List.perm_ext_iff_of_nodup (hnodup labels) (hnodup labels')).mpr fun label => by
      rw [mem_ofLabels, mem_ofLabels, h]
  exact hperm.eq_of_pairwise
    (fun a b _ _ hab hba => absurd (String.lt_trans hab hba) (String.lt_irrefl _))
    (pairwise_ofLabels labels) (pairwise_ofLabels labels')

/-- The names of all constraints and indices that a table ever adds or removes. -/
def TableHistory.keyNames (t : TableHistory) : List String := t.steps.flatMap (·.keyNames)

namespace SchemaHistory

variable {h : SchemaHistory} {tables : List TableHistory} {t : TableHistory} {id other : String}

/-- Whether no name of a constraint or an index occurs in two tables. -/
def KeysApart (h : SchemaHistory) : Prop :=
  ∀ t ∈ h.tables, ∀ u ∈ h.tables, t ≠ u → t.keyNames.Disjoint u.keyNames

/-- The names that belong to the table with an id. -/
def keyNamesOf (h : SchemaHistory) (id : String) : List String :=
  ((h.table? id).map (·.keyNames)).getD []

theorem KeysApart.disjoint (hk : h.KeysApart) (hid : id ≠ other) :
    (h.keyNamesOf id).Disjoint (h.keyNamesOf other) := by
  unfold keyNamesOf
  cases ht : h.table? id with
  | none => exact List.disjoint_nil_left _
  | some t =>
    cases hu : h.table? other with
    | none => exact List.disjoint_nil_right _
    | some u =>
      have htid : t.id = id := by simpa using List.find?_some ht
      have huid : u.id = other := by simpa using List.find?_some hu
      exact hk t (List.mem_of_find?_eq_some ht) u (List.mem_of_find?_eq_some hu)
        fun heq => hid (by rw [← htid, heq, huid])

/-- A table that has an id of its own is found by it. -/
theorem table?_eq_some_iff (hn : (h.tables.map (·.id)).Nodup) :
    h.table? id = some t ↔ t ∈ h.tables ∧ t.id = id := by
  constructor
  · intro ht
    exact ⟨List.mem_of_find?_eq_some ht, by simpa using List.find?_some ht⟩
  · rintro ⟨ht, rfl⟩
    obtain ⟨u, hu⟩ : ∃ u, h.table? t.id = some u :=
      Option.isSome_iff_exists.mp (List.find?_isSome.mpr ⟨t, ht, by simp⟩)
    have hid : u.id = t.id := by simpa using List.find?_some hu
    rw [hu, List.inj_on_of_nodup_map hn (List.mem_of_find?_eq_some hu) ht hid]

/-- Whether a list has the tables of a history in some order, where neither tables nor their keys
nor enums can be mistaken for each other. -/
structure Reordered (h : SchemaHistory) (tables : List TableHistory) : Prop where
  perm : tables.Perm h.tables
  ids : (h.tables.map (·.id)).Nodup
  keys : h.KeysApart
  enums : h.EnumsApart

namespace Reordered

variable (hr : h.Reordered tables)

include hr

/-- The history itself has its tables in some order, seen from the other one. -/
theorem symm : ({ h with tables } : SchemaHistory).Reordered h.tables where
  perm := hr.perm.symm
  ids := (hr.perm.map _).nodup_iff.mpr hr.ids
  keys t ht u hu := hr.keys t (hr.perm.mem_iff.mp ht) u (hr.perm.mem_iff.mp hu)
  enums := hr.enums

theorem timeline_eq : ({ h with tables } : SchemaHistory).timeline = h.timeline := by
  refine Timeline.ofLabels_congr fun label => ?_
  simp only [labels, List.mem_append, List.mem_flatMap, hr.perm.mem_iff]

theorem table?_eq : ({ h with tables } : SchemaHistory).table? id = h.table? id := by
  refine Option.ext fun t => ?_
  rw [table?_eq_some_iff hr.ids, table?_eq_some_iff (h := { h with tables }) hr.symm.ids]
  exact and_congr_left fun _ => hr.perm.mem_iff

end Reordered

end SchemaHistory

namespace LiveSchema

variable {d : Dialect} {h : SchemaHistory} {tables ts : List TableHistory} {s s' : LiveSchema}
  {w : Walk}

/-! ## The tables have no say in a walk -/

theorem declareAll_withTables :
    declareAll ⟨d, { h with tables }⟩ = declareAll ⟨d, h⟩ := by
  funext version table s columns edits
  induction edits generalizing s columns with
  | nil => rfl
  | cons edit edits ih =>
    cases edit with
    | add name shape =>
      rw [declareAll, declareAll]
      split
      · rfl
      · exact congrArg (declare ⟨d, h⟩ version s ⟨name, shape⟩ >>= ·) (funext fun x => ih ..)
    | _ => rfl

theorem advance_withTables : advance ⟨d, { h with tables }⟩ = advance ⟨d, h⟩ := by
  have hcreate : createTable ⟨d, { h with tables }⟩ = createTable ⟨d, h⟩ := by
    funext version s t step
    rw [createTable, declareAll_withTables]
    rfl
  have hedit : editTable ⟨d, { h with tables }⟩ = editTable ⟨d, h⟩ := by
    funext version s due
    rw [editTable, hcreate]
    rfl
  funext s version
  rw [advance, hedit]
  rfl

theorem walk_withTables : walk ⟨d, { h with tables }⟩ = walk ⟨d, h⟩ := by
  funext s versions
  induction versions generalizing s with
  | nil => rfl
  | cons version versions ih =>
    rw [walk, walk, advance_withTables]
    exact congrArg (advance ⟨d, h⟩ s version >>= ·) (funext fun x => by simp only [ih])

/-! ## The start -/

theorem exists_tablesOf (ids : List String) (hts : ∀ t ∈ ts, ∃ u, LiveTable.ofHistory t = .ok u) :
    ∃ us, tablesOf ids ts = .ok us := by
  induction ts generalizing ids with
  | nil => exact ⟨[], rfl⟩
  | cons t ts ih =>
    rw [List.forall_mem_cons] at hts
    by_cases hin : t.id ∈ ids
    · obtain ⟨us, hus⟩ := ih ids hts.2
      exact ⟨us, tablesOf_cons_ok.mpr (Or.inl ⟨hin, hus⟩)⟩
    · obtain ⟨u, hu⟩ := hts.1
      obtain ⟨us, hus⟩ := ih (t.id :: ids) hts.2
      exact ⟨u :: us, tablesOf_cons_ok.mpr (Or.inr ⟨hin, u, us, hu, hus, rfl⟩)⟩

theorem owns_start (hs : LiveSchema.start h = .ok s) : Owns h.keyNamesOf s := by
  intro id o ho step hstep name hname
  obtain ⟨u, hu, rfl⟩ := Option.map_eq_some_iff.mp ho
  obtain ⟨hm, rfl⟩ := table?_eq_some hu
  obtain ⟨t, ht, tableName, heq⟩ := tables_start hs hm
  rw [heq] at hstep
  rw [SchemaHistory.keyNamesOf, ht]
  exact List.mem_flatMap.mpr ⟨step, hstep, hname⟩

/-- A walk can start with the tables in any order. -/
theorem start_reordered (hr : h.Reordered tables) (hs : LiveSchema.start h = .ok s) :
    ∃ s', LiveSchema.start { h with tables } = .ok s' ∧ Abreast h.keyNamesOf s s' := by
  have hof : ∀ t ∈ tables, ∃ u, LiveTable.ofHistory t = .ok u := by
    intro t ht
    have hfind := table?_start hs t.id
    rw [(SchemaHistory.table?_eq_some_iff hr.ids).mpr ⟨hr.perm.mem_iff.mp ht, rfl⟩] at hfind
    obtain ⟨u, -, hu⟩ := hfind
    exact ⟨u, hu⟩
  obtain ⟨us, hus⟩ := exists_tablesOf [] hof
  have hs' : LiveSchema.start { h with tables }
      = .ok ⟨us, .ofTimeline ({ h with tables } : SchemaHistory).timeline, []⟩ := by
    simp only [LiveSchema.start, hus]
    rfl
  refine ⟨_, hs', fun id => ⟨?_, ?_⟩, ?_⟩
  · have hfind := table?_start hs id
    have hfind' := table?_start hs' id
    rw [hr.table?_eq] at hfind'
    cases ht : h.table? id with
    | none =>
      rw [ht] at hfind hfind'
      rw [view?, hfind', view?, hfind]
    | some t =>
      rw [ht] at hfind hfind'
      obtain ⟨u, hu, hof⟩ := hfind
      obtain ⟨u', hu', hof'⟩ := hfind'
      rw [view?, hu', view?, hu, Except.ok.inj (hof.symm.trans hof')]
  · obtain ⟨_, -, rfl⟩ := start_ok hs
    exact fun _ _ => Iff.rfl
  · obtain ⟨_, -, rfl⟩ := start_ok hs
    exact List.Subset.refl _

/-! ## The whole walk -/

/-- A walk along the whole timeline can be taken with the tables in any order. -/
theorem walk_reordered (hr : h.Reordered tables) (hs : LiveSchema.start h = .ok s)
    (hw : s.walk ⟨d, h⟩ h.timeline = .ok w) :
    ∃ s' w', LiveSchema.start { h with tables } = .ok s' ∧
      s'.walk ⟨d, { h with tables }⟩ ({ h with tables } : SchemaHistory).timeline = .ok w' ∧
      w.operations.Perm w'.operations ∧
      (∀ version, (w.usesAt version).Perm (w'.usesAt version)) ∧
      Abreast h.keyNamesOf w.final w'.final := by
  obtain ⟨s', hs', habreast⟩ := start_reordered hr hs
  have hsupplied : Supplied h [] s' := by
    have hstart := supplied_start (c := ⟨d, { h with tables }⟩) hs'
    exact ⟨hstart.timeline.trans hr.timeline_eq, hstart.resolved, hstart.columns⟩
  have hsplit : h.timeline = [] ++ h.timeline ++ [] := (List.append_nil _).symm
  obtain ⟨w', hw', hoperations, huses, hfinal⟩ := Abreast.walk (c := ⟨d, h⟩) hr.enums
    (fun _ _ => hr.keys.disjoint) (sound_start hs) (sound_start hs') habreast
    (supplied_start (c := ⟨d, h⟩) hs) hsupplied (owns_start hs) hsplit hw
  refine ⟨s', w', hs', ?_, hoperations, huses, hfinal⟩
  rw [walk_withTables, hr.timeline_eq]
  exact hw'

theorem checkSerials_ok {ts : List LiveTable} :
    checkSerials ts = .ok () ↔ ∀ t ∈ ts, t.serials ≤ 1 := by
  induction ts with
  | nil => simp [checkSerials]
  | cons t ts ih =>
    rw [checkSerials, List.forall_mem_cons, ← ih]
    split
    · next hlt => simp [Nat.not_le.mpr hlt]
    · next hle => simp [Nat.not_lt.mp hle]

/-- How many serial columns there are in the tables does not depend on their order. -/
theorem Abreast.checkSerials {owned : String → List String} (habreast : Abreast owned s s')
    (hs : s.Sound) (hs' : s'.Sound) (hc : checkSerials s.tables = .ok ()) :
    SchemaEvolution.checkSerials s'.tables = .ok () := by
  rw [checkSerials_ok] at hc ⊢
  intro t ht
  have hperm := perm_tables hs.distinct hs'.distinct fun id => (habreast.agree id).view
  obtain ⟨u, hu, heq⟩ := List.mem_map.mp (hperm.mem_iff.mpr (List.mem_map_of_mem ht))
  have hserials : u.withoutTargets.serials ≤ 1 := hc u hu
  rw [heq] at hserials
  exact hserials

end LiveSchema

namespace Changelog

open LiveSchema

variable {d : Dialect} {h : SchemaHistory} {tables : List TableHistory} {p : Plan}
  {log log' : Changelog}

/-! ## Changelogs -/

section

variable {versions taken taken' : List String} {os os' : List Operation}

/-- The queries at a version are what is dated to it, if it is on the timeline. -/
theorem map_query_queriesAt_dated (hn : versions.Nodup) (version : String) :
    (queriesAt (gather versions (describeAll d taken os).1) version).map (·.query)
      = if version ∈ versions then
          ((dated os).filter (·.1 == version)).map fun x => x.2.text d
        else [] := by
  split
  · next hv =>
    rw [map_query_queriesAt hn hv, ← map_snd_dated, dated_filter, List.map_map]
    rfl
  · next hv => rw [queriesAt_gather_of_notMem hv, List.map_nil]

/-- Operations that write the same at each version make the same queries, in some order. -/
theorem perm_queriesAt (hn : versions.Nodup) (hperm : (dated os).Perm (dated os'))
    (version : String) :
    ((queriesAt (gather versions (describeAll d taken os).1) version).map (·.query)).Perm
      ((queriesAt (gather versions (describeAll d taken' os').1) version).map (·.query)) := by
  rw [map_query_queriesAt_dated hn, map_query_queriesAt_dated hn]
  split
  · exact (hperm.filter _).map _
  · exact .nil

end

/-- A plan can be made with the tables in any order, and the same is done at each version. -/
theorem plan_reordered (hr : h.Reordered tables) (hp : plan ⟨d, h⟩ = .ok p) :
    ∃ p', plan ⟨d, { h with tables }⟩ = .ok p' ∧
      (dated p.walk.operations).Perm (dated p'.walk.operations) ∧
      (dated p.enums).Perm (dated p'.enums) ∧ p'.functions = p.functions := by
  obtain ⟨s, hs, hw, hserials, henums, hfunctions⟩ := plan_ok hp
  obtain ⟨s', w', hs', hw', hoperations, huses, habreast⟩ := walk_reordered hr hs hw
  have hsound := sound_start hs
  have hsound' := sound_start hs'
  have hserials' := habreast.checkSerials (hsound.walk hw) (hsound'.walk hw') hserials
  obtain ⟨enums, henums'⟩ := exists_operations hsound' (declared_start hs') hw'
  have hp' : plan ⟨d, { h with tables }⟩ = .ok ⟨w', enums, p.functions⟩ :=
    plan_of_walk hs' hw' hserials' henums' hfunctions
  obtain ⟨hnames, hfrom⟩ := operationsFrom_timeline hs hw henums
  obtain ⟨hnames', hfrom'⟩ :=
    operationsFrom_timeline (p := ⟨w', enums, p.functions⟩) hs' hw' henums'
  rw [hr.timeline_eq] at hfrom'
  -- the walk back leads to the same enums as the walk there, which may be fewer at first sight
  have hback : w'.final.enums.enums ⊆ p.walk.final.enums.enums := by
    obtain ⟨s₁, w₁, hs₁, hw₁, -, -, hback⟩ := walk_reordered hr.symm hs' hw'
    obtain rfl := Except.ok.inj (hs₁.symm.trans hs)
    obtain rfl := Except.ok.inj (hw₁.symm.trans hw)
    exact hback.enums
  have hperm : p.walk.final.enums.enums.Perm w'.final.enums.enums :=
    (List.perm_ext_iff_of_nodup (hnames.of_map _) (hnames'.of_map _)).mpr fun e =>
      ⟨fun he => habreast.enums he, fun he => hback he⟩
  exact ⟨_, hp', perm_dated hoperations,
    EnumRegistry.perm_operationsFrom hperm huses hfrom hfrom', rfl⟩

/-- The order of the tables makes no difference but to the order of queries. In a history whose
tables have different ids, where no name of a key occurs in two tables and no text designates two
enums, the tables may come in any order: there is a changelog for one order if there is one for the
other, and then the versions and the tables are the same, and so are the queries at each version,
where those for enums and for tables may come in another order. Numbers in descriptions are given
in turn, so they may be others. -/
theorem table_order_irrelevant (d : Dialect) (h : SchemaHistory) (tables : List TableHistory)
    (hperm : tables.Perm h.tables) (hids : (h.tables.map (·.id)).Nodup) (hkeys : h.KeysApart)
    (henums : h.EnumsApart) :
    ((∃ log, ofHistory d h = .ok log) ↔ ∃ log, ofHistory d { h with tables } = .ok log) ∧
    ∀ log log', ofHistory d h = .ok log → ofHistory d { h with tables } = .ok log' →
      log.versions = log'.versions ∧ log.tables = log'.tables ∧ ∀ version,
        ((queriesAt log.enumEntries version).map (·.query)).Perm
          ((queriesAt log'.enumEntries version).map (·.query)) ∧
        (queriesAt log.functionEntries version).map (·.query)
          = (queriesAt log'.functionEntries version).map (·.query) ∧
        ((queriesAt log.tableEntries version).map (·.query)).Perm
          ((queriesAt log'.tableEntries version).map (·.query)) := by
  have hr : h.Reordered tables := ⟨hperm, hids, hkeys, henums⟩
  have hcarried : ∀ {h : SchemaHistory} {tables}, h.Reordered tables →
      (∃ log, ofHistory d h = .ok log) → ∃ log, ofHistory d { h with tables } = .ok log := by
    rintro h tables hr ⟨log, hlog⟩
    obtain ⟨p, hp, -⟩ := Except.map_ok.mp hlog
    obtain ⟨p', hp', -⟩ := plan_reordered hr hp
    exact ⟨_, Except.map_ok.mpr ⟨p', hp', rfl⟩⟩
  refine ⟨⟨hcarried hr, hcarried hr.symm⟩, fun log log' hlog hlog' => ⟨?_, ?_, fun version => ?_⟩⟩
  · rw [versions_eq_timeline hlog, versions_eq_timeline hlog', hr.timeline_eq]
  · refine SortedMap.ext_get? fun id => ?_
    rw [get?_tables_eq_final? hlog, get?_tables_eq_final? hlog', hr.table?_eq]
  · obtain ⟨p, hp, rfl⟩ := Except.map_ok.mp hlog
    obtain ⟨p₁, hp₁, rfl⟩ := Except.map_ok.mp hlog'
    obtain ⟨p', hp', htables, henums, hfunctions⟩ := plan_reordered hr hp
    obtain rfl := Except.ok.inj (hp₁.symm.trans hp')
    have hn : h.timeline.Nodup := nodup_timeline
    simp only [ofPlan, hr.timeline_eq, hfunctions]
    refine ⟨perm_queriesAt hn henums version, ?_, perm_queriesAt hn htables version⟩
    rw [map_query_queriesAt_dated hn, map_query_queriesAt_dated hn]

/-- Books that refer to authors further down, where the key of the authors is renamed later; either
table has a column of an enum type. -/
def linkedBooks : SchemaHistory where
  tables := [⟨"app.books", [⟨"1", some "books",
        [.add "author" { type := .text }, .add "mood" { type := .enum "app.Mood" }],
        [.addForeignKey "books_author" "author" "app.authors" "name"], []⟩,
      ⟨"2", none, [.rename "mood" "tone"], [], [.add .plain "books_tone" ["tone"]]⟩]⟩,
    ⟨"app.authors", [⟨"1", some "authors",
        [.add "name" { type := .text }, .add "style" { type := .enum "app.Style" }], [], []⟩,
      ⟨"2", some "writers", [.rename "name" "code"], [],
        [.add .unique "authors_code" ["code"]]⟩]⟩]
  enums := [⟨"mood", "app.Mood", [⟨"1", ["calm"]⟩, ⟨"2", ["bright"]⟩]⟩,
    ⟨"style", "app.Style", [⟨"1", ["plain"]⟩]⟩]

theorem table_order_irrelevant_linkedBooks :
    linkedBooks.tables.reverse.Perm linkedBooks.tables ∧
      (linkedBooks.tables.map (·.id)).Nodup ∧ linkedBooks.KeysApart ∧ linkedBooks.EnumsApart ∧
      ∃ log log', ofHistory .mysql linkedBooks = .ok log ∧
        ofHistory .mysql { linkedBooks with tables := linkedBooks.tables.reverse } = .ok log' ∧
        log.tables = log'.tables ∧
        ((queriesAt log.tableEntries "1").map (·.query)).Perm
          ((queriesAt log'.tableEntries "1").map (·.query)) := by
  have hperm := List.reverse_perm linkedBooks.tables
  have hids : (linkedBooks.tables.map (·.id)).Nodup := by decide
  have hkeys : linkedBooks.KeysApart := by
    have hapart : ∀ name ∈ ["books_author", "books_tone"], name ∉ ["authors_code"] := by decide
    simp only [linkedBooks, SchemaHistory.KeysApart, List.forall_mem_cons]
    refine ⟨⟨fun hne => absurd rfl hne, fun _ => hapart, ?_⟩,
      ⟨fun _ _ h h' => hapart _ h' h, fun hne => absurd rfl hne, ?_⟩, ?_⟩
    · exact List.forall_mem_nil _
    · exact List.forall_mem_nil _
    · exact List.forall_mem_nil _
  have henums : linkedBooks.EnumsApart := by
    have hmem : ∀ (e : EnumHistory) text, e.isDesignatedBy text = true →
        text ∈ [e.reference, e.name] := by simp [EnumHistory.isDesignatedBy, @eq_comm String]
    have hapart : ∀ text ∈ ["app.Mood", "mood"], text ∉ ["app.Style", "style"] := by decide
    intro e he e' he' text hd hd'
    simp only [linkedBooks, List.mem_cons, List.not_mem_nil, or_false] at he he'
    obtain rfl | rfl := he
    · obtain rfl | rfl := he'
      · rfl
      · exact absurd (hmem _ _ hd') (hapart text (hmem _ _ hd))
    · obtain rfl | rfl := he'
      · exact absurd (hmem _ _ hd) (hapart text (hmem _ _ hd'))
      · rfl
  obtain ⟨hiff, hsame⟩ := table_order_irrelevant .mysql linkedBooks _ hperm hids hkeys henums
  have hlog : ∃ log, ofHistory .mysql linkedBooks = .ok log := Except.exists_of_isOk (by decide)
  obtain ⟨log', hlog'⟩ := hiff.mp hlog
  obtain ⟨log, hlog⟩ := hlog
  obtain ⟨-, htables, hqueries⟩ := hsame log log' hlog hlog'
  exact ⟨hperm, hids, hkeys, henums, log, log', hlog, hlog', htables, (hqueries "1").2.2⟩

/-- What is done about enums follows the order in which tables ask for them. -/
example :
    (ofHistory .postgres linkedBooks).map
        (fun log => (queriesAt log.enumEntries "1").map (·.description))
      = .ok ["create-enum-mood", "create-enum-style"] ∧
    (ofHistory .postgres { linkedBooks with tables := linkedBooks.tables.reverse }).map
        (fun log => (queriesAt log.enumEntries "1").map (·.description))
      = .ok ["create-enum-style", "create-enum-mood"] :=
  ⟨rfl, rfl⟩

end Changelog

end SchemaEvolution
