import SchemaEvolution.Proofs.Enums.Redefined
import SchemaEvolution.Proofs.Sql
import SchemaEvolution.Proofs.Statements

/-!
# MySQL columns stay in sync with their enums

What is written about enums is computed after the walk, from the columns that there were before each
version, yet stands before all else that is done at the version. Put together in the order of the
changelog, the statements keep every column of an enum type listing the values that its enum has:
at a version the columns that were there are defined anew where their enums grow, and what is done
to tables then defines further columns with the values of the version.
-/

namespace SchemaEvolution

/-! ## The statements of a changelog -/

namespace Changelog.Plan

open LiveSchema

/-- The statements of a version that comes after some others, in the order of the changelog, when
the schema before it is `s`: those for enums, for functions and for tables. -/
def emissionsAt (p : Plan) (c : Setting) (s : LiveSchema) (passed : List String)
    (version : String) : List Emission :=
  (s.redefinitions p.walk.final.enums.enums passed version).map (·.emission)
    ++ ((p.functions.filter (·.version == version)).flatMap (·.statements)).map (⟨none, ·⟩)
    ++ (changesOf c version (s.takeDue version).1 (script (s.takeDue version).2)).flatMap
      fun x => emitted x.id x.statements

/-- The statements of some versions, which come after others. -/
def emissions (p : Plan) (c : Setting) : LiveSchema → List String → List String → List Emission
  | _, _, [] => []
  | s, passed, version :: versions =>
    match s.advance c version with
    | .ok (s', _) =>
      p.emissionsAt c s passed version ++ p.emissions c s' (passed ++ [version]) versions
    | .error _ => []

end Changelog.Plan

/-- The definition that statements give last to a column, by the id of its table and its name. -/
def lastDefinition? (id name : String) (es : List Emission) : Option String :=
  (storedTable id es).bind fun stored =>
    (stored.columns.find? (·.name == name)).map (·.definition)

namespace Changelog

open LiveSchema

variable {h : SchemaHistory} {p : Plan} {start s s' : LiveSchema} {w : Walk} {version : String}
  {versions passed later : List String} {operations : List Operation} {log : Changelog}
  {es : List Emission}

section

variable (hs : LiveSchema.start h = .ok start)
  (hw : start.walk ⟨.mysql, h⟩ h.timeline = .ok p.walk)
  (henums : p.walk.final.enums.operations .mysql p.walk.usesAt = .ok p.enums)

include hs hw henums

/-- What is written about enums at a version defines columns anew. -/
theorem statements_enums (hsplit : h.timeline = passed ++ version :: later)
    (hpassed : start.walk ⟨.mysql, h⟩ passed = .ok w) :
    (p.enums.filter (·.version == version)).flatMap (·.statements)
      = (w.final.redefinitions p.walk.final.enums.enums passed version).map (·.statement) := by
  obtain ⟨htimeline, -⟩ := enums_of_start hs hw
  obtain ⟨w', s', operations, hw', -, -, huses⟩ :=
    walk_at_version (sound_start hs) (hsplit ▸ nodup_timeline) (hsplit ▸ hw)
  obtain rfl := Except.ok.inj (hpassed.symm.trans hw')
  exact statements_at_version henums (htimeline.trans hsplit) (htimeline ▸ nodup_timeline) huses

theorem map_query_enumEntries (hsplit : h.timeline = passed ++ version :: later)
    (hpassed : start.walk ⟨.mysql, h⟩ passed = .ok w) :
    (queriesAt (ofPlan ⟨.mysql, h⟩ p).enumEntries version).map (·.query)
      = (w.final.redefinitions p.walk.final.enums.enums passed version).map
        (·.statement.text .mysql) := by
  have hv : version ∈ h.timeline := hsplit ▸ List.mem_append_right _ List.mem_cons_self
  refine (map_query_queriesAt nodup_timeline hv).trans ?_
  rw [statements_enums hs hw henums hsplit hpassed, List.map_map]
  rfl

/-- The queries of a version are its statements. -/
theorem map_query_emissionsAt (hsplit : h.timeline = passed ++ version :: later)
    (hpassed : start.walk ⟨.mysql, h⟩ passed = .ok w) :
    (queriesAt (ofPlan ⟨.mysql, h⟩ p).enumEntries version
        ++ queriesAt (ofPlan ⟨.mysql, h⟩ p).functionEntries version
        ++ queriesAt (ofPlan ⟨.mysql, h⟩ p).tableEntries version).map (·.query)
      = (p.emissionsAt ⟨.mysql, h⟩ w.final passed version).map (·.statement.text .mysql) := by
  rw [map_query_at_version hs hw hsplit hpassed, statements_enums hs hw henums hsplit hpassed,
    Plan.emissionsAt]
  simp only [List.map_append, List.map_map, List.map_flatMap, emitted]
  rfl

/-- The queries of some versions are their statements. -/
theorem map_query_emissions (hsplit : h.timeline = passed ++ versions ++ later)
    (hpassed : start.walk ⟨.mysql, h⟩ passed = .ok w) :
    (versions.flatMap fun version =>
      (queriesAt (ofPlan ⟨.mysql, h⟩ p).enumEntries version
        ++ queriesAt (ofPlan ⟨.mysql, h⟩ p).functionEntries version
        ++ queriesAt (ofPlan ⟨.mysql, h⟩ p).tableEntries version).map (·.query))
      = (p.emissions ⟨.mysql, h⟩ w.final passed versions).map (·.statement.text .mysql) := by
  induction versions generalizing passed w with
  | nil => rfl
  | cons version versions ih =>
    obtain ⟨hhere, hnext⟩ := split_cons hsplit
    obtain ⟨w', s', operations, hw', hadvance, -⟩ :=
      walk_at_version (sound_start hs) (hhere ▸ nodup_timeline) (hhere ▸ hw)
    obtain rfl := Except.ok.inj (hpassed.symm.trans hw')
    obtain ⟨w₁, hw₁, rfl⟩ := walk_concat hpassed hadvance
    rw [List.flatMap_cons, map_query_emissionsAt hs hw henums hhere hpassed, ih hnext hw₁,
      Plan.emissions, hadvance, List.map_append]

end

/-! ## Version by version -/

section

variable (ha : h.EnumsApart)

include ha

/-- When a version has been advanced to, the database has followed. -/
theorem inSync_advance (hsplit : h.timeline = passed ++ version :: later) (hsound : s.Sound)
    (hsupplied : Supplied h passed s) (hgrows : s.enums.Grows p.walk.final.enums)
    (hresolved : ∀ e ∈ p.walk.final.enums.enums, ∃ reference, h.enum? reference = some e)
    (hsync : s.InSync h passed es)
    (hadvance : s.advance ⟨.mysql, h⟩ version = .ok (s', operations)) :
    s'.InSync h (passed ++ [version])
      (es ++ p.emissionsAt ⟨.mysql, h⟩ s passed version) := by
  rw [Plan.emissionsAt, ← List.append_assoc, ← List.append_assoc]
  generalize hwritten : es ++ (s.redefinitions p.walk.final.enums.enums passed version).map
    (·.emission) ++ ((p.functions.filter (·.version == version)).flatMap (·.statements)).map
      (⟨none, ·⟩) = written
  -- the enums come first, then the functions, which no table has a part in
  have hsync : s.InSync h (passed ++ [version]) written := by
    refine hwritten ▸ InSync.append_of_none ?_
      (hsync.redefined ha hsound hsupplied hgrows hresolved)
    rintro e he
    obtain ⟨x, -, rfl⟩ := List.mem_map.mp he
    rfl
  -- then one edit after the other
  have hdue : (s.takeDue version).1.InSync h (passed ++ [version])
      (written ++ ([] : List Change).flatMap fun x => emitted x.id x.statements) := by
    rw [List.flatMap_nil, List.append_nil]
    exact hsync.takeDue
  have hall := changesOf_invariant
    (P := fun s xs => s.Sound ∧ Supplied h (passed ++ [version]) s ∧
      s.InSync h (passed ++ [version]) (written ++ xs.flatMap fun x => emitted x.id x.statements))
    (fun s xs e s' operations ⟨hsound, hsupplied, hsync⟩ he =>
      ⟨hsound.edit he, hsupplied.edit (c := ⟨.mysql, h⟩) hsplit he, ?_⟩)
    ⟨hsound.takeDue, hsupplied.takeDue (c := ⟨.mysql, h⟩).mono, hdue⟩
    (advance_script hsound hadvance)
  · exact hall.2.2
  · have hedited := hsync.edit ha hsplit hsound hsupplied he
    rw [List.flatMap_append, List.flatMap_singleton, ← List.append_assoc]
    exact hedited

/-- When some versions have been walked along, the database has followed. -/
theorem inSync_walk {all : Walk} (hsplit : h.timeline = passed ++ versions ++ later)
    (hsound : s.Sound) (hsupplied : Supplied h passed s)
    (hall : s.walk ⟨.mysql, h⟩ (versions ++ later) = .ok all)
    (hfinal : all.final = p.walk.final)
    (hresolved : ∀ e ∈ p.walk.final.enums.enums, ∃ reference, h.enum? reference = some e)
    (hsync : s.InSync h passed es) (hw : s.walk ⟨.mysql, h⟩ versions = .ok w) :
    w.final.InSync h (passed ++ versions)
      (es ++ p.emissions ⟨.mysql, h⟩ s passed versions) := by
  induction versions generalizing s passed es w all with
  | nil =>
    obtain rfl := Except.ok.inj hw
    rw [List.append_nil, Plan.emissions, List.append_nil]
    exact hsync
  | cons version versions ih =>
    obtain ⟨s₁, first, w₁, h₁, h₂, rfl⟩ := walk_cons_ok.mp hw
    obtain ⟨hhere, hnext⟩ := split_cons hsplit
    obtain ⟨s₂, second, rest, h₃, hrest, rfl⟩ := walk_cons_ok.mp hall
    obtain ⟨rfl, -⟩ := Prod.mk.inj (Except.ok.inj (h₁.symm.trans h₃))
    have hgrows := hfinal ▸ walk_grows hsound hall
    have hadvanced := inSync_advance ha hhere hsound hsupplied hgrows hresolved hsync h₁
    rw [Plan.emissions, h₁, List.append_cons passed, ← List.append_assoc]
    have hsupplied := hsupplied.advance (c := ⟨.mysql, h⟩) hsound hhere h₁
    exact ih (w := w₁) hnext (hsound.advance h₁) hsupplied.1 hrest hfinal hadvanced h₂

end

theorem inSync_start (hs : LiveSchema.start h = .ok s) : s.InSync h [] [] := by
  intro t ht hc
  obtain ⟨_, -, name, ht⟩ := tables_start hs ht
  rw [ht] at hc
  cases hc

/-! ## The columns of every version -/

/-- In a database that has followed a schema, the last definition of a column is that of the column
as it is stored. -/
theorem lastDefinition?_of_inSync {t : LiveTable} {k : LiveColumn} (hsound : s.Sound)
    (hsync : s.InSync h versions es) (ht : t ∈ s.tables) (hk : k ∈ t.columns) :
    ∃ c, lastDefinition? t.id k.name es = some c.definition ∧
      StoredColumn.Follows h versions k c := by
  obtain ⟨stored, hstored, hf⟩ := hsync t ht (hsound.created ht hk)
  have hself : t.columns.find? (·.name == k.name) = some k :=
    LiveTable.column?_of_mem (hsound.columns t ht) hk
  obtain ⟨c, hfound, hfollows⟩ := find?_of_forall₂ (q := (·.name == k.name)) hf.columns
    (fun a b hab => by rw [hab.name]) hself
  refine ⟨c, ?_, hfollows⟩
  rw [lastDefinition?, hstored, Option.bind_some, hfound]
  rfl

/-- What an enum that grows is at a version. -/
theorem snapshotAt?_of_gains {e : EnumHistory} {state : Enumeration}
    (hsplit : h.timeline = passed ++ version :: later) (hgains : e.gains passed version = true) :
    e.snapshotAt? h.timeline version = some state ↔ state = e.through (passed ++ [version]) := by
  have hvalues : (e.through (passed ++ [version])).values ≠ [] := by
    intro hnil
    have hlt := (EnumHistory.gains_iff.mp hgains).2
    rw [hnil] at hlt
    exact absurd hlt (Nat.not_lt_zero _)
  rw [hsplit, EnumHistory.snapshotAt?_eq_visible (notMem_passed hsplit),
    EnumHistory.visible_eq_some, and_iff_right hvalues, eq_comm]

/-- In MySQL, if no text designates two enums, every column of an enum type is last defined with the
values that the enum has at the version; what is defined when is what the changelog holds the SQL
of, in its order. What is written about enums at a version defines every column of an enum type that
there was before, and whose enum grows, exactly once, by the names that it and its table had. -/
theorem mysql_enum_columns_in_sync (ha : h.EnumsApart) (hlog : ofHistory .mysql h = .ok log)
    (hsplit : h.timeline = passed ++ version :: later) :
    ∃ (p : Plan) (start : LiveSchema) (before after : Walk),
      plan ⟨.mysql, h⟩ = .ok p ∧ LiveSchema.start h = .ok start ∧
      start.walk ⟨.mysql, h⟩ passed = .ok before ∧
      start.walk ⟨.mysql, h⟩ (passed ++ [version]) = .ok after ∧
      (log.entries.take (passed.length + 1)).flatMap (fun e => e.queries.map (·.query))
        = (p.emissions ⟨.mysql, h⟩ start [] (passed ++ [version])).map
          (·.statement.text .mysql) ∧
      List.Forall₂ (Ddl.IsSql .mysql)
        ((p.emissions ⟨.mysql, h⟩ start [] (passed ++ [version])).map (·.statement))
        ((log.entries.take (passed.length + 1)).flatMap fun e => e.queries.map (·.query)) ∧
      (∀ t ∈ after.final.tables, ∀ k ∈ t.columns, ∀ reference,
        k.property.shape.type = .enum reference →
        ∃ e state name, h.enum? reference = some e ∧
          e.snapshotAt? h.timeline version = some state ∧
          lastDefinition? t.id k.name (p.emissions ⟨.mysql, h⟩ start [] (passed ++ [version]))
            = some (Dialect.enumDefinition ⟨name, k.property.shape⟩ state.values)) ∧
      (queriesAt log.enumEntries version).map (·.query)
        = (before.final.redefinitions p.walk.final.enums.enums passed version).map
          (·.statement.text .mysql) ∧
      List.Forall₂ (Ddl.IsSql .mysql)
        ((before.final.redefinitions p.walk.final.enums.enums passed version).map (·.statement))
        ((queriesAt log.enumEntries version).map (·.query)) ∧
      ((before.final.redefinitions p.walk.final.enums.enums passed version).map
        (·.target)).Nodup ∧
      ∀ r, r ∈ before.final.redefinitions p.walk.final.enums.enums passed version ↔
        r.table ∈ before.final.tables ∧ r.column ∈ r.table.columns ∧
          ∃ reference e, r.column.property.shape.type = .enum reference ∧
            h.enum? reference = some e ∧ e.GrowsAt h.timeline version ∧
            e.snapshotAt? h.timeline version = some r.state := by
  obtain ⟨p, hp, rfl⟩ := Except.map_ok.mp hlog
  obtain ⟨start, hs, hw, -, henums, -⟩ := plan_ok hp
  have hsound := sound_start hs
  obtain ⟨before, rest, hbefore, hrest, hfinal, -, -⟩ := walk_split (hsplit ▸ hw)
  obtain ⟨s', operations, w', hadvance, -, -⟩ := walk_cons_ok.mp hrest
  obtain ⟨after, hafter, hafterFinal⟩ := walk_concat hbefore hadvance
  have hhere : h.timeline = [] ++ (passed ++ [version]) ++ later := by
    rw [hsplit]
    simp
  -- the enums in use in the end are enums of the history, and those in use before are among them
  have hstart := supplied_start (c := ⟨.mysql, h⟩) hs
  have hsupplied : Supplied h passed before.final := hstart.walk hsound hsplit hbefore
  have hwhole : h.timeline = [] ++ h.timeline ++ [] := (List.append_nil _).symm
  have hresolved : ∀ e ∈ p.walk.final.enums.enums, ∃ reference, h.enum? reference = some e :=
    (hstart.walk hsound hwhole hw).resolved
  have hgrows : before.final.enums.Grows p.walk.final.enums :=
    hfinal ▸ walk_grows (hsound.walk hbefore) hrest
  have hqueries : ((ofPlan ⟨.mysql, h⟩ p).entries.take (passed.length + 1)).flatMap
      (fun e => e.queries.map (·.query))
        = (p.emissions ⟨.mysql, h⟩ start [] (passed ++ [version])).map
          (·.statement.text .mysql) := by
    have htake : (ofPlan ⟨.mysql, h⟩ p).versions = (passed ++ [version]) ++ later := hhere
    have hentries := map_query_take_entries htake
    rw [List.length_append, List.length_singleton] at hentries
    rw [hentries]
    exact map_query_emissions hs hw henums hhere rfl
  have henumQueries := map_query_enumEntries hs hw henums hsplit hbefore
  refine ⟨p, start, before, after, hp, hs, hbefore, hafter, hqueries, ?_, ?_, henumQueries, ?_, ?_,
    fun r => ?_⟩
  · exact Ddl.forall₂_isSql_map hqueries
  · intro t ht k hk reference htype
    have hall : start.walk ⟨.mysql, h⟩ ((passed ++ [version]) ++ later) = .ok p.walk := hhere ▸ hw
    have hsync := inSync_walk ha hhere hsound hstart hall rfl hresolved (inSync_start hs) hafter
    have hsuppliedAfter := hstart.walk hsound hhere hafter
    rw [List.nil_append] at hsync hsuppliedAfter
    obtain ⟨c, hlast, hfollows⟩ := lastDefinition?_of_inSync (hsound.walk hafter) hsync ht hk
    obtain ⟨e, -, -, he, hvalues⟩ := hsuppliedAfter.enum_inUse ha ht hk htype
    obtain ⟨name, hdefinition⟩ := hfollows.values reference e htype he
    refine ⟨e, e.through (passed ++ [version]), name, he, ?_, hdefinition ▸ hlast⟩
    rw [hsplit, EnumHistory.snapshotAt?_eq_visible (notMem_passed hsplit)]
    exact EnumHistory.visible_eq_some.mpr ⟨hvalues, rfl⟩
  · exact Ddl.forall₂_isSql_map henumQueries
  · refine nodup_redefinitions ha (hsound.walk hbefore) hresolved
      ((walk_grows hsound hw).distinct ?_)
    obtain ⟨tables, -, rfl⟩ := start_ok hs
    exact List.nodup_nil
  · rw [mem_redefinitions ha hsupplied hgrows hresolved]
    have hn : (passed ++ version :: later).Nodup := hsplit ▸ nodup_timeline
    constructor
    · rintro ⟨ht, -, hk, reference, e, htype, he, hgains, hstate⟩
      exact ⟨ht, hk, reference, e, htype, he, hsplit ▸ (EnumHistory.growsAt_iff hn).mpr hgains,
        (snapshotAt?_of_gains hsplit hgains).mpr hstate⟩
    · rintro ⟨ht, hk, reference, e, htype, he, hgains, hstate⟩
      rw [hsplit, EnumHistory.growsAt_iff hn] at hgains
      exact ⟨ht, (hsound.walk hbefore).created ht hk, hk, reference, e, htype, he, hgains,
        (snapshotAt?_of_gains hsplit hgains).mp hstate⟩

/-- An enum that grows while its column and the table are renamed, and another column is added. -/
def grownMood : SchemaHistory where
  tables := [⟨"app.notes", [⟨"1", some "notes", [.add "mood" { type := .enum "app.Mood" }], [], []⟩,
    ⟨"2", some "memos", [.rename "mood" "tone", .add "spare" { type := .enum "app.Mood" }], [],
      []⟩]⟩]
  enums := [⟨"mood", "app.Mood", [⟨"1", ["calm"]⟩, ⟨"2", ["bright"]⟩]⟩]

theorem mysql_enum_columns_in_sync_grownMood :
    ∃ (p : Plan) (start : LiveSchema) (before : Walk), plan ⟨.mysql, grownMood⟩ = .ok p ∧
      LiveSchema.start grownMood = .ok start ∧ start.walk ⟨.mysql, grownMood⟩ ["1"] = .ok before ∧
      (∀ column ∈ ["tone", "spare"], ∃ name,
        lastDefinition? "app.notes" column (p.emissions ⟨.mysql, grownMood⟩ start [] ["1", "2"])
          = some (Dialect.enumDefinition ⟨name, { type := .enum "app.Mood" }⟩
            ["calm", "bright"])) ∧
      ∃ r ∈ before.final.redefinitions p.walk.final.enums.enums ["1"] "2",
        r.target = ("app.notes", "mood") := by
  have hapart : grownMood.EnumsApart := by
    intro e he e' he' _ _ _
    rw [List.mem_singleton.mp he, List.mem_singleton.mp he']
  obtain ⟨log, hlog⟩ := Except.exists_of_isOk
    (show (ofHistory .mysql grownMood).isOk = true by decide)
  have hsplit : grownMood.timeline = ["1"] ++ "2" :: [] := by decide
  obtain ⟨p, start, before, after, hp, hs, hbefore, hafter, -, -, hlast, -, -, -, hmem⟩ :=
    mysql_enum_columns_in_sync hapart hlog hsplit
  obtain rfl := Except.ok.inj (hs.symm.trans rfl)
  obtain rfl := Except.ok.inj (hbefore.symm.trans rfl)
  have hmood : grownMood.enum? "app.Mood"
      = some ⟨"mood", "app.Mood", [⟨"1", ["calm"]⟩, ⟨"2", ["bright"]⟩]⟩ := by decide
  have hnow : EnumHistory.snapshotAt? ⟨"mood", "app.Mood", [⟨"1", ["calm"]⟩, ⟨"2", ["bright"]⟩]⟩
      grownMood.timeline "2" = some ⟨"mood", "app.Mood", ["calm", "bright"]⟩ := by decide
  obtain ⟨t, ht, hid, hcolumns⟩ : ∃ t ∈ after.final.tables, t.id = "app.notes" ∧
      ∀ column ∈ ["tone", "spare"], ∃ k ∈ t.columns, k.name = column ∧
        k.property.shape = { type := .enum "app.Mood" } := by
    obtain rfl := Except.ok.inj (hafter.symm.trans rfl)
    exact ⟨_, List.mem_of_getElem? (i := 0) rfl, rfl, by decide⟩
  refine ⟨p, _, _, hp, hs, hbefore, fun column hcolumn => ?_, ?_⟩
  · obtain ⟨k, hk, rfl, hshape⟩ := hcolumns column hcolumn
    obtain ⟨e, state, name, he, hstate, hdefinition⟩ :=
      hlast t ht k hk "app.Mood" (congrArg _ hshape)
    obtain rfl := Option.some.inj (hmood.symm.trans he)
    obtain rfl := Option.some.inj (hnow.symm.trans hstate)
    rw [hid, hshape] at hdefinition
    exact ⟨name, hdefinition⟩
  · refine ⟨⟨_, _, _⟩, (hmem _).mpr ⟨List.mem_of_getElem? (i := 0) rfl,
      List.mem_of_getElem? (i := 0) rfl, "app.Mood", _, rfl, hmood, ?_, hnow⟩, rfl⟩
    exact ⟨["1"], [], by decide, by decide, by decide⟩

end Changelog

end SchemaEvolution
