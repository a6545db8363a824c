import SchemaEvolution.Proofs.Descriptions
import SchemaEvolution.Proofs.Extension.Beginning
import SchemaEvolution.Proofs.FinalTables

/-!
# Released table history never changes

What a changelog does to the tables at a released version stays as it is when the history goes on,
as long as what is added to tables carries new labels. In MySQL the enums that are there must not
gain values at released labels either, since the values stand in the columns.
-/

namespace SchemaEvolution

variable {d : Dialect} {allowed : Addition → String → Prop} {h h' : SchemaHistory}

namespace SchemaHistory.Extends

/-- The walk of an extended history is the walk of the history itself, and then goes on. -/
theorem walk_append {start start' : LiveSchema} {w w' : LiveSchema.Walk}
    (hx : h.Extends allowed h') (hl : h.GrowsLater h')
    (htable : ∀ version, allowed .table version → version ∉ h.timeline)
    (henum : d = .mysql → ∀ version, allowed .enumStep version → version ∉ h.timeline)
    (hs : LiveSchema.start h = .ok start) (hs' : LiveSchema.start h' = .ok start')
    (hw : start.walk ⟨d, h⟩ h.timeline = .ok w) (hw' : start'.walk ⟨d, h'⟩ h'.timeline = .ok w') :
    ∃ middle rest, (hx.widening hl htable henum).Wider w.final middle ∧ middle.Sound ∧
      middle.walk ⟨d, h'⟩ (h'.timeline.filter (· ∉ h.timeline)) = .ok rest ∧
      w'.final = rest.final ∧ w'.operations = w.operations ++ rest.operations ∧
      w'.uses = w.uses ++ rest.uses := by
  rw [hx.timeline_eq hl] at hw'
  exact (hx.wider_start hl htable henum hs hs').walk (LiveSchema.sound_start hs)
    (LiveSchema.sound_start hs') (fun _ hv => hv) hw hw'

end SchemaHistory.Extends

namespace Changelog

variable {log log' : Changelog}

/-- Released table history never changes. When a history is extended, with further labels that come
after all of its own, the changelog has the same entry for the tables at each of its labels, or none
as before, provided that no table gets a step at a label that the history has, and that in MySQL no
enum that the history has gets one. -/
theorem released_tables_kept
    (hx : h.Extends (fun
      | .table, version => version ∉ h.timeline
      | .enumStep, version => d = .mysql → version ∉ h.timeline
      | _, _ => True) h')
    (hl : h.GrowsLater h') (hlog : ofHistory d h = .ok log) (hlog' : ofHistory d h' = .ok log') :
    ∀ version ∈ h.timeline,
      log'.tableEntries.find? (·.version == version)
        = log.tableEntries.find? (·.version == version) := by
  intro version hv
  obtain ⟨start, p, hs, hw, -, -, -, rfl⟩ := ofHistory_ok hlog
  obtain ⟨start', p', hs', hw', -, -, -, rfl⟩ := ofHistory_ok hlog'
  obtain ⟨middle, rest, -, hmiddle, hrest, -, hoperations, -⟩ :=
    hx.walk_append hl (fun _ h => h) (fun hd _ h => h hd) hs hs' hw hw'
  -- the walk goes on at new labels only, so there is nothing more to be done at this one
  have hnone : ∀ o ∈ rest.operations, o.version ≠ version := by
    intro o ho he
    obtain ⟨later, hnew, e, haccounts⟩ := LiveSchema.walk_accounts hmiddle hrest o ho
    rw [← haccounts.version, he, List.mem_filter, decide_eq_true_eq] at hnew
    exact hnew.2 hv
  show (gather h'.timeline (describeAll d [] p'.walk.operations).1).find? _
    = (gather h.timeline (describeAll d [] p.walk.operations).1).find? _
  rw [find?_gather nodup_timeline (hx.timeline_subset hv), find?_gather nodup_timeline hv,
    hoperations, describeAll_append, queriesOf_append, queriesOf_eq_nil hnone, List.append_nil]

/-! ## Additions at released labels -/

/-- A table with one column, and one that gets a second column later. -/
def twoTables : SchemaHistory where
  tables := [⟨"a", [⟨"1", some "a", [.add "x" { type := .text }], [], []⟩]⟩,
    ⟨"b", [⟨"1", some "b", [.add "x" { type := .text }], [], []⟩,
      ⟨"2", none, [.add "y" { type := .text }], [], []⟩]⟩]

/-- The same tables, where the first gets a second column too. -/
def twoTablesBackdated : SchemaHistory where
  tables := [⟨"a", [⟨"1", some "a", [.add "x" { type := .text }], [], []⟩,
      ⟨"2", none, [.add "y" { type := .text }], [], []⟩]⟩,
    ⟨"b", [⟨"1", some "b", [.add "x" { type := .text }], [], []⟩,
      ⟨"2", none, [.add "y" { type := .text }], [], []⟩]⟩]

/-- A table that gets a column of an enum type later. -/
def oneEnum : SchemaHistory where
  tables := [⟨"a", [⟨"1", some "a", [.add "x" { type := .text }], [], []⟩,
    ⟨"2", none, [.add "y" { type := .enum "e" }], [], []⟩]⟩]
  enums := [⟨"e", "e", [⟨"1", ["p"]⟩]⟩]

/-- The same table, where the enum gains a value when it is first used. -/
def oneEnumBackdated : SchemaHistory where
  tables := [⟨"a", [⟨"1", some "a", [.add "x" { type := .text }], [], []⟩,
    ⟨"2", none, [.add "y" { type := .enum "e" }], [], []⟩]⟩]
  enums := [⟨"e", "e", [⟨"1", ["p"]⟩, ⟨"2", ["q"]⟩]⟩]

/-- Additions at a label that is released already change what is done there: a step of a table
always, a step of an enum in MySQL. -/
theorem backdated_additions_change_tables :
    (twoTables.Extends (fun _ _ => True) twoTablesBackdated ∧
      twoTables.GrowsLater twoTablesBackdated ∧ "2" ∈ twoTables.timeline ∧
      ∃ log log', ofHistory .sqlite twoTables = .ok log ∧
        ofHistory .sqlite twoTablesBackdated = .ok log' ∧
        log'.tableEntries.find? (·.version == "2") ≠ log.tableEntries.find? (·.version == "2")) ∧
    oneEnum.Extends (fun _ _ => True) oneEnumBackdated ∧
      oneEnum.GrowsLater oneEnumBackdated ∧ "2" ∈ oneEnum.timeline ∧
      ∃ log log', ofHistory .mysql oneEnum = .ok log ∧
        ofHistory .mysql oneEnumBackdated = .ok log' ∧
        log'.tableEntries.find? (·.version == "2") ≠ log.tableEntries.find? (·.version == "2") := by
  have htables : twoTables.Extends (fun _ _ => True) twoTablesBackdated := by
    refine ⟨⟨twoTablesBackdated.tables, [], rfl, ?_, by simp⟩, ⟨[], [], rfl, .nil, by simp⟩,
      ⟨[], [], rfl, .nil, by simp⟩⟩
    exact .cons ⟨[⟨"2", none, [.add "y" { type := .text }], [], []⟩], rfl, by simp⟩
      (.cons ⟨[], rfl, by simp⟩ .nil)
  have henums : oneEnum.Extends (fun _ _ => True) oneEnumBackdated := by
    refine ⟨⟨oneEnumBackdated.tables, [], rfl, .cons ⟨[], rfl, by simp⟩ .nil, by simp⟩,
      ⟨oneEnumBackdated.enums, [], rfl, .cons ⟨[⟨"2", ["q"]⟩], rfl, by simp⟩ .nil, by simp⟩,
      ⟨[], [], rfl, .nil, by simp⟩⟩
  refine ⟨⟨htables, ?_, by decide, _, _, rfl, rfl, by decide⟩,
    henums, ?_, by decide, _, _, rfl, rfl, by decide⟩
  · unfold SchemaHistory.GrowsLater
    decide
  · unfold SchemaHistory.GrowsLater
    decide

/-- The two tables, where the first gets a second column at a new label. -/
def twoTablesLater : SchemaHistory where
  tables := [⟨"a", [⟨"1", some "a", [.add "x" { type := .text }], [], []⟩,
      ⟨"3", none, [.add "y" { type := .text }], [], []⟩]⟩,
    ⟨"b", [⟨"1", some "b", [.add "x" { type := .text }], [], []⟩,
      ⟨"2", none, [.add "y" { type := .text }], [], []⟩]⟩]

theorem released_tables_kept_twoTables :
    ∃ log log', ofHistory .mysql twoTables = .ok log ∧ ofHistory .mysql twoTablesLater = .ok log' ∧
      ∀ version ∈ ["1", "2"],
        log'.tableEntries.find? (·.version == version)
          = log.tableEntries.find? (·.version == version) := by
  have hlater : twoTables.GrowsLater twoTablesLater := by
    unfold SchemaHistory.GrowsLater
    decide
  obtain ⟨log, hlog⟩ := Except.exists_of_isOk
    (show (ofHistory .mysql twoTables).isOk = true by decide)
  obtain ⟨log', hlog'⟩ := Except.exists_of_isOk
    (show (ofHistory .mysql twoTablesLater).isOk = true by decide)
  refine ⟨log, log', hlog, hlog', released_tables_kept ⟨⟨twoTablesLater.tables, [], rfl, ?_,
    by simp⟩, ⟨[], [], rfl, .nil, by simp⟩, ⟨[], [], rfl, .nil, by simp⟩⟩ hlater hlog hlog'⟩
  exact .cons ⟨[⟨"3", none, [.add "y" { type := .text }], [], []⟩], rfl, by decide⟩
    (.cons ⟨[], rfl, by simp⟩ .nil)

end Changelog

end SchemaEvolution
