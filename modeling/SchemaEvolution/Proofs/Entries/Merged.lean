import Mathlib.Data.List.Perm.Basic
import SchemaEvolution.Proofs.Extension.EnumOperations
import SchemaEvolution.Proofs.Extension.Extends
import SchemaEvolution.Proofs.FinalTables
import SchemaEvolution.Proofs.Walk.Enums

/-!
# Merging by version

The three phases of a build describe what they do along the timeline, each in an order of its own.
In the changelog it is put under its versions, and the merged entries put the three kinds together.
Every phase only works at labels of the timeline, and the labels are distinct; so each statement is
found again, once, at its version.
-/

namespace SchemaEvolution

/-- A list whose elements belong to distinct keys, gone through key by key. -/
theorem perm_byKey {α : Type} {keys : List String} {key : α → String} {as : List α}
    (hn : keys.Nodup) (h : ∀ a ∈ as, key a ∈ keys) :
    (keys.flatMap fun k => as.filter (key · == k)).Perm as := by
  induction keys generalizing as with
  | nil =>
    cases as with
    | nil => exact .nil
    | cons a as => cases h a List.mem_cons_self
  | cons k keys ih =>
    rw [List.nodup_cons] at hn
    have hrest : (keys.flatMap fun k' => as.filter (key · == k'))
        = keys.flatMap fun k' => (as.filter (key · != k)).filter (key · == k') := by
      refine List.flatMap_congr fun k' hk' => ?_
      rw [List.filter_filter]
      refine List.filter_congr fun a _ => ?_
      have hne : k' ≠ k := fun he => hn.1 (he ▸ hk')
      by_cases ha : key a = k'
      · simp [ha, hne]
      · simp [ha]
    have hkeys : ∀ a ∈ as.filter (key · != k), key a ∈ keys := by
      intro a ha
      obtain ⟨ha, hne⟩ := List.mem_filter.mp ha
      exact (List.mem_cons.mp (h a ha)).resolve_left (by simpa using hne)
    rw [List.flatMap_cons, hrest]
    exact ((ih hn.2 hkeys).append_left _).trans (List.filter_append_perm _ as)

/-- Three such lists, gone through together. -/
theorem perm_merged {α : Type} {keys : List String} {key : α → String} {as bs cs : List α}
    (hn : keys.Nodup) (has : ∀ a ∈ as, key a ∈ keys) (hbs : ∀ b ∈ bs, key b ∈ keys)
    (hcs : ∀ c ∈ cs, key c ∈ keys) :
    (keys.flatMap fun k => as.filter (key · == k) ++ bs.filter (key · == k)
      ++ cs.filter (key · == k)).Perm (as ++ bs ++ cs) := by
  refine (List.flatMap_append_perm keys _ _).symm.trans (.append ?_ (perm_byKey hn hcs))
  exact (List.flatMap_append_perm keys _ _).symm.trans (.append (perm_byKey hn has)
    (perm_byKey hn hbs))

/-- The queries of entries, each with its version. -/
def datedQueries (entries : List VersionEntry) : List (String × DescribedQuery) :=
  entries.flatMap fun e => e.queries.map (e.version, ·)

namespace Changelog

variable {d : Dialect} {h : SchemaHistory} {log : Changelog} {p : Plan} {start : LiveSchema}
  {os : List Operation} {taken versions : List String}

namespace Plan

/-! ## The three phases -/

/-- What is done about tables, described; and all descriptions that are taken then. -/
def describedTables (p : Plan) (d : Dialect) : List VersionEntry × List String :=
  describeAll d [] p.walk.operations

/-- What is done about enums, described after the tables. -/
def describedEnums (p : Plan) (d : Dialect) : List VersionEntry × List String :=
  describeAll d (p.describedTables d).2 p.enums

/-- What is done about functions, described last. -/
def describedFunctions (p : Plan) (d : Dialect) : List VersionEntry × List String :=
  describeAll d (p.describedEnums d).2 p.functions

end Plan

/-! ## Where the phases work -/

/-- Functions are created at labels of their own histories. -/
theorem mem_timeline_of_functions (hf : functionOperations ⟨d, h⟩ = .ok os) :
    ∀ o ∈ os, o.version ∈ h.timeline := by
  obtain ⟨parts, hparts, hflat⟩ := Except.bind_ok.mp hf
  obtain rfl := Except.pure_ok.mp hflat
  intro o ho
  obtain ⟨part, hpart, ho⟩ := List.mem_flatten.mp ho
  obtain ⟨f, hfm, hsteps⟩ := (Except.mem_of_mapM_ok hparts).mp hpart
  obtain ⟨step, hstep, hone⟩ := (Except.mem_of_mapM_ok hsteps).mp ho
  obtain ⟨statements, -, ho⟩ := Except.bind_ok.mp hone
  rw [← Except.pure_ok.mp ho]
  exact SchemaHistory.mem_timeline.mpr (Or.inr (Or.inr ⟨f, hfm, step, hstep, rfl⟩))

/-- Tables are edited at the versions that the walk passes. -/
theorem mem_timeline_of_tables (hs : LiveSchema.start h = .ok start)
    (hw : start.walk ⟨d, h⟩ h.timeline = .ok p.walk) :
    ∀ o ∈ p.walk.operations, o.version ∈ h.timeline := by
  intro o ho
  obtain ⟨version, hv, e, he⟩ := LiveSchema.walk_accounts (LiveSchema.sound_start hs) hw o ho
  exact he.version ▸ hv

/-- Enums are told about along the timeline. -/
theorem mem_timeline_of_enums (hs : LiveSchema.start h = .ok start)
    (hw : start.walk ⟨d, h⟩ h.timeline = .ok p.walk)
    (henums : p.walk.final.enums.operations d p.walk.usesAt = .ok p.enums) :
    ∀ o ∈ p.enums, o.version ∈ h.timeline := by
  intro o ho
  rw [← (LiveSchema.enums_of_start hs hw).1]
  exact (EnumRegistry.operationsFrom_mem (EnumRegistry.operations_ok henums) ho).1

/-- What is described is described at the versions of the operations. -/
theorem mem_of_described (h : ∀ o ∈ os, o.version ∈ versions) :
    ∀ e ∈ (describeAll d taken os).1, e.version ∈ versions := by
  intro e he
  have hm : e.version ∈ os.map (·.version) := describeAll_versions ▸ List.mem_map_of_mem he
  obtain ⟨o, ho, hoe⟩ := List.mem_map.mp hm
  exact hoe ▸ h o ho

/-- All three phases only work at labels of the timeline. -/
theorem mem_timeline_of_described (hs : LiveSchema.start h = .ok start)
    (hw : start.walk ⟨d, h⟩ h.timeline = .ok p.walk)
    (henums : p.walk.final.enums.operations d p.walk.usesAt = .ok p.enums)
    (hf : functionOperations ⟨d, h⟩ = .ok p.functions) :
    (∀ e ∈ (p.describedEnums d).1, e.version ∈ h.timeline) ∧
      (∀ e ∈ (p.describedFunctions d).1, e.version ∈ h.timeline) ∧
      ∀ e ∈ (p.describedTables d).1, e.version ∈ h.timeline :=
  ⟨mem_of_described (mem_timeline_of_enums hs hw henums),
    mem_of_described (mem_timeline_of_functions hf),
    mem_of_described (mem_timeline_of_tables hs hw)⟩

/-! ## The merged entries -/

/-- At each version of the timeline stand the queries of the three phases. -/
theorem entries_ofPlan :
    (ofPlan ⟨d, h⟩ p).entries = h.timeline.map fun version =>
      ⟨version, queriesOf (p.describedEnums d).1 version
        ++ queriesOf (p.describedFunctions d).1 version
        ++ queriesOf (p.describedTables d).1 version⟩ := by
  refine List.map_congr_left fun version hv => ?_
  have hat : ∀ done, queriesAt (gather h.timeline done) version = queriesOf done version :=
    fun _ => queriesAt_gather nodup_timeline hv
  show VersionEntry.mk version (queriesAt (gather h.timeline (p.describedEnums d).1) version
    ++ queriesAt (gather h.timeline (p.describedFunctions d).1) version
    ++ queriesAt (gather h.timeline (p.describedTables d).1) version) = _
  rw [hat, hat, hat]

/-- The queries that a list of gathered entries holds. -/
theorem flatMap_queries_gather {done : List VersionEntry} :
    (gather versions done).flatMap (·.queries) = versions.flatMap (queriesOf done) := by
  rw [gather_eq, List.flatMap_def, List.flatMap_def]
  induction versions with
  | nil => rfl
  | cons version versions ih =>
    rw [List.filterMap_cons, List.map_cons, List.flatten_cons, ← ih]
    unfold entryOf
    split
    · next h =>
      split at h
      · next hnil => rw [List.isEmpty_iff.mp hnil, List.nil_append]
      · cases h
    · next h =>
      split at h
      · cases h
      · rw [← Option.some.inj h, List.map_cons, List.flatten_cons]

/-- The queries that the merged entries have are those of the phases, in some order. -/
theorem perm_datedQueries (hn : h.timeline.Nodup)
    (henums : ∀ e ∈ (p.describedEnums d).1, e.version ∈ h.timeline)
    (hfunctions : ∀ e ∈ (p.describedFunctions d).1, e.version ∈ h.timeline)
    (htables : ∀ e ∈ (p.describedTables d).1, e.version ∈ h.timeline) :
    (datedQueries (ofPlan ⟨d, h⟩ p).entries).Perm
      (datedQueries ((p.describedEnums d).1 ++ (p.describedFunctions d).1
        ++ (p.describedTables d).1)) := by
  have hentry : ∀ version, ∀ done : List VersionEntry,
      (queriesOf done version).map (version, ·)
        = (done.filter (·.version == version)).flatMap fun e => e.queries.map (e.version, ·) := by
    intro version done
    rw [queriesOf, List.map_flatMap]
    refine List.flatMap_congr fun e he => ?_
    rw [← beq_iff_eq.mp (List.mem_filter.mp he).2]
  have hmerged : datedQueries (ofPlan ⟨d, h⟩ p).entries
      = datedQueries (h.timeline.flatMap fun version =>
        (p.describedEnums d).1.filter (·.version == version)
          ++ (p.describedFunctions d).1.filter (·.version == version)
          ++ (p.describedTables d).1.filter (·.version == version)) := by
    rw [entries_ofPlan, datedQueries, datedQueries, List.flatMap_map, List.flatMap_assoc]
    refine List.flatMap_congr fun version _ => ?_
    rw [List.map_append, List.map_append, hentry, hentry, hentry, List.flatMap_append,
      List.flatMap_append]
  rw [hmerged]
  exact (perm_merged hn henums hfunctions htables).flatMap_right _

/-- How many queries the lists of a changelog hold is how many the merged entries have. -/
theorem size_ofPlan : (ofPlan ⟨d, h⟩ p).size
    = ((ofPlan ⟨d, h⟩ p).entries.flatMap (·.queries)).length := by
  have hsize : ∀ versions : List String, ∀ enums functions tables : List VersionEntry,
      ((gather versions enums ++ gather versions functions ++ gather versions tables).flatMap
          (·.queries)).length
        = (versions.flatMap fun version => queriesOf enums version ++ queriesOf functions version
          ++ queriesOf tables version).length := by
    intro versions enums functions tables
    rw [List.flatMap_append, List.flatMap_append, flatMap_queries_gather, flatMap_queries_gather,
      flatMap_queries_gather]
    exact (((List.flatMap_append_perm versions _ _).append_right _).trans
      (List.flatMap_append_perm versions _ _)).length_eq
  rw [entries_ofPlan, List.flatMap_map]
  exact hsize _ _ _ _

/-- Merging by version loses and repeats nothing. The versions of a changelog are the labels of its
history, each once and in order, and the merged entries are one for each of them: what is described
about enums at the version, then about functions, then about tables. All in all they have each query
that a phase has described, at its version, as often as it was described; and as many as the
changelog says. -/
theorem merged_exactly (hlog : ofHistory d h = .ok log) :
    ∃ p, plan ⟨d, h⟩ = .ok p ∧
      log.versions.Pairwise (· < ·) ∧
      (∀ version, version ∈ log.versions ↔
        (∃ t ∈ h.tables, ∃ step ∈ t.steps, step.version = version) ∨
        (∃ e ∈ h.enums, ∃ step ∈ e.steps, step.version = version) ∨
        ∃ f ∈ h.functions, ∃ step ∈ f.steps, step.version = version) ∧
      log.entries.map (·.version) = log.versions ∧
      (∀ e ∈ log.entries, e.queries = queriesOf (p.describedEnums d).1 e.version
        ++ queriesOf (p.describedFunctions d).1 e.version
        ++ queriesOf (p.describedTables d).1 e.version) ∧
      (datedQueries log.entries).Perm (datedQueries ((p.describedEnums d).1
        ++ (p.describedFunctions d).1 ++ (p.describedTables d).1)) ∧
      log.size = (log.entries.flatMap (·.queries)).length := by
  obtain ⟨p, hp, rfl⟩ := Except.map_ok.mp hlog
  obtain ⟨start, hs, hw, -, henums, hf⟩ := plan_ok hp
  obtain ⟨hin, hin', hin''⟩ := mem_timeline_of_described hs hw henums hf
  refine ⟨p, hp, Timeline.pairwise_ofLabels _, fun version => SchemaHistory.mem_timeline, ?_,
    fun e he => ?_, perm_datedQueries nodup_timeline hin hin' hin'', size_ofPlan⟩
  · rw [entries_ofPlan, List.map_map]
    exact List.map_id _
  · rw [entries_ofPlan] at he
    obtain ⟨version, -, rfl⟩ := List.mem_map.mp he
    rfl

/-- A table with a column of an enum type, a function that counts its rows, and versions at which
only one of the three changes, or nothing at all. -/
def countedBooks : SchemaHistory where
  tables := [⟨"app.Book", [⟨"1", some "book", [.add "genre" { type := .enum "genre" }], [], []⟩,
    ⟨"3", none, [.add "title" { type := .text }], [], []⟩]⟩]
  enums := [⟨"genre", "app.Genre", [⟨"1", ["fiction"]⟩, ⟨"3", ["poetry"]⟩, ⟨"4", ["fiction"]⟩]⟩]
  functions := [⟨"count_books", [⟨"2", [], .bigInt, "SELECT count(*) FROM book"⟩,
    ⟨"3", [], .integer, "SELECT count(*)::int FROM book"⟩]⟩]

theorem merged_exactly_countedBooks :
    ∃ log p, ofHistory .postgres countedBooks = .ok log ∧
      plan ⟨.postgres, countedBooks⟩ = .ok p ∧
      log.entries.map (·.version) = ["1", "2", "3", "4"] ∧
      log.entries.map (·.queries.length) = [2, 1, 3, 0] ∧ log.size = 6 ∧
      (datedQueries log.entries).Perm (datedQueries ((p.describedEnums .postgres).1
        ++ (p.describedFunctions .postgres).1 ++ (p.describedTables .postgres).1)) := by
  obtain ⟨log, hlog⟩ := Except.exists_of_isOk
    (show (ofHistory .postgres countedBooks).isOk = true by decide)
  obtain ⟨p, hp, -, -, hversions, -, hperm, hsize⟩ := merged_exactly hlog
  have hcomputed : log.versions = ["1", "2", "3", "4"] ∧
      log.entries.map (·.queries.length) = [2, 1, 3, 0] ∧
      (log.entries.flatMap (·.queries)).length = 6 := by
    obtain rfl := Except.ok.inj (hlog.symm.trans rfl)
    exact ⟨rfl, rfl, rfl⟩
  obtain ⟨hlabels, hlengths, htotal⟩ := hcomputed
  exact ⟨log, p, hlog, hp, hversions.trans hlabels, hlengths, hsize.trans htotal, hperm⟩

end Changelog

end SchemaEvolution
