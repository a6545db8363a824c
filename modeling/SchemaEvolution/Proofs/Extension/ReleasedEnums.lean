import SchemaEvolution.Migration.Pending
import SchemaEvolution.Proofs.Extension.ReleasedTables
import SchemaEvolution.Proofs.Extension.Unwritten
import SchemaEvolution.Proofs.Walk.Enums

/-!
# Released enum history

An enum comes into use with the first column of its type, but what is done about it is done along
the whole timeline. So when a history goes on, an enum that comes into use late may bring statements
to versions that are released already. What a changelog does about enums at the released versions
stays as it is exactly if this does not happen.
-/

namespace SchemaEvolution

open EnumRegistry

variable {d : Dialect} {h h' : SchemaHistory} {version : String}

/-! ## Tables and enums do not share descriptions -/

/-- No description that a table edit gets is one for an enum. -/
theorem TableEdit.not_ofEnum {e : TableEdit} {rest : String} : ¬ OfEnum (e.heading ++ rest) := by
  -- the first eight characters tell them apart
  have hheading : 8 ≤ e.heading.toList.length ∧
      e.heading.toList.take 8 ∉ ["create-e".toList, "add-enum".toList] := by
    unfold heading
    split <;> decide
  have htake : (e.heading ++ rest).toList.take 8 = e.heading.toList.take 8 := by
    rw [String.toList_append, List.take_append_of_le_length hheading.1]
  rintro ⟨rest', heq | heq⟩
  · rw [heq, String.toList_append, List.take_append_of_le_length (by decide)] at htake
    exact hheading.2 (htake ▸ List.mem_cons_self)
  · rw [heq, String.toList_append, List.take_append_of_le_length (by decide)] at htake
    exact hheading.2 (htake ▸ List.mem_cons_of_mem _ (List.mem_singleton_self _))

namespace Changelog

/-- For the queries about enums it does not matter what is done about tables. -/
theorem enumEntries_ofPlan {p : Plan} {start : LiveSchema}
    (hstart : LiveSchema.start h = .ok start) (hw : start.walk ⟨d, h⟩ h.timeline = .ok p.walk)
    (henums : p.walk.final.enums.operations d p.walk.usesAt = .ok p.enums) :
    (ofPlan ⟨d, h⟩ p).enumEntries = gather h.timeline (describeAll d [] p.enums).1 := by
  refine congrArg (gather h.timeline) (?_ :
    (describeAll d (describeAll d [] p.walk.operations).2 p.enums).1 = (describeAll d [] p.enums).1)
  refine describeAll_congr (P := OfEnum) ?_ ?_ ?_
  · rintro base suffix ⟨rest, rfl | rfl⟩
    · exact ⟨rest ++ suffix, Or.inl (String.append_assoc ..)⟩
    · exact ⟨rest ++ suffix, Or.inr (String.append_assoc ..)⟩
  · intro x hx
    refine iff_of_false (fun hin => ?_) List.not_mem_nil
    rcases mem_taken hin with hnil | ⟨o, ho, suffix, rfl⟩
    · cases hnil
    · obtain ⟨_, -, e, he⟩ := LiveSchema.walk_accounts (LiveSchema.sound_start hstart) hw o ho
      obtain ⟨rest, hrest⟩ := he.heading
      rw [hrest, String.append_assoc] at hx
      exact TableEdit.not_ofEnum hx
  · intro o ho
    exact (operationsFrom_mem (operations_ok henums) ho).2

end Changelog

/-! ## The enums of both walks -/

namespace SchemaHistory.Extends

variable {start start' : LiveSchema} {w w' : LiveSchema.Walk} {p p' : Changelog.Plan}

/-- The walk of an extended history has the enums of the walk of the history itself, grown at new
labels, and then others; before each released version it finds the same columns of enum types. -/
theorem enums_in_use (hx : h.Extends (fun _ => h.IsLater) h')
    (hs : LiveSchema.start h = .ok start) (hs' : LiveSchema.start h' = .ok start')
    (hw : start.walk ⟨d, h⟩ h.timeline = .ok w) (hw' : start'.walk ⟨d, h'⟩ h'.timeline = .ok w') :
    w.final.enums.timeline = h.timeline ∧ w'.final.enums.timeline = h'.timeline ∧
      (∃ own further, w'.final.enums.enums = own ++ further ∧
        List.Forall₂ (EnumHistory.Continues h.IsLater) w.final.enums.enums own) ∧
      (w'.final.enums.enums.map (·.name)).Nodup ∧
      ∀ version ∈ h.timeline, w'.usesAt version = w.usesAt version := by
  obtain ⟨middle, rest, hwider, hmiddle, hrest, hfinal, -, huses⟩ :=
    hx.walk_append hx.growsLater (fun _ hv => hv.not_mem) (fun _ _ hv => hv.not_mem) hs hs' hw hw'
  obtain ⟨further, hfurther⟩ := (LiveSchema.walk_grows hmiddle hrest).enums
  obtain ⟨htimeline', hnames'⟩ := LiveSchema.enums_of_start hs' hw'
  refine ⟨hwider.timeline, htimeline', ⟨middle.enums.enums, further, ?_, hwider.enums⟩, hnames',
    fun version hv => ?_⟩
  · rw [hfinal, hfurther]
  · -- the uses of the history itself come first, so what is found in them is found
    obtain ⟨use, huse⟩ : ∃ use, w.uses.find? (·.1 == version) = some use := by
      rw [← LiveSchema.walk_uses hw] at hv
      obtain ⟨use, hm, rfl⟩ := List.mem_map.mp hv
      exact Option.isSome_iff_exists.mp (List.find?_isSome.mpr ⟨use, hm, by simp⟩)
    rw [LiveSchema.Walk.usesAt, huses, List.find?_append, huse, LiveSchema.Walk.usesAt, huse]
    rfl

/-- What is planned about the enums of an extended history: at the released versions what is planned
about those of the history itself, and what is done there about further enums; then what is done at
the new versions. -/
theorem planned_enums {own further : List EnumHistory} (hx : h.Extends (fun _ => h.IsLater) h')
    (htimeline : p.walk.final.enums.timeline = h.timeline)
    (htimeline' : p'.walk.final.enums.timeline = h'.timeline)
    (hsplit : p'.walk.final.enums.enums = own ++ further)
    (hown : List.Forall₂ (EnumHistory.Continues h.IsLater) p.walk.final.enums.enums own)
    (huses : ∀ version ∈ h.timeline, p'.walk.usesAt version = p.walk.usesAt version)
    (henums : p.walk.final.enums.operations d p.walk.usesAt = .ok p.enums)
    (henums' : p'.walk.final.enums.operations d p'.walk.usesAt = .ok p'.enums) :
    ∃ front back others, p'.enums = front ++ back ∧
      (∀ o ∈ back, o.version ∉ h.timeline) ∧
      operationsFrom d further p.walk.usesAt [] h.timeline = .ok others ∧
      (∀ version, statementsAt version front
        = statementsAt version p.enums + statementsAt version others) ∧
      (written others = [] → written front = written p.enums) := by
  have henums := operations_ok henums
  have henums' := operations_ok henums'
  rw [htimeline] at henums
  rw [htimeline', hx.timeline_eq hx.growsLater, hsplit] at henums'
  obtain ⟨front, back, hfront, hback, hp'⟩ := operationsFrom_append_ok.mp henums'
  obtain ⟨same, others, hsame, hothers, hcount, hwritten⟩ := operationsFrom_append_enums hfront
  have hold : ∀ version ∈ [] ++ h.timeline, ¬ h.IsLater version :=
    fun version hv hlater => hlater.not_mem hv
  rw [operationsFrom_congr hown hold huses, henums] at hsame
  obtain rfl := Except.ok.inj hsame
  have hothers' : operationsFrom d further p'.walk.usesAt [] h.timeline
      = operationsFrom d further p.walk.usesAt [] h.timeline :=
    operationsFrom_congr (List.forall₂_same.mpr fun e _ => ⟨[], by simp, by simp⟩) hold huses
  refine ⟨front, back, others, hp', fun o ho => ?_, hothers'.symm.trans hothers, hcount, hwritten⟩
  have hnew := (operationsFrom_mem hback ho).1
  rw [List.mem_filter, decide_eq_true_eq] at hnew
  exact hnew.2

end SchemaHistory.Extends

/-! ## What is still to be applied -/

/-- After the last of the old versions, the new ones are pending. -/
theorem pendingAfter_getLast {old new : List String} {entry : String → VersionEntry}
    (hentry : ∀ version, (entry version).version = version) (hn : (old ++ new).Nodup) :
    pendingAfter ((old ++ new).map entry) old.getLast? = new.map entry := by
  induction old using List.reverseRecOn with
  | nil => rfl
  | append_singleton old last _ =>
    rw [List.append_assoc, List.nodup_append] at hn
    have hpassed : ∀ e ∈ old.map entry, e.version ≠ (entry last).version := by
      intro e he
      obtain ⟨version, hv, rfl⟩ := List.mem_map.mp he
      rw [hentry, hentry]
      exact hn.2.2 version hv last List.mem_cons_self
    have hpending : pendingAfter (old.map entry ++ entry last :: new.map entry)
        (some (entry last).version) = new.map entry := pendingAfter_append_cons hpassed
    rw [hentry] at hpending
    rw [List.getLast?_concat, List.map_append, List.map_append, List.append_assoc]
    exact hpending

namespace Changelog

variable {log log' : Changelog}

/-- The queries for enums that come with some versions. -/
def enumQueries (log : Changelog) (versions : List String) : List DescribedQuery :=
  versions.flatMap (queriesAt log.enumEntries)

/-- A database that has gone through the versions of a changelog gets all queries for enums of a
longer one when the versions that are pending are applied, as long as the first entries agree. -/
theorem enumQueries_resumed {new : List String} (hversions : log'.versions = log.versions ++ new)
    (hn : log'.versions.Nodup)
    (hsame : ∀ version ∈ log.versions, log'.enumEntries.find? (·.version == version)
      = log.enumEntries.find? (·.version == version)) :
    log.enumQueries log.versions
        ++ log'.enumQueries ((pendingAfter log'.entries log.versions.getLast?).map (·.version))
      = log'.enumQueries log'.versions := by
  have hpending : (pendingAfter log'.entries log.versions.getLast?).map (·.version) = new := by
    rw [hversions] at hn
    rw [entries, hversions, pendingAfter_getLast (fun _ => rfl) hn, List.map_map]
    exact List.map_id new
  have hold : log.enumQueries log.versions = log'.enumQueries log.versions := by
    refine List.flatMap_congr fun version hv => ?_
    rw [queriesAt, queriesAt, hsame version hv]
  rw [hpending, hold, hversions, enumQueries, enumQueries, enumQueries, List.flatMap_append]

/-- The enums that only the second of two plans takes into use. -/
def Plan.furtherEnums (p p' : Plan) : List EnumHistory :=
  p'.walk.final.enums.enums.filter fun e => p.walk.final.enums.enums.all (·.name != e.name)

theorem names_of_continues {label : String → Prop} {es es' : List EnumHistory}
    (hes : List.Forall₂ (EnumHistory.Continues label) es es') :
    es'.map (·.name) = es.map (·.name) := by
  induction hes with
  | nil => rfl
  | cons he _ ih => rw [List.map_cons, List.map_cons, ih, he.name_eq.1]

theorem Plan.mem_furtherEnums {p p' : Plan} {own further : List EnumHistory} {e : EnumHistory}
    (hsplit : p'.walk.final.enums.enums = own ++ further)
    (hown : List.Forall₂ (EnumHistory.Continues h.IsLater) p.walk.final.enums.enums own)
    (hn : (p'.walk.final.enums.enums.map (·.name)).Nodup) :
    e ∈ p.furtherEnums p' ↔ e ∈ further := by
  rw [hsplit, List.map_append, List.nodup_append] at hn
  have hnames : (p.walk.final.enums.enums.all (·.name != e.name)) = true
      ↔ e.name ∉ own.map (·.name) := by
    rw [names_of_continues hown]
    simp
  rw [furtherEnums, List.mem_filter, hsplit, List.mem_append, hnames]
  constructor
  · rintro ⟨he | he, hnew⟩
    · exact absurd (List.mem_map_of_mem he) hnew
    · exact he
  · intro he
    exact ⟨Or.inr he, fun hin => hn.2.2 e.name hin e.name (List.mem_map_of_mem he) rfl⟩

/-- Released enum history never changes, but for enums that come into use late. When a history is
extended at labels that come after all of its own, the changelog has the same entry for the enums at
each of its labels, or none as before, exactly if the enums that only the extension takes into use
show nowhere along the old timeline. A database that has gone through the old timeline then gets
every query for enums when the new versions are applied. -/
theorem released_enums_kept (hx : h.Extends (fun _ => h.IsLater) h')
    (hlog : ofHistory d h = .ok log) (hlog' : ofHistory d h' = .ok log') :
    ∃ p p', plan ⟨d, h⟩ = .ok p ∧ plan ⟨d, h'⟩ = .ok p' ∧
      ((∀ version ∈ h.timeline,
          log'.enumEntries.find? (·.version == version)
            = log.enumEntries.find? (·.version == version)) ↔
        ∀ e ∈ p.furtherEnums p', e.Unwritten d h.timeline p.walk.usesAt) ∧
      ((∀ e ∈ p.furtherEnums p', e.Unwritten d h.timeline p.walk.usesAt) →
        log.enumQueries log.versions
            ++ log'.enumQueries
              ((pendingAfter log'.entries log.versions.getLast?).map (·.version))
          = log'.enumQueries log'.versions) := by
  obtain ⟨p, hp, rfl⟩ := Except.map_ok.mp hlog
  obtain ⟨p', hp', rfl⟩ := Except.map_ok.mp hlog'
  obtain ⟨start, hs, hw, -, henums, -⟩ := plan_ok hp
  obtain ⟨start', hs', hw', -, henums', -⟩ := plan_ok hp'
  obtain ⟨htimeline, htimeline', ⟨own, further, hsplit, hown⟩, hn, huses⟩ :=
    hx.enums_in_use hs hs' hw hw'
  obtain ⟨front, back, others, hp'enums, hback, hothers, hcount, hwritten⟩ :=
    hx.planned_enums htimeline htimeline' hsplit hown huses henums henums'
  have hunwritten : (∀ e ∈ p.furtherEnums p', e.Unwritten d h.timeline p.walk.usesAt) ↔
      written others = [] := by
    rw [written_operationsFrom hothers]
    simp only [Plan.mem_furtherEnums hsplit hown hn]
  -- what is to be done at a released version is what the front does there
  have hfind : ∀ version ∈ h.timeline,
      (ofPlan ⟨d, h'⟩ p').enumEntries.find? (·.version == version)
        = entryOf version (queriesOf (describeAll d [] front).1 version) := by
    intro version hv
    rw [enumEntries_ofPlan hs' hw' henums', find?_gather nodup_timeline (hx.timeline_subset hv),
      hp'enums, describeAll_append, queriesOf_append,
      queriesOf_eq_nil fun o ho he => hback o ho (he ▸ hv), List.append_nil]
  have hentries : (∀ version ∈ h.timeline,
      (ofPlan ⟨d, h'⟩ p').enumEntries.find? (·.version == version)
        = (ofPlan ⟨d, h⟩ p).enumEntries.find? (·.version == version)) ↔ written others = [] := by
    constructor
    · intro hsame
      rw [written_eq_nil]
      intro o ho
      have hv := (operationsFrom_mem hothers ho).1
      have hqueries := hsame o.version hv
      rw [hfind o.version hv, enumEntries_ofPlan hs hw henums, find?_gather nodup_timeline hv,
        entryOf_inj] at hqueries
      have hlength := congrArg List.length hqueries
      rw [length_queriesOf, length_queriesOf, hcount] at hlength
      exact statementsAt_eq_zero.mp (by omega) o ho rfl
    · intro hnone version hv
      rw [hfind version hv, enumEntries_ofPlan hs hw henums, find?_gather nodup_timeline hv,
        ← queriesOf_written, hwritten hnone, queriesOf_written]
  refine ⟨p, p', hp, hp', hentries.trans hunwritten.symm, fun hnone => ?_⟩
  have hsame := hentries.mpr (hunwritten.mp hnone)
  exact enumQueries_resumed (hx.timeline_eq hx.growsLater) nodup_timeline hsame

/-! ## Late use -/

/-- A table without columns of an enum type, next to an enum. -/
def unusedEnum : SchemaHistory where
  tables := [⟨"a", [⟨"1", some "a", [.add "x" { type := .text }], [], []⟩]⟩]
  enums := [⟨"e", "e", [⟨"1", ["p"]⟩]⟩]

/-- The same, where a later column has the enum as its type. -/
def enumUsedLater : SchemaHistory where
  tables := [⟨"a", [⟨"1", some "a", [.add "x" { type := .text }], [], []⟩,
    ⟨"2", none, [.add "y" { type := .enum "e" }], [], []⟩]⟩]
  enums := [⟨"e", "e", [⟨"1", ["p"]⟩]⟩]

/-- An enum with values that comes into use late is created at a released version; a database that
has gone through that version never creates it. -/
theorem late_use_writes_released_enums :
    unusedEnum.Extends (fun _ => unusedEnum.IsLater) enumUsedLater ∧ "1" ∈ unusedEnum.timeline ∧
      ∃ log log', ofHistory .postgres unusedEnum = .ok log ∧
        ofHistory .postgres enumUsedLater = .ok log' ∧
        log'.enumEntries.find? (·.version == "1") ≠ log.enumEntries.find? (·.version == "1") ∧
        log.enumQueries log.versions
            ++ log'.enumQueries ((pendingAfter log'.entries log.versions.getLast?).map (·.version))
          ≠ log'.enumQueries log'.versions := by
  have hlater : unusedEnum.IsLater "2" := by
    unfold SchemaHistory.IsLater
    decide
  refine ⟨⟨⟨enumUsedLater.tables, [], rfl, ?_, by simp⟩,
    ⟨enumUsedLater.enums, [], rfl, ?_, by simp⟩,
    ⟨[], [], rfl, .nil, by simp⟩⟩, by decide, _, _, rfl, rfl, by decide, by decide⟩
  · exact .cons ⟨[⟨"2", none, [.add "y" { type := .enum "e" }], [], []⟩], rfl,
      List.forall_mem_singleton.mpr hlater⟩ .nil
  · exact .cons ⟨[], rfl, by simp⟩ .nil

/-- A table with a column of an enum type. -/
def usedEnum : SchemaHistory where
  tables := [⟨"a", [⟨"1", some "a", [.add "x" { type := .enum "e" }], [], []⟩]⟩]
  enums := [⟨"e", "e", [⟨"1", ["p"]⟩]⟩]

/-- The same, where the enum grows, and a second one comes into use with its first values. -/
def usedEnumLater : SchemaHistory where
  tables := [⟨"a", [⟨"1", some "a", [.add "x" { type := .enum "e" }], [], []⟩,
    ⟨"2", none, [.add "y" { type := .enum "f" }], [], []⟩]⟩]
  enums := [⟨"e", "e", [⟨"1", ["p"]⟩, ⟨"2", ["q"]⟩]⟩, ⟨"f", "f", [⟨"2", ["r"]⟩]⟩]

theorem released_enums_kept_usedEnum :
    ∃ log log', ofHistory .postgres usedEnum = .ok log ∧
      ofHistory .postgres usedEnumLater = .ok log' ∧
      log'.enumEntries.find? (·.version == "1") = log.enumEntries.find? (·.version == "1") ∧
      log.enumQueries log.versions
          ++ log'.enumQueries ((pendingAfter log'.entries log.versions.getLast?).map (·.version))
        = log'.enumQueries log'.versions := by
  have hlater : usedEnum.IsLater "2" := by
    unfold SchemaHistory.IsLater
    decide
  obtain ⟨log, hlog⟩ := Except.exists_of_isOk
    (show (ofHistory .postgres usedEnum).isOk = true by decide)
  obtain ⟨log', hlog'⟩ := Except.exists_of_isOk
    (show (ofHistory .postgres usedEnumLater).isOk = true by decide)
  have htables : List.Forall₂ (TableHistory.Continues usedEnum.IsLater) usedEnum.tables
      usedEnumLater.tables :=
    .cons ⟨[⟨"2", none, [.add "y" { type := .enum "f" }], [], []⟩], rfl,
      List.forall_mem_singleton.mpr hlater⟩ .nil
  have henums : List.Forall₂ (EnumHistory.Continues usedEnum.IsLater) usedEnum.enums
      [⟨"e", "e", [⟨"1", ["p"]⟩, ⟨"2", ["q"]⟩]⟩] :=
    .cons ⟨[⟨"2", ["q"]⟩], rfl, List.forall_mem_singleton.mpr hlater⟩ .nil
  obtain ⟨p, p', hp, hp', hsame, hrun⟩ := released_enums_kept ⟨⟨_, [], rfl, htables, by simp⟩,
    ⟨_, [⟨"f", "f", [⟨"2", ["r"]⟩]⟩], rfl, henums,
      List.forall_mem_singleton.mpr (List.forall_mem_singleton.mpr hlater)⟩,
    ⟨[], [], rfl, .nil, by simp⟩⟩ hlog hlog'
  have hfurther : p.furtherEnums p' = [⟨"f", "f", [⟨"2", ["r"]⟩]⟩] := by
    obtain rfl := Except.ok.inj (hp.symm.trans rfl)
    obtain rfl := Except.ok.inj (hp'.symm.trans rfl)
    rfl
  have hunwritten : ∀ e ∈ p.furtherEnums p',
      e.Unwritten .postgres usedEnum.timeline p.walk.usesAt := by
    rw [hfurther, List.forall_mem_singleton]
    rfl
  exact ⟨log, log', hlog, hlog', hsame.mpr hunwritten "1" (by decide), hrun hunwritten⟩

end Changelog

end SchemaEvolution
