import SchemaEvolution.Proofs.Dialects.Operations
import SchemaEvolution.Proofs.Enums.Definition
import SchemaEvolution.Proofs.Enums.Lookup
import SchemaEvolution.Proofs.Enums.TypeSql
import SchemaEvolution.Proofs.Statements

/-!
# What is written about enums in PostgreSQL, replayed

PostgreSQL has a type for each enum. It is created at the version at which the enum gets its first
values, and whatever the enum gains later is added to it, value by value. So who runs the statements
up to a version has the type with the values that the enum has there, whatever is written about
other enums in between.
-/

namespace SchemaEvolution

/-! ## One enum -/

namespace EnumHistory

variable {e : EnumHistory} {passed versions later : List String} {version : String}

/-- What an enum is at a version of a timeline without repetitions. -/
theorem snapshotAt?_of_nodup (hn : (passed ++ version :: later).Nodup) :
    e.snapshotAt? (passed ++ version :: later) version
      = visible (e.through (passed ++ [version])) :=
  snapshotAt?_eq_visible fun hin =>
    (List.nodup_append.mp hn).2.2 version hin version List.mem_cons_self rfl

theorem through_name : (e.through versions).name = e.name := by
  induction versions using List.reverseRecOn with
  | nil => rfl
  | append_singleton versions version ih => rw [through_concat, next_name.1, ih]

theorem nodup_through : (e.through versions).values.Nodup := by
  have hfold : ∀ added start : List String, start.Nodup →
      (added.foldl Enumeration.insertValue start).Nodup := by
    intro added
    induction added with
    | nil => exact fun _ h => h
    | cons value added ih =>
      intro start h
      refine ih _ ?_
      unfold Enumeration.insertValue
      split
      · exact h
      · next hnew =>
        refine List.nodup_append.mpr ⟨h, by simp, fun a ha b hb hab => hnew ?_⟩
        rw [← List.mem_singleton.mp hb, ← hab]
        exact ha
  induction versions using List.reverseRecOn with
  | nil => exact List.nodup_nil
  | append_singleton versions version ih =>
    rw [through_concat, next]
    split
    · exact hfold _ _ ih
    · exact ih

/-- An enum keeps the values that it has, in their places. -/
theorem isPrefix_through (e : EnumHistory) (versions later : List String) :
    (e.through versions).values <+: (e.through (versions ++ later)).values := by
  induction later using List.reverseRecOn with
  | nil => simp
  | append_singleton later version ih =>
    refine ih.trans ?_
    rw [← List.append_assoc, through_concat, next]
    split
    · exact Enumeration.isPrefix_gaining
    · exact List.prefix_refl _

/-- What is written about an enum in PostgreSQL at a version that comes after some others. -/
def typeStatements (e : EnumHistory) (passed : List String) (version : String) : List Ddl :=
  if (e.through passed).values = [] then
    if (e.through (passed ++ [version])).values = [] then []
    else [.createType e.name (e.through (passed ++ [version])).values]
  else
    ((e.through (passed ++ [version])).values.drop (e.through passed).values.length).map
      (.addValue e.name)

open EnumRegistry in
theorem statements_operationAt_postgres {uses : List EnumUse} {part : List Operation}
    (h : operationAt .postgres passed version uses e = .ok part) :
    part.flatMap (·.statements) = e.typeStatements passed version := by
  unfold typeStatements
  rcases operationAt_cases h with ⟨rfl, hnow | ⟨hbefore, hle⟩⟩ | ⟨hnow, hbefore, description, rfl⟩ |
    ⟨hbefore, -, description, statements, rfl, hgrowth⟩
  · rw [if_pos (through_values hnow), if_pos hnow]
    rfl
  · rw [if_neg hbefore, List.drop_eq_nil_of_le (Nat.le_of_not_lt hle)]
    rfl
  · rw [if_pos hbefore, if_neg hnow, List.flatMap_singleton, Dialect.enumCreation, through_name]
  · obtain rfl := Except.ok.inj hgrowth
    rw [if_neg hbefore, List.flatMap_singleton, through_name]

theorem concernsType_of_mem {statement : Ddl} {name : String}
    (h : statement ∈ e.typeStatements passed version) :
    statement.concernsType name = (e.name == name) := by
  unfold typeStatements at h
  split at h
  · split at h
    · cases h
    · rw [List.mem_singleton.mp h]
      rfl
  · obtain ⟨value, -, rfl⟩ := List.mem_map.mp h
    rfl

/-- What is written about an enum in PostgreSQL along some versions, which come after others. -/
def typeStatementsAlong (e : EnumHistory) : List String → List String → List (String × Ddl)
  | _, [] => []
  | passed, version :: versions =>
    (e.typeStatements passed version).map (version, ·)
      ++ e.typeStatementsAlong (passed ++ [version]) versions

theorem typeStatementsAlong_append :
    e.typeStatementsAlong passed (versions ++ later)
      = e.typeStatementsAlong passed versions
        ++ e.typeStatementsAlong (passed ++ versions) later := by
  induction versions generalizing passed with
  | nil => rw [List.append_nil, List.nil_append, typeStatementsAlong, List.nil_append]
  | cons version versions ih =>
    rw [List.cons_append, typeStatementsAlong, ih, typeStatementsAlong, List.append_assoc,
      List.append_assoc, List.singleton_append]

theorem mem_typeStatementsAlong {x : String × Ddl} (h : x ∈ e.typeStatementsAlong passed versions) :
    x.1 ∈ versions := by
  induction versions generalizing passed with
  | nil => cases h
  | cons version versions ih =>
    rcases List.mem_append.mp h with h | h
    · obtain ⟨statement, -, rfl⟩ := List.mem_map.mp h
      exact List.mem_cons_self
    · exact List.mem_cons_of_mem _ (ih h)

/-- As long as the enum has no value, nothing is written. -/
theorem typeStatementsAlong_eq_nil (h : (e.through (passed ++ versions)).values = []) :
    e.typeStatementsAlong passed versions = [] := by
  induction versions generalizing passed with
  | nil => rfl
  | cons version versions ih =>
    rw [List.append_cons] at h
    have hnow : (e.through (passed ++ [version])).values = [] := through_values_prefix h
    rw [typeStatementsAlong, ih h, typeStatements, if_pos (through_values hnow), if_pos hnow]
    rfl

/-- From then on the values are added that the enum did not have before. -/
theorem typeStatementsAlong_of_values (h : (e.through passed).values ≠ []) :
    (e.typeStatementsAlong passed versions).map (·.2)
      = ((e.through (passed ++ versions)).values.drop (e.through passed).values.length).map
          (.addValue e.name) := by
  induction versions generalizing passed with
  | nil => rw [List.append_nil, List.drop_length, typeStatementsAlong, List.map_nil, List.map_nil]
  | cons version versions ih =>
    rw [typeStatementsAlong, List.map_append, ih (through_append_values h), typeStatements,
      if_neg h, List.map_map, List.append_cons passed version versions]
    -- what is there grows at this version, and then along the others
    obtain ⟨here, hhere⟩ := e.isPrefix_through passed [version]
    obtain ⟨there, hthere⟩ := e.isPrefix_through (passed ++ [version]) versions
    rw [← hthere, List.drop_left, ← hhere, List.drop_left, List.append_assoc, List.drop_left,
      List.map_append, List.map_map]
    rfl

/-- The type is created where the enum gets its first values, and then grows. -/
theorem typeStatementsAlong_created (versions : List String)
    (hpassed : (e.through passed).values = [])
    (hfirst : (e.through (passed ++ [version])).values ≠ []) :
    ∃ added, e.typeStatementsAlong [] (passed ++ version :: versions)
        = (version, .createType e.name (e.through (passed ++ [version])).values)
          :: e.typeStatementsAlong (passed ++ [version]) versions ∧
      (e.typeStatementsAlong (passed ++ [version]) versions).map (·.2)
        = added.map (.addValue e.name) ∧
      (e.through (passed ++ version :: versions)).values
        = (e.through (passed ++ [version])).values ++ added := by
  obtain ⟨added, hadded⟩ := e.isPrefix_through (passed ++ [version]) versions
  refine ⟨added, ?_, ?_, ?_⟩
  · rw [typeStatementsAlong_append, typeStatementsAlong_eq_nil hpassed, typeStatementsAlong,
      List.nil_append, List.nil_append, typeStatements, if_pos hpassed, if_neg hfirst]
    rfl
  · rw [typeStatementsAlong_of_values hfirst, ← hadded, List.drop_left]
  · rw [List.append_cons, hadded]

/-- Up to a version, the statements are those along the versions up to there. -/
theorem filter_typeStatementsAlong (hsorted : (passed ++ version :: later).Pairwise (· < ·)) :
    (e.typeStatementsAlong [] (passed ++ version :: later)).filter (·.1 ≤ version)
      = e.typeStatementsAlong [] (passed ++ [version]) := by
  obtain ⟨-, hthere, hapart⟩ := List.pairwise_append.mp hsorted
  rw [List.append_cons, typeStatementsAlong_append, List.filter_append, List.filter_eq_self.mpr,
    List.filter_eq_nil_iff.mpr, List.append_nil]
  · intro x hx
    have hlater := (List.pairwise_cons.mp hthere).1 _ (mem_typeStatementsAlong hx)
    rw [decide_eq_true_iff]
    exact String.not_le.mpr hlater
  · intro x hx
    rw [decide_eq_true_iff]
    rcases List.mem_append.mp (mem_typeStatementsAlong hx) with hin | hin
    · exact Std.le_of_lt (hapart _ hin version List.mem_cons_self)
    · exact Std.le_of_eq (List.mem_singleton.mp hin)

/-- An enum that shows somewhere has values in the end. -/
theorem through_values_of_snapshotAt? {s : Enumeration} (hn : versions.Nodup)
    (h : e.snapshotAt? versions version = some s) : (e.through versions).values ≠ [] := by
  obtain ⟨⟨v, o⟩, hfound, -⟩ := Option.bind_eq_some_iff.mp h
  have hv : v = version := by simpa using List.find?_some hfound
  subst hv
  obtain ⟨front, back, rfl⟩ :=
    List.append_of_mem (List.of_mem_zip (List.mem_of_find?_eq_some hfound)).1
  rw [snapshotAt?_of_nodup hn] at h
  rw [List.append_cons]
  exact through_append_values (visible_eq_some.mp h).1

/-- From the version on at which the type is created, what is written up to a version makes up the
values that the enum has there. -/
theorem replay_typeStatementsAlong (hsorted : (passed ++ version :: later).Pairwise (· < ·))
    (hpassed : (e.through passed).values = [])
    (hfirst : (e.through (passed ++ [version])).values ≠ []) {v : String}
    (hv : v ∈ version :: later) :
    ∃ s added, e.snapshotAt? (passed ++ version :: later) v = some s ∧
      ((e.typeStatementsAlong [] (passed ++ version :: later)).filter (·.1 ≤ v)).map (·.2)
        = .createType e.name (e.through (passed ++ [version])).values
          :: added.map (.addValue e.name) ∧
      s.values = (e.through (passed ++ [version])).values ++ added ∧ s.values.Nodup := by
  have hn : (passed ++ version :: later).Nodup := hsorted.imp fun hlt => String.ne_of_lt hlt
  -- the versions up to `v` are those before `version`, itself and some that follow
  obtain ⟨between, back, hlater, hupTo⟩ : ∃ between back,
      passed ++ version :: later = passed ++ between ++ v :: back ∧
        ∃ versions, between ++ [v] = version :: versions := by
    obtain ⟨between, back, hlater⟩ := List.append_of_mem hv
    refine ⟨between, back, by rw [hlater, List.append_assoc], ?_⟩
    cases between with
    | nil => exact ⟨[], by rw [(List.cons.inj hlater).1, List.nil_append]⟩
    | cons first between => exact ⟨between ++ [v], by rw [(List.cons.inj hlater).1]; rfl⟩
  obtain ⟨versions, hversions⟩ := hupTo
  have hreached : passed ++ between ++ [v] = passed ++ version :: versions := by
    rw [List.append_assoc, hversions]
  obtain ⟨added, hstatements, hadded, hvalues⟩ :=
    typeStatementsAlong_created versions hpassed hfirst
  rw [hlater] at hsorted hn ⊢
  refine ⟨e.through (passed ++ version :: versions), added, ?_, ?_, hvalues, nodup_through⟩
  · rw [snapshotAt?_of_nodup hn, hreached, visible_eq_some, List.append_cons]
    exact ⟨through_append_values hfirst, rfl⟩
  · rw [filter_typeStatementsAlong hsorted, hreached, hstatements, List.map_cons, hadded]

/-- The type is created once. -/
theorem filter_createsType (later : List String) (hpassed : (e.through passed).values = [])
    (hfirst : (e.through (passed ++ [version])).values ≠ []) :
    (e.typeStatementsAlong [] (passed ++ version :: later)).filter (·.2.createsType e.name)
      = [(version, .createType e.name (e.through (passed ++ [version])).values)] := by
  obtain ⟨added, hstatements, hadded, -⟩ :=
    typeStatementsAlong_created later hpassed hfirst
  have hlater : (e.typeStatementsAlong (passed ++ [version]) later).filter
      (·.2.createsType e.name) = [] := by
    refine List.filter_eq_nil_iff.mpr fun x hx => ?_
    have hmem : x.2 ∈ added.map (.addValue e.name) := hadded ▸ List.mem_map_of_mem hx
    obtain ⟨value, -, hvalue⟩ := List.mem_map.mp hmem
    rw [← hvalue]
    exact Bool.false_ne_true
  have hcreation : Ddl.createsType e.name
      (.createType e.name (e.through (passed ++ [version])).values) = true := beq_self_eq_true _
  rw [hstatements, ← hlater]
  exact List.filter_cons_of_pos hcreation

end EnumHistory

/-! ## All enums -/

namespace EnumRegistry

open EnumHistory

variable {e : EnumHistory} {es : List EnumHistory} {before versions passed later : List String}
  {version : String} {usesAt : String → List EnumUse} {uses : List EnumUse} {os : List Operation}
  {g : EnumRegistry}

/-- What is written about all enums at a version. -/
theorem dated_operationsAt {parts : List (List Operation)}
    (h : es.mapM (operationAt .postgres passed version uses) = .ok parts) :
    dated parts.flatten = (es.flatMap (·.typeStatements passed version)).map (version, ·) := by
  induction es generalizing parts with
  | nil =>
    obtain rfl := Except.pure_ok.mp h
    rfl
  | cons e es ih =>
    obtain ⟨part, rest, hpart, hrest, rfl⟩ := Except.mapM_cons_ok.mp h
    have hhere : dated part = (part.flatMap (·.statements)).map (version, ·) := by
      rw [dated, List.map_flatMap]
      refine List.flatMap_congr fun o ho => ?_
      rw [(operationAt_mem hpart ho).1]
    rw [List.flatten_cons, dated, List.flatMap_append, ← dated, ← dated, ih hrest, hhere,
      statements_operationAt_postgres hpart, List.flatMap_cons, List.map_append]

/-- Of all that is written, what concerns the type of an enum is written about the enum. -/
theorem filter_typeStatements (hn : (es.map (·.name)).Nodup) (he : e ∈ es) :
    (es.flatMap (·.typeStatements passed version)).filter (·.concernsType e.name)
      = e.typeStatements passed version := by
  induction es with
  | nil => cases he
  | cons first es ih =>
    rw [List.map_cons, List.nodup_cons] at hn
    rw [List.flatMap_cons, List.filter_append]
    rcases List.mem_cons.mp he with rfl | he
    · have hrest : (es.flatMap (·.typeStatements passed version)).filter (·.concernsType e.name)
          = [] := by
        refine List.filter_eq_nil_iff.mpr fun statement hstatement => ?_
        obtain ⟨other, hother, hstatement⟩ := List.mem_flatMap.mp hstatement
        rw [concernsType_of_mem hstatement, beq_iff_eq]
        exact fun hname => hn.1 (hname ▸ List.mem_map_of_mem hother)
      rw [hrest, List.append_nil, List.filter_eq_self]
      intro statement hstatement
      rw [concernsType_of_mem hstatement, beq_self_eq_true]
    · have hfirst : (first.typeStatements passed version).filter (·.concernsType e.name) = [] := by
        refine List.filter_eq_nil_iff.mpr fun statement hstatement => ?_
        rw [concernsType_of_mem hstatement, beq_iff_eq]
        exact fun hname => hn.1 (hname ▸ List.mem_map_of_mem he)
      rw [hfirst, List.nil_append, ih hn.2 he]

/-- So it is along all versions. -/
theorem filter_dated (hn : (es.map (·.name)).Nodup) (he : e ∈ es)
    (h : operationsFrom .postgres es usesAt before versions = .ok os) :
    (dated os).filter (·.2.concernsType e.name) = e.typeStatementsAlong before versions := by
  induction versions generalizing before os with
  | nil =>
    obtain rfl := Except.ok.inj h
    rfl
  | cons version versions ih =>
    obtain ⟨parts, rest, hparts, hrest, rfl⟩ := operationsFrom_cons_ok.mp h
    have hhere : (dated parts.flatten).filter (·.2.concernsType e.name)
        = (e.typeStatements before version).map (version, ·) := by
      rw [dated_operationsAt hparts, List.filter_map]
      exact congrArg (List.map _) (filter_typeStatements hn he)
    rw [dated, List.flatMap_append, ← dated, ← dated, List.filter_append, hhere, ih hrest,
      typeStatementsAlong]

/-- The type of an enum is created once, where the enum gets its first values. -/
theorem filter_dated_createsType (hn : (es.map (·.name)).Nodup) (he : e ∈ es)
    (hpassed : (e.through passed).values = [])
    (hfirst : (e.through (passed ++ [version])).values ≠ [])
    (h : operationsFrom .postgres es usesAt [] (passed ++ version :: later) = .ok os) :
    (dated os).filter (·.2.createsType e.name)
      = [(version, .createType e.name (e.through (passed ++ [version])).values)] := by
  rw [← filter_createsType later hpassed hfirst, ← filter_dated hn he h,
    List.filter_filter]
  refine List.filter_congr fun x _ => ?_
  rw [Ddl.createsType_and_concernsType]

/-- What is written stands in the order of the versions. -/
theorem operationsFrom_byVersion {d : Dialect} (hn : versions.Nodup)
    (h : operationsFrom d es usesAt before versions = .ok os) :
    versions.flatMap (fun version => os.filter (·.version == version)) = os := by
  induction versions generalizing before os with
  | nil =>
    obtain rfl := Except.ok.inj h
    rfl
  | cons version versions ih =>
    obtain ⟨parts, rest, hparts, hrest, rfl⟩ := operationsFrom_cons_ok.mp h
    obtain ⟨hnew, hn⟩ := List.nodup_cons.mp hn
    rw [LiveSchema.flatMap_filter_version hnew _ fun o ho => (operationsFrom_mem hrest ho).1,
      ih hn hrest]
    intro o ho
    obtain ⟨part, hpart, ho⟩ := List.mem_flatten.mp ho
    obtain ⟨e, -, he⟩ := (Except.mem_of_mapM_ok hparts).mp hpart
    exact (operationAt_mem he ho).1

/-- PostgreSQL can always be told about enums: it does not matter to it which columns use them. -/
theorem exists_operations_postgres : ∃ os, g.operations .postgres usesAt = .ok os := by
  have huses : g.operations .postgres usesAt = g.operations .postgres fun _ => [] := rfl
  rw [huses]
  exact exists_operations (d := .postgres) .postgres fun _ => List.forall_mem_nil _

/-- The queries of all versions are the texts of what is written, in order. -/
theorem queries_operationsFrom {d : Dialect} {taken : List String} (hn : versions.Nodup)
    (h : operationsFrom d es usesAt before versions = .ok os) :
    (gather versions (describeAll d taken os).1).flatMap
        (fun entry => entry.queries.map fun q => (entry.version, q.query))
      = (dated os).map fun x => (x.1, x.2.text d) := by
  rw [queries_gather, ← List.map_flatMap]
  congr 1
  conv_rhs => rw [← operationsFrom_byVersion hn h]
  rw [dated, List.flatMap_assoc]
  rfl

/-- The registry of a timeline, when some enums have been registered in turn. -/
def ofEnums (timeline : List String) (es : List EnumHistory) : EnumRegistry :=
  es.foldl register (ofTimeline timeline)

theorem grows_ofEnums {timeline : List String} :
    (ofTimeline timeline).Grows (ofEnums timeline es) := by
  unfold ofEnums
  induction es using List.reverseRecOn with
  | nil => exact .refl _
  | append_singleton es e ih =>
    rw [List.foldl_concat]
    exact ih.trans grows_register

/-- However enums have been registered along a timeline, PostgreSQL can be told about all of them.
Each that has values somewhere gets its type created by one query, at the first version at which it
has any; from there on, the values that this query lists, followed by those that queries have added
to the type up to a version, are the values that the enum has at the version, none of them twice. -/
theorem postgres_enums_replay {timeline : List String} (hsorted : timeline.Pairwise (· < ·))
    (es : List EnumHistory) (usesAt : String → List EnumUse) (taken : List String) :
    ∃ os queries, (ofEnums timeline es).operations .postgres usesAt = .ok os ∧
      queries = (gather timeline (describeAll .postgres taken os).1).flatMap
        (fun entry => entry.queries.map fun q => (entry.version, q.query)) ∧
      queries = (dated os).map (fun x => (x.1, x.2.text .postgres)) ∧
      ∀ e ∈ (ofEnums timeline es).enums, (∃ v, (e.snapshotAt? timeline v).isSome = true) →
        ∃ passed first later created, timeline = passed ++ first :: later ∧
          (∀ v ∈ passed, e.snapshotAt? timeline v = none) ∧
          e.snapshotAt? timeline first = some created ∧
          (dated os).filter (·.2.createsType e.name)
            = [(first, .createType e.name created.values)] ∧
          queries.filter (fun q => Ddl.sqlCreatesType e.name q.2)
            = [(first, "CREATE TYPE " ++ Dialect.quote .postgres e.name ++ " AS ENUM ("
                ++ ", ".intercalate (created.values.map Dialect.literal) ++ ")")] ∧
          ∀ v ∈ first :: later, ∃ s added, e.snapshotAt? timeline v = some s ∧
            (((dated os).filter (·.1 ≤ v)).map (·.2)).filter (·.concernsType e.name)
              = .createType e.name created.values :: added.map (.addValue e.name) ∧
            ((queries.filter (·.1 ≤ v)).map (·.2)).filter (Ddl.sqlConcernsType e.name)
              = ("CREATE TYPE " ++ Dialect.quote .postgres e.name ++ " AS ENUM ("
                  ++ ", ".intercalate (created.values.map Dialect.literal) ++ ")")
                :: added.map (fun value => "ALTER TYPE " ++ Dialect.quote .postgres e.name
                  ++ " ADD VALUE " ++ Dialect.literal value) ∧
            s.values = created.values ++ added ∧ s.values.Nodup := by
  have hn : timeline.Nodup := hsorted.imp fun hlt => String.ne_of_lt hlt
  have hgrows : (ofTimeline timeline).Grows (ofEnums timeline es) := grows_ofEnums
  have hnames : ((ofEnums timeline es).enums.map (·.name)).Nodup := hgrows.distinct List.nodup_nil
  obtain ⟨os, hos⟩ : ∃ os, (ofEnums timeline es).operations .postgres usesAt = .ok os :=
    exists_operations_postgres
  have htimeline : (ofEnums timeline es).timeline = timeline := hgrows.timeline
  have hfrom := operations_ok hos
  rw [htimeline] at hfrom
  refine ⟨os, _, hos, rfl, queries_operationsFrom hn hfrom, ?_⟩
  rw [queries_operationsFrom hn hfrom]
  rintro e he ⟨v, hv⟩
  obtain ⟨s, hs⟩ := Option.isSome_iff_exists.mp hv
  obtain ⟨passed, first, later, rfl, hpassed, hfirst⟩ :=
    exists_first_values (through_values_of_snapshotAt? hn hs)
  have hnone : ∀ v ∈ passed, e.snapshotAt? (passed ++ first :: later) v = none := by
    intro v hv
    obtain ⟨front, back, rfl⟩ := List.append_of_mem hv
    rw [List.append_assoc, List.cons_append] at hn ⊢
    rw [List.append_cons] at hpassed
    rw [snapshotAt?_of_nodup hn]
    exact visible_eq_none.mpr <| through_values_prefix hpassed
  have hcreated : e.snapshotAt? (passed ++ first :: later) first
      = some (e.through (passed ++ [first])) := by
    rw [snapshotAt?_of_nodup hn]
    exact visible_eq_some.mpr ⟨hfirst, rfl⟩
  have hcreation := filter_dated_createsType hnames he hpassed hfirst hfrom
  refine ⟨passed, first, later, e.through (passed ++ [first]), rfl, hnone, hcreated, hcreation,
    ?_, fun v hv => ?_⟩
  · rw [Ddl.filter_sqlCreatesType_dated, hcreation]
    rfl
  · obtain ⟨s, added, hs, hstatements, hvalues⟩ :=
      replay_typeStatementsAlong hsorted hpassed hfirst hv
    have hconcerned : (((dated os).filter (·.1 ≤ v)).map (·.2)).filter (·.concernsType e.name)
        = .createType e.name (e.through (passed ++ [first])).values
          :: added.map (.addValue e.name) := by
      rw [← hstatements, ← filter_dated hnames he hfrom, List.filter_map, List.filter_filter,
        List.filter_filter]
      simp only [Function.comp_def, Bool.and_comm]
    refine ⟨s, added, hs, hconcerned, ?_, hvalues⟩
    rw [Ddl.filter_sqlConcernsType_dated, hconcerned, List.map_cons, List.map_map]
    rfl

/-- An enum with its steps in no order, whose first step adds nothing. -/
def lateMood : EnumHistory :=
  ⟨"mood", "app.Mood", [⟨"3", ["calm", "loud"]⟩, ⟨"1", []⟩, ⟨"2", ["calm", "bright"]⟩]⟩

theorem postgres_enums_replay_lateMood :
    ["1", "2", "3"].Pairwise (· < ·) ∧
      ∃ os queries, (ofEnums ["1", "2", "3"] [⟨"size", "app.Size",
          [⟨"1", ["big"]⟩, ⟨"3", ["small"]⟩]⟩, lateMood]).operations .postgres (fun _ => [])
            = .ok os ∧
        queries = (gather ["1", "2", "3"] (describeAll .postgres [] os).1).flatMap
          (fun entry => entry.queries.map fun q => (entry.version, q.query)) ∧
        (dated os).filter (·.2.createsType "mood")
          = [("2", .createType "mood" ["calm", "bright"])] ∧
        queries.filter (fun q => Ddl.sqlCreatesType "mood" q.2)
          = [("2", "CREATE TYPE \"mood\" AS ENUM ('calm', 'bright')")] ∧
        (((dated os).filter (·.1 ≤ "3")).map (·.2)).filter (·.concernsType "mood")
          = [.createType "mood" ["calm", "bright"], .addValue "mood" "loud"] ∧
        ((queries.filter (·.1 ≤ "3")).map (·.2)).filter (Ddl.sqlConcernsType "mood")
          = ["CREATE TYPE \"mood\" AS ENUM ('calm', 'bright')",
            "ALTER TYPE \"mood\" ADD VALUE 'loud'"] := by
  have hsorted : ["1", "2", "3"].Pairwise (· < ·) := by decide
  obtain ⟨os, queries, hos, hqueries, -, hall⟩ := postgres_enums_replay hsorted
    [⟨"size", "app.Size", [⟨"1", ["big"]⟩, ⟨"3", ["small"]⟩]⟩, lateMood] (fun _ => []) []
  obtain ⟨passed, first, later, created, hsplit, hnone, hcreated, hcreation, hcreationSql,
    hreplay⟩ := hall lateMood (by decide) ⟨"3", by decide⟩
  have hone : lateMood.snapshotAt? ["1", "2", "3"] "1" = none := by decide
  have htwo : lateMood.snapshotAt? ["1", "2", "3"] "2"
      = some ⟨"mood", "app.Mood", ["calm", "bright"]⟩ := by decide
  have hthree : lateMood.snapshotAt? ["1", "2", "3"] "3"
      = some ⟨"mood", "app.Mood", ["calm", "bright", "loud"]⟩ := by decide
  obtain ⟨rfl, rfl, rfl⟩ : passed = ["1"] ∧ first = "2" ∧ later = ["3"] := by
    match passed, hsplit with
    | [], hsplit =>
      obtain ⟨rfl, -⟩ := List.cons.inj hsplit
      exact absurd (hone.symm.trans hcreated) (by simp)
    | [_], hsplit => simpa using hsplit.symm
    | _ :: second :: _, hsplit =>
      have hsecond : "2" = second := (List.cons.inj (List.cons.inj hsplit).2).1
      have hnever := hnone second (by simp)
      rw [← hsecond, htwo] at hnever
      cases hnever
  obtain rfl := Option.some.inj (htwo.symm.trans hcreated)
  obtain ⟨s, added, hs, hstatements, hsql, hvalues, -⟩ := hreplay "3" (by simp)
  obtain rfl := Option.some.inj (hthree.symm.trans hs)
  obtain rfl : added = ["loud"] := by simpa using hvalues.symm
  exact ⟨hsorted, os, queries, hos, hqueries, hcreation, hcreationSql, hstatements, hsql⟩

end EnumRegistry

end SchemaEvolution
