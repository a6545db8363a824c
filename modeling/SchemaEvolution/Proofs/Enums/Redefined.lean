import SchemaEvolution.Proofs.Enums.Stored

/-!
# Columns whose enum has grown

When an enum gains values, MySQL defines every column of its type anew. What is written about enums
at a version is exactly that: each column that there was before the version, and whose enum grows at
it, is defined once, under the name that it had, with the values that there are now. A database that
followed the schema before the version has followed the enums after these definitions.
-/

namespace SchemaEvolution

theorem ColumnType.enumReference?_any {type : ColumnType} {p : String → Bool} :
    type.enumReference?.any p = true ↔
      ∃ reference, type = .enum reference ∧ p reference = true := by
  cases type <;> simp [enumReference?]

/-- In the scope of a single enum nothing else is found. -/
theorem Enumeration.of_scope {s found : Enumeration} {text : String}
    (h : s.scope text = .ok found) : found = s := by
  unfold scope at h
  split at h
  · exact (Except.ok.inj h).symm
  · cases h

/-- A column that is defined anew because its enum has grown, with what the enum is now. -/
structure Redefinition where
  table : LiveTable
  column : LiveColumn
  state : Enumeration
  deriving DecidableEq, Repr

namespace Redefinition

def statement (r : Redefinition) : Ddl :=
  .modifyColumn r.table.name (Dialect.enumDefinition r.column.property r.state.values)

def emission (r : Redefinition) : Emission := ⟨some r.table.id, r.statement⟩

/-- The column that is defined, by the id of its table and its name. -/
def target (r : Redefinition) : String × String := (r.table.id, r.column.name)

end Redefinition

namespace LiveSchema

/-- The columns of an enum, to be defined with what it is now. -/
def redefinitionsOf (s : LiveSchema) (e : EnumHistory) (state : Enumeration) : List Redefinition :=
  (s.tables.filter (·.created)).flatMap fun t =>
    (t.columns.filter (·.property.shape.type.enumReference?.any e.isDesignatedBy)).map
      (⟨t, ·, state⟩)

/-- The columns that are defined anew at a version that comes after some others, because of some
enums, when the schema before it is `s`. -/
def redefinitions (s : LiveSchema) (es : List EnumHistory) (versions : List String)
    (version : String) : List Redefinition :=
  (es.filter (·.gains versions version)).flatMap fun e =>
    s.redefinitionsOf e (e.through (versions ++ [version]))

variable {s : LiveSchema} {g : EnumRegistry} {e : EnumHistory} {state : Enumeration}
  {versions passed later : List String} {version : String} {r : Redefinition}

theorem mem_redefinitionsOf : r ∈ s.redefinitionsOf e state ↔
    r.table ∈ s.tables ∧ r.table.created = true ∧ r.column ∈ r.table.columns ∧
      (∃ reference, r.column.property.shape.type = .enum reference ∧
        e.isDesignatedBy reference = true) ∧ r.state = state := by
  simp only [redefinitionsOf, List.mem_flatMap, List.mem_filter, List.mem_map]
  constructor
  · rintro ⟨t, ⟨ht, hc⟩, k, ⟨hk, htype⟩, rfl⟩
    exact ⟨ht, hc, hk, ColumnType.enumReference?_any.mp htype, rfl⟩
  · rintro ⟨ht, hc, hk, htype, rfl⟩
    exact ⟨r.table, ⟨ht, hc⟩, r.column, ⟨hk, ColumnType.enumReference?_any.mpr htype⟩, rfl⟩

/-! ## What is written about enums -/

theorem filter_enumUses (state : Enumeration) :
    s.enumUses.filter (fun u => u.property.shape.type.enumReference?.any e.isDesignatedBy)
      = (s.redefinitionsOf e state).map fun r => ⟨r.table.name, r.column.property⟩ := by
  have hany : ∀ o : Option String, (o.any e.isDesignatedBy && o.isSome) = o.any e.isDesignatedBy :=
    fun o => by cases o <;> simp
  simp only [enumUses, redefinitionsOf, List.filter_flatMap, List.filter_map, List.filter_filter,
    List.map_flatMap, List.map_map, Function.comp_def, hany]

/-- When an enum grows, the columns that it is used in are defined anew. -/
theorem enumGrowth_mysql {added : List String} {statements : List Ddl}
    (h : Dialect.enumGrowth .mysql state added
      (s.enumUses.filter fun u => u.property.shape.type.enumReference?.any e.isDesignatedBy)
        = .ok statements) :
    statements = (s.redefinitionsOf e state).map (·.statement) := by
  rw [filter_enumUses state, Dialect.enumGrowth, List.mapM_map] at h
  refine Except.mapM_ok_eq_map (fun r hr x hx => ?_) h
  obtain ⟨-, -, -, ⟨reference, htype, -⟩, hstate⟩ := mem_redefinitionsOf.mp hr
  obtain ⟨text, htext, rfl⟩ := Except.map_ok.mp hx
  obtain ⟨found, hfound, rfl⟩ := Dialect.declaration_enum htype htext
  rw [Redefinition.statement, hstate, Enumeration.of_scope hfound]

open EnumRegistry in
/-- What is written about one enum at a version. -/
theorem statements_operationAt {part : List Operation}
    (h : operationAt .mysql passed version s.enumUses e = .ok part) :
    part.flatMap (·.statements)
      = if e.gains passed version then
          (s.redefinitionsOf e (e.through (passed ++ [version]))).map (·.statement)
        else [] := by
  rcases operationAt_cases h with ⟨rfl, hwhy⟩ | ⟨-, hbefore, description, rfl⟩ |
    ⟨hbefore, hlt, description, statements, rfl, hgrowth⟩
  · rw [if_neg]
    · rfl
    · rw [EnumHistory.gains_iff]
      rintro ⟨-, hlt⟩
      rcases hwhy with hnow | ⟨-, hle⟩
      · simp [hnow] at hlt
      · exact hle hlt
  · rw [if_neg]
    · rfl
    · rw [EnumHistory.gains_iff]
      exact fun hgains => hgains.1 hbefore
  · rw [if_pos (EnumHistory.gains_iff.mpr ⟨hbefore, hlt⟩), List.flatMap_singleton]
    exact enumGrowth_mysql hgrowth

/-- What is written about all enums at a version. -/
theorem statements_operations {es : List EnumHistory} {parts : List (List Operation)}
    (h : es.mapM (EnumRegistry.operationAt .mysql passed version s.enumUses) = .ok parts) :
    parts.flatten.flatMap (·.statements)
      = (s.redefinitions es passed version).map (·.statement) := by
  induction es generalizing parts with
  | nil =>
    obtain rfl := Except.pure_ok.mp h
    rfl
  | cons e es ih =>
    obtain ⟨part, rest, hpart, hrest, rfl⟩ := Except.mapM_cons_ok.mp h
    rw [List.flatten_cons, List.flatMap_append, statements_operationAt hpart, ih hrest,
      redefinitions, redefinitions, List.filter_cons]
    by_cases hgains : e.gains passed version = true
    · rw [if_pos hgains, if_pos hgains, List.flatMap_cons, List.map_append]
    · rw [if_neg hgains, if_neg hgains, List.nil_append]

/-- What is written about enums along a timeline, at one version of it. -/
theorem statements_at_version {usesAt : String → List EnumUse} {os : List Operation}
    (hos : g.operations .mysql usesAt = .ok os) (hsplit : g.timeline = passed ++ version :: later)
    (hn : g.timeline.Nodup) (huses : usesAt version = s.enumUses) :
    (os.filter (·.version == version)).flatMap (·.statements)
      = (s.redefinitions g.enums passed version).map (·.statement) := by
  have hfrom := EnumRegistry.operations_ok hos
  rw [hsplit] at hfrom hn
  obtain ⟨front, back, hfront, hback, rfl⟩ := EnumRegistry.operationsFrom_append_ok.mp hfrom
  obtain ⟨parts, rest, hparts, hrest, rfl⟩ := EnumRegistry.operationsFrom_cons_ok.mp hback
  obtain ⟨-, hthere, hapart⟩ := List.nodup_append.mp hn
  rw [filter_version, ← statements_operations (huses ▸ hparts)]
  · intro o ho
    have hv := (EnumRegistry.operationsFrom_mem hfront ho).1
    exact hapart o.version hv version List.mem_cons_self
  · intro o ho
    obtain ⟨part, hpart, ho⟩ := List.mem_flatten.mp ho
    obtain ⟨e, -, he⟩ := (Except.mem_of_mapM_ok hparts).mp hpart
    exact (EnumRegistry.operationAt_mem he ho).1
  · intro o ho heq
    exact (List.nodup_cons.mp hthere).1 (heq ▸ (EnumRegistry.operationsFrom_mem hrest ho).1)

/-! ## Which columns are defined anew -/

variable {h : SchemaHistory} {reference : String} {t : LiveTable} {k : LiveColumn}

/-- The enum of a column that is there is in use, and has values. -/
theorem Supplied.enum_inUse (hsupplied : Supplied h versions s) (ha : h.EnumsApart)
    (ht : t ∈ s.tables) (hk : k ∈ t.columns) (htype : k.property.shape.type = .enum reference) :
    ∃ e ∈ s.enums.enums, e.isDesignatedBy reference = true ∧ h.enum? reference = some e ∧
      (e.through versions).values ≠ [] := by
  have hreference : k.property.shape.type.innermost.enumReference? = some reference := by
    rw [htype]
    rfl
  obtain ⟨e, he, hvalues⟩ := hsupplied.columns t ht k hk reference hreference
  obtain ⟨hin, hdesignated⟩ := EnumRegistry.enum?_eq_some he
  exact ⟨e, hin, hdesignated, ha.enum? (hsupplied.resolved e hin) hdesignated, hvalues⟩

section

variable (ha : h.EnumsApart) (hsupplied : Supplied h passed s) (hgrows : s.enums.Grows g)
  (hresolved : ∀ e ∈ g.enums, ∃ reference, h.enum? reference = some e)

include ha hsupplied hgrows hresolved

/-- The columns that are defined anew are those whose enum grows, with what it is then. -/
theorem mem_redefinitions : r ∈ s.redefinitions g.enums passed version ↔
    r.table ∈ s.tables ∧ r.table.created = true ∧ r.column ∈ r.table.columns ∧
      ∃ reference e, r.column.property.shape.type = .enum reference ∧
        h.enum? reference = some e ∧ e.gains passed version = true ∧
        r.state = e.through (passed ++ [version]) := by
  simp only [redefinitions, List.mem_flatMap, List.mem_filter, mem_redefinitionsOf]
  constructor
  · rintro ⟨e, ⟨hin, hgains⟩, ht, hc, hk, ⟨reference, htype, hdesignated⟩, hstate⟩
    exact ⟨ht, hc, hk, reference, e, htype, ha.enum? (hresolved e hin) hdesignated, hgains,
      hstate⟩
  · rintro ⟨ht, hc, hk, reference, e, htype, he, hgains, hstate⟩
    obtain ⟨found, hin, hdesignated, hfound, -⟩ := hsupplied.enum_inUse ha ht hk htype
    obtain rfl := Option.some.inj (he.symm.trans hfound)
    exact ⟨e, ⟨hgrows.enums.subset hin, hgains⟩, ht, hc, hk, ⟨reference, htype, hdesignated⟩,
      hstate⟩

end

/-- An enum has each of its columns defined once. -/
theorem nodup_redefinitionsOf (hs : s.Sound) :
    ((s.redefinitionsOf e state).map (·.target)).Nodup := by
  rw [redefinitionsOf, List.map_flatMap, List.nodup_flatMap]
  constructor
  · intro t ht
    have hn : ((t.columns.filter
        (·.property.shape.type.enumReference?.any e.isDesignatedBy)).map (·.name)).Nodup :=
      (hs.columns t (List.mem_filter.mp ht).1).sublist (List.filter_sublist.map _)
    rw [List.map_map]
    show (List.map ((t.id, ·) ∘ fun k : LiveColumn => k.name) _).Nodup
    rw [← List.map_map]
    exact hn.map (Prod.mk_right_injective t.id)
  · have hids : s.tables.Pairwise fun a b => a.id ≠ b.id := List.pairwise_map.mp hs.distinct
    refine (hids.filter _).imp fun {a b} hne p hp hp' => hne ?_
    obtain ⟨r, hr, rfl⟩ := List.mem_map.mp hp
    obtain ⟨r', hr', heq⟩ := List.mem_map.mp hp'
    obtain ⟨k, -, rfl⟩ := List.mem_map.mp hr
    obtain ⟨k', -, rfl⟩ := List.mem_map.mp hr'
    exact (congrArg Prod.fst heq).symm

/-- Every column is defined anew once at most. -/
theorem nodup_redefinitions (ha : h.EnumsApart) (hs : s.Sound)
    (hresolved : ∀ e ∈ g.enums, ∃ reference, h.enum? reference = some e)
    (hn : (g.enums.map (·.name)).Nodup) :
    ((s.redefinitions g.enums passed version).map (·.target)).Nodup := by
  rw [redefinitions, List.map_flatMap, List.nodup_flatMap]
  refine ⟨fun e _ => nodup_redefinitionsOf hs, ?_⟩
  have hnames : g.enums.Pairwise fun a b => a.name ≠ b.name := List.pairwise_map.mp hn
  refine (hnames.filter _).imp_of_mem fun {a b} hain hbin hne p hp hp' => ?_
  obtain ⟨r, hr, rfl⟩ := List.mem_map.mp hp
  obtain ⟨r', hr', heq⟩ := List.mem_map.mp hp'
  obtain ⟨ht, -, hk, ⟨reference, htype, hdesignated⟩, -⟩ := mem_redefinitionsOf.mp hr
  obtain ⟨ht', -, hk', ⟨reference', htype', hdesignated'⟩, -⟩ := mem_redefinitionsOf.mp hr'
  -- one column refers to one enum
  obtain ⟨hid, hname⟩ := Prod.mk.inj heq
  have htable : r'.table = r.table := List.inj_on_of_nodup_map hs.distinct ht' ht hid
  have hcolumn : r'.column = r.column :=
    LiveTable.eq_of_mem_columns (hs.columns _ ht) (htable ▸ hk') hk hname
  rw [hcolumn, htype] at htype'
  obtain rfl := ColumnType.enum.inj htype'
  have hfound := ha.enum? (hresolved a (List.mem_filter.mp hain).1) hdesignated
  have hfound' := ha.enum? (hresolved b (List.mem_filter.mp hbin).1) hdesignated'
  exact hne (congrArg EnumHistory.name (Option.some.inj (hfound.symm.trans hfound')))

end LiveSchema

/-! ## What the database makes of it -/

/-- Whether a column is defined with what its enum has become after some versions. -/
def Redefinition.UpToDate (h : SchemaHistory) (versions : List String) (r : Redefinition) : Prop :=
  ∀ reference e, r.column.property.shape.type = .enum reference → h.enum? reference = some e →
    r.state = e.through versions

/-- Whether a stored column lists the values that its enum has after some versions, or is among
those that are still to be defined. -/
structure StoredColumn.Awaits (h : SchemaHistory) (versions : List String)
    (rs : List Redefinition) (k : LiveColumn) (c : StoredColumn) : Prop where
  name : c.name = k.name
  values : ∀ reference e, k.property.shape.type = .enum reference → h.enum? reference = some e →
    (∃ name, c.definition
      = Dialect.enumDefinition ⟨name, k.property.shape⟩ (e.through versions).values) ∨
    ∃ r ∈ rs, r.column = k

variable {h : SchemaHistory} {versions passed : List String} {version : String} {t : LiveTable}
  {k : LiveColumn} {r : Redefinition} {rs : List Redefinition}

/-- Definition by definition, fewer columns are still to be defined. -/
theorem StoredColumn.Awaits.redefined {c : StoredColumn} (hn : t.columnNames.Nodup)
    (hk : k ∈ t.columns) (hr : r.column ∈ t.columns) (hstate : r.UpToDate h versions)
    (hc : Awaits h versions (r :: rs) k c) :
    Awaits h versions rs k
      (c.redefined (Dialect.enumDefinition r.column.property r.state.values)) := by
  rw [StoredColumn.redefined, Dialect.definedName_enumDefinition, hc.name]
  by_cases hname : k.name = r.column.name
  · obtain rfl := LiveTable.eq_of_mem_columns hn hk hr hname
    rw [if_pos hname]
    refine ⟨rfl, fun reference e htype he => Or.inl ⟨r.column.name, ?_⟩⟩
    rw [← hstate reference e htype he]
  · rw [if_neg hname]
    refine ⟨hc.name, fun reference e htype he => ?_⟩
    rcases hc.values reference e htype he with hdefinition | ⟨r', hr', heq⟩
    · exact Or.inl hdefinition
    · rcases List.mem_cons.mp hr' with rfl | hr'
      · exact absurd (congrArg LiveColumn.name heq.symm) hname
      · exact Or.inr ⟨r', hr', heq⟩

/-- When all columns of a table have been defined that were to be, it lists what all its enums have
become. -/
theorem StoredTable.follows_of_awaits {stored : StoredTable} (hn : t.columnNames.Nodup)
    (hrs : ∀ r ∈ rs, r.table = t ∧ r.column ∈ t.columns ∧ r.UpToDate h versions)
    (hname : stored.name = t.name)
    (hcolumns : List.Forall₂ (StoredColumn.Awaits h versions rs) t.columns stored.columns) :
    ∃ stored', (rs.map (·.statement)).foldl after (some stored) = some stored' ∧
      stored'.Follows h versions t := by
  induction rs generalizing stored with
  | nil =>
    refine ⟨stored, rfl, hname, hcolumns.imp fun k c hc =>
      ⟨hc.name, fun reference e htype he => ?_⟩⟩
    rcases hc.values reference e htype he with hdefinition | ⟨r, hr, -⟩
    · exact hdefinition
    · cases hr
  | cons r rs ih =>
    rw [List.forall_mem_cons] at hrs
    obtain ⟨⟨rfl, hr, hstate⟩, hrs⟩ := hrs
    have hafter : after (some stored) r.statement = some ⟨stored.name, stored.columns.map
        (·.redefined (Dialect.enumDefinition r.column.property r.state.values))⟩ :=
      congrArg some (if_pos hname)
    rw [List.map_cons, List.foldl_cons, hafter]
    refine ih hrs hname ?_
    rw [List.forall₂_map_right_iff]
    exact (forall₂_and_mem hcolumns).imp fun k c ⟨hk, hc⟩ => hc.redefined hn hk hr hstate

namespace LiveSchema

variable {s : LiveSchema} {g : EnumRegistry} {id : String} {es : List Emission}

/-- Of the columns that are defined, only those of a table matter to it. -/
theorem storedTable_redefinitions :
    storedTable id (es ++ rs.map (·.emission))
      = ((rs.filter (·.table.id == id)).map (·.statement)).foldl StoredTable.after
        (storedTable id es) := by
  rw [storedTable_append, List.filter_map, List.foldl_map, List.foldl_map]
  rfl

/-- A database that has followed a schema follows the enums, when they grow at the next version. -/
theorem InSync.redefined (ha : h.EnumsApart) (hs : s.Sound)
    (hsupplied : Supplied h passed s) (hgrows : s.enums.Grows g)
    (hresolved : ∀ e ∈ g.enums, ∃ reference, h.enum? reference = some e)
    (hsync : s.InSync h passed es) :
    s.InSync h (passed ++ [version])
      (es ++ (s.redefinitions g.enums passed version).map (·.emission)) := by
  intro t ht hcreated
  obtain ⟨stored, hstored, hf⟩ := hsync t ht hcreated
  have hmem : ∀ r, r ∈ s.redefinitions g.enums passed version ↔ _ := fun r =>
    mem_redefinitions ha hsupplied hgrows hresolved
  rw [storedTable_redefinitions, hstored]
  refine StoredTable.follows_of_awaits (hs.columns t ht) (fun r hr => ?_) hf.name
    ((forall₂_and_mem hf.columns).imp fun k c ⟨hk, hc⟩ =>
      ⟨hc.name, fun reference e htype he => ?_⟩)
  · obtain ⟨hr, hid⟩ := List.mem_filter.mp hr
    obtain ⟨hrt, -, hk, reference, e, htype, he, -, hstate⟩ := (hmem r).mp hr
    have htable : r.table = t := List.inj_on_of_nodup_map hs.distinct hrt ht (beq_iff_eq.mp hid)
    refine ⟨htable, htable ▸ hk, fun reference' e' htype' he' => ?_⟩
    obtain rfl := ColumnType.enum.inj (htype.symm.trans htype')
    obtain rfl := Option.some.inj (he.symm.trans he')
    exact hstate
  · cases hgains : e.gains passed version with
    | true =>
      refine Or.inr ⟨⟨t, k, e.through (passed ++ [version])⟩, List.mem_filter.mpr ⟨?_, ?_⟩, rfl⟩
      · exact (hmem _).mpr ⟨ht, hcreated, hk, reference, e, htype, he, hgains, rfl⟩
      · exact beq_self_eq_true t.id
    | false =>
      obtain ⟨e', -, -, he', hvalues⟩ := hsupplied.enum_inUse ha ht hk htype
      obtain rfl := Option.some.inj (he.symm.trans he')
      rw [EnumHistory.values_of_not_gains hvalues hgains]
      exact Or.inl (hc.values reference e htype he)

end LiveSchema

end SchemaEvolution
