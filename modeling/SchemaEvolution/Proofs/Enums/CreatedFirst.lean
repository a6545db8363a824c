import SchemaEvolution.Proofs.Extension.Scope
import SchemaEvolution.Proofs.Enums.Replayed
import SchemaEvolution.Proofs.Items

/-!
# Types are created before columns have them

In PostgreSQL the type of an enum is a thing of its own: a column that is declared names it, so it
has to be there. What is written about enums is computed after the walk, from all enums that came
into use on it, and stands before all else that is written at a version. A column is only declared
with an enum that has values at the version, and it had the first of them there or before; so the
type is created before the column is declared.
-/

namespace SchemaEvolution

/-! ## Types that a statement spells -/

namespace Dialect

/-- How PostgreSQL declares a column whose type is spelled in some way. -/
def typedDeclaration (p : Property) (type : String) : String :=
  quote .postgres p.name ++ " " ++ type ++ nullability .postgres p.shape
    ++ (defaultClause .postgres p).toOption.getD ""

/-- How PostgreSQL spells a type that is an enum of a name, or an array of it. -/
def enumTypeName (name : String) (type : ColumnType) : String :=
  if type.isArray then quote .postgres name ++ "[]" else quote .postgres name

variable {p : Property} {enums : EnumScope} {text property reference : String} {type : ColumnType}

theorem declaration_postgres (h : declaration .postgres p enums = .ok text) :
    ∃ type, typeName .postgres p.name p.shape.type enums = .ok type ∧
      text = typedDeclaration p type := by
  obtain ⟨type, htype, h⟩ := Except.bind_ok.mp h
  obtain ⟨default, hdefault, h⟩ := Except.bind_ok.mp h
  refine ⟨type, htype, ?_⟩
  rw [← Except.pure_ok.mp h, typedDeclaration, hdefault]
  rfl

theorem typeName_enum (h : typeName .postgres property (.enum reference) enums = .ok text) :
    ∃ state, enums reference = .ok state ∧ text = quote .postgres state.name := by
  obtain ⟨state, hstate, rfl⟩ := Except.map_ok.mp h
  exact ⟨state, hstate, rfl⟩

/-- A type that refers to an enum is spelled by the name that the enum has in the scope. -/
theorem typeName_of_innermost (h : typeName .postgres property type enums = .ok text)
    (hr : type.innermost.enumReference? = some reference) :
    ∃ state, enums reference = .ok state ∧ text = enumTypeName state.name type := by
  cases type with
  | enum _ =>
    obtain rfl := Option.some.inj hr
    exact typeName_enum h
  | array element =>
    rw [typeName_array] at h
    split at h
    · cases h
    · next hnot =>
      obtain ⟨inner, hinner, rfl⟩ := Except.map_ok.mp h
      -- an array is not one of arrays, so its element is the enum itself
      cases element with
      | enum _ =>
        obtain rfl := Option.some.inj hr
        obtain ⟨state, hstate, rfl⟩ := typeName_enum hinner
        exact ⟨state, hstate, rfl⟩
      | array _ => exact absurd (by simp [ColumnType.isArray]) hnot
      | _ => cases hr
  | _ => cases hr

end Dialect

namespace Ddl

/-- Whether a statement spells types of columns: it creates a table, adds a column to one or gives
one another type. -/
def spellsTypes : Ddl → Bool
  | .createTable _ _ => true
  | .addColumn _ _ => true
  | .setType _ _ _ => true
  | _ => false

/-- Whether a statement spells types, one for each of some columns. -/
def Spells (columns : List Property) (types : List String) : Ddl → Prop
  | .createTable _ declarations =>
    declarations = List.zipWith Dialect.typedDeclaration columns types
  | .addColumn _ declaration =>
    [declaration] = List.zipWith Dialect.typedDeclaration columns types
  | .setType _ column type => columns.map (·.name) = [column] ∧ types = [type]
  | _ => columns = []

end Ddl

/-- The columns that an edit gives a type. -/
def TableEdit.typedColumns : TableEdit → List Property
  | .create step => step.properties.foldl PropertyEdit.apply []
  | .property (.add name shape) => [⟨name, shape⟩]
  | .property (.retype name shape) => [⟨name, shape⟩]
  | _ => []

/-- A statement, and the columns whose types it spells. -/
structure Rendering where
  statement : Ddl
  columns : List Property
  deriving DecidableEq, Repr

/-- The statements of a change, with the columns whose types they spell. -/
def Change.renderings (x : Change) : List Rendering :=
  x.statements.map fun s => ⟨s, if s.spellsTypes then x.edit.typedColumns else []⟩

/-! ## One edit -/

theorem TableEdit.renders_createType {e : TableEdit} {name : String} {values : List String} :
    e.renders (.createType name values) = false := by
  simp [renders]

theorem Ddl.spells_nil {statement : Ddl} (h : statement.spellsTypes = false) :
    statement.Spells [] [] := by
  cases statement with
  | createTable => cases h
  | addColumn => cases h
  | setType => cases h
  | _ => rfl

namespace LiveSchema

variable {h : SchemaHistory} {version : String} {s s' : LiveSchema} {t : LiveTable}
  {e : TableEdit} {operations : List Operation}

/-- If every column is declared by spelling its type, all of them are. -/
theorem exists_types {columns : List LiveColumn} {spelled : Property → String → Prop}
    (h : ∀ k ∈ columns, ∃ type, spelled k.property type ∧
      k.declaration = Dialect.typedDeclaration k.property type) :
    ∃ types, columns.map (·.declaration)
        = List.zipWith Dialect.typedDeclaration (columns.map (·.property)) types ∧
      List.Forall₂ spelled (columns.map (·.property)) types := by
  induction columns with
  | nil => exact ⟨[], rfl, .nil⟩
  | cons k columns ih =>
    rw [List.forall_mem_cons] at h
    obtain ⟨⟨type, hspelled, hdeclaration⟩, h⟩ := h
    obtain ⟨types, hdeclarations, hall⟩ := ih h
    refine ⟨type :: types, ?_, .cons hspelled hall⟩
    rw [List.map_cons, List.map_cons, List.zipWith_cons_cons, hdeclaration, hdeclarations]

/-- A column that an edit declares is given a type, while some enums are in use. -/
def GivesType (h : SchemaHistory) (version : String) (s : LiveSchema) (t : LiveTable)
    (e : TableEdit) (after : EnumRegistry) (p : Property) (type : String) : Prop :=
  ∃ enums, Declares ⟨.postgres, h⟩ version s t e enums p ∧ enums.Grows after ∧
    Dialect.typeName .postgres p.name p.shape.type (enums.scopeAt version) = .ok type

/-- Every statement of an edit spells the types of those columns that the edit declares in it. -/
theorem Effect.spells (he : Effect ⟨.postgres, h⟩ version s t e s' operations) :
    ∀ statement ∈ operations.flatMap (·.statements), ∃ types,
      statement.Spells (if statement.spellsTypes then e.typedColumns else []) types ∧
      List.Forall₂ (GivesType h version s t e s'.enums)
        (if statement.spellsTypes then e.typedColumns else []) types := by
  intro statement hin
  have hrenders := he.renders (by simp) statement hin
  -- by the statement, and the edit that can be written with it
  cases statement with
  | createTable table declarations =>
    cases he with
    | @create step _ _ he =>
      obtain ⟨-, s₁, columns, hd, rfl, rfl⟩ := createTable_ok.mp he
      obtain ⟨rfl, rfl⟩ := Ddl.createTable.inj (List.mem_singleton.mp hin)
      have hcolumns : ∀ k ∈ columns, ∃ type,
          GivesType h version s t (.create step) s₁.enums k.property type ∧
            k.declaration = Dialect.typedDeclaration k.property type := by
        intro k hk
        rcases mem_declareAll hd hk with hnil | ⟨front, name, shape, back, s₂, before, s₃, hsplit,
          hfront, henums, hdeclared, hgrows⟩
        · cases hnil
        · obtain ⟨hp, hdeclaration⟩ := redeclare_ok hdeclared
          obtain ⟨type, htype, hdeclaration⟩ := Dialect.declaration_postgres hdeclaration
          rw [hp]
          exact ⟨type, ⟨s₃.enums, .create hsplit hfront henums, hgrows, htype⟩, hdeclaration⟩
      have htyped : step.properties.foldl PropertyEdit.apply [] = columns.map (·.property) :=
        (declareAll_properties hd).symm
      obtain ⟨types, hdeclarations, hall⟩ := exists_types hcolumns
      refine ⟨types, ?_, ?_⟩
      · show _ = List.zipWith _ (List.foldl _ _ _) _
        rw [htyped]
        exact hdeclarations
      · show List.Forall₂ _ (List.foldl _ _ _) _
        rw [htyped]
        exact hall
    | _ => cases hrenders
  | addColumn table declaration =>
    cases he with
    | addProperty he =>
      obtain ⟨-, s₁, column, hd, rfl, rfl⟩ := addProperty_ok.mp he
      obtain ⟨rfl, rfl⟩ := Ddl.addColumn.inj (List.mem_singleton.mp hin)
      obtain ⟨henums, hdeclared⟩ := declare_ok.mp hd
      obtain ⟨-, hdeclaration⟩ := redeclare_ok hdeclared
      obtain ⟨type, htype, hdeclaration⟩ := Dialect.declaration_postgres hdeclaration
      refine ⟨[type], congrArg ([·]) hdeclaration, .cons ?_ .nil⟩
      exact ⟨s₁.enums, .add henums, .refl _, htype⟩
    | _ => cases hrenders
  | setType table column type =>
    cases he with
    | retypeProperty he =>
      obtain ⟨before, after, s₁, statements, -, -, -, hd, hr, rfl, rfl⟩ := retypeProperty_ok.mp he
      obtain ⟨henums, hdeclared⟩ := declare_ok.mp hd
      obtain ⟨hp, -⟩ := redeclare_ok hdeclared
      obtain ⟨written, rest, htype, rfl, hrest⟩ := Dialect.columnRetyping_postgres hr
      rw [List.flatMap_singleton] at hin
      rcases List.mem_cons.mp hin with heq | hin
      · obtain ⟨-, rfl, rfl⟩ := Ddl.setType.inj heq
        rw [hp] at htype ⊢
        exact ⟨[type], ⟨rfl, rfl⟩, .cons ⟨s₁.enums, .retype henums, .refl _, htype⟩ .nil⟩
      · rcases hrest _ hin with ⟨_, heq⟩ | ⟨_, heq⟩
        · cases heq
        · cases heq
    | _ => cases hrenders
  | _ => exact ⟨[], rfl, .nil⟩

variable {passed later : List String} {edits : List (String × TableEdit)}

/-- The type of a column is spelled as that of an enum in use that its reference designates, and
that has values. -/
def SpelledByEnum (es : List EnumHistory) (versions : List String) (p : Property)
    (type : String) : Prop :=
  ∀ reference, p.shape.type.innermost.enumReference? = some reference →
    ∃ e ∈ es, e.isDesignatedBy reference = true ∧
      type = Dialect.enumTypeName e.name p.shape.type ∧ (e.through versions).values ≠ []

theorem GivesType.spelledByEnum {after : EnumRegistry} {p : Property} {type : String}
    (hsupplied : Supplied h (passed ++ [version]) s) (hm : t ∈ s.tables)
    (hsplit : h.timeline = passed ++ version :: later)
    (hg : GivesType h version s t e after p type) :
    SpelledByEnum after.enums (passed ++ [version]) p type := by
  intro reference hr
  obtain ⟨enums, hd, hgrows, htype⟩ := hg
  obtain ⟨found, hfound, hvalues⟩ := hsupplied.found (c := ⟨.postgres, h⟩) hm hsplit hd hr
  obtain ⟨state, hstate, rfl⟩ := Dialect.typeName_of_innermost htype hr
  obtain ⟨e', he', hsnapshot⟩ := EnumRegistry.scopeAt_ok.mp hstate
  obtain rfl := Option.some.inj (hfound.symm.trans he')
  obtain ⟨hin, hdesignated⟩ := EnumRegistry.enum?_eq_some hfound
  refine ⟨found, hgrows.enums.subset hin, hdesignated, ?_, hvalues⟩
  rw [(EnumHistory.snapshotAt?_name hsnapshot).1]

/-- No enum goes out of use again at a version. -/
theorem grows_of_mem_changesOf {c : Setting} {x : Change}
    (h : forEach (edit c version) s edits = .ok (s', operations))
    (hx : x ∈ changesOf c version s edits) : x.after.enums.Grows s'.enums := by
  have hall := changesOf_invariant (P := fun s xs => ∀ x ∈ xs, x.after.enums.Grows s.enums)
    (fun s xs e s' operations hxs he => ?_) (List.forall_mem_nil _) h
  · exact hall x hx
  · rw [List.forall_mem_append, List.forall_mem_singleton]
    exact ⟨fun y hy => (hxs y hy).trans (edit_grows he), .refl _⟩

/-- Every statement of a version spells the types of columns by enums that have values at it. -/
theorem renderings_changesOf {x : Change} {r : Rendering} (hsound : s.Sound)
    (hsupplied : Supplied h passed s) (hsplit : h.timeline = passed ++ version :: later)
    (hadvance : s.advance ⟨.postgres, h⟩ version = .ok (s', operations))
    (hx : x ∈ changesOf ⟨.postgres, h⟩ version (s.takeDue version).1
      (script (s.takeDue version).2)) (hr : r ∈ x.renderings) :
    ∃ types, r.statement.Spells r.columns types ∧
      List.Forall₂ (SpelledByEnum s'.enums.enums (passed ++ [version])) r.columns types := by
  obtain ⟨statement, hstatement, rfl⟩ := List.mem_map.mp hr
  have hbefore := (hsupplied.advance (c := ⟨.postgres, h⟩) hsound hsplit hadvance).2 x hx
  have hgrows := grows_of_mem_changesOf (advance_script hsound hadvance) hx
  rcases edit_ok (edit_of_mem_changesOf hx).2 with ⟨-, hnone, -⟩ | ⟨t, ht, -, he⟩
  · rw [Change.statements, hnone] at hstatement
    cases hstatement
  · obtain ⟨types, hspells, hall⟩ := he.spells statement hstatement
    refine ⟨types, hspells, hall.imp fun p type hg reference hreference => ?_⟩
    obtain ⟨e, hin, hrest⟩ :=
      hg.spelledByEnum hbefore (table?_eq_some ht).1 hsplit reference hreference
    exact ⟨e, hgrows.enums.subset hin, hrest⟩

end LiveSchema

/-! ## The statements of a changelog -/

namespace Changelog

open LiveSchema

namespace Plan

/-- The statements of a version that are not written for tables: those for enums and those for
functions. -/
def statementsApart (p : Plan) (version : String) : List Ddl :=
  (p.enums.filter (·.version == version)).flatMap (·.statements)
    ++ (p.functions.filter (·.version == version)).flatMap (·.statements)

/-- The statements of a version in the order of the changelog, when the schema before it is `s`.
Those that are not written for tables spell no type of a column. -/
def renderingsAt (p : Plan) (c : Setting) (s : LiveSchema) (version : String) : List Rendering :=
  (p.statementsApart version).map (⟨·, []⟩)
    ++ (changesOf c version (s.takeDue version).1 (script (s.takeDue version).2)).flatMap
      (·.renderings)

/-- The statements of some versions. -/
def renderings (p : Plan) (c : Setting) : LiveSchema → List String → List Rendering
  | _, [] => []
  | s, version :: versions =>
    match s.advance c version with
    | .ok (s', _) => p.renderingsAt c s version ++ p.renderings c s' versions
    | .error _ => []

end Plan

variable {h : SchemaHistory} {p : Plan} {s start : LiveSchema} {w : Walk} {version name : String}
  {versions passed later : List String} {log : Changelog} {earlier rest : List Rendering}
  {r : Rendering}

/-- A place in two lists one after the other is one in the first or one in the second. -/
theorem split_append {xs ys : List Rendering} (h : xs ++ ys = earlier ++ r :: rest) :
    (∃ back, xs = earlier ++ r :: back) ∨
      ∃ front, earlier = xs ++ front ∧ ys = front ++ r :: rest := by
  rcases List.append_eq_append_iff.mp h with ⟨front, rfl, hys⟩ | ⟨back, hxs, hrest⟩
  · exact Or.inr ⟨front, rfl, hys⟩
  · cases back with
    | nil =>
      rw [List.append_nil] at hxs
      exact Or.inr ⟨[], by rw [hxs, List.append_nil], hrest.symm⟩
    | cons r' back =>
      obtain ⟨rfl, -⟩ := List.cons.inj hrest
      exact Or.inl ⟨back, hxs⟩

/-- A place in the statements of some versions is one in those of a version. -/
theorem renderings_split {c : Setting} (hw : s.walk c versions = .ok w)
    (h : p.renderings c s versions = earlier ++ r :: rest) :
    ∃ passed version later w₁ front back, versions = passed ++ version :: later ∧
      s.walk c passed = .ok w₁ ∧ earlier = p.renderings c s passed ++ front ∧
      p.renderingsAt c w₁.final version = front ++ r :: back := by
  induction versions generalizing s w earlier with
  | nil => exact absurd h.symm (by simp [Plan.renderings])
  | cons version versions ih =>
    obtain ⟨s₁, first, w₁, h₁, h₂, rfl⟩ := walk_cons_ok.mp hw
    rw [Plan.renderings, h₁] at h
    rcases split_append h with ⟨back, hhere⟩ | ⟨front, rfl, hthere⟩
    · exact ⟨[], version, versions, ⟨s, [], []⟩, earlier, back, rfl, rfl, rfl, hhere⟩
    · obtain ⟨passed, v, later, w₂, front, back, rfl, hw₂, rfl, hat⟩ := ih h₂ hthere
      refine ⟨version :: passed, v, later, _, front, back, rfl,
        walk_cons_ok.mpr ⟨s₁, first, w₂, h₁, hw₂, rfl⟩, ?_, hat⟩
      rw [Plan.renderings, h₁, List.append_assoc]

theorem mem_statementsApart {o : Operation} {statement : Ddl} (ho : o ∈ p.enums)
    (hstatement : statement ∈ o.statements) : statement ∈ p.statementsApart o.version :=
  List.mem_append_left _ <| List.mem_flatMap.mpr
    ⟨o, List.mem_filter.mpr ⟨ho, beq_self_eq_true _⟩, hstatement⟩

/-- What is written about enums at a version is there. -/
theorem mem_renderings {c : Setting} {o : Operation} {statement : Ddl}
    (hw : s.walk c versions = .ok w) (ho : o ∈ p.enums) (hstatement : statement ∈ o.statements)
    (hv : o.version ∈ versions) : ⟨statement, []⟩ ∈ p.renderings c s versions := by
  induction versions generalizing s w with
  | nil => cases hv
  | cons version versions ih =>
    obtain ⟨s₁, first, w₁, h₁, h₂, rfl⟩ := walk_cons_ok.mp hw
    rw [Plan.renderings, h₁]
    rcases List.mem_cons.mp hv with rfl | hv
    · exact List.mem_append_left _ <| List.mem_append_left _ <|
        List.mem_map_of_mem (mem_statementsApart ho hstatement)
    · exact List.mem_append_right _ (ih h₂ hv)

/-! ### In the order of the changelog -/

theorem map_statement_apart {statements : List Ddl} :
    (statements.map (Rendering.mk · [])).map (·.statement) = statements := by
  rw [List.map_map]
  exact List.map_id _

theorem map_statement_renderingsAt {c : Setting} :
    (p.renderingsAt c s version).map (·.statement)
      = (p.enums.filter (·.version == version)).flatMap (·.statements)
        ++ (p.functions.filter (·.version == version)).flatMap (·.statements)
        ++ (changesOf c version (s.takeDue version).1 (script (s.takeDue version).2)).flatMap
          (·.statements) := by
  rw [Plan.renderingsAt, List.map_append, map_statement_apart, List.map_flatMap,
    Plan.statementsApart]
  congr 1
  refine List.flatMap_congr fun x _ => ?_
  rw [Change.renderings, List.map_map]
  exact List.map_id _

/-- What is rendered stands where the items do. -/
theorem map_statement_renderings {c : Setting} :
    (p.renderings c s versions).map (·.statement)
      = (p.items c s versions).flatMap (·.statements) := by
  induction versions generalizing s with
  | nil => rfl
  | cons version versions ih =>
    rw [Plan.renderings, Plan.items]
    cases s.advance c version with
    | error f => rfl
    | ok outcome =>
      simp only [List.map_append, List.flatMap_append, ih, map_statement_renderingsAt,
        Plan.statements_itemsAt]

/-- The queries of a changelog are the texts of what is rendered. -/
theorem map_query_renderings (hs : LiveSchema.start h = .ok start)
    (hw : start.walk ⟨.postgres, h⟩ h.timeline = .ok p.walk) :
    (ofPlan ⟨.postgres, h⟩ p).entries.flatMap (fun e => e.queries.map (·.query))
      = ((p.renderings ⟨.postgres, h⟩ start h.timeline).map (·.statement)).map
          (Ddl.text .postgres) := by
  rw [Plan.map_query_entries hs hw, ← map_statement_renderings]

/-- The text of the statement at a place, and those of the statements before it. -/
theorem texts_at_place {queries : List String} {renderings : List Rendering}
    (hqueries : queries = (renderings.map (·.statement)).map (Ddl.text .postgres))
    (hsplit : renderings = earlier ++ r :: rest) :
    queries[earlier.length]? = some (r.statement.text .postgres) ∧
      queries.take earlier.length = (earlier.map (·.statement)).map (Ddl.text .postgres) := by
  have hlength : earlier.length
      = ((earlier.map (·.statement)).map (Ddl.text .postgres)).length := by simp
  rw [hqueries, hsplit, List.map_append, List.map_append, List.map_cons, List.map_cons, hlength,
    List.getElem?_append_right le_rfl, Nat.sub_self, List.take_left]
  exact ⟨rfl, rfl⟩

/-- Types are only created by what is written about enums. -/
theorem filter_renderings (hw : s.walk ⟨.postgres, h⟩ versions = .ok w)
    (hf : functionOperations ⟨.postgres, h⟩ = .ok p.functions) :
    ((p.renderings ⟨.postgres, h⟩ s versions).map (·.statement)).filter (·.createsType name)
      = (versions.flatMap fun version =>
          (p.enums.filter (·.version == version)).flatMap (·.statements)).filter
            (·.createsType name) := by
  induction versions generalizing s w with
  | nil => rfl
  | cons version versions ih =>
    obtain ⟨s₁, first, w₁, h₁, h₂, rfl⟩ := walk_cons_ok.mp hw
    have hfunctions : ((p.functions.filter (·.version == version)).flatMap
        (·.statements)).filter (·.createsType name) = [] := by
      refine List.filter_eq_nil_iff.mpr fun statement hin => ?_
      obtain ⟨o, ho, hin⟩ := List.mem_flatMap.mp hin
      rcases statements_functionOperations hf statement
        (List.mem_flatMap.mpr ⟨o, (List.mem_filter.mp ho).1, hin⟩) with
        ⟨_, rfl⟩ | ⟨_, _, _, _, rfl⟩
      · exact Bool.false_ne_true
      · exact Bool.false_ne_true
    have htables : ((changesOf ⟨.postgres, h⟩ version (s.takeDue version).1
        (script (s.takeDue version).2)).flatMap (·.statements)).filter (·.createsType name)
          = [] := by
      refine List.filter_eq_nil_iff.mpr fun statement hin => ?_
      obtain ⟨x, hx, hin⟩ := List.mem_flatMap.mp hin
      have hrenders := edit_renders (by simp) (edit_of_mem_changesOf hx).2 statement hin
      cases statement with
      | createType => exact absurd hrenders (by rw [TableEdit.renders_createType]; simp)
      | _ => exact Bool.false_ne_true
    rw [Plan.renderings, h₁, List.map_append, map_statement_renderingsAt, List.filter_append,
      List.filter_append, List.filter_append, hfunctions, htables, List.append_nil,
      List.append_nil, ih h₂, List.flatMap_cons, List.filter_append]

/-- What is not written for tables spells no types of columns. -/
theorem spellsTypes_statementsApart {usesAt : String → List EnumUse} {es : List EnumHistory}
    (hfrom : EnumRegistry.operationsFrom .postgres es usesAt [] versions = .ok p.enums)
    (hf : functionOperations ⟨.postgres, h⟩ = .ok p.functions) :
    ∀ statement ∈ p.statementsApart version, statement.spellsTypes = false := by
  intro statement hstatement
  rcases List.mem_append.mp hstatement with hin | hin
  · obtain ⟨o, ho, hin⟩ := List.mem_flatMap.mp hin
    obtain ⟨passed, v, later, -, e, -, part, hpart, ho⟩ :=
      (EnumRegistry.mem_operationsFrom hfrom).mp (List.mem_filter.mp ho).1
    have hwritten : statement ∈ part.flatMap (·.statements) :=
      List.mem_flatMap.mpr ⟨o, ho, hin⟩
    rw [EnumHistory.statements_operationAt_postgres hpart] at hwritten
    unfold EnumHistory.typeStatements at hwritten
    split at hwritten
    · split at hwritten
      · cases hwritten
      · rw [List.mem_singleton.mp hwritten]
        rfl
    · obtain ⟨value, -, rfl⟩ := List.mem_map.mp hwritten
      rfl
  · obtain ⟨o, ho, hin⟩ := List.mem_flatMap.mp hin
    rcases statements_functionOperations hf statement
      (List.mem_flatMap.mpr ⟨o, (List.mem_filter.mp ho).1, hin⟩) with ⟨_, rfl⟩ | ⟨_, _, _, _, rfl⟩
    · rfl
    · rfl

/-- What is written about enums is written along the timeline, about enums with names of their
own. -/
theorem operationsFrom_timeline {d : Dialect} (hs : LiveSchema.start h = .ok start)
    (hw : start.walk ⟨d, h⟩ h.timeline = .ok p.walk)
    (henums : p.walk.final.enums.operations d p.walk.usesAt = .ok p.enums) :
    (p.walk.final.enums.enums.map (·.name)).Nodup ∧
      EnumRegistry.operationsFrom d p.walk.final.enums.enums p.walk.usesAt [] h.timeline
        = .ok p.enums := by
  obtain ⟨htimeline, hnames⟩ := enums_of_start hs hw
  refine ⟨hnames, ?_⟩
  rw [← htimeline]
  exact EnumRegistry.operations_ok henums

section

variable (hs : LiveSchema.start h = .ok start)
  (hw : start.walk ⟨.postgres, h⟩ h.timeline = .ok p.walk)
  (henums : p.walk.final.enums.operations .postgres p.walk.usesAt = .ok p.enums)

include hs hw henums

/-- The type of an enum that has values at a version has been created at an earlier one, or is
created there before anything is written for tables; and it is created once. -/
theorem created_before_tables (hf : functionOperations ⟨.postgres, h⟩ = .ok p.functions)
    (hsplit : h.timeline = passed ++ version :: later)
    (hpassed : start.walk ⟨.postgres, h⟩ passed = .ok w) {e : EnumHistory}
    (he : e ∈ p.walk.final.enums.enums) (hvalues : (e.through (passed ++ [version])).values ≠ []) :
    ∃ values,
      .createType e.name values ∈ (p.renderings ⟨.postgres, h⟩ start passed).map (·.statement)
        ++ p.statementsApart version ∧
      ((p.renderings ⟨.postgres, h⟩ start h.timeline).map (·.statement)).filter
        (·.createsType e.name) = [.createType e.name values] := by
  obtain ⟨hnames, hfrom⟩ := operationsFrom_timeline hs hw henums
  obtain ⟨before, first, between, hupTo, hbefore, hfirst⟩ :=
    EnumHistory.exists_first_values hvalues
  have hwhole : h.timeline = before ++ first :: (between ++ later) := by
    rw [hsplit, List.append_cons, hupTo, List.append_assoc, List.cons_append]
  have hcreated := EnumRegistry.filter_dated_createsType hnames he hbefore hfirst
    (hwhole ▸ hfrom)
  refine ⟨(e.through (before ++ [first])).values, ?_, ?_⟩
  · have hdated : (first, Ddl.createType e.name (e.through (before ++ [first])).values)
        ∈ dated p.enums := (List.mem_filter.mp (hcreated ▸ List.mem_cons_self)).1
    obtain ⟨o, ho, hin⟩ := List.mem_flatMap.mp hdated
    obtain ⟨statement, hstatement, heq⟩ := List.mem_map.mp hin
    obtain ⟨rfl, rfl⟩ := Prod.mk.inj heq
    have hv : o.version ∈ passed ++ [version] :=
      hupTo ▸ List.mem_append_right _ List.mem_cons_self
    rcases List.mem_append.mp hv with hv | hv
    · exact List.mem_append_left _ <|
        List.mem_map_of_mem (mem_renderings hpassed ho hstatement hv)
    · obtain rfl := List.mem_singleton.mp hv
      exact List.mem_append_right _ (mem_statementsApart ho hstatement)
  · rw [filter_renderings hw hf, ← List.flatMap_assoc,
      EnumRegistry.operationsFrom_byVersion nodup_timeline hfrom, ← map_snd_dated,
      List.filter_map]
    exact congrArg (List.map _) hcreated

omit henums in
/-- Whatever type a change at a version spells for a column by an enum, the enum is in use in the
end, and has values at the version. -/
theorem spelled_at_version {x : Change} (hsplit : h.timeline = passed ++ version :: later)
    (hpassed : start.walk ⟨.postgres, h⟩ passed = .ok w)
    (hx : x ∈ changesOf ⟨.postgres, h⟩ version (w.final.takeDue version).1
      (script (w.final.takeDue version).2)) (hr : r ∈ x.renderings) :
    ∃ types, r.statement.Spells r.columns types ∧
      List.Forall₂ (SpelledByEnum p.walk.final.enums.enums (passed ++ [version]))
        r.columns types := by
  have hsound := sound_start hs
  obtain ⟨w', last, hw', hlast, hfinal, -, -⟩ := walk_split (hsplit ▸ hw)
  obtain rfl := Except.ok.inj (hpassed.symm.trans hw')
  obtain ⟨s', operations, w₂, hadvance, hw₂, rfl⟩ := walk_cons_ok.mp hlast
  have hsupplied : Supplied h passed w.final :=
    (supplied_start (c := ⟨.postgres, h⟩) hs).walk hsound hsplit hpassed
  have hgrows := walk_grows ((hsound.walk hpassed).advance hadvance) hw₂
  obtain ⟨types, hspells, hall⟩ :=
    renderings_changesOf (hsound.walk hpassed) hsupplied hsplit hadvance hx hr
  refine ⟨types, hspells, hall.imp fun column type hspelled reference hreference => ?_⟩
  obtain ⟨e, he, hrest⟩ := hspelled reference hreference
  exact ⟨e, hfinal ▸ hgrows.enums.subset he, hrest⟩

omit henums in
/-- The enums in use in the end are enums of the history. -/
theorem mem_history {e : EnumHistory} (he : e ∈ p.walk.final.enums.enums) : e ∈ h.enums := by
  have hwhole : h.timeline = [] ++ h.timeline ++ [] := by simp
  obtain ⟨reference, hfound⟩ :=
    ((supplied_start (c := ⟨.postgres, h⟩) hs).walk (sound_start hs) hwhole hw).resolved e he
  exact List.mem_of_find?_eq_some hfound

/-- Wherever a statement spells the type of a column by an enum, the type of that enum has been
created before, and once. -/
theorem created_at_place (hf : functionOperations ⟨.postgres, h⟩ = .ok p.functions)
    (hsplit : p.renderings ⟨.postgres, h⟩ start h.timeline = earlier ++ r :: rest) :
    ∃ types, r.statement.Spells r.columns types ∧
      List.Forall₂ (fun column type => ∀ reference,
        column.shape.type.innermost.enumReference? = some reference →
        ∃ e ∈ h.enums, e.isDesignatedBy reference = true ∧
          type = Dialect.enumTypeName e.name column.shape.type ∧
          ∃ values, .createType e.name values ∈ earlier.map (·.statement) ∧
            ((p.renderings ⟨.postgres, h⟩ start h.timeline).map (·.statement)).filter
              (·.createsType e.name) = [.createType e.name values]) r.columns types := by
  obtain ⟨passed, version, later, w, front, back, htimeline, hpassed, rfl, hat⟩ :=
    renderings_split hw hsplit
  rcases split_append hat with ⟨back', hapart⟩ | ⟨front', rfl, htables⟩
  · have hr : r ∈ (p.statementsApart version).map (Rendering.mk · []) :=
      hapart ▸ List.mem_append_right _ List.mem_cons_self
    obtain ⟨statement, hstatement, rfl⟩ := List.mem_map.mp hr
    obtain ⟨-, hfrom⟩ := operationsFrom_timeline hs hw henums
    exact ⟨[], Ddl.spells_nil (spellsTypes_statementsApart hfrom hf statement hstatement), .nil⟩
  · have hr : r ∈ (changesOf ⟨.postgres, h⟩ version (w.final.takeDue version).1
        (script (w.final.takeDue version).2)).flatMap (·.renderings) :=
      htables ▸ List.mem_append_right _ List.mem_cons_self
    obtain ⟨x, hx, hr⟩ := List.mem_flatMap.mp hr
    obtain ⟨types, hspells, hall⟩ := spelled_at_version hs hw htimeline hpassed hx hr
    refine ⟨types, hspells, hall.imp fun column type hspelled reference hreference => ?_⟩
    obtain ⟨e, he, hdesignated, htype, hvalues⟩ := hspelled reference hreference
    obtain ⟨values, hcreated, honly⟩ :=
      created_before_tables hs hw henums hf htimeline hpassed he hvalues
    refine ⟨e, mem_history hs hw he, hdesignated, htype, values, ?_, honly⟩
    rw [List.map_append, List.map_append, map_statement_apart, ← List.append_assoc]
    exact List.mem_append_left _ hcreated

end

/-- In PostgreSQL, whenever a query spells the type of a column that is an enum or an array of one,
the type of an enum that the reference designates is spelled, and an earlier query of the changelog
has created it, the only one that ever creates a type of its name. -/
theorem postgres_types_created_first (hlog : ofHistory .postgres h = .ok log) :
    ∃ (p : Plan) (start : LiveSchema) (queries : List String), plan ⟨.postgres, h⟩ = .ok p ∧
      LiveSchema.start h = .ok start ∧
      queries = log.entries.flatMap (fun e => e.queries.map (·.query)) ∧
      queries = (p.renderings ⟨.postgres, h⟩ start h.timeline).map
        (·.statement.text .postgres) ∧
      ∀ earlier r rest, p.renderings ⟨.postgres, h⟩ start h.timeline = earlier ++ r :: rest →
        ∃ types sql, r.statement.Spells r.columns types ∧
          queries[earlier.length]? = some sql ∧ r.statement.IsSql .postgres sql ∧
          List.Forall₂ (fun column type => ∀ reference,
            column.shape.type.innermost.enumReference? = some reference →
            ∃ e ∈ h.enums, e.isDesignatedBy reference = true ∧
              type = Dialect.enumTypeName e.name column.shape.type ∧
              ∃ values, .createType e.name values ∈ earlier.map (·.statement) ∧
                ((p.renderings ⟨.postgres, h⟩ start h.timeline).map (·.statement)).filter
                  (·.createsType e.name) = [.createType e.name values] ∧
                ∃ creation, creation = "CREATE TYPE " ++ Dialect.quote .postgres e.name
                    ++ " AS ENUM (" ++ ", ".intercalate (values.map Dialect.literal) ++ ")" ∧
                  creation ∈ queries.take earlier.length ∧
                  queries.filter (Ddl.sqlCreatesType e.name) = [creation]) r.columns types := by
  obtain ⟨p, hp, rfl⟩ := Except.map_ok.mp hlog
  obtain ⟨start, hs, hw, -, henums, hf⟩ := plan_ok hp
  have hqueries := map_query_renderings hs hw
  refine ⟨p, start, _, hp, hs, rfl, hqueries.trans List.map_map,
    fun earlier r rest hsplit => ?_⟩
  obtain ⟨hhere, hbefore⟩ := texts_at_place hqueries hsplit
  obtain ⟨types, hspells, hall⟩ := created_at_place hs hw henums hf hsplit
  refine ⟨types, _, hspells, hhere, Ddl.isSql_text .postgres r.statement,
    hall.imp fun column type hspelled reference hreference => ?_⟩
  obtain ⟨e, he, hdesignated, htype, values, hcreated, honly⟩ := hspelled reference hreference
  refine ⟨e, he, hdesignated, htype, values, hcreated, honly, _, rfl, ?_, ?_⟩
  · rw [hbefore]
    exact List.mem_map_of_mem hcreated
  · rw [hqueries, Ddl.filter_sqlCreatesType, honly]
    rfl

/-- An enum that two columns use, one of them as an array, from later versions on than the one at
which it gets its values. -/
def moodyNotes : SchemaHistory where
  tables := [⟨"app.notes", [⟨"1", some "notes", [.add "body" { type := .text }], [], []⟩,
    ⟨"2", none, [.add "mood" { type := .enum "app.Mood" }], [], []⟩,
    ⟨"3", none, [.add "moods" { type := .array (.enum "mood") }], [], []⟩]⟩]
  enums := [⟨"mood", "app.Mood", [⟨"1", ["calm"]⟩, ⟨"3", ["bright"]⟩]⟩]

theorem postgres_types_created_first_moodyNotes :
    ∃ (log : Changelog) (p : Plan) (start : LiveSchema) (queries : List String),
      ofHistory .postgres moodyNotes = .ok log ∧ plan ⟨.postgres, moodyNotes⟩ = .ok p ∧
      LiveSchema.start moodyNotes = .ok start ∧
      queries = log.entries.flatMap (fun e => e.queries.map (·.query)) ∧
      ∃ earlier r, p.renderings ⟨.postgres, moodyNotes⟩ start moodyNotes.timeline = earlier ++ [r] ∧
        r.statement = .addColumn "notes" "\"moods\" \"mood\"[] NOT NULL" ∧
        queries[earlier.length]?
          = some "ALTER TABLE \"notes\" ADD COLUMN \"moods\" \"mood\"[] NOT NULL" ∧
        .createType "mood" ["calm"] ∈ earlier.map (·.statement) ∧
        "CREATE TYPE \"mood\" AS ENUM ('calm')" ∈ queries.take earlier.length ∧
        queries.filter (Ddl.sqlCreatesType "mood") = ["CREATE TYPE \"mood\" AS ENUM ('calm')"] := by
  obtain ⟨log, hlog⟩ := Except.exists_of_isOk
    (show (ofHistory .postgres moodyNotes).isOk = true by decide)
  obtain ⟨p, start, queries, hp, hs, hqueries, -, hall⟩ := postgres_types_created_first hlog
  have hrenderings : ∃ earlier, p.renderings ⟨.postgres, moodyNotes⟩ start moodyNotes.timeline
      = earlier ++ [⟨.addColumn "notes" "\"moods\" \"mood\"[] NOT NULL",
        [⟨"moods", { type := .array (.enum "mood") }⟩]⟩] ∧
      (earlier.map (·.statement)).filter (·.createsType "mood")
        = [.createType "mood" ["calm"]] := by
    obtain rfl := Except.ok.inj (hs.symm.trans rfl)
    obtain rfl := Except.ok.inj (hp.symm.trans rfl)
    exact ⟨[_, _, _, _], rfl, rfl⟩
  obtain ⟨earlier, hearlier, hcreations⟩ := hrenderings
  obtain ⟨types, sql, -, hsql, hwritten, hspelled⟩ := hall earlier _ [] hearlier
  cases hspelled with
  | cons hfirst _ =>
    obtain ⟨e, he, -, -, values, hcreated, -, creation, rfl, hbefore, honly⟩ := hfirst "mood" rfl
    obtain rfl := List.mem_singleton.mp he
    have hvalues : .createType "mood" values ∈ (earlier.map (·.statement)).filter
        (·.createsType "mood") := List.mem_filter.mpr ⟨hcreated, rfl⟩
    rw [hcreations, List.mem_singleton] at hvalues
    obtain ⟨-, rfl⟩ := Ddl.createType.inj hvalues
    rw [hwritten.eq_text] at hsql
    exact ⟨log, p, start, queries, hlog, hp, hs, hqueries, earlier, _, hearlier, rfl, hsql,
      hcreated, hbefore, honly⟩

end Changelog

end SchemaEvolution
