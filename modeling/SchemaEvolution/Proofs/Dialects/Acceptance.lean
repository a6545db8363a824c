import SchemaEvolution.Proofs.Indices.Declared

/-!
# What dialects accept

Dialects differ in the types that they know: arrays are PostgreSQL's alone. Whether a default can be
written does not depend on the dialect, and MySQL and SQLite give a column another shape whenever
they can declare it. So SQLite accepts every column that MySQL accepts, and MySQL every column that
PostgreSQL accepts, if its type is no array.
-/

namespace SchemaEvolution

namespace Dialect

variable {d d' : Dialect} {property raw text : String} {type : ColumnType} {p : Property}
  {enums : EnumScope} {allowed : ColumnType → Prop}

/-- Whether a default can be written depends neither on the dialect nor on the name of the
column. -/
theorem exists_defaultText (d' : Dialect) (property' : String)
    (h : d.defaultText property type raw = .ok text) :
    ∃ text', d'.defaultText property' type raw = .ok text' := by
  unfold defaultText at h ⊢
  dsimp only at h ⊢
  split at h
  · split_ifs at h ⊢ <;> exact ⟨_, rfl⟩
  · cases h
  · cases h
  · split_ifs at h ⊢
    · exact ⟨_, rfl⟩
    · exact ⟨_, rfl⟩
    · cases hc : Default.canonical _ raw with
      | none => rw [hc] at h; cases h
      | some canonical => exact ⟨_, rfl⟩
    · exact ⟨_, rfl⟩

theorem exists_defaultClause (d' : Dialect) (p' : Property) (h : d.defaultClause p = .ok text)
    (hshape : p'.shape = p.shape) : ∃ text', d'.defaultClause p' = .ok text' := by
  unfold defaultClause at h ⊢
  rw [hshape]
  split at h
  · exact ⟨_, rfl⟩
  · obtain ⟨value, hvalue, -⟩ := Except.map_ok.mp h
    obtain ⟨value', hvalue'⟩ := exists_defaultText d' p'.name hvalue
    exact ⟨_, Except.map_ok.mpr ⟨value', hvalue', rfl⟩⟩

/-- Whether the default of a column, if it has one, can be written. -/
def WritesDefault (d : Dialect) (p : Property) : Prop := ∃ text, d.defaultClause p = .ok text

theorem writesDefault_of_isDeclared {k : LiveColumn} (h : k.IsDeclared d) :
    d.WritesDefault k.property := by
  obtain ⟨enums, h⟩ := h
  obtain ⟨type, -, h⟩ := Except.bind_ok.mp h
  obtain ⟨text, htext, -⟩ := Except.bind_ok.mp h
  exact ⟨text, htext⟩

/-- Whether a dialect accepts every column that another one accepts, as long as its type is an
allowed one. -/
structure Accepts (d d' : Dialect) (allowed : ColumnType → Prop) : Prop where
  source : d ≠ .sqlite
  target : d' ≠ .postgres
  typeName : ∀ property type enums name, allowed type →
    d.typeName property type enums = .ok name → ∃ name', d'.typeName property type enums = .ok name'
  declared : ∀ property type enums name, d'.typeName property type enums = .ok name → allowed type

theorem sqlite_accepts : Accepts .mysql .sqlite fun _ => True where
  source := by decide
  target := by decide
  typeName := by
    intro property type enums name _ h
    cases type with
    | array => cases h
    | _ => exact ⟨_, rfl⟩
  declared := fun _ _ _ _ _ => trivial

theorem mysql_accepts : Accepts .postgres .mysql (·.isArray = false) where
  source := by decide
  target := by decide
  typeName := by
    intro property type enums name hallowed h
    cases type with
    | array => cases hallowed
    | enum reference =>
      obtain ⟨s, hs, -⟩ := Except.map_ok.mp h
      exact ⟨_, Except.map_ok.mpr ⟨s, hs, rfl⟩⟩
    | _ => exact ⟨_, rfl⟩
  declared := by
    intro property type enums name h
    cases type with
    | array => cases h
    | _ => rfl

theorem Accepts.declaration (h : d.Accepts d' allowed) (hp : allowed p.shape.type)
    (hd : d.declaration p enums = .ok text) : ∃ text', d'.declaration p enums = .ok text' := by
  obtain ⟨type, htype, hd⟩ := Except.bind_ok.mp hd
  obtain ⟨default, hdefault, -⟩ := Except.bind_ok.mp hd
  obtain ⟨type', htype'⟩ := h.typeName _ _ _ _ hp htype
  obtain ⟨default', hdefault'⟩ := exists_defaultClause d' p hdefault rfl
  exact ⟨_, Except.bind_ok.mpr ⟨type', htype', Except.bind_ok.mpr ⟨default', hdefault', rfl⟩⟩⟩

/-- A column that has been declared has an allowed type. -/
theorem Accepts.allowed_of_isDeclared (h : d.Accepts d' allowed) {k : LiveColumn}
    (hk : k.IsDeclared d') : allowed k.property.shape.type := by
  obtain ⟨enums, hk⟩ := hk
  obtain ⟨type, htype, -⟩ := Except.bind_ok.mp hk
  exact h.declared _ _ _ _ htype

theorem exists_columnRetyping (h : d ≠ .postgres) {t : TableShape} {before after : LiveColumn} :
    ∃ statements, d.columnRetyping t before after enums = .ok statements := by
  cases d with
  | mysql => exact ⟨_, rfl⟩
  | postgres => exact absurd rfl h
  | sqlite => exact ⟨_, rfl⟩

/-! ## Functions -/

theorem Accepts.parameterTypes (h : d.Accepts d' allowed) {function : String} {position : Nat}
    {types : List ColumnType} {names : List String} (hallowed : ∀ type ∈ types, allowed type)
    (ht : d.parameterTypes function position types = .ok names) :
    ∃ names', d'.parameterTypes function position types = .ok names' := by
  induction types generalizing position names with
  | nil => exact ⟨_, rfl⟩
  | cons type types ih =>
    rw [List.forall_mem_cons] at hallowed
    obtain ⟨name, hname, ht⟩ := Except.bind_ok.mp ht
    obtain ⟨rest, hrest, -⟩ := Except.bind_ok.mp ht
    obtain ⟨name', hname'⟩ := h.typeName _ _ _ _ hallowed.1 hname
    obtain ⟨rest', hrest'⟩ := ih hallowed.2 hrest
    exact ⟨_, Except.bind_ok.mpr ⟨name', hname', Except.bind_ok.mpr ⟨rest', hrest', rfl⟩⟩⟩

theorem Accepts.functionCreation (h : d.Accepts d' allowed) {function : String} {s : FunctionStep}
    {statements : List Ddl} (hallowed : ∀ type ∈ s.parameters ++ [s.returns], allowed type)
    (hs : d.functionCreation function s = .ok statements) :
    ∃ statements', d'.functionCreation function s = .ok statements' := by
  rw [List.forall_mem_append, List.forall_mem_singleton] at hallowed
  -- SQLite has no functions, so nothing is known of them if it accepts them
  have hknown : ∃ names name, d.parameterTypes function 1 s.parameters = .ok names ∧
      d.typeName function s.returns EnumScope.empty = .ok name := by
    cases d with
    | sqlite => exact absurd rfl h.source
    | mysql | postgres =>
      obtain ⟨names, hnames, hs⟩ := Except.bind_ok.mp hs
      obtain ⟨name, hname, -⟩ := Except.bind_ok.mp hs
      exact ⟨names, name, hnames, hname⟩
  obtain ⟨names, name, hnames, hname⟩ := hknown
  obtain ⟨names', hnames'⟩ := h.parameterTypes hallowed.1 hnames
  obtain ⟨name', hname'⟩ := h.typeName _ _ _ _ hallowed.2 hname
  cases d' with
  | sqlite => exact ⟨_, rfl⟩
  | mysql | postgres =>
    exact ⟨_, Except.bind_ok.mpr ⟨names', hnames', Except.bind_ok.mpr ⟨name', hname', rfl⟩⟩⟩

end Dialect

/-- Whether a setting is for the same history as another one, in a dialect that accepts what the
other one accepts. -/
structure Setting.Accepts (c c' : Setting) (allowed : ColumnType → Prop) : Prop where
  dialect : c.dialect.Accepts c'.dialect allowed
  history : c'.history = c.history

end SchemaEvolution
