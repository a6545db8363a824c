import SchemaEvolution.Proofs.Walk.Start

/-!
# Declarations that stand in tables

Every column stands in its table with a declaration that was written for it, at some version or
other. In SQLite such a declaration says whether the column is serial, so a column whose declaration
stays the same stays serial or stays not.
-/

namespace SchemaEvolution

/-- Whether a column stands with a declaration that a dialect writes for it. -/
def LiveColumn.IsDeclared (d : Dialect) (k : LiveColumn) : Prop :=
  ∃ enums, d.declaration k.property enums = .ok k.declaration

/-! ## Serial columns -/

namespace Dialect

variable {p : Property} {enums : EnumScope} {text : String}

/-- What follows the name in the declaration of a serial column, and of no other. -/
def serialStart : String := " INTEGER P"

/-- The types that SQLite knows. -/
def sqliteTypes : List String := ["INTEGER", "REAL", "NUMERIC", "BLOB", "TEXT"]

theorem typeName_mem_sqliteTypes {property name : String} {type : ColumnType}
    (h : typeName .sqlite property type enums = .ok name) : name ∈ sqliteTypes := by
  cases type <;> cases h <;> decide

/-- What can follow the name in the declaration of a column that is not serial does not begin like
that of a serial one, neither without a default nor with one. -/
theorem not_serialStart : ∀ type ∈ sqliteTypes, ∀ null ∈ ["", " NOT NULL"],
    (" " ++ type ++ null).toList.take 10 ≠ serialStart.toList ∧
    (" " ++ type ++ null ++ " DEFAULT ").toList.take 10 ≠ serialStart.toList ∧
    10 ≤ (" " ++ type ++ null ++ " DEFAULT ").toList.length := by
  decide

theorem declaration_serial (hs : p.isSerial = true)
    (h : declaration .sqlite p enums = .ok text) :
    ∃ rest, text = quote .sqlite p.name ++ (serialStart ++ rest) := by
  obtain ⟨type, ht, h⟩ := Except.bind_ok.mp h
  obtain ⟨default, -, h⟩ := Except.bind_ok.mp h
  obtain rfl := Except.pure_ok.mp h
  have htype : type = "INTEGER" := by
    unfold Property.isSerial at hs
    generalize p.shape.type = t at hs ht
    cases t <;> cases hs <;> exact (Except.ok.inj ht).symm
  have hnull : nullability .sqlite p.shape = " PRIMARY KEY AUTOINCREMENT" := if_pos hs
  rw [htype, hnull]
  refine ⟨"RIMARY KEY AUTOINCREMENT" ++ default, ?_⟩
  simp only [String.append_assoc]
  rfl

theorem declaration_not_serial (hs : p.isSerial = false)
    (h : declaration .sqlite p enums = .ok text) :
    ¬ ∃ rest, text = quote .sqlite p.name ++ (serialStart ++ rest) := by
  obtain ⟨type, ht, h⟩ := Except.bind_ok.mp h
  obtain ⟨default, hdefault, h⟩ := Except.bind_ok.mp h
  obtain rfl := Except.pure_ok.mp h
  have hnull : nullability .sqlite p.shape ∈ ["", " NOT NULL"] := by
    have hserial : ¬ p.shape.type.isSerial = true := ne_true_of_eq_false hs
    rw [nullability, if_neg hserial]
    split <;> decide
  obtain ⟨hplain, hclause, hlength⟩ :=
    not_serialStart type (typeName_mem_sqliteTypes ht) _ hnull
  rintro ⟨rest, heq⟩
  -- ten characters after the name tell the two kinds apart
  rw [String.append_assoc, String.append_assoc, String.append_assoc,
    String.append_right_inj] at heq
  have htake : (" " ++ type ++ nullability .sqlite p.shape ++ default).toList.take 10
      = serialStart.toList := by
    rw [String.append_assoc, String.append_assoc, heq, String.toList_append,
      List.take_append_of_le_length (by decide)]
    rfl
  unfold defaultClause at hdefault
  split at hdefault
  · obtain rfl := Except.ok.inj hdefault
    rw [String.append_empty] at htake
    exact hplain htake
  · obtain ⟨value, -, rfl⟩ := Except.map_ok.mp hdefault
    rw [← String.append_assoc, String.toList_append, List.take_append_of_le_length hlength] at htake
    exact hclause htake

theorem isSerial_iff (h : declaration .sqlite p enums = .ok text) :
    p.isSerial = true ↔ ∃ rest, text = quote .sqlite p.name ++ (serialStart ++ rest) := by
  cases hs : p.isSerial with
  | true => exact iff_of_true rfl (declaration_serial hs h)
  | false => exact iff_of_false Bool.false_ne_true (declaration_not_serial hs h)

/-- Columns of one name with one declaration are both serial or both not. -/
theorem isSerial_of_declaration_eq {a b : LiveColumn} (ha : a.IsDeclared .sqlite)
    (hb : b.IsDeclared .sqlite) (hname : a.name = b.name)
    (hdeclaration : a.declaration = b.declaration) :
    a.property.isSerial = b.property.isSerial := by
  obtain ⟨enums, ha⟩ := ha
  obtain ⟨enums', hb⟩ := hb
  rw [Bool.eq_iff_iff, isSerial_iff ha, isSerial_iff hb, hdeclaration,
    show a.property.name = b.property.name from hname]

end Dialect

/-! ## All along a walk -/

namespace LiveSchema

variable {c : Setting} {version id : String} {s s' s₁ : LiveSchema} {t t' : LiveTable}
  {k column : LiveColumn} {operations : List Operation}

/-- Whether all columns of all tables stand with declarations that were written for them. -/
def Declared (d : Dialect) (s : LiveSchema) : Prop :=
  ∀ t ∈ s.tables, ∀ k ∈ t.columns, k.IsDeclared d

theorem redeclare_isDeclared {p : Property} (h : s.redeclare c version p = .ok k) :
    k.IsDeclared c.dialect := by
  obtain ⟨hp, hd⟩ := redeclare_ok h
  rw [← hp] at hd
  exact ⟨_, hd⟩

theorem declareAll_isDeclared {table : String} {start columns : List LiveColumn}
    {edits : List PropertyEdit}
    (h : declareAll c version table s start edits = .ok (s', columns))
    (hstart : ∀ k ∈ start, k.IsDeclared c.dialect) : ∀ k ∈ columns, k.IsDeclared c.dialect := by
  induction edits generalizing s start with
  | nil =>
    obtain ⟨-, rfl⟩ := declareAll_nil_ok.mp h
    exact hstart
  | cons edit edits ih =>
    obtain ⟨name, shape, s₁, column, -, -, h₁, h₂⟩ := declareAll_cons_ok.mp h
    refine ih h₂ fun k hk => ?_
    rcases List.mem_append.mp hk with hk | hk
    · exact hstart k hk
    · rw [List.mem_singleton.mp hk]
      exact redeclare_isDeclared (declare_ok.mp h₁).2

theorem Declared.setTable {d : Dialect} (h : s.Declared d) (hs : s₁.tables = s.tables)
    (ht : ∀ k ∈ t'.columns, k.IsDeclared d) : (s₁.setTable t').Declared d := by
  intro u hu
  rcases mem_setTable hu with rfl | ⟨hu, -⟩
  · exact ht
  · exact h u (hs ▸ hu)

/-- Whatever an edit does, all columns stand with declarations of theirs. -/
theorem Effect.declared {e : TableEdit} (h : s.Declared c.dialect) (ht : t ∈ s.tables)
    (he : Effect c version s t e s' operations) : s'.Declared c.dialect := by
  have hcolumns := h t ht
  cases he with
  | create he =>
    obtain ⟨-, s₁, columns, hd, rfl, -⟩ := createTable_ok.mp he
    exact h.setTable (declareAll_frame hd).1 (declareAll_isDeclared hd (by simp))
  | rename =>
    unfold renameTable
    split
    · exact h
    · split
      · exact h
      · refine h.setTable rfl ?_
        exact hcolumns
  | addProperty he =>
    obtain ⟨-, s₁, column, hd, rfl, -⟩ := addProperty_ok.mp he
    refine h.setTable (declare_frame hd).1 fun k hk => ?_
    rcases List.mem_append.mp hk with hk | hk
    · exact hcolumns k hk
    · rw [List.mem_singleton.mp hk]
      exact redeclare_isDeclared (declare_ok.mp hd).2
  | @renameProperty name new _ _ he =>
    obtain ⟨before, column, -, -, hd, rfl, -⟩ := renameProperty_ok.mp he
    have hset : (s.setTable ((t.setColumn name column).followColumn name new)).Declared
        c.dialect := by
      refine h.setTable rfl fun k hk => ?_
      rcases LiveTable.mem_setColumn hk with rfl | ⟨hk, -⟩
      · exact redeclare_isDeclared hd
      · exact hcolumns k hk
    intro u hu
    obtain ⟨v, hv, rfl⟩ := List.mem_map.mp hu
    exact hset v hv
  | retypeProperty he =>
    obtain ⟨before, after, s₁, statements, -, -, -, hd, -, rfl, -⟩ := retypeProperty_ok.mp he
    refine h.setTable (declare_frame hd).1 fun k hk => ?_
    rcases LiveTable.mem_setColumn hk with rfl | ⟨hk, -⟩
    · exact redeclare_isDeclared (declare_ok.mp hd).2
    · exact hcolumns k hk
  | removeProperty he =>
    obtain ⟨-, rfl, -⟩ := removeProperty_ok.mp he
    exact h.setTable rfl fun k hk => hcolumns k (List.mem_filter.mp hk).1
  | addPrimaryKey he =>
    obtain ⟨-, -, -, s₁, hr, rfl, -⟩ := addPrimaryKey_ok.mp he
    obtain ⟨-, rfl⟩ := reserve_ok.mp hr
    exact h.setTable rfl hcolumns
  | addForeignKey he =>
    obtain ⟨own, target, s₁, -, -, -, -, -, hr, rfl, -⟩ := addForeignKey_ok.mp he
    obtain ⟨-, rfl⟩ := reserve_ok.mp hr
    exact h.setTable rfl hcolumns
  | removePrimaryKey he =>
    obtain ⟨key, -, -, rfl, -⟩ := removePrimaryKey_ok.mp he
    exact h.setTable rfl hcolumns
  | removeForeignKey he =>
    obtain ⟨-, rfl, -⟩ := removeForeignKey_ok.mp he
    exact h.setTable rfl hcolumns
  | addIndex he =>
    obtain ⟨-, -, -, s₁, hr, rfl, -⟩ := addIndex_ok.mp he
    obtain ⟨-, rfl⟩ := reserve_ok.mp hr
    exact h.setTable rfl hcolumns
  | removeIndex he =>
    obtain ⟨-, rfl, -⟩ := removeIndex_ok.mp he
    exact h.setTable rfl hcolumns

theorem Declared.takeDue {d : Dialect} (h : s.Declared d) : (s.takeDue version).1.Declared d := by
  intro u hu
  rw [takeDue_tables] at hu
  obtain ⟨t, ht, rfl⟩ := List.mem_map.mp hu
  exact h t ht

theorem Declared.edit {e : String × TableEdit} (h : s.Declared c.dialect)
    (he : s.edit c version e = .ok (s', operations)) : s'.Declared c.dialect := by
  rcases edit_ok he with ⟨rfl, -⟩ | ⟨t, ht, -, he⟩
  · exact h
  · exact he.declared h (table?_eq_some ht).1

theorem Declared.advance (h : s.Declared c.dialect) (hsound : s.Sound)
    (he : s.advance c version = .ok (s', operations)) : s'.Declared c.dialect :=
  forEach_invariant (P := fun s => s.Declared c.dialect) (fun _ _ _ _ _ h he => h.edit he)
    h.takeDue (advance_script hsound he)

theorem Declared.walk {versions : List String} {w : Walk} (h : s.Declared c.dialect)
    (hsound : s.Sound) (hw : s.walk c versions = .ok w) : w.final.Declared c.dialect :=
  (forEach_invariant (P := fun s => s.Sound ∧ s.Declared c.dialect)
    (fun _ _ _ _ _ h he => ⟨h.1.advance he, h.2.advance h.1 he⟩) ⟨hsound, h⟩ (walk_ok hw)).2

/-- Before the first version there are no columns. -/
theorem declared_start {h : SchemaHistory} {d : Dialect} (hs : start h = .ok s) :
    s.Declared d := by
  intro t ht k hk
  obtain ⟨_, -, name, ht⟩ := tables_start hs ht
  rw [ht] at hk
  cases hk

end LiveSchema

end SchemaEvolution
