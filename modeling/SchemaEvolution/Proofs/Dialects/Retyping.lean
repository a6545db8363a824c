import SchemaEvolution.Proofs.Statements

/-!
# Where a retyping in PostgreSQL leads

What PostgreSQL knows about a column are its type, whether it allows `NULL`, and its default in SQL.
The statements of a retyping are replayed on what it knows of the old column.

The type and the nullability are always those of the new column. The default is written when it is
another text than before; but how a text is written depends on the type, so a default that is kept
word for word under another type may stay what it was under the old one.
-/

namespace SchemaEvolution

/-- A column as PostgreSQL knows it. -/
structure ColumnState where
  type : String
  nullable : Bool
  /-- The default, in SQL. -/
  default : Option String
  deriving DecidableEq, Repr

namespace ColumnState

variable {p : Property} {enums : EnumScope} {a b s : ColumnState}
  {table column : String}

/-- The default of a property in SQL, if it has one. -/
def defaultOf (p : Property) : Except SchemaFault (Option String) :=
  match p.shape.default with
  | none => .ok none
  | some raw => (Dialect.defaultText .postgres p.name p.shape.type raw).map some

/-- The column that a property describes. -/
def ofProperty (p : Property) (enums : EnumScope) : Except SchemaFault ColumnState := do
  let type ← Dialect.typeName .postgres p.name p.shape.type enums
  let default ← defaultOf p
  return ⟨type, p.isNullable, default⟩

theorem ofProperty_ok :
    ofProperty p enums = .ok s ↔
      Dialect.typeName .postgres p.name p.shape.type enums = .ok s.type ∧
        s.nullable = p.isNullable ∧ defaultOf p = .ok s.default := by
  obtain ⟨type, nullable, default⟩ := s
  simp only [ofProperty, Except.bind_ok]
  constructor
  · rintro ⟨type', htype, default', hdefault, hs⟩
    cases hs
    exact ⟨htype, rfl, hdefault⟩
  · rintro ⟨htype, rfl, hdefault⟩
    exact ⟨type, htype, default, hdefault, rfl⟩

/-- What a statement does to a column of a table. -/
def apply (table column : String) (s : ColumnState) : Ddl → ColumnState
  | .setType t c type => if t = table ∧ c = column then { s with type } else s
  | .setNullable t c nullable => if t = table ∧ c = column then { s with nullable } else s
  | .setDefault t c default => if t = table ∧ c = column then { s with default } else s
  | _ => s

/-- What statements do to a column, one after the other. -/
def replay (table column : String) (s : ColumnState) (statements : List Ddl) : ColumnState :=
  statements.foldl (apply table column) s

@[simp] theorem replay_nil : s.replay table column [] = s := rfl

@[simp] theorem replay_cons {statement : Ddl} {statements : List Ddl} :
    s.replay table column (statement :: statements)
      = (s.apply table column statement).replay table column statements := rfl

@[simp] theorem apply_setType {type : String} :
    s.apply table column (.setType table column type) = { s with type } := if_pos ⟨rfl, rfl⟩

@[simp] theorem apply_setNullable {nullable : Bool} :
    s.apply table column (.setNullable table column nullable) = { s with nullable } :=
  if_pos ⟨rfl, rfl⟩

@[simp] theorem apply_setDefault {default : Option String} :
    s.apply table column (.setDefault table column default) = { s with default } :=
  if_pos ⟨rfl, rfl⟩

/-- What gives a column this state, in SQL, after the name of the column. The default is left out
if it is kept. -/
def clauses (s : ColumnState) (keepsDefault : Bool) : List String :=
  [" TYPE " ++ s.type, if s.nullable then " DROP NOT NULL" else " SET NOT NULL"]
    ++ if keepsDefault then []
      else [match s.default with
        | some default => " SET DEFAULT " ++ default
        | none => " DROP DEFAULT"]

end ColumnState

namespace Dialect

open ColumnState

variable {t : TableShape} {before after : LiveColumn} {enums : EnumScope} {a b : ColumnState}

/-- What a retyping to a type that is not serial writes about the default. -/
theorem columnRetyping_of_state (hserial : after.property.isSerial = false)
    (ha : ofProperty after.property enums = .ok a) :
    columnRetyping .postgres t before after enums = .ok
      ([.setType t.name after.name a.type, .setNullable t.name after.name a.nullable]
        ++ if before.property.shape.default = after.property.shape.default then []
          else [.setDefault t.name after.name a.default]) := by
  obtain ⟨htype, hnullable, hdefault⟩ := ofProperty_ok.mp ha
  have hserial' : ¬after.property.isSerial = true := by simp [hserial]
  simp only [columnRetyping, if_neg hserial', htype, hnullable]
  by_cases hsame : before.property.shape.default = after.property.shape.default
  · simp only [if_pos hsame]
    rfl
  · simp only [if_neg hsame]
    rw [defaultOf] at hdefault
    cases hraw : after.property.shape.default with
    | none =>
      rw [hraw] at hdefault
      rw [← Except.ok.inj hdefault]
      rfl
    | some raw =>
      rw [hraw] at hdefault
      obtain ⟨value, hvalue, hsome⟩ := Except.map_ok.mp hdefault
      rw [← hsome]
      simp only [hvalue]
      rfl

theorem text_setNullable {d : Dialect} {table column : String} {nullable : Bool} :
    Ddl.text d (.setNullable table column nullable)
      = Ddl.alterColumn d table column
        ++ if nullable then " DROP NOT NULL" else " SET NOT NULL" := by
  cases nullable <;> rfl

theorem text_setDefault {d : Dialect} {table column : String} {default : Option String} :
    Ddl.text d (.setDefault table column default)
      = Ddl.alterColumn d table column ++ match default with
        | some default => " SET DEFAULT " ++ default
        | none => " DROP DEFAULT" := by
  cases default with
  | none => rfl
  | some default => exact String.append_assoc

/-- The statements that give a column a state alter it by the clauses of the state. -/
theorem map_text_retyping {table column : String} {keepsDefault : Prop} [Decidable keepsDefault] :
    ([Ddl.setType table column a.type, Ddl.setNullable table column a.nullable]
        ++ if keepsDefault then [] else [Ddl.setDefault table column a.default]).map
          (Ddl.text .postgres)
      = (a.clauses keepsDefault).map (Ddl.alterColumn .postgres table column ++ ·) := by
  have htype : Ddl.text .postgres (.setType table column a.type)
      = Ddl.alterColumn .postgres table column ++ (" TYPE " ++ a.type) := String.append_assoc
  by_cases h : keepsDefault
  · simp only [clauses, h, if_true, decide_true, List.append_nil, List.map_cons, List.map_nil,
      htype, text_setNullable]
  · simp only [clauses, h, if_false, decide_false, Bool.false_eq_true, List.cons_append,
      List.nil_append, List.map_cons, List.map_nil, htype, text_setNullable, text_setDefault]

/-- Two columns that keep a default word for word have the same default in SQL exactly if it is
written alike under both types. -/
theorem default_eq_iff (hb : ofProperty before.property enums = .ok b)
    (ha : ofProperty after.property enums = .ok a)
    (hsame : before.property.shape.default = after.property.shape.default) :
    b.default = a.default ↔ ∀ raw, after.property.shape.default = some raw →
      defaultText .postgres before.name before.property.shape.type raw
        = defaultText .postgres after.name after.property.shape.type raw := by
  have hbefore := (ofProperty_ok.mp hb).2.2
  have hafter := (ofProperty_ok.mp ha).2.2
  rw [defaultOf, hsame] at hbefore
  rw [defaultOf] at hafter
  cases hraw : after.property.shape.default with
  | none =>
    rw [hraw] at hbefore hafter
    simp [← Except.ok.inj hbefore, ← Except.ok.inj hafter]
  | some raw =>
    rw [hraw] at hbefore hafter
    obtain ⟨u, hu, hbu⟩ := Except.map_ok.mp hbefore
    obtain ⟨v, hv, hav⟩ := Except.map_ok.mp hafter
    simp [← hbu, ← hav, hu, hv]

/-- A retyping of a column in PostgreSQL succeeds where both properties can be written. It alters
the column by the clauses of the new one, without the default if that is kept word for word. Its
statements lead from the old column to the type and the nullability of the new one. They lead to its
default as well, unless the default is kept and the new type writes it otherwise: then the default
stays what it was. -/
theorem columnRetyping_replay (hserial : after.property.isSerial = false)
    (hname : before.name = after.name) (hb : ofProperty before.property enums = .ok b)
    (ha : ofProperty after.property enums = .ok a) :
    ∃ statements, columnRetyping .postgres t before after enums = .ok statements ∧
      statements.map (Ddl.text .postgres)
        = (a.clauses (before.property.shape.default = after.property.shape.default)).map
          ("ALTER TABLE " ++ quote .postgres t.name ++ " ALTER COLUMN "
            ++ quote .postgres before.name ++ ·) ∧
      b.replay t.name before.name statements
        = { a with
            default :=
              if before.property.shape.default = after.property.shape.default then b.default
              else a.default } ∧
      (b.replay t.name before.name statements = a ↔
        ∀ raw, before.property.shape.default = some raw →
          after.property.shape.default = some raw →
            defaultText .postgres before.name before.property.shape.type raw
              = defaultText .postgres after.name after.property.shape.type raw) := by
  have hreplay : ∀ default : Option String,
      ({ a with default } : ColumnState) = a ↔ default = a.default := fun default => by
    obtain ⟨type, nullable, default'⟩ := a
    simp
  refine ⟨_, columnRetyping_of_state hserial ha, hname ▸ map_text_retyping, ?_⟩
  rw [hname]
  by_cases hsame : before.property.shape.default = after.property.shape.default
  · have hdefault := default_eq_iff hb ha hsame
    rw [hname] at hdefault
    simp [hsame, hreplay, hdefault]
  · refine ⟨by simp [hsame], ?_⟩
    have hreached : (replay t.name after.name b
        ([.setType t.name after.name a.type, .setNullable t.name after.name a.nullable]
          ++ if before.property.shape.default = after.property.shape.default then []
            else [.setDefault t.name after.name a.default])) = a := by
      simp [hsame]
    exact iff_of_true hreached fun raw hbefore hafter => absurd (hbefore.trans hafter.symm) hsame

/-- A flag that becomes a text and keeps its default `1`. -/
def flagBefore : LiveColumn where
  property := ⟨"flag", ⟨.boolean, false, some "1"⟩⟩
  declaration := "\"flag\" BOOLEAN NOT NULL DEFAULT TRUE"

def flagAfter : LiveColumn where
  property := ⟨"flag", ⟨.text, false, some "1"⟩⟩
  declaration := "\"flag\" TEXT NOT NULL DEFAULT '1'"

def flagTable : TableShape := { name := "t", columns := [flagAfter] }

/-- The text keeps the default of the flag: `TRUE`, where its own would be `'1'`. -/
theorem columnRetyping_replay_flag :
    ofProperty flagBefore.property EnumScope.empty = .ok ⟨"BOOLEAN", false, some "TRUE"⟩ ∧
      ofProperty flagAfter.property EnumScope.empty = .ok ⟨"TEXT", false, some "'1'"⟩ ∧
      ∃ statements,
        columnRetyping .postgres flagTable flagBefore flagAfter EnumScope.empty = .ok statements ∧
          replay "t" "flag" ⟨"BOOLEAN", false, some "TRUE"⟩ statements
            = ⟨"TEXT", false, some "TRUE"⟩ := by
  have hone : (Default.trimmed "1").toLower = "1" := by decide +kernel
  have hbefore : ofProperty flagBefore.property EnumScope.empty
      = .ok ⟨"BOOLEAN", false, some "TRUE"⟩ :=
    ofProperty_ok.mpr ⟨rfl, rfl, Except.map_ok.mpr ⟨_, if_pos (Or.inr hone), rfl⟩⟩
  have hafter : ofProperty flagAfter.property EnumScope.empty
      = .ok ⟨"TEXT", false, some "'1'"⟩ := by rfl
  obtain ⟨statements, hstatements, -, hreplay, -⟩ :=
    columnRetyping_replay (t := flagTable) (by rfl) (by rfl) hbefore hafter
  exact ⟨hbefore, hafter, statements, hstatements, hreplay⟩

end Dialect

end SchemaEvolution
