import SchemaEvolution.Proofs.Extension.Snapshots
import SchemaEvolution.Proofs.Walk.ForEach

/-!
# Declarations in a wider scope

A column that can be declared with some enums is declared the same with more of them. Only MySQL
writes the values of an enum into a declaration, so only there the values have to be the same.
-/

namespace SchemaEvolution

/-- Whether a scope finds what another one finds: an enum of the same name, and in MySQL with the
same values. -/
def EnumScope.Covers (d : Dialect) (wide narrow : EnumScope) : Prop :=
  ∀ text s, narrow text = .ok s →
    ∃ s', wide text = .ok s' ∧ s'.name = s.name ∧ (d = .mysql → s' = s)

namespace Dialect

variable {d : Dialect} {wide narrow : EnumScope} {property name : String} {type : ColumnType}
  {p : Property}

theorem typeName_array {element : ColumnType} {enums : EnumScope} :
    typeName .postgres property (.array element) enums
      = if element.isSerial || element.isArray then .error (.unsupportedType property .postgres)
        else (typeName .postgres property element enums).map (· ++ "[]") :=
  rfl

/-- A type that has a name with some enums has the same name with more of them. -/
theorem typeName_of_covers (h : wide.Covers d narrow)
    (ht : d.typeName property type narrow = .ok name) :
    d.typeName property type wide = .ok name := by
  cases d with
  | mysql =>
    cases type with
    | enum reference =>
      obtain ⟨s, hs, hname⟩ := Except.map_ok.mp ht
      obtain ⟨s', hs', -, heq⟩ := h reference s hs
      exact Except.map_ok.mpr ⟨s', hs', by rw [heq rfl]; exact hname⟩
    | _ => exact ht
  | postgres =>
    induction type generalizing name with
    | enum reference =>
      obtain ⟨s, hs, hname⟩ := Except.map_ok.mp ht
      obtain ⟨s', hs', heq, -⟩ := h reference s hs
      exact Except.map_ok.mpr ⟨s', hs', by rw [heq]; exact hname⟩
    | array element ih =>
      rw [typeName_array] at ht ⊢
      split at ht
      · cases ht
      · next hplain =>
        rw [if_neg hplain]
        obtain ⟨inner, hinner, hname⟩ := Except.map_ok.mp ht
        exact Except.map_ok.mpr ⟨inner, ih hinner, hname⟩
    | _ => exact ht
  | sqlite =>
    cases type with
    | _ => exact ht

theorem declaration_of_covers (h : wide.Covers d narrow)
    (hd : d.declaration p narrow = .ok name) : d.declaration p wide = .ok name := by
  obtain ⟨type, ht, hrest⟩ := Except.bind_ok.mp hd
  exact Except.bind_ok.mpr ⟨type, typeName_of_covers h ht, hrest⟩

theorem columnRetyping_of_covers {t : TableShape} {before after : LiveColumn}
    {statements : List Ddl} (h : wide.Covers d narrow)
    (hr : d.columnRetyping t before after narrow = .ok statements) :
    d.columnRetyping t before after wide = .ok statements := by
  cases d with
  | mysql => exact hr
  | postgres =>
    simp only [columnRetyping] at hr ⊢
    split at hr
    · cases hr
    · next hs =>
      rw [if_neg hs]
      obtain ⟨type, ht, hrest⟩ := Except.bind_ok.mp hr
      exact Except.bind_ok.mpr ⟨type, typeName_of_covers h ht, hrest⟩
  | sqlite => exact hr

end Dialect

end SchemaEvolution
