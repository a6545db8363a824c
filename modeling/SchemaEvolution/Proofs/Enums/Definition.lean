import SchemaEvolution.Proofs.Extension.Unwritten

/-!
# Definitions of enum columns

MySQL knows no enums apart from columns: each column of an enum type lists the values in its own
definition. A definition begins with the name of the column, so it says itself which column it
defines. An enum that gains no value is listed as before.
-/

namespace SchemaEvolution

namespace Dialect

variable {p : Property} {enums : EnumScope} {text reference name rest : String}
  {values : List String}

/-- How MySQL defines a column of an enum type that has some values. -/
def enumDefinition (p : Property) (values : List String) : String :=
  quote .mysql p.name ++ " " ++ ("ENUM(" ++ literals values ++ ")") ++ nullability .mysql p.shape
    ++ (defaultClause .mysql p).toOption.getD ""

/-- The name of the column that a definition is of. -/
def definedName (definition : String) : String :=
  ((Text.Quoted.scan Dialect.mysql.quoteMark definition.toList).map
    fun read => String.ofList read.1).getD ""

/-- A declaration of a column of an enum type lists the values that the enum has in the scope. -/
theorem declaration_enum (hr : p.shape.type = .enum reference)
    (h : declaration .mysql p enums = .ok text) :
    ∃ state, enums reference = .ok state ∧ text = enumDefinition p state.values := by
  obtain ⟨type, htype, h⟩ := Except.bind_ok.mp h
  obtain ⟨default, hdefault, h⟩ := Except.bind_ok.mp h
  rw [hr] at htype
  obtain ⟨state, hstate, rfl⟩ := Except.map_ok.mp htype
  refine ⟨state, hstate, ?_⟩
  rw [← Except.pure_ok.mp h, enumDefinition, hdefault]
  rfl

theorem definedName_quote : definedName (quote .mysql name ++ (" " ++ rest)) = name := by
  have hscan : Text.Quoted.scan Dialect.mysql.quoteMark
      (quote .mysql name ++ (" " ++ rest)).toList = some (name.toList, (" " ++ rest).toList) := by
    rw [String.toList_append, quote, Text.Quoted.toList_string]
    exact Text.Quoted.scan_quote _ _ _ (by simp [quoteMark])
  rw [definedName, hscan]
  exact String.ofList_toList

theorem definedName_declaration (h : declaration .mysql p enums = .ok text) :
    definedName text = p.name := by
  obtain ⟨type, -, h⟩ := Except.bind_ok.mp h
  obtain ⟨default, -, h⟩ := Except.bind_ok.mp h
  rw [← Except.pure_ok.mp h, String.append_assoc, String.append_assoc, String.append_assoc]
  exact definedName_quote

theorem definedName_enumDefinition : definedName (enumDefinition p values) = p.name := by
  rw [enumDefinition, String.append_assoc, String.append_assoc, String.append_assoc]
  exact definedName_quote

end Dialect

/-! ## Values that are gained -/

namespace Enumeration

theorem isPrefix_insertValue {values : List String} {value : String} :
    values <+: insertValue values value := by
  unfold insertValue
  split
  · exact List.prefix_refl _
  · exact List.prefix_append _ _

/-- An enum keeps the values that it has, in their places. -/
theorem isPrefix_gaining {s : Enumeration} {values : List String} :
    s.values <+: (s.gaining values).values := by
  have hfold : ∀ vs start : List String, start <+: vs.foldl insertValue start := by
    intro vs
    induction vs with
    | nil => exact fun start => List.prefix_refl _
    | cons v vs ih => exact fun start => isPrefix_insertValue.trans (ih _)
  exact hfold values s.values

end Enumeration

namespace EnumHistory

variable {e : EnumHistory} {versions passed later : List String} {version : String}

/-- Whether an enum that has values after some versions gains further ones at the next. -/
def gains (e : EnumHistory) (versions : List String) (version : String) : Bool :=
  !(e.through versions).values.isEmpty &&
    decide ((e.through versions).values.length < (e.through (versions ++ [version])).values.length)

theorem gains_iff : e.gains versions version = true ↔ (e.through versions).values ≠ [] ∧
    (e.through versions).values.length < (e.through (versions ++ [version])).values.length := by
  simp [gains]

theorem growsAt_iff (hn : (passed ++ version :: later).Nodup) :
    e.GrowsAt (passed ++ version :: later) version ↔ e.gains passed version = true := by
  rw [gains_iff]
  constructor
  · rintro ⟨before, after, heq, hgrows⟩
    obtain ⟨-, hthere, hapart⟩ := List.nodup_append.mp hn
    have hpassed : version ∉ passed := fun hin =>
      hapart version hin version List.mem_cons_self rfl
    have hlater : version ∉ later := (List.nodup_cons.mp hthere).1
    obtain ⟨rfl, -, -⟩ := (List.append_cons_inj_of_notMem hpassed hlater).mp heq
    exact hgrows
  · intro hgrows
    exact ⟨passed, later, rfl, hgrows⟩

/-- An enum that gains no value stays as it is. -/
theorem values_of_not_gains (hvalues : (e.through versions).values ≠ [])
    (h : e.gains versions version = false) :
    (e.through (versions ++ [version])).values = (e.through versions).values := by
  have hle : ¬ (e.through versions).values.length
      < (e.through (versions ++ [version])).values.length := fun hlt =>
    Bool.false_ne_true (h.symm.trans (gains_iff.mpr ⟨hvalues, hlt⟩))
  have hkept : (e.through versions).values <+: (e.through (versions ++ [version])).values := by
    rw [through_concat, next]
    split
    · exact Enumeration.isPrefix_gaining
    · exact List.prefix_refl _
  exact (hkept.eq_of_length_le (Nat.le_of_not_lt hle)).symm

end EnumHistory

end SchemaEvolution
