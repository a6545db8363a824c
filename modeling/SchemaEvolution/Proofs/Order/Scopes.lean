import SchemaEvolution.Proofs.Enums.Stored
import SchemaEvolution.Proofs.Extension.Scope

/-!
# Enums in any order

Tables that come in another order take enums into use in another order. When no text designates two
enums of the history, that makes no difference to a declaration: whatever a registry finds by a
reference is what the history finds by it. So a column that can be declared with the enums of one
registry is declared the same with those of another, which may have others in use.
-/

namespace SchemaEvolution

/-! ## Scopes -/

namespace Dialect

variable {d : Dialect} {enums enums' : EnumScope} {property : String} {type : ColumnType}
  {p : Property}

/-- All that the name of a type depends on is the enum that is inside all arrays. -/
theorem typeName_congr
    (h : ∀ reference, type.innermost.enumReference? = some reference →
      enums' reference = enums reference) :
    d.typeName property type enums' = d.typeName property type enums := by
  cases d with
  | mysql =>
    cases type with
    | enum reference => exact congrArg (Except.map _) (h reference rfl)
    | _ => rfl
  | postgres =>
    induction type with
    | enum reference => exact congrArg (Except.map _) (h reference rfl)
    | array element ih => rw [typeName_array, typeName_array, ih h]
    | _ => rfl
  | sqlite =>
    cases type with
    | _ => rfl

theorem declaration_congr
    (h : ∀ reference, p.shape.type.innermost.enumReference? = some reference →
      enums' reference = enums reference) :
    d.declaration p enums' = d.declaration p enums := by
  rw [declaration, declaration, typeName_congr h]

theorem columnRetyping_congr {t : TableShape} {before after : LiveColumn}
    (h : ∀ reference, after.property.shape.type.innermost.enumReference? = some reference →
      enums' reference = enums reference) :
    d.columnRetyping t before after enums' = d.columnRetyping t before after enums := by
  cases d with
  | mysql => rfl
  | postgres => simp only [columnRetyping, typeName_congr h]
  | sqlite => rfl

end Dialect

/-! ## Registries -/

namespace EnumRegistry

variable {g g' g₁ g₁' g₂ g₂' : EnumRegistry} {h : SchemaHistory} {e e' : EnumHistory}
  {text version reference : String}

/-- Whether the enums in use are ones that a history finds. -/
def ResolvedBy (g : EnumRegistry) (h : SchemaHistory) : Prop :=
  g.timeline = h.timeline ∧ ∀ e ∈ g.enums, ∃ reference, h.enum? reference = some e

theorem ResolvedBy.enum? (hg : g.ResolvedBy h) (ha : h.EnumsApart) (he : g.enum? text = some e) :
    h.enum? text = some e := by
  obtain ⟨hin, hdesignated⟩ := enum?_eq_some he
  exact ha.enum? (hg.2 e hin) hdesignated

/-- Two registries that find something by a text find the same. -/
theorem ResolvedBy.scopeAt_eq (hg : g.ResolvedBy h) (hg' : g'.ResolvedBy h) (ha : h.EnumsApart)
    (he : g.enum? text = some e) (he' : g'.enum? text = some e') :
    g'.scopeAt version text = g.scopeAt version text := by
  obtain rfl : e = e' := Option.some.inj ((hg.enum? ha he).symm.trans (hg'.enum? ha he'))
  simp only [scopeAt, he, he', hg.1, hg'.1]

/-- An enum is in use once it has been taken into use: no other one has its name. -/
theorem ResolvedBy.mem_register (hg : g.ResolvedBy h) (ha : h.EnumsApart)
    (he : h.enum? reference = some e) : e ∈ (g.register e).enums := by
  unfold register
  split
  · next hany =>
    obtain ⟨e', hin, hname⟩ := List.any_eq_true.mp hany
    obtain ⟨other, hother⟩ := hg.2 e' hin
    have hown : e'.isDesignatedBy e.name = true := by
      simp [EnumHistory.isDesignatedBy, beq_iff_eq.mp hname]
    have hself : e.isDesignatedBy e.name = true := by simp [EnumHistory.isDesignatedBy]
    have hsame : e' = e := ha e' (List.mem_of_find?_eq_some hother) e
      (List.mem_of_find?_eq_some he) e.name hown hself
    exact hsame ▸ hin
  · exact List.mem_append_right _ (List.mem_singleton_self e)

/-- A reference finds in a registry what the history has found by it and the registry has taken into
use. -/
theorem ResolvedBy.enum?_register (hg : (g.register e).ResolvedBy h) (ha : h.EnumsApart)
    (hin : e ∈ (g.register e).enums) (he : h.enum? reference = some e) :
    (g.register e).enum? reference = some e := by
  have hdesignated : e.isDesignatedBy reference = true :=
    List.find?_some (p := fun e : EnumHistory => e.isDesignatedBy reference) he
  obtain ⟨found, hfound⟩ : ∃ found, (g.register e).enum? reference = some found :=
    Option.isSome_iff_exists.mp (List.find?_isSome.mpr ⟨e, hin, hdesignated⟩)
  rw [hfound, (hg.enum? ha hfound).symm.trans he]

/-- Whether the enums that have come into use since a registry are in use in another one. -/
def NewIn (g g₁ g' : EnumRegistry) : Prop := ∀ e ∈ g₁.enums, e ∈ g.enums ∨ e ∈ g'.enums

theorem NewIn.refl : g.NewIn g g' := fun _ he => Or.inl he

theorem NewIn.trans (h : g.NewIn g₁ g₁') (h₁ : g₁.NewIn g₂ g₂') (hgrows : g₁'.Grows g₂') :
    g.NewIn g₂ g₂' := by
  intro e he
  rcases h₁ e he with he | he
  · rcases h e he with he | he
    · exact Or.inl he
    · exact Or.inr (hgrows.enums.subset he)
  · exact Or.inr he

end EnumRegistry

/-! ## Declarations -/

namespace LiveSchema

variable {c : Setting} {version : String} {s s' s₁ : LiveSchema} {p : Property}
  {k : LiveColumn} {columns : List LiveColumn}

section

variable (ha : c.history.EnumsApart)

include ha

/-- An enum that can be taken into use with some enums can be taken into use with others, and is
the same then. -/
theorem requireEnum_agree {type : ColumnType} (hs : s.enums.ResolvedBy c.history)
    (hs' : s'.enums.ResolvedBy c.history) (hr : s.requireEnum c version type = .ok s₁) :
    ∃ s₁', s'.requireEnum c version type = .ok s₁' ∧ s.enums.NewIn s₁.enums s₁'.enums ∧
      ∀ reference, type.innermost.enumReference? = some reference →
        s₁'.enums.scopeAt version reference = s₁.enums.scopeAt version reference := by
  unfold requireEnum at hr ⊢
  cases htype : type.innermost.enumReference? with
  | none =>
    rw [htype] at hr
    obtain rfl := Except.ok.inj hr
    exact ⟨s', rfl, .refl, fun _ h => by cases h⟩
  | some reference =>
    simp only [htype] at hr ⊢
    cases he : c.history.enum? reference with
    | none => simp only [he] at hr; cases hr
    | some e =>
      simp only [he] at hr ⊢
      obtain ⟨state, hstate, rfl⟩ := Except.map_ok.mp hr
      have hg := resolved_register s.enums reference e he hs
      have hg' := resolved_register s'.enums reference e he hs'
      have hin := hs.mem_register ha he
      have hin' := hs'.mem_register ha he
      have hsame : (s'.enums.register e).scopeAt version reference
          = (s.enums.register e).scopeAt version reference :=
        EnumRegistry.ResolvedBy.scopeAt_eq hg hg' ha
          (EnumRegistry.ResolvedBy.enum?_register hg ha hin he)
          (EnumRegistry.ResolvedBy.enum?_register hg' ha hin' he)
      refine ⟨{ s' with enums := s'.enums.register e },
        Except.map_ok.mpr ⟨state, hsame.trans hstate, rfl⟩, fun e' he' => ?_, ?_⟩
      · unfold EnumRegistry.register at he'
        split at he'
        · exact Or.inl he'
        · rcases List.mem_append.mp he' with he' | he'
          · exact Or.inl he'
          · obtain rfl := List.mem_singleton.mp he'
            exact Or.inr hin'
      · rintro _ ⟨⟩
        exact hsame

omit ha in
theorem redeclare_agree
    (hscope : ∀ reference, p.shape.type.innermost.enumReference? = some reference →
      s'.enums.scopeAt version reference = s.enums.scopeAt version reference) :
    s'.redeclare c version p = s.redeclare c version p :=
  congrArg (Except.map _) (Dialect.declaration_congr hscope)

theorem declare_agree (hs : s.enums.ResolvedBy c.history) (hs' : s'.enums.ResolvedBy c.history)
    (hd : s.declare c version p = .ok (s₁, k)) :
    ∃ s₁', s'.declare c version p = .ok (s₁', k) ∧ s.enums.NewIn s₁.enums s₁'.enums ∧
      ∀ reference, p.shape.type.innermost.enumReference? = some reference →
        s₁'.enums.scopeAt version reference = s₁.enums.scopeAt version reference := by
  obtain ⟨hr, hk⟩ := declare_ok.mp hd
  obtain ⟨s₁', hr', hnew, hscope⟩ := requireEnum_agree ha hs hs' hr
  exact ⟨s₁', declare_ok.mpr ⟨hr', (redeclare_agree hscope).trans hk⟩, hnew, hscope⟩

theorem declareAll_agree {table : String} {start : List LiveColumn} {edits : List PropertyEdit}
    (hs : s.enums.ResolvedBy c.history) (hs' : s'.enums.ResolvedBy c.history)
    (hd : declareAll c version table s start edits = .ok (s₁, columns)) :
    ∃ s₁', declareAll c version table s' start edits = .ok (s₁', columns) ∧
      s.enums.NewIn s₁.enums s₁'.enums := by
  induction edits generalizing s s' start with
  | nil =>
    obtain ⟨rfl, rfl⟩ := declareAll_nil_ok.mp hd
    exact ⟨s', rfl, .refl⟩
  | cons edit edits ih =>
    obtain ⟨name, shape, s₂, k, rfl, hfree, hk, hrest⟩ := declareAll_cons_ok.mp hd
    obtain ⟨s₂', hk', hnew, -⟩ := declare_agree ha hs hs' hk
    obtain ⟨s₁', hrest', hnew₁⟩ := ih (declare_registry resolved_register hs hk)
      (declare_registry resolved_register hs' hk') hrest
    exact ⟨s₁', declareAll_cons_ok.mpr ⟨name, shape, s₂', k, rfl, hfree, hk', hrest'⟩,
      hnew.trans hnew₁ (declareAll_grows hrest')⟩

end

end LiveSchema

end SchemaEvolution
