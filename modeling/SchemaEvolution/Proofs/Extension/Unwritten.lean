import SchemaEvolution.Proofs.Extension.EnumOperations

/-!
# Enums that show nowhere

About an enum in use something may be done at a version without any statement: SQLite has no enums,
and MySQL only declares columns again. So an enum may be in use along a timeline and not show
anywhere on it, and `EnumHistory.Unwritten` says exactly when that is so.
-/

namespace SchemaEvolution

namespace EnumHistory

/-- Whether an enum that has values gains further ones at a version of a timeline. -/
def GrowsAt (e : EnumHistory) (timeline : List String) (version : String) : Prop :=
  ∃ passed later, timeline = passed ++ version :: later ∧ (e.through passed).values ≠ [] ∧
    (e.through passed).values.length < (e.through (passed ++ [version])).values.length

/-- Whether an enum in use shows nowhere along a timeline: in SQLite always, in PostgreSQL when it
has no value yet, and in MySQL when no column is of its type wherever it grows. -/
def Unwritten (d : Dialect) (e : EnumHistory) (timeline : List String)
    (usesAt : String → List EnumUse) : Prop :=
  match d with
  | .mysql => ∀ version, e.GrowsAt timeline version → ∀ u ∈ usesAt version,
      ¬ u.property.shape.type.enumReference?.any e.isDesignatedBy
  | .postgres => (e.through timeline).values = []
  | .sqlite => True

variable {e : EnumHistory} {s : Enumeration} {versions later : List String}

theorem visible_eq_none : visible s = none ↔ s.values = [] := by
  unfold visible
  split
  · next h => simpa using h
  · next h => simpa using h

/-- An enum without values after some versions had none after fewer. -/
theorem through_values_prefix (h : (e.through (versions ++ later)).values = []) :
    (e.through versions).values = [] := by
  induction later using List.reverseRecOn with
  | nil => rwa [List.append_nil] at h
  | append_singleton later version ih =>
    rw [← List.append_assoc] at h
    exact ih (through_values h)

/-- An enum with values got the first of them somewhere. -/
theorem exists_first_values (h : (e.through versions).values ≠ []) :
    ∃ passed version later, versions = passed ++ version :: later ∧
      (e.through passed).values = [] ∧ (e.through (passed ++ [version])).values ≠ [] := by
  induction versions using List.reverseRecOn with
  | nil => exact absurd rfl h
  | append_singleton versions version ih =>
    by_cases hv : (e.through versions).values = []
    · exact ⟨versions, version, [], rfl, hv, h⟩
    · obtain ⟨passed, first, later, rfl, hpassed, hfirst⟩ := ih hv
      exact ⟨passed, first, later ++ [version], by simp, hpassed, hfirst⟩

end EnumHistory

namespace EnumRegistry

open EnumHistory

variable {d : Dialect} {versions passed : List String} {version : String}
  {usesAt : String → List EnumUse} {uses : List EnumUse} {e : EnumHistory}
  {es : List EnumHistory} {os part : List Operation}

/-! ## At one version -/

/-- What is done about an enum: nothing as long as it has no value, then its creation, and later its
growth where it grows. -/
theorem operationAt_cases (h : operationAt d passed version uses e = .ok part) :
    (part = [] ∧ ((e.through (passed ++ [version])).values = [] ∨
      ((e.through passed).values ≠ [] ∧
        ¬ (e.through passed).values.length < (e.through (passed ++ [version])).values.length))) ∨
    ((e.through (passed ++ [version])).values ≠ [] ∧ (e.through passed).values = [] ∧
      ∃ description,
        part = [⟨version, description, d.enumCreation (e.through (passed ++ [version]))⟩]) ∨
    ((e.through passed).values ≠ [] ∧
      (e.through passed).values.length < (e.through (passed ++ [version])).values.length ∧
      ∃ description statements, part = [⟨version, description, statements⟩] ∧
        d.enumGrowth (e.through (passed ++ [version]))
          ((e.through (passed ++ [version])).values.drop (e.through passed).values.length)
          (uses.filter fun u => u.property.shape.type.enumReference?.any e.isDesignatedBy)
            = .ok statements) := by
  unfold operationAt operation at h
  split at h
  · next hnone =>
    obtain rfl := Except.ok.inj h
    exact Or.inl ⟨rfl, Or.inl (visible_eq_none.mp hnone)⟩
  · next now hbefore hnow =>
    obtain rfl := Except.ok.inj h
    obtain ⟨hvalues, rfl⟩ := visible_eq_some.mp hnow
    exact Or.inr (Or.inl ⟨hvalues, visible_eq_none.mp hbefore, _, rfl⟩)
  · next previous now hbefore hnow =>
    obtain ⟨hvalues, rfl⟩ := visible_eq_some.mp hbefore
    obtain ⟨-, rfl⟩ := visible_eq_some.mp hnow
    split at h
    · next hlt =>
      obtain ⟨statements, hstatements, hpart⟩ := Except.bind_ok.mp h
      exact Or.inr (Or.inr ⟨hvalues, hlt, _, statements, (Except.pure_ok.mp hpart).symm,
        hstatements⟩)
    · next hle =>
      obtain rfl := Except.ok.inj h
      exact Or.inl ⟨rfl, Or.inr ⟨hvalues, hle⟩⟩

/-- Nothing is written about an enum at a version, dialect by dialect. -/
theorem operationAt_silent (h : operationAt d passed version uses e = .ok part) :
    (∀ o ∈ part, o.statements = []) ↔
      match d with
      | .mysql => (e.through passed).values ≠ [] →
          (e.through passed).values.length < (e.through (passed ++ [version])).values.length →
          ∀ u ∈ uses, ¬ u.property.shape.type.enumReference?.any e.isDesignatedBy
      | .postgres => (e.through (passed ++ [version])).values ≠ [] →
          (e.through passed).values ≠ [] ∧
          ¬ (e.through passed).values.length < (e.through (passed ++ [version])).values.length
      | .sqlite => True := by
  -- nothing is done, or the enum is created, or it grows; what is written depends on the dialect
  rcases operationAt_cases h with ⟨rfl, hwhy⟩ | ⟨hnow, hbefore, description, rfl⟩ |
    ⟨hbefore, hlt, description, statements, rfl, hgrowth⟩
  · cases d with
    | mysql =>
      rcases hwhy with hnow | ⟨-, hle⟩
      · simp [hnow]
      · simp [hle]
    | postgres =>
      rcases hwhy with hnow | hle
      · simp [hnow]
      · simp [hle]
    | sqlite => simp
  · cases d with
    | mysql => simp [Dialect.enumCreation, hbefore]
    | postgres => simp [Dialect.enumCreation, hnow, hbefore]
    | sqlite => simp [Dialect.enumCreation]
  · cases d with
    | mysql =>
      rw [List.forall_mem_singleton, Except.mapM_ok_eq_nil hgrowth, List.filter_eq_nil_iff]
      simp [hbefore, hlt]
    | postgres =>
      have hnow : (e.through (passed ++ [version])).values ≠ [] := by
        rintro hnil
        rw [hnil] at hlt
        exact absurd hlt (Nat.not_lt_zero _)
      obtain rfl := Except.ok.inj hgrowth
      simp [hnow, hlt]
    | sqlite =>
      obtain rfl := Except.ok.inj hgrowth
      simp

/-! ## Along a timeline -/

/-- Nothing is written along a timeline exactly if all enums in use are unwritten. -/
theorem written_operationsFrom (h : operationsFrom d es usesAt [] versions = .ok os) :
    written os = [] ↔ ∀ e ∈ es, e.Unwritten d versions usesAt := by
  have hsilent : written os = [] ↔ ∀ e ∈ es, ∀ passed version later,
      versions = passed ++ version :: later → ∀ part,
        operationAt d passed version (usesAt version) e = .ok part →
        ∀ o ∈ part, o.statements = [] := by
    rw [written_eq_nil]
    constructor
    · intro hos e he passed version later hversions part hpart o ho
      exact hos o ((mem_operationsFrom h).mpr ⟨passed, version, later, hversions, e, he, part,
        hpart, ho⟩)
    · intro hparts o ho
      obtain ⟨passed, version, later, hversions, e, he, part, hpart, ho⟩ :=
        (mem_operationsFrom h).mp ho
      exact hparts e he passed version later hversions part hpart o ho
  rw [hsilent]
  refine forall₂_congr fun e he => ?_
  have hparts : ∀ passed version later, versions = passed ++ version :: later →
      ∃ part, operationAt d passed version (usesAt version) e = .ok part :=
    fun passed version later hversions => operationAt_ok h hversions he
  cases d with
  | mysql =>
    constructor
    · rintro hall version ⟨passed, later, hversions, hbefore, hlt⟩
      obtain ⟨part, hpart⟩ := hparts passed version later hversions
      exact (operationAt_silent hpart).mp (hall passed version later hversions part hpart)
        hbefore hlt
    · intro hunwritten passed version later hversions part hpart
      exact (operationAt_silent hpart).mpr fun hbefore hlt =>
        hunwritten version ⟨passed, later, hversions, hbefore, hlt⟩
  | postgres =>
    constructor
    · intro hall
      by_contra hvalues
      -- the enum would be created where it gets its first values
      obtain ⟨passed, version, later, hversions, hbefore, hnow⟩ := exists_first_values hvalues
      obtain ⟨part, hpart⟩ := hparts passed version later hversions
      exact ((operationAt_silent hpart).mp (hall passed version later hversions part hpart)
        hnow).1 hbefore
    · intro hunwritten passed version later hversions part hpart
      refine (operationAt_silent hpart).mpr fun hnow => absurd ?_ hnow
      have hvalues : (e.through (passed ++ [version] ++ later)).values = [] := by
        rw [List.append_assoc, List.singleton_append, ← hversions]
        exact hunwritten
      exact through_values_prefix hvalues
  | sqlite =>
    constructor
    · exact fun _ => trivial
    · intro _ passed version later _ part hpart
      exact (operationAt_silent hpart).mpr trivial

end EnumRegistry

end SchemaEvolution
