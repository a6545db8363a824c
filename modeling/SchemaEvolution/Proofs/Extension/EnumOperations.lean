import SchemaEvolution.Proofs.Descriptions
import SchemaEvolution.Proofs.Extension.Snapshots
import SchemaEvolution.Proofs.Walk.ForEach

/-!
# What is done about enums

At each version something may be done about each enum in use, so what is done along a timeline can
be taken apart by versions and by enums. Enums that come into use later are asked at the old
versions too; whether that shows depends on the dialect, and `EnumHistory.Unwritten` says when it
does not.
-/

namespace SchemaEvolution

namespace EnumRegistry

variable {d : Dialect} {g : EnumRegistry} {before versions versions' : List String}
  {version : String} {usesAt usesAt' : String → List EnumUse} {uses : List EnumUse}
  {e e' : EnumHistory} {es es' : List EnumHistory} {os : List Operation}

/-- What is done about one enum at a version that comes after some others. -/
def operationAt (d : Dialect) (before : List String) (version : String) (uses : List EnumUse)
    (e : EnumHistory) : Except SchemaFault (List Operation) :=
  operation d e version uses (EnumHistory.visible (e.through before))
    (EnumHistory.visible (e.through (before ++ [version])))

/-- What is done about enums along some versions, which come after others. -/
def operationsFrom (d : Dialect) (es : List EnumHistory) (usesAt : String → List EnumUse) :
    List String → List String → Except SchemaFault (List Operation)
  | _, [] => .ok []
  | before, version :: versions => do
    let first ← es.mapM (operationAt d before version (usesAt version))
    let rest ← operationsFrom d es usesAt (before ++ [version]) versions
    return first.flatten ++ rest

theorem operationsFrom_cons_ok :
    operationsFrom d es usesAt before (version :: versions) = .ok os ↔
      ∃ first rest, es.mapM (operationAt d before version (usesAt version)) = .ok first ∧
        operationsFrom d es usesAt (before ++ [version]) versions = .ok rest ∧
        os = first.flatten ++ rest := by
  simp only [operationsFrom, Except.bind_ok, Except.pure_ok, @eq_comm _ _ os]
  constructor
  · rintro ⟨first, hfirst, rest, hrest, hos⟩
    exact ⟨first, rest, hfirst, hrest, hos⟩
  · rintro ⟨first, rest, hfirst, hrest, hos⟩
    exact ⟨first, hfirst, rest, hrest, hos⟩

/-- All that is done about the enums in use is done along the timeline. -/
theorem operations_ok (h : g.operations d usesAt = .ok os) :
    operationsFrom d g.enums usesAt [] g.timeline = .ok os := by
  suffices hfrom : ∀ versions before os, g.timeline = before ++ versions →
      Except.map List.flatten ((versions.zipIdx before.length).mapM fun x =>
        g.operationsAt d x.2 x.1 (usesAt x.1)) = .ok os →
      operationsFrom d g.enums usesAt before versions = .ok os by
    obtain ⟨parts, hparts, hos⟩ := Except.bind_ok.mp h
    exact hfrom g.timeline [] os rfl (Except.map_ok.mpr ⟨parts, hparts, Except.pure_ok.mp hos⟩)
  intro versions
  induction versions with
  | nil =>
    intro before os _ h
    exact h
  | cons version versions ih =>
    intro before os htimeline h
    obtain ⟨parts, hparts, rfl⟩ := Except.map_ok.mp h
    rw [List.zipIdx_cons] at hparts
    obtain ⟨part, rest, hpart, hrest, rfl⟩ := Except.mapM_cons_ok.mp hparts
    obtain ⟨first, hfirst, hflat⟩ := Except.bind_ok.mp hpart
    -- at the position of a version, the snapshots are those before it and with it
    simp only [htimeline, EnumHistory.snapshots_at, EnumHistory.snapshots_before,
      Option.join_some] at hfirst
    rw [← Except.pure_ok.mp hflat, List.flatten_cons]
    refine operationsFrom_cons_ok.mpr ⟨first, rest.flatten, hfirst, ?_, rfl⟩
    refine ih (before ++ [version]) rest.flatten (by rw [htimeline, List.append_assoc]; rfl)
      (Except.map_ok.mpr ⟨rest, ?_, rfl⟩)
    rw [List.length_append, List.length_singleton]
    exact hrest

/-! ## Taken apart -/

/-- A longer timeline is gone along to its middle, and then on from there. -/
theorem operationsFrom_append_ok :
    operationsFrom d es usesAt before (versions ++ versions') = .ok os ↔
      ∃ front back, operationsFrom d es usesAt before versions = .ok front ∧
        operationsFrom d es usesAt (before ++ versions) versions' = .ok back ∧
        os = front ++ back := by
  induction versions generalizing before os with
  | nil =>
    constructor
    · intro h
      exact ⟨[], os, rfl, by rw [List.append_nil]; exact h, rfl⟩
    · rintro ⟨front, back, hfront, hback, rfl⟩
      obtain rfl := Except.ok.inj hfront
      rw [List.append_nil] at hback
      exact hback
  | cons version versions ih =>
    rw [List.cons_append, operationsFrom_cons_ok]
    constructor
    · rintro ⟨first, rest, hfirst, hrest, rfl⟩
      obtain ⟨front, back, hfront, hback, rfl⟩ := ih.mp hrest
      refine ⟨first.flatten ++ front, back,
        operationsFrom_cons_ok.mpr ⟨first, front, hfirst, hfront, rfl⟩, ?_,
        (List.append_assoc ..).symm⟩
      rw [List.append_cons]
      exact hback
    · rintro ⟨front, back, hfront, hback, rfl⟩
      obtain ⟨first, rest, hfirst, hrest, rfl⟩ := operationsFrom_cons_ok.mp hfront
      refine ⟨first, rest ++ back, hfirst, ih.mpr ⟨rest, back, hrest, ?_, rfl⟩,
        List.append_assoc ..⟩
      rw [List.append_cons] at hback
      exact hback

/-- What is done comes from one enum at one version. -/
theorem mem_operationsFrom (h : operationsFrom d es usesAt before versions = .ok os)
    {o : Operation} :
    o ∈ os ↔ ∃ passed version later, versions = passed ++ version :: later ∧ ∃ e ∈ es, ∃ part,
      operationAt d (before ++ passed) version (usesAt version) e = .ok part ∧ o ∈ part := by
  induction versions generalizing before os with
  | nil =>
    obtain rfl := Except.ok.inj h
    simp
  | cons first versions ih =>
    obtain ⟨parts, rest, hparts, hrest, rfl⟩ := operationsFrom_cons_ok.mp h
    rw [List.mem_append, List.mem_flatten, ih hrest]
    constructor
    · rintro (⟨part, hpart, ho⟩ | ⟨passed, version, later, rfl, e, he, part, hpart, ho⟩)
      · obtain ⟨e, he, hat⟩ := (Except.mem_of_mapM_ok hparts).mp hpart
        exact ⟨[], first, versions, rfl, e, he, part, by rw [List.append_nil]; exact hat, ho⟩
      · refine ⟨first :: passed, version, later, rfl, e, he, part, ?_, ho⟩
        rw [List.append_cons]
        exact hpart
    · rintro ⟨passed, version, later, heq, e, he, part, hpart, ho⟩
      cases passed with
      | nil =>
        obtain ⟨rfl, rfl⟩ := List.cons.inj heq
        rw [List.append_nil] at hpart
        exact Or.inl ⟨part, (Except.mem_of_mapM_ok hparts).mpr ⟨e, he, hpart⟩, ho⟩
      | cons _ passed =>
        obtain ⟨rfl, rfl⟩ := List.cons.inj heq
        rw [List.append_cons] at hpart
        exact Or.inr ⟨passed, version, later, rfl, e, he, part, hpart, ho⟩

/-- Something is done about each enum at each version, if it is only nothing. -/
theorem operationAt_ok (h : operationsFrom d es usesAt before versions = .ok os)
    {passed later : List String} (hversions : versions = passed ++ version :: later)
    (he : e ∈ es) :
    ∃ part, operationAt d (before ++ passed) version (usesAt version) e = .ok part := by
  subst hversions
  obtain ⟨front, back, -, hback, -⟩ := operationsFrom_append_ok.mp h
  obtain ⟨parts, rest, hparts, -, -⟩ := operationsFrom_cons_ok.mp hback
  exact Except.exists_of_mapM_ok hparts he

theorem mapM_of_forall₂ {α β γ : Type} {r : α → β → Prop} {f : α → Except SchemaFault γ}
    {k : β → Except SchemaFault γ} {as : List α} {bs : List β} (h : List.Forall₂ r as bs)
    (hr : ∀ a b, r a b → k b = f a) : bs.mapM k = as.mapM f := by
  induction h with
  | nil => rfl
  | cons hab _ ih => rw [List.mapM_cons, List.mapM_cons, hr _ _ hab, ih]

/-- Enums that have grown at other labels, and the same uses, make no difference. -/
theorem operationsFrom_congr {label : String → Prop}
    (hes : List.Forall₂ (EnumHistory.Continues label) es es')
    (hlabel : ∀ version ∈ before ++ versions, ¬ label version)
    (huses : ∀ version ∈ versions, usesAt' version = usesAt version) :
    operationsFrom d es' usesAt' before versions = operationsFrom d es usesAt before versions := by
  induction versions generalizing before with
  | nil => rfl
  | cons version versions ih =>
    have hat : ∀ e e', e.Continues label e' →
        operationAt d before version (usesAt' version) e'
          = operationAt d before version (usesAt version) e := by
      intro e e' he
      have hdesignated : e'.isDesignatedBy = e.isDesignatedBy := by
        funext text
        rw [EnumHistory.isDesignatedBy, he.name_eq.1, he.name_eq.2, EnumHistory.isDesignatedBy]
      -- an enum that goes on at other labels only has become the same by now
      have hlast : ∀ v ∈ before ++ [version], ¬ label v := by
        intro v hv
        rw [List.mem_append, List.mem_singleton] at hv
        rcases hv with hv | rfl
        · exact hlabel v (List.mem_append_left _ hv)
        · exact hlabel v (List.mem_append_right _ List.mem_cons_self)
      rw [operationAt, operationAt, he.through_eq hlast,
        he.through_eq fun v hv => hlabel v (List.mem_append_left _ hv),
        huses version List.mem_cons_self]
      unfold operation
      rw [hdesignated]
    rw [List.append_cons] at hlabel
    rw [operationsFrom, operationsFrom, mapM_of_forall₂ hes hat,
      ih hlabel fun v hv => huses v (List.mem_cons_of_mem _ hv)]

/-! ## One enum at one version -/

/-- The descriptions that enums get begin in one of two ways. -/
def OfEnum (description : String) : Prop :=
  ∃ rest, description = "create-enum-" ++ rest ∨ description = "add-enum-values-" ++ rest

theorem operationAt_mem {o : Operation} (h : operationAt d before version uses e = .ok os)
    (ho : o ∈ os) : o.version = version ∧ OfEnum o.description := by
  unfold operationAt operation at h
  split at h
  · obtain rfl := Except.ok.inj h
    cases ho
  · obtain rfl := Except.ok.inj h
    obtain rfl := List.mem_singleton.mp ho
    exact ⟨rfl, _, Or.inl rfl⟩
  · split at h
    · obtain ⟨statements, -, hos⟩ := Except.bind_ok.mp h
      obtain rfl := Except.pure_ok.mp hos
      obtain rfl := List.mem_singleton.mp ho
      exact ⟨rfl, _, Or.inr rfl⟩
    · obtain rfl := Except.ok.inj h
      cases ho

theorem operationsFrom_mem (h : operationsFrom d es usesAt before versions = .ok os)
    {o : Operation} (ho : o ∈ os) : o.version ∈ versions ∧ OfEnum o.description := by
  obtain ⟨passed, version, later, rfl, e, -, part, hpart, ho⟩ := (mem_operationsFrom h).mp ho
  obtain ⟨rfl, hdescription⟩ := operationAt_mem hpart ho
  exact ⟨List.mem_append_right _ List.mem_cons_self, hdescription⟩

/-! ## Further enums -/

/-- What is done about some enums and further ones is what is done about either of them, mixed
version by version. -/
theorem operationsFrom_append_enums
    (h : operationsFrom d (es ++ es') usesAt before versions = .ok os) :
    ∃ own further, operationsFrom d es usesAt before versions = .ok own ∧
      operationsFrom d es' usesAt before versions = .ok further ∧
      (∀ version, statementsAt version os
        = statementsAt version own + statementsAt version further) ∧
      (written further = [] → written os = written own) := by
  induction versions generalizing before os with
  | nil =>
    obtain rfl := Except.ok.inj h
    exact ⟨[], [], rfl, rfl, fun _ => rfl, fun _ => rfl⟩
  | cons version versions ih =>
    obtain ⟨first, rest, hfirst, hrest, rfl⟩ := operationsFrom_cons_ok.mp h
    obtain ⟨f, f', hf, hf', rfl⟩ := Except.mapM_append_ok.mp hfirst
    obtain ⟨own, further, hown, hfurther, hcount, hwritten⟩ := ih hrest
    refine ⟨f.flatten ++ own, f'.flatten ++ further,
      operationsFrom_cons_ok.mpr ⟨f, own, hf, hown, rfl⟩,
      operationsFrom_cons_ok.mpr ⟨f', further, hf', hfurther, rfl⟩, fun version => ?_,
      fun hnone => ?_⟩
    · -- at each version the further enums come last, so the order is another and only counts agree
      rw [List.flatten_append, statementsAt_append, statementsAt_append, statementsAt_append,
        statementsAt_append, hcount]
      omega
    · rw [written_append, List.append_eq_nil_iff] at hnone
      rw [List.flatten_append, written_append, written_append, written_append, hnone.1,
        List.append_nil, hwritten hnone.2]

end EnumRegistry

end SchemaEvolution
