import SchemaEvolution.Proofs.Dialects.Alike
import SchemaEvolution.Proofs.FinalTables

/-!
# Two walks in lockstep

From schemas that differ in declarations only, every step that succeeds in the first dialect
succeeds in the second, edit by edit, round by round and version by version. Afterwards they still
differ in declarations only. Nothing is asked of the second walk, so it cannot get stuck.
-/

namespace SchemaEvolution

namespace LiveSchema

variable {c c' : Setting} {allowed : ColumnType → Prop} {d : Dialect} {version id : String}
  {s s' s₁ : LiveSchema} {t t' : LiveTable} {operations : List Operation}

/-- Whether two schemas differ in declarations only, those of the second being of a dialect. -/
structure Alike (d : Dialect) (s s' : LiveSchema) : Prop where
  bare : s'.bare = s.bare
  declared : s'.Declared d

/-- Whether a step succeeds if another one does, and leads to a schema like that of the other. -/
def Carried (d : Dialect) (x x' : Outcome) : Prop :=
  ∀ s operations, x = .ok (s, operations) →
    ∃ s' operations', x' = .ok (s', operations') ∧ Alike d s s'

theorem forEach_carried {α : Type} {f g : LiveSchema → α → Outcome} {as : List α}
    (hstep : ∀ s s' a, a ∈ as → Alike d s s' → Carried d (f s a) (g s' a)) (h : Alike d s s') :
    Carried d (forEach f s as) (forEach g s' as) := by
  induction as generalizing s s' with
  | nil =>
    intro s₁ operations he
    obtain ⟨rfl, -⟩ := forEach_nil_ok.mp he
    exact ⟨s', [], rfl, h⟩
  | cons a as ih =>
    intro s₁ operations he
    obtain ⟨s₂, first, rest, h₁, h₂, -⟩ := forEach_cons_ok.mp he
    obtain ⟨s₂', first', h₁', halike⟩ := hstep s s' a List.mem_cons_self h s₂ first h₁
    obtain ⟨s₁', rest', h₂', halike₁⟩ :=
      ih (fun s s' a ha => hstep s s' a (List.mem_cons_of_mem _ ha)) halike s₁ rest h₂
    exact ⟨s₁', first' ++ rest', forEach_cons_ok.mpr ⟨s₂', first', rest', h₁', h₂', rfl⟩, halike₁⟩

/-- A round of edits, of one table after the other, is carried over if each edit is. -/
theorem round_carried {α : Type} {f g : String → LiveSchema → α → Outcome}
    {due : List (String × TableStep)} (items : TableStep → List α)
    (hstep : ∀ s s' id a, Alike d s s' → Carried d (f id s a) (g id s' a)) (h : Alike d s s') :
    Carried d (forEach (fun s x => forEach (f x.1) s (items x.2)) s due)
      (forEach (fun s x => forEach (g x.1) s (items x.2)) s' due) :=
  forEach_carried
    (fun _ _ x _ h => forEach_carried (fun s s' a _ h => hstep s s' x.1 a h) h) h

/-! ## Edits -/

theorem withTable_of_none {f : LiveTable → Outcome} (ht : s.table? id = none) :
    s.withTable id f = .ok (s, []) := by
  rw [withTable, ht]

theorem Effect.carried {e : TableEdit} (he : Effect c version s t e s₁ operations)
    (hc : c.Accepts c' allowed) (h : Alike c'.dialect s s') (ht : s.table? id = some t)
    (hallowed : ∀ type ∈ e.types, allowed type) :
    ∃ t', s'.table? id = some t' ∧ t'.bare = t.bare ∧
      ∃ s₁' operations', Effect c' version s' t' e s₁' operations' ∧ Alike c'.dialect s₁ s₁' := by
  obtain ⟨t', ht', hbare⟩ := exists_table? h.bare ht
  have hm := (table?_eq_some ht').1
  obtain ⟨s₁', operations', he', h₁⟩ := he.alike hc h.bare h.declared hm hbare hallowed
  exact ⟨t', ht', hbare, s₁', operations', he', h₁, he'.declared h.declared hm⟩

/-- A step is carried over if it does to a table what an edit does, and nothing if there is none. -/
theorem withTable_carried {e : TableEdit} {f g : LiveTable → Outcome} (hc : c.Accepts c' allowed)
    (h : Alike c'.dialect s s') (hallowed : ∀ type ∈ e.types, allowed type)
    (hf : ∀ t, s.table? id = some t → ∀ s₁ operations,
      s.withTable id f = .ok (s₁, operations) → Effect c version s t e s₁ operations)
    (hg : ∀ t', s'.table? id = some t' → ∀ s₁' operations,
      Effect c' version s' t' e s₁' operations → s'.withTable id g = .ok (s₁', operations)) :
    Carried c'.dialect (s.withTable id f) (s'.withTable id g) := by
  intro s₁ operations he
  cases ht : s.table? id with
  | none =>
    rw [withTable_of_none ht] at he
    obtain ⟨rfl, -⟩ := Prod.mk.inj (Except.ok.inj he)
    exact ⟨s', [], withTable_of_none (table?_eq_none_of_bare h.bare ht), h⟩
  | some t =>
    obtain ⟨t', ht', -, s₁', operations', he', h₁⟩ := (hf t ht _ _ he).carried hc h ht hallowed
    exact ⟨s₁', operations', hg t' ht' _ _ he', h₁⟩

theorem editProperty_carried {edit : PropertyEdit} (hc : c.Accepts c' allowed)
    (h : Alike c'.dialect s s') (hallowed : ∀ type ∈ edit.types, allowed type) :
    Carried c'.dialect (s.editProperty c version id edit) (s'.editProperty c' version id edit) :=
  withTable_carried (e := .property edit) hc h hallowed
    (fun _ ht _ _ => (editProperty_ok ht).mp) (fun _ ht' _ _ => (editProperty_ok ht').mpr)

theorem editConstraint_carried {edit : ConstraintEdit} (hc : c.Accepts c' allowed)
    (h : Alike c'.dialect s s') :
    Carried c'.dialect (s.editConstraint c version id edit)
      (s'.editConstraint c' version id edit) :=
  withTable_carried (e := .constraint edit) hc h nofun
    (fun _ ht _ _ => (editConstraint_ok ht).mp) (fun _ ht' _ _ => (editConstraint_ok ht').mpr)

theorem editIndex_carried {edit : IndexEdit} (hc : c.Accepts c' allowed)
    (h : Alike c'.dialect s s') :
    Carried c'.dialect (s.editIndex c version id edit) (s'.editIndex c' version id edit) :=
  withTable_carried (e := .index edit) hc h nofun
    (fun _ ht _ _ => (editIndex_ok ht).mp) (fun _ ht' _ _ => (editIndex_ok ht').mpr)

theorem editTable_carried {due : String × TableStep} (hc : c.Accepts c' allowed)
    (h : Alike c'.dialect s s') (hallowed : ∀ type ∈ due.2.types, allowed type) :
    Carried c'.dialect (s.editTable c version due) (s'.editTable c' version due) := by
  intro s₁ operations he
  obtain ⟨id, step⟩ := due
  cases ht : s.table? id with
  | none =>
    simp only [editTable, withTable, ht, table?_eq_none_of_bare h.bare ht] at he ⊢
    obtain ⟨rfl, -⟩ := Prod.mk.inj (Except.ok.inj he)
    exact ⟨s', [], rfl, h⟩
  | some t =>
    simp only [editTable, withTable, ht] at he
    split at he
    · next hcreated =>
      obtain ⟨⟨s₂, edits⟩, hedits, hs₁⟩ := Except.bind_ok.mp he
      obtain ⟨rfl, -⟩ := Prod.mk.inj (Except.pure_ok.mp hs₁)
      have hrename : Effect c version s t (.rename step.name) _ _ := .rename
      obtain ⟨t', ht', hbare, s₂', operations', he', h₂⟩ :=
        hrename.carried hc h ht fun _ htype => absurd htype List.not_mem_nil
      cases he' with | rename =>
      -- the two tables have the same name, so both are renamed or neither is
      obtain ⟨s₁', edits', hedits', h₁⟩ := forEach_carried
        (f := editProperty c version id) (g := editProperty c' version id)
        (fun s s' edit hedit h => editProperty_carried hc h fun type htype =>
          hallowed type (List.mem_flatMap.mpr ⟨edit, hedit, htype⟩)) h₂ _ _ hedits
      refine ⟨s₁', (s'.renameTable c' version t' step.name).2 ++ edits', ?_, h₁⟩
      simp only [editTable, withTable, ht', (frame_of_bare hbare).2.2.2.2.trans hcreated, reduceIte]
      exact Except.bind_ok.mpr ⟨_, hedits', rfl⟩
    · next hcreated =>
      have hcreate : Effect c version s t (.create step) s₁ operations := .create he
      obtain ⟨t', ht', hbare, s₁', operations', he', h₁⟩ := hcreate.carried hc h ht hallowed
      cases he' with | create he' =>
      refine ⟨s₁', operations', ?_, h₁⟩
      simp only [editTable, withTable, ht', (frame_of_bare hbare).2.2.2.2, hcreated]
      exact he'

/-! ## Versions -/

theorem Alike.takeDue (version : String) (h : Alike d s s') :
    Alike d (s.takeDue version).1 (s'.takeDue version).1 ∧
      (s'.takeDue version).2 = (s.takeDue version).2 := by
  refine ⟨⟨?_, h.declared.takeDue⟩, ?_⟩
  · rw [← takeDue_bare.1, h.bare, takeDue_bare.1]
  · rw [← takeDue_bare.2, h.bare, takeDue_bare.2]

theorem advance_carried (hc : c.Accepts c' allowed) (h : Alike c'.dialect s s')
    (hallowed : ∀ due ∈ (s.takeDue version).2, ∀ type ∈ due.2.types, allowed type) :
    Carried c'.dialect (s.advance c version) (s'.advance c' version) := by
  intro s₁ operations he
  simp only [advance, Except.bind_ok, Except.pure_ok, Prod.exists, Prod.mk.injEq] at he
  obtain ⟨s₂, properties, h₂, s₃, constraints, h₃, s₄, indices, h₄, rfl, rfl⟩ := he
  obtain ⟨halike, hdue⟩ := h.takeDue version
  obtain ⟨s₂', properties', h₂', halike₂⟩ := forEach_carried (f := editTable c version)
    (g := editTable c' version)
    (fun s s' due hmem h => editTable_carried hc h (hallowed due hmem)) halike _ _ h₂
  obtain ⟨s₃', constraints', h₃', halike₃⟩ := round_carried (f := editConstraint c version)
    (g := editConstraint c' version) (·.constraints)
    (fun _ _ _ _ h => editConstraint_carried hc h) halike₂ _ _ h₃
  obtain ⟨s₄', indices', h₄', halike₄⟩ := round_carried (f := editIndex c version)
    (g := editIndex c' version) (·.indices)
    (fun _ _ _ _ h => editIndex_carried hc h) halike₃ _ _ h₄
  refine ⟨s₄', properties' ++ constraints' ++ indices', ?_, halike₄⟩
  simp only [advance, hdue, Except.bind_ok, Except.pure_ok, Prod.exists, Prod.mk.injEq]
  exact ⟨s₂', properties', h₂', s₃', constraints', h₃', s₄', indices', h₄', rfl, rfl⟩

/-! ## Whole walks -/

/-- A walk takes no steps but those that the tables have to come when it begins. -/
theorem mem_taken {versions : List String} {x : String × String × TableStep} (h : s.Sound)
    (hx : x ∈ s.taken c versions) : ∃ o, s.outline? x.2.1 = some o ∧ x.2.2 ∈ o.pending := by
  induction versions generalizing s with
  | nil => cases hx
  | cons version versions ih =>
    rw [taken, List.mem_append] at hx
    rcases hx with hx | hx
    · obtain ⟨due, hdue, rfl⟩ := List.mem_map.mp hx
      rw [takeDue_due] at hdue
      obtain ⟨t, ht, htaken⟩ := List.mem_filterMap.mp hdue
      obtain ⟨step, hstep, rfl⟩ := Option.map_eq_some_iff.mp htaken
      obtain ⟨rest, hrest⟩ := TableStep.due?_eq_some hstep
      refine ⟨t.outline, by rw [outline?, table?_eq_of_mem h.distinct ht]; rfl, ?_⟩
      show step ∈ t.pending
      rw [hrest]
      exact List.mem_cons_self
    · split at hx
      · next s₁ operations he =>
        -- what comes later was there before
        obtain ⟨o₁, ho₁, hmem⟩ := ih (h.advance he) hx
        obtain ⟨o, ho, hsub⟩ := pending_advance h he ho₁
        exact ⟨o, ho, hsub hmem⟩
      · cases hx

theorem walk_carried {versions : List String} {w : Walk} (hc : c.Accepts c' allowed)
    (h : Alike c'.dialect s s')
    (hallowed : ∀ x ∈ s.taken c versions, ∀ type ∈ x.2.2.types, allowed type)
    (hw : s.walk c versions = .ok w) :
    ∃ w', s'.walk c' versions = .ok w' ∧ w'.final.bare = w.final.bare := by
  induction versions generalizing s s' w with
  | nil =>
    obtain rfl := Except.ok.inj hw
    exact ⟨⟨s', [], []⟩, rfl, h.bare⟩
  | cons version versions ih =>
    obtain ⟨s₁, first, w₁, he, hw₁, rfl⟩ := walk_cons_ok.mp hw
    rw [taken, he, List.forall_mem_append, List.forall_mem_map] at hallowed
    obtain ⟨s₁', first', he', h₁⟩ := advance_carried hc h hallowed.1 s₁ first he
    obtain ⟨w₁', hw₁', hfinal⟩ := ih h₁ hallowed.2 hw₁
    exact ⟨_, walk_cons_ok.mpr ⟨s₁', first', w₁', he', hw₁', rfl⟩, hfinal⟩

end LiveSchema

end SchemaEvolution
