import SchemaEvolution.Proofs.Walk.Start

/-!
# Enums come into use

Along a walk enums come into use one after the other, each under a name of its own, and none ever
goes out of use again.
-/

namespace SchemaEvolution

namespace EnumRegistry

variable {g g₁ g₂ : EnumRegistry}

/-- Whether enums have come into use, and nothing else has changed. -/
structure Grows (g g' : EnumRegistry) : Prop where
  timeline : g'.timeline = g.timeline
  enums : g.enums <+: g'.enums
  distinct : (g.enums.map (·.name)).Nodup → (g'.enums.map (·.name)).Nodup

theorem Grows.refl (g : EnumRegistry) : g.Grows g := ⟨rfl, List.prefix_refl _, fun h => h⟩

theorem Grows.trans (h : g.Grows g₁) (h₁ : g₁.Grows g₂) : g.Grows g₂ :=
  ⟨h₁.timeline.trans h.timeline, h.enums.trans h₁.enums, fun hn => h₁.distinct (h.distinct hn)⟩

theorem grows_register {e : EnumHistory} : g.Grows (g.register e) := by
  unfold register
  split
  · exact .refl g
  · next hnew =>
    refine ⟨rfl, List.prefix_append _ _, fun hn => ?_⟩
    rw [List.map_append, List.nodup_append]
    refine ⟨hn, by simp, ?_⟩
    simp_all

end EnumRegistry

namespace LiveSchema

variable {c : Setting} {version : String} {s s' : LiveSchema} {t : LiveTable}
  {operations : List Operation}

/-! ## What every registration keeps -/

section

variable {P : EnumRegistry → Prop}
  (hregister : ∀ g reference e, c.history.enum? reference = some e → P g → P (g.register e))

include hregister

theorem requireEnum_registry {type : ColumnType} (hP : P s.enums)
    (h : s.requireEnum c version type = .ok s') : P s'.enums := by
  rcases requireEnum_ok h with rfl | ⟨reference, e, he, rfl⟩
  · exact hP
  · exact hregister s.enums reference e he hP

theorem declare_registry {p : Property} {column : LiveColumn} (hP : P s.enums)
    (h : s.declare c version p = .ok (s', column)) : P s'.enums :=
  requireEnum_registry hregister hP (declare_ok.mp h).1

theorem declareAll_registry {table : String} {start columns : List LiveColumn}
    {edits : List PropertyEdit} (hP : P s.enums)
    (h : declareAll c version table s start edits = .ok (s', columns)) : P s'.enums := by
  induction edits generalizing s start with
  | nil =>
    obtain ⟨rfl, -⟩ := declareAll_nil_ok.mp h
    exact hP
  | cons edit edits ih =>
    obtain ⟨name, shape, s₁, column, -, -, h₁, h₂⟩ := declareAll_cons_ok.mp h
    exact ih (declare_registry hregister hP h₁) h₂

/-- Only where columns get a type do enums come into use. -/
theorem Effect.registry {e : TableEdit} (hP : P s.enums)
    (he : Effect c version s t e s' operations) : P s'.enums := by
  cases he with
  | create h =>
    obtain ⟨-, s₁, columns, hd, rfl, -⟩ := createTable_ok.mp h
    have hs₁ : P s₁.enums := declareAll_registry hregister hP hd
    exact hs₁
  | rename =>
    unfold renameTable
    split
    · exact hP
    · split <;> exact hP
  | addProperty h =>
    obtain ⟨-, s₁, column, hd, rfl, -⟩ := addProperty_ok.mp h
    have hs₁ : P s₁.enums := declare_registry hregister hP hd
    exact hs₁
  | renameProperty h =>
    obtain ⟨before, column, -, -, -, rfl, -⟩ := renameProperty_ok.mp h
    exact hP
  | retypeProperty h =>
    obtain ⟨before, after, s₁, statements, -, -, -, hd, -, rfl, -⟩ := retypeProperty_ok.mp h
    have hs₁ : P s₁.enums := declare_registry hregister hP hd
    exact hs₁
  | removeProperty h =>
    obtain ⟨-, rfl, -⟩ := removeProperty_ok.mp h
    exact hP
  | addPrimaryKey h =>
    obtain ⟨-, -, -, s₁, hr, rfl, -⟩ := addPrimaryKey_ok.mp h
    obtain ⟨-, rfl⟩ := reserve_ok.mp hr
    exact hP
  | addForeignKey h =>
    obtain ⟨own, target, s₁, -, -, -, -, -, hr, rfl, -⟩ := addForeignKey_ok.mp h
    obtain ⟨-, rfl⟩ := reserve_ok.mp hr
    exact hP
  | removePrimaryKey h =>
    obtain ⟨key, -, -, rfl, -⟩ := removePrimaryKey_ok.mp h
    exact hP
  | removeForeignKey h =>
    obtain ⟨-, rfl, -⟩ := removeForeignKey_ok.mp h
    exact hP
  | addIndex h =>
    obtain ⟨-, -, -, s₁, hr, rfl, -⟩ := addIndex_ok.mp h
    obtain ⟨-, rfl⟩ := reserve_ok.mp hr
    exact hP
  | removeIndex h =>
    obtain ⟨-, rfl, -⟩ := removeIndex_ok.mp h
    exact hP

theorem edit_registry {e : String × TableEdit} (hP : P s.enums)
    (h : s.edit c version e = .ok (s', operations)) : P s'.enums := by
  rcases edit_ok h with ⟨rfl, -⟩ | ⟨t, -, -, he⟩
  · exact hP
  · exact he.registry hregister hP

end

/-! ## Growth -/

theorem declareAll_grows {table : String} {start columns : List LiveColumn}
    {edits : List PropertyEdit}
    (h : declareAll c version table s start edits = .ok (s', columns)) :
    s.enums.Grows s'.enums :=
  declareAll_registry (fun _ _ _ _ hg => hg.trans EnumRegistry.grows_register) (.refl _) h

theorem edit_grows {e : String × TableEdit} (h : s.edit c version e = .ok (s', operations)) :
    s.enums.Grows s'.enums :=
  edit_registry (fun _ _ _ _ hg => hg.trans EnumRegistry.grows_register) (.refl _) h

theorem edits_grow {edits : List (String × TableEdit)}
    (h : forEach (edit c version) s edits = .ok (s', operations)) : s.enums.Grows s'.enums :=
  forEach_invariant (P := fun u => s.enums.Grows u.enums)
    (fun _ _ _ _ _ hg he => hg.trans (edit_grows he)) (.refl _) h

theorem advance_grows (h : s.Sound) (he : s.advance c version = .ok (s', operations)) :
    s.enums.Grows s'.enums := by
  have hdue : s.enums.Grows (s.takeDue version).1.enums := .refl _
  exact hdue.trans (edits_grow (advance_script h he))

theorem walk_grows {versions : List String} {w : Walk} (h : s.Sound)
    (hw : s.walk c versions = .ok w) : s.enums.Grows w.final.enums :=
  (forEach_invariant (P := fun u => u.Sound ∧ s.enums.Grows u.enums)
    (fun _ _ _ _ _ hs he => ⟨hs.1.advance he, hs.2.trans (advance_grows hs.1 he)⟩)
    ⟨h, .refl _⟩ (walk_ok hw)).2

/-- After a walk from the start the enums in use are asked along the timeline of the history, and
have names of their own. -/
theorem enums_of_start {d : Dialect} {h : SchemaHistory} {versions : List String} {w : Walk}
    (hs : start h = .ok s) (hw : s.walk ⟨d, h⟩ versions = .ok w) :
    w.final.enums.timeline = h.timeline ∧ (w.final.enums.enums.map (·.name)).Nodup := by
  have hgrows := walk_grows (sound_start hs) hw
  obtain ⟨tables, -, rfl⟩ := start_ok hs
  exact ⟨hgrows.timeline, hgrows.distinct List.nodup_nil⟩

end LiveSchema

end SchemaEvolution
