import SchemaEvolution.Proofs.Order.Agreement
import SchemaEvolution.Proofs.Order.Scopes

/-!
# An edit in two schemas

An edit that can be made in one schema can be made in another one that agrees about its table, and
does the same there. Afterwards the two still agree about the table, and an enum that has come into
use in the one is in use in the other.
-/

namespace SchemaEvolution

/-- The id of the table that an edit refers to. -/
def TableEdit.references? : TableEdit → Option String
  | .constraint (.addForeignKey _ _ references _) => some references
  | _ => none

namespace Constraint

variable {ks ks' : List Constraint} {k : Constraint} {name new : String}
  (hks : ks'.map (·.withoutTarget) = ks.map (·.withoutTarget))

include hks

/-! What is done to constraints that only differ in targets leaves them so. -/

theorem map_withoutTarget_append :
    (ks' ++ [k]).map (·.withoutTarget) = (ks ++ [k]).map (·.withoutTarget) := by
  rw [List.map_append, hks, ← List.map_append]

theorem map_withoutTarget_followColumn :
    (ks'.map (·.followColumn name new)).map (·.withoutTarget)
      = (ks.map (·.followColumn name new)).map (·.withoutTarget) := by
  have hcomm : ∀ ks : List Constraint,
      (ks.map (·.followColumn name new)).map (·.withoutTarget)
        = (ks.map (·.withoutTarget)).map (·.followColumn name new) := by
    intro ks
    rw [List.map_map, List.map_map]
    exact List.map_congr_left fun _ _ => withoutTarget_followColumn
  rw [hcomm, hks, ← hcomm]

theorem map_withoutTarget_filter :
    (ks'.filter (·.name != name)).map (·.withoutTarget)
      = (ks.filter (·.name != name)).map (·.withoutTarget) := by
  have hcomm : ∀ ks : List Constraint, (ks.filter (·.name != name)).map (·.withoutTarget)
      = (ks.map (·.withoutTarget)).filter (·.name != name) := by
    intro ks
    rw [List.filter_map]
    congr 2
    funext k
    exact congrArg (· != name) name_withoutTarget.symm
  rw [hcomm, hks, ← hcomm]

end Constraint

namespace LiveTable

variable {t t' : LiveTable} {ks : List Constraint} {name new : String}

/-- Targets have no part in what the primary key is. -/
theorem primaryKey?_agree
    (hks : ks.map (·.withoutTarget) = t.constraints.map (·.withoutTarget)) :
    ({ t with constraints := ks } : LiveTable).primaryKey? = t.primaryKey? := by
  rw [← primaryKey?_withoutTargets, ← primaryKey?_withoutTargets (t := t), withoutTargets, hks]
  rfl

theorem withoutTargets_agree {u : LiveTable}
    (hks : ks.map (·.withoutTarget) = u.constraints.map (·.withoutTarget)) :
    ({ u with constraints := ks } : LiveTable).withoutTargets = u.withoutTargets :=
  congrArg (fun ks => ({ u with constraints := ks } : LiveTable)) hks

/-- Tables that are the same in outline have the same name, and columns of the same names. -/
theorem of_outline_eq (name : String) (h : t'.outline = t.outline) :
    t'.name = t.name ∧ t'.created = t.created ∧ t'.hasColumn name = t.hasColumn name := by
  simp only [outline, final, Outline.mk.injEq, FinalTable.mk.injEq] at h
  refine ⟨h.1.1, h.2.1, ?_⟩
  have hnames : t'.columnNames = t.columnNames := by
    have := congrArg (List.map (·.name)) h.1.2
    rw [List.map_map, List.map_map] at this
    exact this
  rw [Bool.eq_iff_iff, hasColumn_iff, hasColumn_iff, hnames]

end LiveTable

namespace LiveSchema

variable {c : Setting} {version id : String} {versions : List String}
  {s s' s₁ s₂ s₂' : LiveSchema} {t u u' : LiveTable} {ks : List Constraint} {e : TableEdit}
  {operations : List Operation}

/-- Two schemas agree about a table that takes the place of another in both of them. -/
theorem view?_setTable_agree (hs : s₂.tables = s.tables) (hs' : s₂'.tables = s'.tables)
    (ht : s.table? id = some t) (ht' : s'.table? id = some { t with constraints := ks })
    (hid : u.id = id) (hid' : u'.id = id) (hu : u'.withoutTargets = u.withoutTargets) :
    (s₂'.setTable u').view? id = (s₂.setTable u).view? id := by
  have hnew : (s₂.setTable u).view? id = some u.withoutTargets := by
    subst hid
    exact view?_setTable hs ht
  have hnew' : (s₂'.setTable u').view? id = some u'.withoutTargets := by
    subst hid'
    exact view?_setTable hs' ht'
  rw [hnew', hnew, hu]

theorem reserve_agree {name : String} (hr : s.reserve name = .ok s₁)
    (hfree : name ∉ s.names → name ∉ s'.names) :
    s'.reserve name = .ok { s' with names := name :: s'.names } :=
  reserve_ok.mpr ⟨hfree (reserve_ok.mp hr).1, rfl⟩

/-- An edit that has an effect in one schema has the same effect in the other. -/
theorem Effect.agree (ha : c.history.EnumsApart) (hs : Supplied c.history versions s)
    (hs' : Supplied c.history versions s') (ht : s.table? t.id = some t)
    (ht' : s'.table? t.id = some { t with constraints := ks })
    (hks : ks.map (·.withoutTarget) = t.constraints.map (·.withoutTarget))
    (hnames : ∀ name, e.takenName? = some name → name ∉ s.names → name ∉ s'.names)
    (htarget : ∀ other, e.references? = some other → s'.outline? other = s.outline? other)
    (he : Effect c version s t e s₁ operations) :
    ∃ s₁', Effect c version s' { t with constraints := ks } e s₁' operations ∧
      s₁'.view? t.id = s₁.view? t.id ∧ s.enums.NewIn s₁.enums s₁'.enums := by
  have hg : s.enums.ResolvedBy c.history := ⟨hs.timeline, hs.resolved⟩
  have hg' : s'.enums.ResolvedBy c.history := ⟨hs'.timeline, hs'.resolved⟩
  have hkey := LiveTable.primaryKey?_agree hks
  have hshape : ({ t with constraints := ks } : LiveTable).shape = t.shape := by
    rw [LiveTable.shape, hkey]
    rfl
  cases he with
  | create h =>
    obtain ⟨hne, s₂, columns, hd, rfl, rfl⟩ := createTable_ok.mp h
    obtain ⟨s₂', hd', hnew⟩ := declareAll_agree ha hg hg' hd
    refine ⟨_, .create (createTable_ok.mpr ⟨hne, s₂', columns, hd', rfl, rfl⟩), ?_, hnew⟩
    exact view?_setTable_agree (declareAll_frame hd).1 (declareAll_frame hd').1 ht ht' rfl rfl
      (LiveTable.withoutTargets_agree (u := { t with columns, created := true }) hks)
  | @rename name =>
    have hview : s'.view? t.id = s.view? t.id := by
      rw [view?, ht', view?, ht]
      exact congrArg some (LiveTable.withoutTargets_agree hks)
    unfold renameTable
    cases name with
    | none => exact ⟨s', .rename, hview, .refl⟩
    | some new =>
      have hrenamed : Effect c version s' { t with constraints := ks } (.rename (some new)) _ _ :=
        .rename
      simp only [renameTable] at hrenamed ⊢
      split
      · next hsame =>
        rw [if_pos hsame] at hrenamed
        exact ⟨s', hrenamed, hview, .refl⟩
      · next hne =>
        rw [if_neg hne] at hrenamed
        exact ⟨_, hrenamed, view?_setTable_agree rfl rfl ht ht' rfl rfl
          (LiveTable.withoutTargets_agree (u := { t with name := new }) hks), .refl⟩
  | @addProperty name shape _ _ h =>
    obtain ⟨hfree, s₂, column, hd, rfl, rfl⟩ := addProperty_ok.mp h
    obtain ⟨s₂', hd', hnew, -⟩ := declare_agree ha hg hg' hd
    refine ⟨_, .addProperty (addProperty_ok.mpr ⟨hfree, s₂', column, hd', rfl, rfl⟩), ?_, hnew⟩
    exact view?_setTable_agree (declare_frame hd).1 (declare_frame hd').1 ht ht' rfl rfl
      (LiveTable.withoutTargets_agree (u := { t with columns := t.columns ++ [column] }) hks)
  | @renameProperty name new _ _ h =>
    obtain ⟨before, column, hb, hfree, hd, rfl, rfl⟩ := renameProperty_ok.mp h
    -- the column is declared again, and its enum is in use in both schemas
    have hscope : ∀ reference,
        before.property.shape.type.innermost.enumReference? = some reference →
        s'.enums.scopeAt version reference = s.enums.scopeAt version reference := by
      intro reference hr
      have hin := (LiveTable.column?_eq_some hb).1
      obtain ⟨found, hfound, -⟩ := hs.columns t (table?_eq_some ht).1 before hin reference hr
      obtain ⟨found', hfound', -⟩ := hs'.columns _ (table?_eq_some ht').1 before hin reference hr
      exact hg.scopeAt_eq hg' ha hfound hfound'
    have hd' := (redeclare_agree (p := { before.property with name := new }) hscope).trans hd
    refine ⟨_, .renameProperty (renameProperty_ok.mpr ⟨before, column, hb, hfree, hd', rfl, rfl⟩),
      view?_followReferences.trans (Eq.trans ?_ view?_followReferences.symm), .refl⟩
    exact view?_setTable_agree rfl rfl ht ht' rfl rfl (LiveTable.withoutTargets_agree
      (u := (t.setColumn name column).followColumn name new)
      (Constraint.map_withoutTarget_followColumn hks))
  | @retypeProperty name shape _ _ h =>
    obtain ⟨before, after, s₂, statements, hb, hplain, hplain', hd, hr, rfl, rfl⟩ :=
      retypeProperty_ok.mp h
    obtain ⟨s₂', hd', hnew, hscope⟩ := declare_agree ha hg hg' hd
    have hproperty := (redeclare_ok (declare_ok.mp hd).2).1
    have hafter : (({ t with constraints := ks } : LiveTable).setColumn name after).shape
        = (t.setColumn name after).shape :=
      congrArg (TableShape.mk t.name (t.setColumn name after).columns · t.indices) hkey
    have hr' : c.dialect.columnRetyping
        (({ t with constraints := ks } : LiveTable).setColumn name after).shape before after
        (s₂'.enums.scopeAt version) = .ok statements := by
      rw [hafter, Dialect.columnRetyping_congr (hproperty ▸ hscope)]
      exact hr
    refine ⟨_, .retypeProperty (retypeProperty_ok.mpr
      ⟨before, after, s₂', statements, hb, hplain, hplain', hd', hr', rfl, rfl⟩), ?_, hnew⟩
    exact view?_setTable_agree (declare_frame hd).1 (declare_frame hd').1 ht ht' rfl rfl
      (LiveTable.withoutTargets_agree (u := t.setColumn name after) hks)
  | @removeProperty name _ _ h =>
    obtain ⟨hhas, rfl, rfl⟩ := removeProperty_ok.mp h
    refine ⟨_, .removeProperty (removeProperty_ok.mpr ⟨hhas, rfl, by rw [hshape]⟩), ?_, .refl⟩
    exact view?_setTable_agree rfl rfl ht ht' rfl rfl
      (LiveTable.withoutTargets_agree (u := t.dropColumn name) hks)
  | @addPrimaryKey name columns _ _ h =>
    obtain ⟨hne, hnone, hcolumns, s₂, hr, rfl, rfl⟩ := addPrimaryKey_ok.mp h
    obtain ⟨-, rfl⟩ := reserve_ok.mp hr
    have hplain := checkKeyColumns_ok.mp hcolumns
    have hcolumns' : checkKeyColumns { t with constraints := ks } name columns = .ok () :=
      checkKeyColumns_ok.mpr hplain
    refine ⟨_, .addPrimaryKey (addPrimaryKey_ok.mpr ⟨hne, hkey.trans hnone, hcolumns', _,
      reserve_agree hr (hnames name rfl), rfl, rfl⟩), ?_, .refl⟩
    exact view?_setTable_agree rfl rfl ht ht' rfl rfl (LiveTable.withoutTargets_agree
      (u := { t with constraints := t.constraints ++ [.primaryKey name columns] })
      (Constraint.map_withoutTarget_append hks))
  | @addForeignKey name column references referencedColumn _ _ h =>
    obtain ⟨own, target, s₂, hown, hserial, htable, hthere, hhas, hr, rfl, rfl⟩ :=
      addForeignKey_ok.mp h
    obtain ⟨-, rfl⟩ := reserve_ok.mp hr
    have houtline : s'.outline? references = some target.outline := by
      rw [htarget references rfl, outline?, htable]
      rfl
    obtain ⟨target', htable', hsame⟩ := Option.map_eq_some_iff.mp houtline
    obtain ⟨hname', hthere', hhas'⟩ := LiveTable.of_outline_eq referencedColumn hsame
    refine ⟨_, .addForeignKey (addForeignKey_ok.mpr ⟨own, target', _, hown, hserial, htable',
      hthere'.trans hthere, hhas'.trans hhas, reserve_agree hr (hnames name rfl), rfl,
      by rw [hname']⟩), ?_, .refl⟩
    exact view?_setTable_agree rfl rfl ht ht' rfl rfl (LiveTable.withoutTargets_agree
      (u := { t with constraints :=
        t.constraints ++ [.foreignKey name column references referencedColumn] })
      (Constraint.map_withoutTarget_append hks))
  | @removePrimaryKey name _ _ h =>
    obtain ⟨key, hk, hname, rfl, rfl⟩ := removePrimaryKey_ok.mp h
    refine ⟨_, .removePrimaryKey (removePrimaryKey_ok.mpr ⟨key, hkey.trans hk, hname, rfl, rfl⟩),
      ?_, .refl⟩
    exact view?_setTable_agree rfl rfl ht ht' rfl rfl (LiveTable.withoutTargets_agree
      (u := withoutConstraint t name) (Constraint.map_withoutTarget_filter hks))
  | @removeForeignKey name _ _ h =>
    obtain ⟨⟨k, hk, hkind, hname⟩, rfl, rfl⟩ := removeForeignKey_ok.mp h
    have hin : k.withoutTarget ∈ ks.map (·.withoutTarget) := hks ▸ List.mem_map_of_mem hk
    obtain ⟨k', hk', hsame⟩ := List.mem_map.mp hin
    have hkind' : k'.isPrimaryKey = false := by
      rw [← Constraint.isPrimaryKey_withoutTarget, hsame, Constraint.isPrimaryKey_withoutTarget,
        hkind]
    have hname' : k'.name = name := by
      rw [← Constraint.name_withoutTarget, hsame, Constraint.name_withoutTarget, hname]
    refine ⟨_, .removeForeignKey (removeForeignKey_ok.mpr ⟨⟨k', hk', hkind', hname'⟩, rfl, rfl⟩),
      ?_, .refl⟩
    exact view?_setTable_agree rfl rfl ht ht' rfl rfl (LiveTable.withoutTargets_agree
      (u := withoutConstraint t name) (Constraint.map_withoutTarget_filter hks))
  | @addIndex kind name columns _ _ h =>
    obtain ⟨hne, hcolumns, hfresh, s₂, hr, rfl, rfl⟩ := addIndex_ok.mp h
    obtain ⟨-, rfl⟩ := reserve_ok.mp hr
    refine ⟨_, .addIndex (addIndex_ok.mpr ⟨hne, hcolumns, hfresh, _,
      reserve_agree hr (hnames name rfl), rfl, rfl⟩), ?_, .refl⟩
    exact view?_setTable_agree rfl rfl ht ht' rfl rfl (LiveTable.withoutTargets_agree
      (u := { t with indices := t.indices ++ [⟨name, columns, kind == .unique⟩] }) hks)
  | @removeIndex kind name _ _ h =>
    obtain ⟨hi, rfl, rfl⟩ := removeIndex_ok.mp h
    refine ⟨_, .removeIndex (removeIndex_ok.mpr ⟨hi, rfl, rfl⟩), ?_, .refl⟩
    exact view?_setTable_agree rfl rfl ht ht' rfl rfl (LiveTable.withoutTargets_agree
      (u := { t with indices := t.indices.filter (·.name != name) }) hks)

variable {owned : String → List String} {other : String}

/-- An edit that can be made where two schemas agree can be made in both of them. -/
theorem edit_agree (ha : c.history.EnumsApart) (hs : Supplied c.history versions s)
    (hs' : Supplied c.history versions s') (hagree : Agree owned id s s')
    (howned : ∀ name, e.takenName? = some name → name ∈ owned id)
    (htarget : ∀ other, e.references? = some other → s'.outline? other = s.outline? other)
    (he : s.edit c version (id, e) = .ok (s₁, operations)) :
    ∃ s₁', s'.edit c version (id, e) = .ok (s₁', operations) ∧ Agree owned id s₁ s₁' ∧
      s.enums.NewIn s₁.enums s₁'.enums := by
  rcases edit_ok he with ⟨rfl, rfl, hidle⟩ | ⟨t, ht, hc, heffect⟩
  · refine ⟨s', edit_idle fun t' ht' => ?_, hagree, .refl⟩
    obtain ⟨ks, ht, -⟩ := hagree.symm.exists_table? ht'
    have hcreated := hidle _ ht
    exact hcreated
  · obtain ⟨ks, ht', hks⟩ := hagree.exists_table? ht
    obtain rfl := (table?_eq_some ht).2
    obtain ⟨s₁', heffect', hview, hnew⟩ := heffect.agree ha hs hs' ht ht' hks
      (fun name hname hfree hin => hfree ((hagree.names name (howned name hname)).mp hin)) htarget
    refine ⟨s₁', edit_of_effect ht' hc heffect', ⟨hview, fun name hname => ?_⟩, hnew⟩
    rw [heffect'.confined.names, heffect.confined.names, hagree.names name hname]

/-- An edit of one table makes no difference to another, nor to the names that belong to that. -/
theorem agree_of_edit (he : s.edit c version (id, e) = .ok (s', operations)) (hid : other ≠ id)
    (howned : ∀ name, e.takenName? = some name ∨ e.freedName? = some name →
      name ∉ owned other) : Agree owned other s s' := by
  rcases edit_ok he with ⟨rfl, -⟩ | ⟨t, ht, -, heffect⟩
  · exact .refl s'
  · obtain rfl := (table?_eq_some ht).2
    exact heffect.confined.agree hid howned

end LiveSchema

end SchemaEvolution
