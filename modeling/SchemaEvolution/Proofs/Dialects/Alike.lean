import SchemaEvolution.Proofs.Dialects.Acceptance
import SchemaEvolution.Proofs.Dialects.Bare

/-!
# Walking in two dialects

A walk in a dialect that accepts all that another one accepts succeeds whenever the walk in the
other one does. The two go side by side: at every point their schemas differ in declarations only,
and whatever can be done in the first can be done in the second.
-/

namespace SchemaEvolution

/-! ## Types that come into a history -/

/-- The types that an edit brings in. -/
def PropertyEdit.types : PropertyEdit → List ColumnType
  | .add _ shape | .retype _ shape => [shape.type]
  | .rename _ _ | .remove _ => []

def TableStep.types (step : TableStep) : List ColumnType := step.properties.flatMap (·.types)

def TableEdit.types : TableEdit → List ColumnType
  | .create step => step.types
  | .property edit => edit.types
  | .rename _ | .constraint _ | .index _ => []

namespace LiveSchema

variable {c c' : Setting} {allowed : ColumnType → Prop} {version id : String}
  {s s' s₁ : LiveSchema} {t t' : LiveTable} {p : Property} {k : LiveColumn}
  {operations : List Operation}

/-! ## Declaring columns -/

theorem requireEnum_alike (hc : c'.history = c.history) (h : s'.bare = s.bare) {type : ColumnType}
    (hr : s.requireEnum c version type = .ok s₁) :
    ∃ s₁', s'.requireEnum c' version type = .ok s₁' ∧ s₁'.bare = s₁.bare := by
  have henums := enums_eq_of_bare h
  unfold requireEnum at hr ⊢
  cases hreference : type.innermost.enumReference? with
  | none =>
    rw [hreference] at hr
    obtain rfl := Except.ok.inj hr
    exact ⟨s', rfl, h⟩
  | some reference =>
    simp only [hreference, hc] at hr ⊢
    cases he : c.history.enum? reference with
    | none => simp only [he] at hr; cases hr
    | some e =>
      simp only [he] at hr ⊢
      obtain ⟨found, hfound, rfl⟩ := Except.map_ok.mp hr
      refine ⟨{ s' with enums := s'.enums.register e },
        Except.map_ok.mpr ⟨found, by rw [henums]; exact hfound, rfl⟩, ?_⟩
      show ({ s'.bare with enums := s'.enums.register e } : LiveSchema) = _
      rw [h, henums]
      rfl

theorem redeclare_alike (hc : c.Accepts c' allowed) (h : s'.bare = s.bare)
    (hp : allowed p.shape.type) (hk : s.redeclare c version p = .ok k) :
    ∃ k', s'.redeclare c' version p = .ok k' ∧ k'.bare = k.bare := by
  have henums := enums_eq_of_bare h
  obtain ⟨text, htext, rfl⟩ := Except.map_ok.mp hk
  obtain ⟨text', htext'⟩ := hc.dialect.declaration hp htext
  exact ⟨⟨p, text'⟩, Except.map_ok.mpr ⟨text', by rw [henums]; exact htext', rfl⟩, rfl⟩

theorem declare_alike (hc : c.Accepts c' allowed) (h : s'.bare = s.bare)
    (hp : allowed p.shape.type) (hk : s.declare c version p = .ok (s₁, k)) :
    ∃ s₁' k', s'.declare c' version p = .ok (s₁', k') ∧ s₁'.bare = s₁.bare ∧ k'.bare = k.bare := by
  obtain ⟨hr, hk⟩ := declare_ok.mp hk
  obtain ⟨s₁', hr', h₁⟩ := requireEnum_alike hc.history h hr
  obtain ⟨k', hk', hbare⟩ := redeclare_alike hc h₁ hp hk
  exact ⟨s₁', k', declare_ok.mpr ⟨hr', hk'⟩, h₁, hbare⟩

theorem declareAll_alike (hc : c.Accepts c' allowed) (h : s'.bare = s.bare) {table : String}
    {edits : List PropertyEdit} {start start' columns : List LiveColumn}
    (hstart : start'.map (·.bare) = start.map (·.bare))
    (hallowed : ∀ edit ∈ edits, ∀ type ∈ edit.types, allowed type)
    (hd : declareAll c version table s start edits = .ok (s₁, columns)) :
    ∃ s₁' columns', declareAll c' version table s' start' edits = .ok (s₁', columns') ∧
      s₁'.bare = s₁.bare ∧ columns'.map (·.bare) = columns.map (·.bare) := by
  induction edits generalizing s s' start start' with
  | nil =>
    obtain ⟨rfl, rfl⟩ := declareAll_nil_ok.mp hd
    exact ⟨s', start', rfl, h, hstart⟩
  | cons edit edits ih =>
    rw [List.forall_mem_cons] at hallowed
    obtain ⟨name, shape, s₂, k, rfl, hfree, hk, hrest⟩ := declareAll_cons_ok.mp hd
    have hp : allowed shape.type := hallowed.1 _ (List.mem_singleton_self _)
    obtain ⟨s₂', k', hk', h₂, hbare⟩ := declare_alike hc h (p := ⟨name, shape⟩) hp hk
    have hfree' : start'.any (·.name == name) = false := by
      have hany : ∀ ks : List LiveColumn,
          (ks.map (·.bare)).any (·.name == name) = ks.any (·.name == name) := fun ks => by
        rw [List.any_map]
        rfl
      rw [← hany, hstart, hany, hfree]
    have hstart₂ : (start' ++ [k']).map (·.bare) = (start ++ [k]).map (·.bare) := by
      rw [List.map_append, List.map_append, hstart, List.map_singleton, List.map_singleton, hbare]
    obtain ⟨s₁', columns', hrest', h₁, hcolumns⟩ := ih h₂ hstart₂ hallowed.2 hrest
    exact ⟨s₁', columns', declareAll_cons_ok.mpr ⟨name, shape, s₂', k', rfl, hfree', hk', hrest'⟩,
      h₁, hcolumns⟩

/-! ## Edits -/

theorem reserve_alike {name : String} (h : s'.bare = s.bare) (hr : s.reserve name = .ok s₁) :
    ∃ s₁', s'.reserve name = .ok s₁' ∧ s₁'.bare = s₁.bare := by
  obtain ⟨hfree, rfl⟩ := reserve_ok.mp hr
  have hnames := names_eq_of_bare h
  refine ⟨{ s' with names := name :: s'.names }, reserve_ok.mpr ⟨hnames ▸ hfree, rfl⟩, ?_⟩
  show ({ s'.bare with names := name :: s'.names } : LiveSchema) = _
  rw [h, hnames]
  rfl

theorem release_alike {name : String} (h : s'.bare = s.bare) :
    (s'.release name).bare = (s.release name).bare := by
  show s'.bare.release name = s.bare.release name
  rw [h]

/-- What is said of a table by everything but its columns. -/
theorem frame_of_bare (h : t'.bare = t.bare) : t'.id = t.id ∧ t'.name = t.name ∧
    t'.constraints = t.constraints ∧ t'.indices = t.indices ∧ t'.created = t.created := by
  obtain ⟨id, name, columns, constraints, indices, created, pending⟩ := t
  obtain ⟨id', name', columns', constraints', indices', created', pending'⟩ := t'
  simp only [LiveTable.bare, LiveTable.mk.injEq] at h
  simp [h]

/-- What can be done to bare tables keeps tables alike. -/
theorem bare_congr {f : LiveTable → LiveTable} (hf : ∀ u, (f u).bare = f u.bare)
    (h : t'.bare = t.bare) : (f t').bare = (f t).bare := by
  rw [hf, hf, h]

theorem hasColumn_alike {name : String} (h : t'.bare = t.bare) :
    t'.hasColumn name = t.hasColumn name := by
  rw [← LiveTable.hasColumn_bare, h, LiveTable.hasColumn_bare]

/-- An edit that has an effect in the first schema has one in the second, and afterwards they still
differ in declarations only. -/
theorem Effect.alike {e : TableEdit} (hc : c.Accepts c' allowed) (h : s'.bare = s.bare)
    (hd : s'.Declared c'.dialect) (ht' : t' ∈ s'.tables) (ht : t'.bare = t.bare)
    (hallowed : ∀ type ∈ e.types, allowed type) (he : Effect c version s t e s₁ operations) :
    ∃ s₁' operations', Effect c' version s' t' e s₁' operations' ∧ s₁'.bare = s₁.bare := by
  obtain ⟨hid, hname, hconstraints, hindices, hcreated⟩ := frame_of_bare ht
  have hkey : t'.primaryKey? = t.primaryKey? := by rw [LiveTable.primaryKey?, hconstraints]; rfl
  cases he with
  | @create step _ _ he =>
    obtain ⟨hne, s₂, columns, hdeclare, rfl, -⟩ := createTable_ok.mp he
    obtain ⟨s₂', columns', hdeclare', h₂, hcolumns⟩ := declareAll_alike hc h rfl
      (fun edit hedit type htype => hallowed type (List.mem_flatMap.mpr ⟨edit, hedit, htype⟩))
      hdeclare
    refine ⟨_, _, .create (createTable_ok.mpr ⟨hne, s₂', columns', ?_, rfl, rfl⟩), ?_⟩
    · rw [hname]
      exact hdeclare'
    · refine bare_setTable_congr h₂ ?_
      show ({ t'.bare with columns := columns'.map (·.bare), created := true } : LiveTable) = _
      rw [ht, hcolumns]
      rfl
  | @rename name =>
    refine ⟨_, _, .rename, ?_⟩
    unfold renameTable
    cases name with
    | none => exact h
    | some new =>
      simp only [hname]
      split
      · exact h
      · exact bare_setTable_congr h
          (bare_congr (f := fun u => { u with name := new }) (fun _ => rfl) ht)
  | @addProperty name shape _ _ he =>
    obtain ⟨hfree, s₂, k, hk, rfl, -⟩ := addProperty_ok.mp he
    obtain ⟨s₂', k', hk', h₂, hbare⟩ :=
      declare_alike hc h (p := ⟨name, shape⟩) (hallowed _ (List.mem_singleton_self _)) hk
    refine ⟨_, _, .addProperty (addProperty_ok.mpr
      ⟨(hasColumn_alike ht).trans hfree, s₂', k', hk', rfl, rfl⟩), bare_setTable_congr h₂ ?_⟩
    rw [LiveTable.bare_addColumn, LiveTable.bare_addColumn, ht, hbare]
  | @renameProperty name new _ _ he =>
    obtain ⟨before, k, hbefore, hfree, hk, rfl, -⟩ := renameProperty_ok.mp he
    obtain ⟨before', hbefore', hproperty⟩ := LiveTable.exists_column? ht hbefore
    have hmem := (LiveTable.column?_eq_some hbefore').1
    -- the column stands declared in the second schema, so its type is one of the allowed ones
    have hp : allowed ({ before.property with name := new } : Property).shape.type :=
      hproperty ▸ hc.dialect.allowed_of_isDeclared (hd t' ht' before' hmem)
    obtain ⟨k', hk', hbare⟩ := redeclare_alike hc h hp hk
    refine ⟨_, _, .renameProperty (renameProperty_ok.mpr
      ⟨before', k', hbefore', (hasColumn_alike ht).trans hfree, hproperty ▸ hk', rfl, rfl⟩), ?_⟩
    have htable : ((t'.setColumn name k').followColumn name new).bare
        = ((t.setColumn name k).followColumn name new).bare := by
      show (t'.setColumn name k').bare.followColumn name new = _
      rw [LiveTable.bare_setColumn, ht, hbare, ← LiveTable.bare_setColumn]
      rfl
    rw [bare_followReferences, bare_followReferences, bare_setTable_congr h htable, hid]
  | @retypeProperty name shape _ _ he =>
    obtain ⟨before, after, s₂, statements, hbefore, hplain, hplain', hk, -, rfl, -⟩ :=
      retypeProperty_ok.mp he
    obtain ⟨before', hbefore', hproperty⟩ := LiveTable.exists_column? ht hbefore
    obtain ⟨s₂', after', hk', h₂, hbare⟩ :=
      declare_alike hc h (p := ⟨name, shape⟩) (hallowed _ (List.mem_singleton_self _)) hk
    -- only PostgreSQL refuses to retype a column, and it is not the second dialect
    obtain ⟨statements', hstatements'⟩ := Dialect.exists_columnRetyping hc.dialect.target
    refine ⟨_, _, .retypeProperty (retypeProperty_ok.mpr ⟨before', after', s₂', statements',
      hbefore', hproperty ▸ hplain, hplain', hk', hstatements', rfl, rfl⟩),
      bare_setTable_congr h₂ ?_⟩
    rw [LiveTable.bare_setColumn, LiveTable.bare_setColumn, ht, hbare]
  | @removeProperty name _ _ he =>
    obtain ⟨hhas, rfl, -⟩ := removeProperty_ok.mp he
    refine ⟨_, _, .removeProperty (removeProperty_ok.mpr
      ⟨(hasColumn_alike ht).trans hhas, rfl, rfl⟩), bare_setTable_congr h ?_⟩
    rw [LiveTable.bare_dropColumn, LiveTable.bare_dropColumn, ht]
  | @addPrimaryKey name columns _ _ he =>
    obtain ⟨hne, hnone, hcolumns, s₂, hr, rfl, -⟩ := addPrimaryKey_ok.mp he
    obtain ⟨s₂', hr', h₂⟩ := reserve_alike h hr
    refine ⟨_, _, .addPrimaryKey (addPrimaryKey_ok.mpr
      ⟨hne, hkey ▸ hnone, checkKeyColumns_ok.mpr fun column hcolumn => ?_, s₂', hr', rfl, rfl⟩),
      bare_setTable_congr h₂ (bare_congr (f := fun u =>
        { u with constraints := u.constraints ++ [.primaryKey name columns] }) (fun _ => rfl) ht)⟩
    obtain ⟨k, hk, hnullable⟩ := checkKeyColumns_ok.mp hcolumns column hcolumn
    obtain ⟨k', hk', hproperty⟩ := LiveTable.exists_column? ht hk
    exact ⟨k', hk', hproperty ▸ hnullable⟩
  | @addForeignKey name column references referencedColumn _ _ he =>
    obtain ⟨own, target, s₂, hown, hserial, htarget, hthere, hreferenced, hr, rfl, -⟩ :=
      addForeignKey_ok.mp he
    obtain ⟨own', hown', hproperty⟩ := LiveTable.exists_column? ht hown
    obtain ⟨target', htarget', hbare⟩ := exists_table? h htarget
    obtain ⟨-, -, -, -, hcreated'⟩ := frame_of_bare hbare
    obtain ⟨s₂', hr', h₂⟩ := reserve_alike h hr
    refine ⟨_, _, .addForeignKey (addForeignKey_ok.mpr ⟨own', target', s₂', hown',
      hproperty ▸ hserial, htarget', hcreated'.trans hthere,
      (hasColumn_alike hbare).trans hreferenced, hr', rfl, rfl⟩),
      bare_setTable_congr h₂ (bare_congr (f := fun u => { u with
        constraints := u.constraints ++ [.foreignKey name column references referencedColumn] })
        (fun _ => rfl) ht)⟩
  | @removePrimaryKey name _ _ he =>
    obtain ⟨key, hk, hkeyName, rfl, -⟩ := removePrimaryKey_ok.mp he
    exact ⟨_, _, .removePrimaryKey (removePrimaryKey_ok.mpr
      ⟨key, hkey.trans hk, hkeyName, rfl, rfl⟩),
      bare_setTable_congr (release_alike h)
        (bare_congr (f := (withoutConstraint · name)) (fun _ => rfl) ht)⟩
  | @removeForeignKey name _ _ he =>
    obtain ⟨hk, rfl, -⟩ := removeForeignKey_ok.mp he
    exact ⟨_, _, .removeForeignKey (removeForeignKey_ok.mpr
      ⟨hconstraints ▸ hk, rfl, rfl⟩),
      bare_setTable_congr (release_alike h)
        (bare_congr (f := (withoutConstraint · name)) (fun _ => rfl) ht)⟩
  | @addIndex kind name columns _ _ he =>
    obtain ⟨hne, hcolumns, hnew, s₂, hr, rfl, -⟩ := addIndex_ok.mp he
    obtain ⟨s₂', hr', h₂⟩ := reserve_alike h hr
    exact ⟨_, _, .addIndex (addIndex_ok.mpr
      ⟨hne, fun column hcolumn => (hasColumn_alike ht).trans (hcolumns column hcolumn),
        hindices ▸ hnew, s₂', hr', rfl, rfl⟩),
      bare_setTable_congr h₂ (bare_congr (f := fun u =>
        { u with indices := u.indices ++ [⟨name, columns, kind == .unique⟩] }) (fun _ => rfl) ht)⟩
  | @removeIndex kind name _ _ he =>
    obtain ⟨hi, rfl, -⟩ := removeIndex_ok.mp he
    exact ⟨_, _, .removeIndex (removeIndex_ok.mpr ⟨hindices ▸ hi, rfl, rfl⟩),
      bare_setTable_congr (release_alike h) (bare_congr (f := fun u =>
        { u with indices := u.indices.filter (·.name != name) }) (fun _ => rfl) ht)⟩

end LiveSchema

end SchemaEvolution
