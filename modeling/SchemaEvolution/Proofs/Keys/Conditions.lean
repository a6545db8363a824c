import SchemaEvolution.Proofs.FinalTables
import SchemaEvolution.Proofs.Walk.Changes

/-!
# What keys ask of columns

A primary key is not put on a column that allows `NULL`, and a foreign key not on a serial one. This
is looked at when the key is added. Edits of properties do not look at keys: a column of a key may
be given another shape, and when it has been removed, another column may take its name. So a key
stands on columns that it could be put on, unless such an edit has put another one under it since.
-/

namespace SchemaEvolution

namespace Constraint

/-- Whether a key cannot be put on a column. -/
def refuses : Constraint → Property → Bool
  | .primaryKey _ _, p => p.isNullable
  | .foreignKey _ _ _ _, p => p.isSerial

variable {k k' : Constraint} {id name new : String}

/-- Of a key it only matters of what kind it is, and of a column only its shape. -/
theorem refuses_congr (hkind : k.isPrimaryKey = k'.isPrimaryKey) {p p' : Property}
    (hshape : p.shape = p'.shape) : k.refuses p = k'.refuses p' := by
  cases k <;> cases k' <;> simp_all [isPrimaryKey, refuses, Property.isNullable, Property.isSerial]

theorem columns_followColumn :
    (k.followColumn name new).columns = k.columns.map (renamed name new) := by
  cases k <;> rfl

theorem columns_followReference : (k.followReference id name new).columns = k.columns := by
  cases k <;> rfl

theorem name_followColumn : (k.followColumn name new).name = k.name := by
  cases k <;> rfl

theorem name_followReference : (k.followReference id name new).name = k.name := by
  cases k <;> rfl

theorem isPrimaryKey_followColumn : (k.followColumn name new).isPrimaryKey = k.isPrimaryKey := by
  cases k <;> rfl

theorem isPrimaryKey_followReference :
    (k.followReference id name new).isPrimaryKey = k.isPrimaryKey := by
  cases k <;> rfl

end Constraint

/-- The name under which an edit of a property puts a column into a table that is there already: a
column that is new, has another shape or has another name. -/
def TableEdit.placedColumn? : TableEdit → Option String
  | .property (.add name _) => some name
  | .property (.rename _ new) => some new
  | .property (.retype name _) => some name
  | _ => none

/-- Whether a key could be put on those of its columns that the table has. -/
def LiveTable.Admits (t : LiveTable) (k : Constraint) : Prop :=
  ∀ column ∈ t.columns, column.name ∈ k.columns → k.refuses column.property = false

/-! ## Edits that put a column under a key -/

namespace Change

/-- Whether a change puts a column into a table, under a name. -/
def Places (x : Change) (t : LiveTable) (column : String) : Prop :=
  t.id = x.id ∧ x.edit.placedColumn? = some column

/-- Whether a change puts a column under a key, which lists a column of that name at a position, and
whether it is one that the key refuses. -/
def PutsUnder (x : Change) (key : String) (position : Nat) (refused : Bool) : Prop :=
  ∃ t ∈ x.before.tables, ∃ k ∈ t.constraints, k.name = key ∧
    ∃ t' ∈ x.after.tables, t'.id = t.id ∧ ∃ column ∈ t'.columns,
      x.Places t column.name ∧ k.columns[position]? = some column.name ∧
        k.refuses column.property = refused

/-- Whether a name comes into use with a change. -/
def Introduces (x : Change) (name : String) : Prop :=
  name ∉ x.before.names ∧ name ∈ x.after.names

/-- What a change makes of the keys: a key is new, and its table admits it, or it is a key of
before, under which columns are put or stay. It may mention a column by another name than before. -/
def Explains (x : Change) (t' : LiveTable) (k' : Constraint) : Prop :=
  (k'.name ∉ x.before.names ∧ t'.Admits k') ∨
    ∃ t ∈ x.before.tables, t.id = t'.id ∧ ∃ k ∈ t.constraints, k.name = k'.name ∧
      k.isPrimaryKey = k'.isPrimaryKey ∧
      ∀ position : Nat, ∀ column ∈ t'.columns, k'.columns[position]? = some column.name →
        (x.Places t column.name ∧ k.columns[position]? = some column.name) ∨
          ∃ old ∈ t.columns, k.columns[position]? = some old.name ∧ ¬ x.Places t old.name ∧
            old.property.shape = column.property.shape

/-- Whether a change adds a key, or puts a column under it, at a position, that it could be put
on. -/
def Mends (x : Change) (key : String) (position : Nat) : Prop :=
  x.Introduces key ∨ x.PutsUnder key position false

end Change

/-- Whether a column that a key refuses has been put under it, at a position of those that it lists,
and has not been mended since. -/
def Undermined (xs : List Change) (key : String) (position : Nat) : Prop :=
  ∃ passed x since, xs = passed ++ x :: since ∧ x.PutsUnder key position true ∧
    ∀ y ∈ since, ¬ y.Mends key position

theorem undermined_concat {xs : List Change} {x : Change} {key : String} {position : Nat} :
    Undermined (xs ++ [x]) key position ↔
      x.PutsUnder key position true ∨ (Undermined xs key position ∧ ¬ x.Mends key position) :=
  exists_since_concat

namespace Change

variable {x : Change} {s : LiveSchema} {t t' u : LiveTable} {k k' : Constraint}
  {id name new key : String} {position : Nat} {refused : Bool}

/-- There is one key of a name, and one column of a name under it. -/
theorem PutsUnder.unique {refused' : Bool} (hs : x.before.Sound) (hs' : x.after.Sound)
    (h : x.PutsUnder key position refused) (h' : x.PutsUnder key position refused') :
    refused = refused' := by
  obtain ⟨t, ht, k, hk, rfl, t', ht', hid, column, hin, -, hlists, rfl⟩ := h
  obtain ⟨u, hu, k₂, hk₂, hname, u', hu', hid', column₂, hin₂, -, hlists₂, rfl⟩ := h'
  obtain ⟨rfl, rfl⟩ := hs.eq_of_constraintName hu ht hk₂ hk hname
  obtain rfl : u' = t' := List.inj_on_of_nodup_map hs'.distinct hu' ht' (hid'.trans hid.symm)
  obtain rfl := LiveTable.eq_of_mem_columns (hs'.columns _ hu') hin₂ hin
    (Option.some.inj (hlists₂.symm.trans hlists))
  rfl

/-- Where a column stays under a key, none is put. -/
theorem not_putsUnder (hs : x.before.Sound) (ht : t ∈ x.before.tables) (hk : k ∈ t.constraints)
    {old : String} (hold : k.columns[position]? = some old) (hnot : ¬ x.Places t old) :
    ¬ x.PutsUnder k.name position refused := by
  rintro ⟨u, hu, k₂, hk₂, hname, -, -, -, column, -, hplaces, hlists, -⟩
  obtain ⟨rfl, rfl⟩ := hs.eq_of_constraintName hu ht hk₂ hk hname
  obtain rfl := Option.some.inj (hold.symm.trans hlists)
  exact hnot hplaces

/-! ## What happens to a key -/

/-- The table has the columns that it had. -/
theorem explains_sameColumns (ht : t ∈ x.before.tables) (hid : t.id = t'.id)
    (hcolumns : ∀ column ∈ t'.columns, column ∈ t.columns) (hnone : x.edit.placedColumn? = none)
    (hk : k ∈ t.constraints) : x.Explains t' k := by
  refine Or.inr ⟨t, ht, hid, k, hk, rfl, rfl, fun position column hin hlists => Or.inr ?_⟩
  refine ⟨column, hcolumns column hin, hlists, ?_, rfl⟩
  rintro ⟨-, hplaced⟩
  rw [hnone] at hplaced
  cases hplaced

/-- One column is put into the table. -/
theorem explains_placed (ht : t ∈ x.before.tables) (hid : t.id = t'.id) (hx : t.id = x.id)
    (hplaced : x.edit.placedColumn? = some name)
    (hcolumns : ∀ column ∈ t'.columns,
      column.name = name ∨ (column ∈ t.columns ∧ column.name ≠ name))
    (hk : k ∈ t.constraints) : x.Explains t' k := by
  refine Or.inr ⟨t, ht, hid, k, hk, rfl, rfl, fun position column hin hlists => ?_⟩
  rcases hcolumns column hin with rfl | ⟨hold, hne⟩
  · exact Or.inl ⟨⟨hx, hplaced⟩, hlists⟩
  · refine Or.inr ⟨column, hold, hlists, ?_, rfl⟩
    rintro ⟨-, hsame⟩
    exact hne (Option.some.inj (hsame.symm.trans hplaced))

/-- Another table is not concerned. -/
theorem explains_other (ht : t ∈ x.before.tables) (hne : t.id ≠ x.id) (hk : k ∈ t.constraints) :
    x.Explains t k :=
  Or.inr ⟨t, ht, rfl, k, hk, rfl, rfl, fun _ column hin hlists =>
    Or.inr ⟨column, hin, hlists, fun hplaces => hne hplaces.1, rfl⟩⟩

theorem Explains.followReference (h : x.Explains t' k) :
    x.Explains (t'.followReference id name new) (k.followReference id name new) := by
  rcases h with ⟨hnew, hadmits⟩ | ⟨t, ht, hid, k₀, hk, hname, hkind, hcolumns⟩
  · refine Or.inl ⟨?_, fun column hin hlists => ?_⟩
    · rw [Constraint.name_followReference]
      exact hnew
    · rw [Constraint.columns_followReference] at hlists
      rw [Constraint.refuses_congr Constraint.isPrimaryKey_followReference rfl]
      exact hadmits column hin hlists
  · refine Or.inr ⟨t, ht, hid, k₀, hk, ?_, ?_, fun position column hin hlists => ?_⟩
    · rw [Constraint.name_followReference]
      exact hname
    · rw [Constraint.isPrimaryKey_followReference]
      exact hkind
    · rw [Constraint.columns_followReference] at hlists
      exact hcolumns position column hin hlists

end Change

namespace LiveSchema

variable {c : Setting} {version id name new : String} {s s' : LiveSchema} {t t' u : LiveTable}
  {k : Constraint} {x : Change} {operations : List Operation}

/-- Only in one table anything happens to keys and columns. -/
theorem explains_setTable (hs : s'.tables = x.before.tables) (hid : t'.id = x.id)
    (hkeys : ∀ k' ∈ t'.constraints, x.Explains t' k') :
    ∀ u ∈ (s'.setTable t').tables, ∀ k' ∈ u.constraints, x.Explains u k' := by
  intro u hu k' hk'
  rcases mem_setTable hu with rfl | ⟨hu, hne⟩
  · exact hkeys k' hk'
  · exact Change.explains_other (hs ▸ hu) (hid ▸ hne) hk'

/-- The table has no columns and no keys but those that it had. -/
theorem explains_keep (hs : s'.tables = x.before.tables) (hm : t ∈ x.before.tables)
    (hx : t.id = x.id) (hid : t'.id = t.id) (hnone : x.edit.placedColumn? = none)
    (hcolumns : ∀ column ∈ t'.columns, column ∈ t.columns)
    (hkeys : ∀ k ∈ t'.constraints, k ∈ t.constraints) :
    ∀ u ∈ (s'.setTable t').tables, ∀ k' ∈ u.constraints, x.Explains u k' :=
  explains_setTable hs (hid.trans hx) fun k hk =>
    Change.explains_sameColumns hm hid.symm hcolumns hnone (hkeys k hk)

/-- A primary key is put on columns that allow no `NULL`. -/
theorem admits_of_checkKeyColumns {columns : List String} (hn : t.columnNames.Nodup)
    (h : checkKeyColumns t name columns = .ok ()) : t.Admits (.primaryKey name columns) := by
  intro column hin hlists
  obtain ⟨k, hk, hnull⟩ := checkKeyColumns_ok.mp h column.name hlists
  obtain ⟨hkm, hkn⟩ := LiveTable.column?_eq_some hk
  obtain rfl := LiveTable.eq_of_mem_columns hn hkm hin hkn
  exact hnull

/-- A key goes with its columns when one of them is renamed. If it lists a column of the new name,
which the table does not have, the renamed one is put under it. -/
theorem explains_renameProperty (hm : t ∈ s.tables)
    (he : s.renameProperty c version t name new = .ok (s', operations)) :
    ∀ t' ∈ s'.tables, ∀ k' ∈ t'.constraints,
      (Change.mk s t.id (.property (.rename name new)) s' operations).Explains t' k' := by
  obtain ⟨before, column, hb, hfree, hd, rfl, -⟩ := renameProperty_ok.mp he
  obtain ⟨hbm, hbn⟩ := LiveTable.column?_eq_some hb
  have hname : column.name = new := redeclare_name hd
  have hproperty := (redeclare_ok hd).1
  have hnew : ∀ old ∈ t.columns, old.name ≠ new := fun old hold he =>
    LiveTable.hasColumn_eq_false_iff.mp hfree (he ▸ List.mem_map_of_mem hold)
  intro u' hu' k' hk'
  obtain ⟨u, hu, rfl⟩ := List.mem_map.mp hu'
  obtain ⟨k₁, hk₁, rfl⟩ := List.mem_map.mp hk'
  refine Change.Explains.followReference ?_
  rcases mem_setTable hu with rfl | ⟨hu, hne⟩
  · obtain ⟨k, hk, rfl⟩ := List.mem_map.mp hk₁
    refine Or.inr ⟨t, hm, rfl, k, hk, Constraint.name_followColumn.symm,
      Constraint.isPrimaryKey_followColumn.symm, fun position own hin hlists => ?_⟩
    have hstays : ∀ old ∈ t.columns, ¬ (Change.mk s t.id (.property (.rename name new))
        ((s.setTable ((t.setColumn name column).followColumn name new)).followReferences t.id
          name new) operations).Places t old.name := fun old hold hplaces =>
      hnew old hold (Option.some.inj hplaces.2).symm
    rw [Constraint.columns_followColumn, List.getElem?_map, Option.map_eq_some_iff] at hlists
    obtain ⟨listed, hlisted, hrenamed⟩ := hlists
    unfold Constraint.renamed at hrenamed
    rcases LiveTable.mem_setColumn hin with rfl | ⟨hold, -⟩
    · split at hrenamed
      · -- the key has the column already, by its old name
        next heq =>
        refine Or.inr ⟨before, hbm, ?_, hstays before hbm, by rw [hproperty]⟩
        rw [hbn, ← heq]
        exact hlisted
      · exact Or.inl ⟨⟨rfl, congrArg some hname.symm⟩, hrenamed ▸ hlisted⟩
    · split at hrenamed
      · exact absurd hrenamed.symm (hnew own hold)
      · exact Or.inr ⟨own, hold, hrenamed ▸ hlisted, hstays own hold, rfl⟩
  · exact Change.explains_other hu hne hk₁

/-- What an edit makes of the keys. -/
theorem Effect.explains {e : TableEdit} (h : s.Sound) (ht : s.table? t.id = some t)
    (hc : t.created = !e.isCreation) (he : Effect c version s t e s' operations) :
    ∀ t' ∈ s'.tables, ∀ k' ∈ t'.constraints,
      (Change.mk s t.id e s' operations).Explains t' k' := by
  obtain ⟨hm, -⟩ := table?_eq_some ht
  cases he with
  | create he =>
    obtain ⟨-, s₁, columns, hd, rfl, -⟩ := createTable_ok.mp he
    refine explains_setTable (declareAll_frame hd).1 rfl fun k hk => ?_
    -- there are no keys before the table is created
    have hblank : k.name ∈ t.keyNames := List.mem_append_left _ (List.mem_map_of_mem hk)
    rw [(h.blank t hm hc).2] at hblank
    cases hblank
  | @rename name =>
    have hidle : ∀ s' operations, ∀ u ∈ s.tables, ∀ k ∈ u.constraints,
        (Change.mk s t.id (.rename name) s' operations).Explains u k :=
      fun _ _ u hu k hk => Change.explains_sameColumns hu rfl (fun _ hin => hin) rfl hk
    unfold renameTable
    split
    · exact hidle _ _
    · next new =>
      split
      · exact hidle _ _
      · exact explains_keep (t := t) rfl hm rfl rfl rfl (fun _ hin => hin) fun _ hk => hk
  | addProperty he =>
    obtain ⟨hfree, s₁, column, hd, rfl, -⟩ := addProperty_ok.mp he
    refine explains_setTable (declare_frame hd).1 rfl fun k hk =>
      Change.explains_placed (t := t) hm rfl rfl rfl (fun own hin => ?_) hk
    rcases List.mem_append.mp hin with hold | hnew
    · exact Or.inr ⟨hold, fun he => LiveTable.hasColumn_eq_false_iff.mp hfree
        (he ▸ List.mem_map_of_mem hold)⟩
    · obtain rfl := List.mem_singleton.mp hnew
      exact Or.inl (declare_name hd)
  | renameProperty he => exact explains_renameProperty hm he
  | retypeProperty he =>
    obtain ⟨before, after, s₁, statements, -, -, -, hd, -, rfl, -⟩ := retypeProperty_ok.mp he
    refine explains_setTable (declare_frame hd).1 rfl fun k hk =>
      Change.explains_placed (t := t) hm rfl rfl rfl (fun own hin => ?_) hk
    rcases LiveTable.mem_setColumn hin with rfl | hold
    · exact Or.inl (declare_name hd)
    · exact Or.inr hold
  | removeProperty he =>
    obtain ⟨-, rfl, -⟩ := removeProperty_ok.mp he
    exact explains_keep (t := t) rfl hm rfl rfl rfl (fun _ hin => (List.mem_filter.mp hin).1)
      fun _ hk => hk
  | addPrimaryKey he =>
    obtain ⟨-, -, hcheck, s₁, hr, rfl, -⟩ := addPrimaryKey_ok.mp he
    obtain ⟨hnew, rfl⟩ := reserve_ok.mp hr
    refine explains_setTable rfl rfl fun k hk => ?_
    rcases List.mem_append.mp hk with hold | hadded
    · exact Change.explains_sameColumns (t := t) hm rfl (fun _ hin => hin) rfl hold
    · obtain rfl := List.mem_singleton.mp hadded
      have hadmits := admits_of_checkKeyColumns (h.columns t hm) hcheck
      exact Or.inl ⟨hnew, fun column hin => hadmits column hin⟩
  | addForeignKey he =>
    obtain ⟨own, target, s₁, hown, hserial, -, -, -, hr, rfl, -⟩ := addForeignKey_ok.mp he
    obtain ⟨hnew, rfl⟩ := reserve_ok.mp hr
    refine explains_setTable rfl rfl fun k hk => ?_
    rcases List.mem_append.mp hk with hold | hadded
    · exact Change.explains_sameColumns (t := t) hm rfl (fun _ hin => hin) rfl hold
    · obtain rfl := List.mem_singleton.mp hadded
      refine Or.inl ⟨hnew, fun column hin hlists => ?_⟩
      obtain ⟨hom, hon⟩ := LiveTable.column?_eq_some hown
      obtain rfl := LiveTable.eq_of_mem_columns (h.columns t hm) hom hin
        (hon.trans (List.mem_singleton.mp hlists).symm)
      exact hserial
  | removePrimaryKey he =>
    obtain ⟨key, -, -, rfl, -⟩ := removePrimaryKey_ok.mp he
    exact explains_keep (t := t) rfl hm rfl rfl rfl (fun _ hin => hin)
      fun _ hk => (List.mem_filter.mp hk).1
  | removeForeignKey he =>
    obtain ⟨-, rfl, -⟩ := removeForeignKey_ok.mp he
    exact explains_keep (t := t) rfl hm rfl rfl rfl (fun _ hin => hin)
      fun _ hk => (List.mem_filter.mp hk).1
  | addIndex he =>
    obtain ⟨-, -, -, s₁, hr, rfl, -⟩ := addIndex_ok.mp he
    obtain ⟨-, rfl⟩ := reserve_ok.mp hr
    exact explains_keep (t := t) rfl hm rfl rfl rfl (fun _ hin => hin) fun _ hk => hk
  | removeIndex he =>
    obtain ⟨-, rfl, -⟩ := removeIndex_ok.mp he
    exact explains_keep (t := t) rfl hm rfl rfl rfl (fun _ hin => hin) fun _ hk => hk

/-! ## All along a walk -/

/-- What holds of keys and columns after some changes: a key stands on a column that it refuses,
exactly if one has been put under it. -/
structure Accounted (s : LiveSchema) (xs : List Change) : Prop where
  sound : s.Sound
  keys : ∀ t ∈ s.tables, ∀ k ∈ t.constraints, ∀ position : Nat, ∀ column ∈ t.columns,
    k.columns[position]? = some column.name →
      (k.refuses column.property = true ↔ Undermined xs k.name position)

variable {xs : List Change}

theorem Sound.constraint_used (h : s.Sound) (ht : t ∈ s.tables) (hk : k ∈ t.constraints) :
    k.name ∈ s.names :=
  (h.names _).mpr (List.mem_flatMap.mpr ⟨t, ht,
    List.mem_append_left _ (List.mem_map_of_mem hk)⟩)

/-- An edit that has no effect puts no column under a key. -/
theorem explains_idle {e : TableEdit} (h : s.Sound)
    (hidle : ∀ t, s.table? id = some t → e.isCreation = t.created) :
    ∀ t ∈ s.tables, ∀ k ∈ t.constraints, (Change.mk s id e s []).Explains t k := by
  intro t ht k hk
  by_cases hid : t.id = id
  · -- a table with a key has been created, so the edit would have created it
    have hcreated : t.created = true := by
      by_contra hnot
      have hblank := (h.blank t ht (Bool.eq_false_iff.mpr hnot)).2
      have hin : k.name ∈ t.keyNames := List.mem_append_left _ (List.mem_map_of_mem hk)
      rw [hblank] at hin
      cases hin
    have hcreation := hidle t (hid ▸ table?_eq_of_mem h.distinct ht)
    refine Change.explains_sameColumns ht rfl (fun _ hin => hin) ?_ hk
    cases e with
    | create step => rfl
    | _ => exact absurd (hcreation.trans hcreated) (by simp [TableEdit.isCreation])
  · exact Change.explains_other ht hid hk

theorem Accounted.edit {e : String × TableEdit} (h : s.Accounted xs)
    (he : s.edit c version e = .ok (s', operations)) :
    s'.Accounted (xs ++ [⟨s, e.1, e.2, s', operations⟩]) := by
  have hsound : s'.Sound := h.sound.edit he
  refine ⟨hsound, ?_⟩
  have hexplains : ∀ t' ∈ s'.tables, ∀ k' ∈ t'.constraints,
      (Change.mk s e.1 e.2 s' operations).Explains t' k' := by
    rcases edit_ok he with ⟨rfl, rfl, hidle⟩ | ⟨t, ht, hc, heffect⟩
    · exact explains_idle h.sound hidle
    · obtain ⟨-, hid⟩ := table?_eq_some ht
      rw [← hid] at ht ⊢
      exact heffect.explains h.sound ht hc
  intro t' ht' k' hk' position column hin hlists
  rw [undermined_concat]
  rcases hexplains t' ht' k' hk' with
    ⟨hnew, hadmits⟩ | ⟨t, ht, hid, k, hk, hname, hkind, hcolumns⟩
  · -- the key has just been put on columns that it does not refuse
    rw [hadmits column hin (List.mem_of_getElem? hlists)]
    refine iff_of_false Bool.false_ne_true ?_
    rintro (⟨t, ht, k, hk, hname, -⟩ | ⟨-, hnot⟩)
    · exact hnew (hname ▸ h.sound.constraint_used ht hk)
    · exact hnot (Or.inl ⟨hnew, hsound.constraint_used ht' hk'⟩)
  · rw [← hname]
    rcases hcolumns position column hin hlists with
      ⟨hplaces, hlisted⟩ | ⟨old, hold, hlisted, hnot, hshape⟩
    · -- the column has just been put under the key
      rw [← Constraint.refuses_congr hkind rfl]
      have hputs : (Change.mk s e.1 e.2 s' operations).PutsUnder k.name position
          (k.refuses column.property) :=
        ⟨t, ht, k, hk, rfl, t', ht', hid.symm, column, hin, hplaces, hlisted, rfl⟩
      constructor
      · exact fun hrefuses => Or.inl (hrefuses ▸ hputs)
      · rintro (hrefused | ⟨-, hmends⟩)
        · exact hputs.unique h.sound hsound hrefused
        · by_contra hadmits
          exact hmends (Or.inr ((Bool.not_eq_true _).mp hadmits ▸ hputs))
    · -- the column has been there before, and nothing is put in its place
      have hnone : ∀ refused, ¬ (Change.mk s e.1 e.2 s' operations).PutsUnder k.name position
          refused := fun _ => Change.not_putsUnder h.sound ht hk hlisted hnot
      rw [← Constraint.refuses_congr hkind hshape, h.keys t ht k hk position old hold hlisted,
        or_iff_right (hnone true), and_iff_left]
      rintro (⟨hfree, -⟩ | hputs)
      · exact hfree (h.sound.constraint_used ht hk)
      · exact hnone false hputs

theorem accounted_walk {h : SchemaHistory} {versions : List String} {w : Walk}
    {d : Dialect} (hs : start h = .ok s) (hw : s.walk ⟨d, h⟩ versions = .ok w) :
    w.final.Accounted (changes ⟨d, h⟩ s versions) := by
  have hstart : s.Accounted [] := by
    refine ⟨sound_start hs, fun t ht k hk => ?_⟩
    obtain ⟨_, -, name, ht⟩ := tables_start hs ht
    rw [ht] at hk
    cases hk
  refine changes_invariant (fun s xs version h => ⟨h.sound.takeDue, fun u hu k hk => ?_⟩)
    (fun _ _ _ _ _ _ h he => h.edit he) hstart.sound hstart hw
  rw [takeDue_tables] at hu
  obtain ⟨t, ht, rfl⟩ := List.mem_map.mp hu
  exact h.keys t ht k hk

end LiveSchema

namespace Changelog

variable {d : Dialect} {h : SchemaHistory} {log : Changelog} {passed later : List String}

/-- After every version, a column that a primary key lists does not allow `NULL`, and one that a
foreign key lists is not serial, unless an edit of a property has put such a column under the key
after it was added, and no edit has put another one there since. -/
theorem keys_keep_conditions (hlog : ofHistory d h = .ok log)
    (hsplit : h.timeline = passed ++ later) :
    ∃ start w, LiveSchema.start h = .ok start ∧ start.walk ⟨d, h⟩ passed = .ok w ∧
      ∀ t ∈ w.final.tables, ∀ column ∈ t.columns,
        (∀ name columns, .primaryKey name columns ∈ t.constraints →
          ∀ position : Nat, columns[position]? = some column.name →
            (column.property.isNullable = true ↔
              Undermined (start.changes ⟨d, h⟩ passed) name position)) ∧
        (∀ name references referenced,
          .foreignKey name column.name references referenced ∈ t.constraints →
            (column.property.isSerial = true ↔
              Undermined (start.changes ⟨d, h⟩ passed) name 0)) := by
  obtain ⟨start, p, hs, hw, -⟩ := ofHistory_ok hlog
  obtain ⟨w, -, hpassed, -⟩ := LiveSchema.walk_split (hsplit ▸ hw)
  have hkeys := (LiveSchema.accounted_walk hs hpassed).keys
  refine ⟨start, w, hs, hpassed, fun t ht column hin => ⟨?_, ?_⟩⟩
  · exact fun name columns hk position hlists => hkeys t ht _ hk position column hin hlists
  · exact fun name references referenced hk => hkeys t ht _ hk 0 column hin rfl

/-- A table with a primary key and a foreign key, and then other columns under them: one that gets
another shape, one that is removed and comes back otherwise, one whose name another column takes. -/
def replacedColumns : SchemaHistory where
  tables := [⟨"a",
    [⟨"1", some "a", [.add "x" { type := .integer }, .add "u" { type := .integer },
        .add "v" { type := .integer }, .add "w" { type := .integer, nullable := true },
        .add "y" { type := .integer }],
        [.addPrimaryKey "a_key" ["x", "u", "v"], .addForeignKey "a_self" "y" "a" "x"], []⟩,
      ⟨"2", none, [.retype "x" { type := .integer, nullable := true }, .remove "u",
        .add "u" { type := .integer, nullable := true }, .remove "v", .rename "w" "v",
        .remove "y", .add "y" { type := .serial }], [], []⟩]⟩]

/-- What a key asks of columns is not asked of those that are put under it later. -/
theorem keys_stand_on_refused_columns :
    (ofHistory .postgres replacedColumns).isOk = true ∧
      ∃ start w t, LiveSchema.start replacedColumns = .ok start ∧
        start.walk ⟨.postgres, replacedColumns⟩ replacedColumns.timeline = .ok w ∧
        w.final.table? "a" = some t ∧
        t.constraints = [.primaryKey "a_key" ["x", "u", "v"], .foreignKey "a_self" "y" "a" "x"] ∧
        t.columns.map (fun column =>
            (column.name, column.property.isNullable, column.property.isSerial))
          = [("x", true, false), ("v", true, false), ("u", true, false), ("y", false, true)] :=
  ⟨by decide, _, _, _, rfl, rfl, rfl, rfl, rfl⟩

theorem keys_keep_conditions_replacedColumns :
    ∃ start w t, LiveSchema.start replacedColumns = .ok start ∧
      start.walk ⟨.postgres, replacedColumns⟩ ["1"] = .ok w ∧ w.final.table? "a" = some t ∧
      ∀ column ∈ t.columns, ∀ position : Nat, ["x", "u", "v"][position]? = some column.name →
        (column.property.isNullable = true ↔
          Undermined (start.changes ⟨.postgres, replacedColumns⟩ ["1"]) "a_key" position) := by
  obtain ⟨log, hlog⟩ := Except.exists_of_isOk
    (show (ofHistory .postgres replacedColumns).isOk = true by decide)
  have hsplit : replacedColumns.timeline = ["1"] ++ ["2"] := by decide
  obtain ⟨start, w, hs, hw, hkeys⟩ := keys_keep_conditions hlog hsplit
  obtain rfl := Except.ok.inj (hs.symm.trans rfl)
  obtain rfl := Except.ok.inj (hw.symm.trans rfl)
  refine ⟨_, _, _, hs, hw, rfl, fun column hin position hlists => ?_⟩
  exact (hkeys _ List.mem_cons_self column hin).1 "a_key" ["x", "u", "v"] List.mem_cons_self
    position hlists

end Changelog

end SchemaEvolution
