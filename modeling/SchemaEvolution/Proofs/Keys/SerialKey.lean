import SchemaEvolution.Proofs.Indices.KeyStep
import SchemaEvolution.Proofs.Keys.Conditions
import SchemaEvolution.Proofs.Statements

/-!
# Primary keys that a declaration brings

In MySQL a serial column is a primary key by its declaration. So nothing is written when a key is
added or removed that is exactly one serial column. This is asked of the columns as they are at that
moment, and an edit of a property may have turned the key in between: the column gets another shape,
is removed, or leaves its name to another one.
-/

namespace SchemaEvolution

/-- Whether a statement adds a primary key (`true`) or drops one (`false`), if it does either. -/
def Ddl.keyMark? : Ddl → Option Bool
  | .addPrimaryKey _ _ _ => some true
  | .dropPrimaryKey _ => some false
  | _ => none

/-- Whether an edit adds a primary key (`true`) or removes one (`false`), if it does either. -/
def TableEdit.keyMark? : TableEdit → Option Bool
  | .constraint (.addPrimaryKey _ _) => some true
  | .constraint (.remove .primary _) => some false
  | _ => none

/-- Primary keys are added and dropped by statements for just that. -/
theorem TableEdit.keyMark?_of_renders {e : TableEdit} {statement : Ddl}
    (h : e.renders statement = true) :
    statement.keyMark? = none ∨ statement.keyMark? = e.keyMark? := by
  unfold renders at h
  split at h
  all_goals first | exact Or.inl rfl | exact Or.inr rfl | cases h

namespace LiveTable

variable {t t' : LiveTable} {name new : String} {before column : LiveColumn}

/-- Whether the primary key of a table is exactly one serial column. -/
def keyIsSerial (t : LiveTable) : Bool :=
  t.primaryKey?.any fun k => isOneSerial k.columns t.columns

/-- Whether a table has a primary key of one column, of this name. -/
def KeyedBy (t : LiveTable) (column : String) : Prop :=
  ∃ key, t.primaryKey? = some key ∧ key.columns = [column]

theorem keyIsSerial_of_key {key : IndexShape} (h : t.primaryKey? = some key) :
    t.keyIsSerial = isOneSerial key.columns t.columns := by
  rw [keyIsSerial, h]
  rfl

theorem keyIsSerial_congr (hkey : t'.primaryKey? = t.primaryKey?)
    (hcolumns : t'.columns = t.columns) : t'.keyIsSerial = t.keyIsSerial := by
  rw [keyIsSerial, hkey, hcolumns]
  rfl

/-- Columns do not matter where there is no key. -/
theorem keyIsSerial_of_none {columns : List LiveColumn} {created : Bool}
    (h : t.primaryKey? = none) :
    ({ t with columns, created } : LiveTable).keyIsSerial = t.keyIsSerial := by
  show t.primaryKey?.any _ = t.primaryKey?.any _
  rw [h]
  rfl

/-- Where only columns of one name are others than before, it matters only to a key of that
column. -/
theorem keyIsSerial_or_keyedBy (hkey : t'.primaryKey? = t.primaryKey?)
    (hcolumns : ∀ c : LiveColumn, c.name ≠ name → (c ∈ t'.columns ↔ c ∈ t.columns)) :
    t'.keyIsSerial = t.keyIsSerial ∨ t.KeyedBy name := by
  cases hk : t.primaryKey? with
  | none =>
    rw [keyIsSerial, hkey, hk, keyIsSerial, hk]
    exact Or.inl rfl
  | some key =>
    by_cases hname : key.columns = [name]
    · exact Or.inr ⟨key, hk, hname⟩
    · refine Or.inl ?_
      rw [keyIsSerial_of_key (hkey.trans hk), keyIsSerial_of_key hk, Bool.eq_iff_iff,
        isOneSerial_iff, isOneSerial_iff]
      -- a column that the key consists of has another name
      have hother : ∀ c : LiveColumn, key.columns = [c.name] → (c ∈ t'.columns ↔ c ∈ t.columns) :=
        fun c hc => hcolumns c fun he => hname (he ▸ hc)
      constructor
      · rintro ⟨c, hin, hc, hserial⟩
        exact ⟨c, (hother c hc).mp hin, hc, hserial⟩
      · rintro ⟨c, hin, hc, hserial⟩
        exact ⟨c, (hother c hc).mpr hin, hc, hserial⟩

theorem keyIsSerial_append (hname : column.name = name) :
    ({ t with columns := t.columns ++ [column] } : LiveTable).keyIsSerial = t.keyIsSerial ∨
      t.KeyedBy name := by
  refine keyIsSerial_or_keyedBy rfl fun c hne => ?_
  rw [List.mem_append, List.mem_singleton, or_iff_left]
  rintro rfl
  exact hne hname

theorem keyIsSerial_setColumn (hname : column.name = name) :
    (t.setColumn name column).keyIsSerial = t.keyIsSerial ∨ t.KeyedBy name := by
  refine keyIsSerial_or_keyedBy rfl fun c hne => ⟨fun hin => ?_, fun hin => ?_⟩
  · rcases mem_setColumn hin with rfl | ⟨hin, -⟩
    · exact absurd hname hne
    · exact hin
  · exact List.mem_map.mpr ⟨c, hin, if_neg hne⟩

theorem keyIsSerial_dropColumn :
    (t.dropColumn name).keyIsSerial = t.keyIsSerial ∨ t.KeyedBy name :=
  keyIsSerial_or_keyedBy rfl fun _ hne => List.mem_filter.trans (and_iff_left (bne_iff_ne.mpr hne))

/-- A key follows its column to the new name, unless it lists that name already. -/
theorem keyIsSerial_renamed (hn : t.columnNames.Nodup) (hb : t.column? name = some before)
    (hnew : t.hasColumn new = false) (hname : column.name = new)
    (hserial : column.property.isSerial = before.property.isSerial) :
    ((t.setColumn name column).followColumn name new).keyIsSerial = t.keyIsSerial ∨
      t.KeyedBy new := by
  have hnew : new ∉ t.columnNames := hasColumn_eq_false_iff.mp hnew
  have hkey : ((t.setColumn name column).followColumn name new).primaryKey?
      = t.primaryKey?.map fun k =>
        { k with columns := k.columns.map (Constraint.renamed name new) } :=
    primaryKey?_followColumn
  cases hk : t.primaryKey? with
  | none =>
    rw [hk] at hkey
    rw [keyIsSerial, hkey, keyIsSerial, hk]
    exact Or.inl rfl
  | some key =>
    rw [hk] at hkey
    by_cases hlisted : key.columns = [new]
    · exact Or.inr ⟨key, hk, hlisted⟩
    · refine Or.inl ?_
      rw [keyIsSerial_of_key hkey, keyIsSerial_of_key hk]
      exact isOneSerial_renamed hn hlisted hb hnew hname hserial

end LiveTable

/-- What an edit of a table, which takes it from `t` to `t'`, does in MySQL to its primary key, and
with which statements. -/
inductive PrimaryStep (t t' : LiveTable) (e : TableEdit) (ss : List Ddl) : Prop
  | add (key : IndexShape) (hedit : e = .constraint (.addPrimaryKey key.name key.columns))
      (hfree : t.primaryKey? = none) (hkey : t'.primaryKey? = some key)
      (hss : ss = if t'.keyIsSerial then [] else [.addPrimaryKey t.name key.name key.columns])
  | remove (key : IndexShape) (hedit : e = .constraint (.remove .primary key.name))
      (hkey : t.primaryKey? = some key) (hfree : t'.primaryKey? = none)
      (hss : ss = if t.keyIsSerial then [] else [.dropPrimaryKey t.name])
  | keep (hedit : e.keyMark? = none) (hss : ∀ statement ∈ ss, statement.keyMark? = none)
      (hname : t'.primaryKey?.map (·.name) = t.primaryKey?.map (·.name))
      (hturn : t'.keyIsSerial = t.keyIsSerial ∨ ∃ column, t.KeyedBy column ∧
        (e.placedColumn? = some column ∨ e.removedColumn? = some column))

namespace LiveSchema

variable {version id name new : String} {s s' : LiveSchema} {t t' : LiveTable} {e : TableEdit}
  {operations : List Operation} {history : SchemaHistory}

/-- What an edit does to the primary key of its table. -/
theorem Effect.primaryStep (h : s.Sound) (ht : s.table? id = some t)
    (hc : t.created = !e.isCreation)
    (he : Effect ⟨.mysql, history⟩ version s t e s' operations) :
    ∃ t', s.Placed s' t' ∧ t'.id = t.id ∧
      PrimaryStep t t' e (operations.flatMap (·.statements)) := by
  obtain ⟨hm, rfl⟩ := table?_eq_some ht
  have hother : e.keyMark? = none →
      ∀ statement ∈ operations.flatMap (·.statements), statement.keyMark? = none := by
    intro hedit statement hin
    rcases TableEdit.keyMark?_of_renders (he.renders (by simp) statement hin) with hmark | hmark
    · exact hmark
    · exact hmark.trans hedit
  cases he with
  | create he =>
    obtain ⟨-, s₁, columns, hd, rfl, rfl⟩ := createTable_ok.mp he
    -- a table that is not created yet has no key
    have hkey : t.primaryKey? = none := by
      have hblank := (h.blank t hm hc).2
      rw [LiveTable.keyNames, List.append_eq_nil_iff, List.map_eq_nil_iff] at hblank
      rw [LiveTable.primaryKey?, hblank.1]
      rfl
    refine ⟨_, placed_setTable (declareAll_frame hd).1 ht, rfl, .keep rfl (hother rfl) rfl ?_⟩
    exact Or.inl (LiveTable.keyIsSerial_of_none hkey)
  | @rename name =>
    have hsame : ∀ t' : LiveTable, t'.primaryKey? = t.primaryKey? → t'.columns = t.columns →
        PrimaryStep t t' (.rename name)
          ((s.renameTable ⟨.mysql, history⟩ version t name).2.flatMap (·.statements)) :=
      fun t' hkey hcolumns => .keep rfl (hother rfl) (by rw [hkey])
        (Or.inl (LiveTable.keyIsSerial_congr hkey hcolumns))
    have hself : s.Placed s t :=
      ⟨rfl, ⟨t, ht, rfl, rfl, rfl⟩, fun u hu _ => ⟨u, hu, rfl, rfl, rfl, rfl⟩⟩
    unfold renameTable at hsame ⊢
    split
    · exact ⟨t, hself, rfl, hsame t rfl rfl⟩
    · next new =>
      simp only at hsame
      split
      · next heq =>
        rw [if_pos heq] at hsame
        exact ⟨t, hself, rfl, hsame t rfl rfl⟩
      · next hne =>
        rw [if_neg hne] at hsame
        exact ⟨{ t with name := new }, placed_setTable rfl ht, rfl, hsame _ rfl rfl⟩
  | @addProperty name shape _ _ he =>
    obtain ⟨hfree, s₁, column, hd, rfl, rfl⟩ := addProperty_ok.mp he
    refine ⟨_, placed_setTable (declare_frame hd).1 ht, rfl, .keep rfl (hother rfl) rfl ?_⟩
    exact (LiveTable.keyIsSerial_append (declare_name hd)).imp_right
      fun hkey => ⟨name, hkey, Or.inl rfl⟩
  | @renameProperty name new _ _ he =>
    obtain ⟨before, column, hb, hfree, hd, rfl, rfl⟩ := renameProperty_ok.mp he
    have hset : s.Placed (s.setTable ((t.setColumn name column).followColumn name new))
        ((t.setColumn name column).followColumn name new) := placed_setTable rfl ht
    refine ⟨_, hset.followReferences, rfl, .keep rfl (hother rfl) ?_ ?_⟩
    · rw [LiveTable.primaryKey?_followColumn, Option.map_map]
      rfl
    · have hserial : column.property.isSerial = before.property.isSerial := by
        rw [(redeclare_ok hd).1]
        rfl
      exact (LiveTable.keyIsSerial_renamed (h.columns t hm) hb hfree (redeclare_name hd)
        hserial).imp_right fun hkey => ⟨new, hkey, Or.inl rfl⟩
  | @retypeProperty name shape _ _ he =>
    obtain ⟨before, after, s₁, statements, -, -, -, hd, -, rfl, rfl⟩ := retypeProperty_ok.mp he
    refine ⟨_, placed_setTable (declare_frame hd).1 ht, rfl, .keep rfl (hother rfl) rfl ?_⟩
    exact (LiveTable.keyIsSerial_setColumn (declare_name hd)).imp_right
      fun hkey => ⟨name, hkey, Or.inl rfl⟩
  | @removeProperty name _ _ he =>
    obtain ⟨-, rfl, rfl⟩ := removeProperty_ok.mp he
    refine ⟨_, placed_setTable rfl ht, rfl, .keep rfl (hother rfl) rfl ?_⟩
    exact LiveTable.keyIsSerial_dropColumn.imp_right fun hkey => ⟨name, hkey, Or.inr rfl⟩
  | @addPrimaryKey name columns _ _ he =>
    obtain ⟨-, hnone, -, s₁, hr, rfl, rfl⟩ := addPrimaryKey_ok.mp he
    obtain ⟨-, rfl⟩ := reserve_ok.mp hr
    have hkey : LiveTable.primaryKey?
        { t with constraints := t.constraints ++ [.primaryKey name columns] }
        = some ⟨name, columns, true⟩ := LiveTable.primaryKey?_withPrimaryKey hnone
    refine ⟨_, placed_setTable rfl ht, rfl, .add ⟨name, columns, true⟩ rfl hnone hkey ?_⟩
    rw [LiveTable.keyIsSerial_of_key hkey, List.flatMap_singleton]
    rfl
  | addForeignKey he =>
    obtain ⟨own, target, s₁, -, -, -, -, -, hr, rfl, rfl⟩ := addForeignKey_ok.mp he
    obtain ⟨-, rfl⟩ := reserve_ok.mp hr
    refine ⟨_, placed_setTable rfl ht, rfl, .keep rfl (hother rfl) ?_ (Or.inl ?_)⟩
    · rw [LiveTable.primaryKey?_withForeignKey]
    · exact LiveTable.keyIsSerial_congr LiveTable.primaryKey?_withForeignKey rfl
  | removePrimaryKey he =>
    obtain ⟨key, hk, rfl, rfl, rfl⟩ := removePrimaryKey_ok.mp he
    refine ⟨_, placed_setTable rfl ht, rfl, .remove key rfl hk
      (LiveTable.primaryKey?_withoutConstraint_self (h.primary t hm) hk) ?_⟩
    rw [LiveTable.keyIsSerial_of_key hk, List.flatMap_singleton]
    rfl
  | removeForeignKey he =>
    obtain ⟨⟨k, hk, hforeign, rfl⟩, rfl, rfl⟩ := removeForeignKey_ok.mp he
    have hkey := LiveTable.primaryKey?_withoutConstraint (h.keyNames_nodup hm) (h.primary t hm) hk
      hforeign
    refine ⟨_, placed_setTable rfl ht, rfl, .keep rfl (hother rfl) (by rw [hkey]) ?_⟩
    exact Or.inl (LiveTable.keyIsSerial_congr hkey rfl)
  | @addIndex kind name columns _ _ he =>
    obtain ⟨-, -, -, s₁, hr, rfl, rfl⟩ := addIndex_ok.mp he
    obtain ⟨-, rfl⟩ := reserve_ok.mp hr
    exact ⟨_, placed_setTable rfl ht, rfl, .keep rfl (hother rfl) rfl (Or.inl rfl)⟩
  | @removeIndex kind name _ _ he =>
    obtain ⟨-, rfl, rfl⟩ := removeIndex_ok.mp he
    exact ⟨_, placed_setTable rfl ht, rfl, .keep rfl (hother rfl) rfl (Or.inl rfl)⟩

/-! ## The keys of a schema -/

/-- The primary key of the table with an id. -/
def key? (s : LiveSchema) (id : String) : Option IndexShape := (s.table? id).bind (·.primaryKey?)

/-- Whether the primary key of the table with an id is exactly one serial column. -/
def keyIsSerial (s : LiveSchema) (id : String) : Bool := (s.table? id).any (·.keyIsSerial)

theorem key_of_table? (ht : s.table? id = some t) :
    s.key? id = t.primaryKey? ∧ s.keyIsSerial id = t.keyIsSerial := by
  rw [key?, keyIsSerial, ht]
  exact ⟨rfl, rfl⟩

theorem key_takeDue : (s.takeDue version).1.key? id = s.key? id ∧
    (s.takeDue version).1.keyIsSerial id = s.keyIsSerial id := by
  have hmap : (s.takeDue version).1.table? id = (s.table? id).map
      fun t => { t with pending := TableStep.beyond version t.pending } :=
    table?_map (fun _ => rfl) takeDue_tables
  rw [key?, keyIsSerial, hmap, key?, keyIsSerial]
  cases s.table? id with
  | none => exact ⟨rfl, rfl⟩
  | some t => exact ⟨rfl, rfl⟩

theorem Placed.key_self (h : s.Placed s' t') :
    s'.key? t'.id = t'.primaryKey? ∧ s'.keyIsSerial t'.id = t'.keyIsSerial := by
  obtain ⟨u, hu, hsame⟩ := h.self
  obtain ⟨hkey, hserial⟩ := key_of_table? hu
  exact ⟨hkey.trans hsame.primaryKey,
    hserial.trans (LiveTable.keyIsSerial_congr hsame.primaryKey hsame.columns)⟩

theorem Placed.key_other (hn : s.ids.Nodup) (h : s.Placed s' t') (hne : id ≠ t'.id) :
    s'.key? id = s.key? id ∧ s'.keyIsSerial id = s.keyIsSerial id := by
  cases hu' : s'.table? id with
  | none =>
    have hu : s.table? id = none := by
      rw [Option.eq_none_iff_forall_ne_some]
      intro u hu
      have hin : id ∈ s'.ids := h.ids ▸ mem_ids_iff.mpr ⟨u, hu⟩
      obtain ⟨v, hv⟩ := mem_ids_iff.mp hin
      cases hu'.symm.trans hv
    rw [key?, keyIsSerial, hu', key?, keyIsSerial, hu]
    exact ⟨rfl, rfl⟩
  | some u' =>
    obtain ⟨hm', rfl⟩ := table?_eq_some hu'
    obtain ⟨u, hm, hid, hsame⟩ := h.others u' hm' hne
    obtain ⟨hkey', hserial'⟩ := key_of_table? hu'
    obtain ⟨hkey, hserial⟩ := key_of_table? (hid ▸ table?_eq_of_mem hn hm)
    rw [hkey', hserial', hkey, hserial]
    exact ⟨hsame.primaryKey, LiveTable.keyIsSerial_congr hsame.primaryKey hsame.columns⟩

end LiveSchema

/-! ## Changes of keys -/

/-- Whether a change turns the primary key of a table into one serial column or out of it. -/
def Change.turnsKey (x : Change) (id : String) : Bool :=
  x.before.keyIsSerial id != x.after.keyIsSerial id

/-- Whether a change is made in a table that has been created, if it is one of a constraint. -/
def Change.OnCreated (x : Change) : Prop :=
  ∀ k, x.edit = .constraint k → ∃ t, x.before.table? x.id = some t ∧ t.created = true

/-- What a change does in MySQL to the primary key of the table with an id. -/
inductive KeyChange (x : Change) (id : String) : Prop
  | add (t : LiveTable) (key : IndexShape) (hid : x.id = id) (ht : x.before.table? id = some t)
      (hedit : x.edit = .constraint (.addPrimaryKey key.name key.columns))
      (hfree : x.before.key? id = none) (hkey : x.after.key? id = some key)
      (hss : x.statements
        = if x.after.keyIsSerial id then [] else [.addPrimaryKey t.name key.name key.columns])
  | remove (t : LiveTable) (key : IndexShape) (hid : x.id = id) (ht : x.before.table? id = some t)
      (hedit : x.edit = .constraint (.remove .primary key.name))
      (hkey : x.before.key? id = some key) (hfree : x.after.key? id = none)
      (hss : x.statements = if x.before.keyIsSerial id then [] else [.dropPrimaryKey t.name])
  | keep (hedit : x.id = id → x.edit.keyMark? = none)
      (hss : x.id = id → ∀ statement ∈ x.statements, statement.keyMark? = none)
      (hname : (x.after.key? id).map (·.name) = (x.before.key? id).map (·.name))
      (hturn : x.turnsKey id = true → x.id = id ∧ ∃ t column, x.before.table? id = some t ∧
        t.KeyedBy column ∧
          (x.edit.placedColumn? = some column ∨ x.edit.removedColumn? = some column))

namespace LiveSchema

variable {x : Change} {id version : String} {history : SchemaHistory}

/-- Every change adds the key of a table, removes it or keeps it. -/
theorem keyChange (h : x.before.Sound)
    (he : x.before.edit ⟨.mysql, history⟩ version (x.id, x.edit) = .ok (x.after, x.operations))
    (hcreated : x.OnCreated) : KeyChange x id := by
  have hsame : x.after.key? id = x.before.key? id ∧
      x.after.keyIsSerial id = x.before.keyIsSerial id →
      (x.id = id → x.edit.keyMark? = none) →
      (x.id = id → ∀ statement ∈ x.statements, statement.keyMark? = none) → KeyChange x id := by
    rintro ⟨hkey, hserial⟩ hedit hss
    refine .keep hedit hss (by rw [hkey]) fun hturns => ?_
    simp [Change.turnsKey, hserial] at hturns
  rcases edit_ok he with ⟨hs', hnone, hidle⟩ | ⟨t, ht, hc, heffect⟩
  · refine hsame (by rw [hs']; exact ⟨rfl, rfl⟩) (fun _ => ?_) fun _ statement hin => ?_
    · by_contra hmark
      obtain ⟨k, hk⟩ : ∃ k, x.edit = .constraint k := by
        cases hedit : x.edit with
        | constraint k => exact ⟨k, rfl⟩
        | _ => exact absurd (by rw [hedit]; rfl) hmark
      obtain ⟨t, ht, hthere⟩ := hcreated k hk
      have hcreation := hidle t ht
      rw [hk, hthere] at hcreation
      cases hcreation
    · rw [Change.statements, hnone] at hin
      cases hin
  · obtain ⟨t', hplaced, hid', hstep⟩ := heffect.primaryStep h ht hc
    obtain ⟨-, hid⟩ := table?_eq_some ht
    rw [hid] at hid'
    by_cases hx : x.id = id
    · obtain ⟨hkey, hserial⟩ := key_of_table? ht
      obtain ⟨hkey', hserial'⟩ := hplaced.key_self
      subst hx
      rw [hid'] at hkey' hserial'
      cases hstep with
      | add key hedit hfree hadded hss =>
        exact .add t key rfl ht hedit (hkey.trans hfree) (hkey'.trans hadded) (hserial' ▸ hss)
      | remove key hedit hthere hfree hss =>
        exact .remove t key rfl ht hedit (hkey.trans hthere) (hkey'.trans hfree) (hserial ▸ hss)
      | keep hedit hss hname hturn =>
        refine .keep (fun _ => hedit) (fun _ => hss) (by rw [hkey, hkey', hname]) fun hturns => ?_
        rcases hturn with hsame | ⟨column, hkeyed, hplaces⟩
        · simp [Change.turnsKey, hserial, hserial', hsame] at hturns
        · exact ⟨rfl, t, column, ht, hkeyed, hplaces⟩
    · refine hsame (hplaced.key_other h.distinct fun he => hx ?_) (fun he => absurd he hx)
        fun he => absurd he hx
      rw [he, hid']

end LiveSchema

end SchemaEvolution
