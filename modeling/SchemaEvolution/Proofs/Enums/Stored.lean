import Mathlib.Data.List.Forall2
import SchemaEvolution.Proofs.Enums.Definition
import SchemaEvolution.Proofs.Enums.Lookup

/-!
# Columns as a MySQL database has them

A database learns of a column by definitions: when its table is created, when it is added, and when
it is modified. Renaming a column or its table leaves the definition that it has. So the statements
alone say what every column was last defined as, and in a database that has followed a schema every
column of an enum type lists the values that the enum has.

Two tables may have one name, so statements carry the id of the table that they are about.
-/

namespace SchemaEvolution

/-! ## What statements leave -/

/-- A statement, with the id of the table that it is about, if it is about one. -/
structure Emission where
  table : Option String
  statement : Ddl
  deriving DecidableEq, Repr

/-- Statements about the table with an id. -/
def emitted (id : String) (ss : List Ddl) : List Emission := ss.map (⟨some id, ·⟩)

/-- A column as a database has it, with the definition that it was last given. -/
structure StoredColumn where
  name : String
  definition : String
  deriving DecidableEq, Repr

namespace StoredColumn

/-- The column that a definition is of. -/
def ofDefinition (definition : String) : StoredColumn :=
  ⟨Dialect.definedName definition, definition⟩

/-- The column after a definition that may be of it. -/
def redefined (definition : String) (k : StoredColumn) : StoredColumn :=
  if k.name = Dialect.definedName definition then { k with definition } else k

/-- The column after a column has been renamed that may be this one. -/
def renamed (name new : String) (k : StoredColumn) : StoredColumn :=
  { k with name := Constraint.renamed name new k.name }

end StoredColumn

/-- A table as a database has it. -/
structure StoredTable where
  name : String
  columns : List StoredColumn
  deriving DecidableEq, Repr

namespace StoredTable

/-- What a statement makes of a table that is there. It takes no notice of statements that call it
by another name. -/
def altered (t : StoredTable) : Ddl → StoredTable
  | .renameTable table new => if t.name = table then { t with name := new } else t
  | .addColumn table definition =>
    if t.name = table then { t with columns := t.columns ++ [.ofDefinition definition] } else t
  | .modifyColumn table definition =>
    if t.name = table then { t with columns := t.columns.map (·.redefined definition) } else t
  | .renameColumn table name new =>
    if t.name = table then { t with columns := t.columns.map (·.renamed name new) } else t
  | .dropColumn table name =>
    if t.name = table then { t with columns := t.columns.filter (·.name != name) } else t
  | _ => t

/-- What a statement makes of a table, which it may create. MySQL never drops one. -/
def after (stored : Option StoredTable) : Ddl → Option StoredTable
  | .createTable table definitions => some ⟨table, definitions.map .ofDefinition⟩
  | statement => stored.map (·.altered statement)

end StoredTable

/-- Whether a statement says anything of the columns of a table or of its name. -/
def Ddl.isAboutColumns : Ddl → Bool
  | .createTable _ _ | .renameTable _ _ | .addColumn _ _ | .modifyColumn _ _ | .renameColumn _ _ _
  | .dropColumn _ _ => true
  | _ => false

/-- The table with an id, as statements leave it in a database that had no tables. -/
def storedTable (id : String) (es : List Emission) : Option StoredTable :=
  (es.filter (·.table == some id)).foldl (fun stored e => StoredTable.after stored e.statement) none

section

variable {id : String} {es es' : List Emission} {ss : List Ddl} {stored : Option StoredTable}

theorem storedTable_append :
    storedTable id (es ++ es') = (es'.filter (·.table == some id)).foldl
      (fun stored e => StoredTable.after stored e.statement) (storedTable id es) := by
  rw [storedTable, List.filter_append, List.foldl_append, storedTable]

theorem storedTable_emitted :
    storedTable id (es ++ emitted id ss) = ss.foldl StoredTable.after (storedTable id es) := by
  have hall : (emitted id ss).filter (·.table == some id) = emitted id ss := by
    refine List.filter_eq_self.mpr fun e he => ?_
    obtain ⟨x, -, rfl⟩ := List.mem_map.mp he
    exact beq_self_eq_true _
  rw [storedTable_append, hall, emitted, List.foldl_map]

/-- Statements about other tables make no difference. -/
theorem storedTable_of_ne (h : ∀ e ∈ es', e.table ≠ some id) :
    storedTable id (es ++ es') = storedTable id es := by
  have hnone : es'.filter (·.table == some id) = [] :=
    List.filter_eq_nil_iff.mpr fun e he heq => h e he (beq_iff_eq.mp heq)
  rw [storedTable_append, hnone, List.foldl_nil]

theorem foldl_after_of_not (h : ∀ x ∈ ss, x.isAboutColumns = false) :
    ss.foldl StoredTable.after stored = stored := by
  induction ss with
  | nil => rfl
  | cons x ss ih =>
    rw [List.forall_mem_cons] at h
    have hx : StoredTable.after stored x = stored := by
      have := h.1
      cases x <;> first | exact Option.map_id_apply' | cases this
    rw [List.foldl_cons, hx, ih h.2]

end

/-! ## One table -/

/-- Whether no text designates two enums of a history. -/
def SchemaHistory.EnumsApart (h : SchemaHistory) : Prop :=
  ∀ e ∈ h.enums, ∀ e' ∈ h.enums, ∀ text,
    e.isDesignatedBy text = true → e'.isDesignatedBy text = true → e = e'

/-- Then an enum that some text finds is found by every text that designates it. -/
theorem SchemaHistory.EnumsApart.enum? {h : SchemaHistory} (ha : h.EnumsApart) {e : EnumHistory}
    {text : String} (he : ∃ reference, h.enum? reference = some e)
    (hd : e.isDesignatedBy text = true) : h.enum? text = some e := by
  obtain ⟨reference, he⟩ := he
  have he : e ∈ h.enums := List.mem_of_find?_eq_some he
  obtain ⟨first, hfirst⟩ : ∃ first, h.enum? text = some first :=
    Option.isSome_iff_exists.mp (List.find?_isSome.mpr ⟨e, he, hd⟩)
  have hdesignated : first.isDesignatedBy text = true :=
    List.find?_some (p := fun e : EnumHistory => e.isDesignatedBy text) hfirst
  rw [hfirst, ha first (List.mem_of_find?_eq_some hfirst) e he text hdesignated hd]

/-- Whether a database has a column of a table, with the values in it that its enum has after some
versions. -/
structure StoredColumn.Follows (h : SchemaHistory) (versions : List String) (k : LiveColumn)
    (c : StoredColumn) : Prop where
  name : c.name = k.name
  values : ∀ reference e, k.property.shape.type = .enum reference →
    h.enum? reference = some e →
    ∃ name, c.definition
      = Dialect.enumDefinition ⟨name, k.property.shape⟩ (e.through versions).values

/-- Whether a database has a table, with its columns in order. -/
structure StoredTable.Follows (h : SchemaHistory) (versions : List String) (t : LiveTable)
    (stored : StoredTable) : Prop where
  name : stored.name = t.name
  columns : List.Forall₂ (StoredColumn.Follows h versions) t.columns stored.columns

variable {h : SchemaHistory} {versions passed later : List String} {version name new : String}
  {t : LiveTable} {k before column : LiveColumn} {stored : StoredTable}

namespace StoredTable.Follows

theorem create {columns : List LiveColumn}
    (hcolumns : ∀ k ∈ columns, StoredColumn.Follows h versions k (.ofDefinition k.declaration)) :
    Follows h versions { t with columns, created := true }
      ⟨t.name, (columns.map (·.declaration)).map .ofDefinition⟩ := by
  refine ⟨rfl, ?_⟩
  rw [List.map_map, List.forall₂_map_right_iff]
  exact List.forall₂_same.mpr hcolumns

variable (hf : Follows h versions t stored)

include hf

theorem renameTable :
    Follows h versions { t with name := new } (stored.altered (.renameTable t.name new)) := by
  rw [altered, if_pos hf.name]
  exact ⟨rfl, hf.columns⟩

theorem addColumn
    (hcolumn : StoredColumn.Follows h versions column (.ofDefinition column.declaration)) :
    Follows h versions { t with columns := t.columns ++ [column] }
      (stored.altered (.addColumn t.name column.declaration)) := by
  rw [altered, if_pos hf.name]
  exact ⟨hf.name, List.rel_append hf.columns (.cons hcolumn .nil)⟩

/-- A column that is defined anew is the one that the definition names. -/
theorem modifyColumn (hname : column.name = name)
    (hcolumn : StoredColumn.Follows h versions column (.ofDefinition column.declaration)) :
    Follows h versions (t.setColumn name column)
      (stored.altered (.modifyColumn t.name column.declaration)) := by
  have hdefined : Dialect.definedName column.declaration = name := hcolumn.name.trans hname
  rw [altered, if_pos hf.name]
  refine ⟨hf.name, List.rel_map (fun k c hk => ?_) hf.columns⟩
  rw [StoredColumn.redefined, hk.name, hdefined]
  split
  · next heq => exact ⟨heq.trans hname.symm, hcolumn.values⟩
  · exact hk

/-- A column that is renamed keeps its definition. -/
theorem renameColumn (hn : t.columnNames.Nodup) (hb : t.column? name = some before)
    (hcolumn : column.property = { before.property with name := new }) :
    Follows h versions ((t.setColumn name column).followColumn name new)
      (stored.altered (.renameColumn t.name name new)) := by
  obtain ⟨hbm, hbn⟩ := LiveTable.column?_eq_some hb
  rw [altered, if_pos hf.name]
  refine ⟨hf.name, List.rel_map (fun k c hk => ?_) (forall₂_and_mem hf.columns)⟩
  obtain ⟨hkm, hkname, hkvalues⟩ := hk
  rw [StoredColumn.renamed, hkname, Constraint.renamed]
  split
  · next heq =>
    obtain rfl := LiveTable.eq_of_mem_columns hn hkm hbm (heq.trans hbn.symm)
    refine ⟨?_, ?_⟩
    · rw [LiveColumn.name, hcolumn]
    · rw [hcolumn]
      exact hkvalues
  · exact ⟨rfl, hkvalues⟩

theorem dropColumn :
    Follows h versions (t.dropColumn name) (stored.altered (.dropColumn t.name name)) := by
  rw [altered, if_pos hf.name]
  refine ⟨hf.name, List.rel_filter (fun k c hk => ?_) hf.columns⟩
  show (k.name != name) = true ↔ (c.name != name) = true
  rw [hk.name]

end StoredTable.Follows

/-! ## All tables -/

namespace LiveSchema

variable {c : Setting} {s s' s₁ : LiveSchema} {t' : LiveTable} {id : String} {e : TableEdit}
  {es : List Emission} {ss : List Ddl} {operations : List Operation}

/-- Whether a database that has followed some statements has every table of a schema. -/
def InSync (h : SchemaHistory) (versions : List String) (s : LiveSchema) (es : List Emission) :
    Prop :=
  ∀ t ∈ s.tables, t.created = true →
    ∃ stored, storedTable t.id es = some stored ∧ stored.Follows h versions t

/-- What is to be shown when a table takes the place of another. -/
theorem InSync.setTable (hsync : s.InSync h versions es) (hs : s₁.tables = s.tables)
    (hstored : ∃ stored, ss.foldl StoredTable.after (storedTable t'.id es) = some stored ∧
      stored.Follows h versions t') :
    (s₁.setTable t').InSync h versions (es ++ emitted t'.id ss) := by
  intro u hu hc
  rcases mem_setTable hu with rfl | ⟨hu, hne⟩
  · rw [storedTable_emitted]
    exact hstored
  · rw [storedTable_of_ne]
    · exact hsync u (hs ▸ hu) hc
    · rintro e he heq
      obtain ⟨x, -, rfl⟩ := List.mem_map.mp he
      exact hne (Option.some.inj heq).symm

/-- What is to be shown when a statement alters a table that is there. -/
theorem InSync.alter {x : Ddl} (hsync : s.InSync h versions es) (hs : s₁.tables = s.tables)
    (ht : t ∈ s.tables) (hc : t.created = true) (hid : t'.id = t.id)
    (hx : ∀ stored, StoredTable.after (some stored) x = some (stored.altered x))
    (hf : ∀ stored : StoredTable, stored.Follows h versions t →
      (stored.altered x).Follows h versions t') :
    (s₁.setTable t').InSync h versions (es ++ emitted t.id [x]) := by
  obtain ⟨stored, hstored, hfollows⟩ := hsync t ht hc
  rw [← hid] at hstored ⊢
  refine hsync.setTable hs ⟨_, ?_, hf stored hfollows⟩
  rw [List.foldl_cons, hstored, hx, List.foldl_nil]

/-- Keys and indices do not show in columns. -/
theorem InSync.keep (hsync : s.InSync h versions es) (hs : s₁.tables = s.tables)
    (ht : t ∈ s.tables) (hc : t.created = true) (hid : t'.id = t.id) (hname : t'.name = t.name)
    (hcolumns : t'.columns = t.columns) (hss : ∀ x ∈ ss, x.isAboutColumns = false) :
    (s₁.setTable t').InSync h versions (es ++ emitted t.id ss) := by
  obtain ⟨stored, hstored, hf⟩ := hsync t ht hc
  rw [← hid] at hstored ⊢
  refine hsync.setTable hs ⟨stored, ?_, hf.name.trans hname.symm, hcolumns ▸ hf.columns⟩
  rw [foldl_after_of_not hss, hstored]

/-- Statements that are about no table make no difference. -/
theorem InSync.append_of_none {es' : List Emission} (hnone : ∀ e ∈ es', e.table = none)
    (hsync : s.InSync h versions es) : s.InSync h versions (es ++ es') := by
  intro t ht hc
  rw [storedTable_of_ne fun e he heq => by rw [hnone e he] at heq; cases heq]
  exact hsync t ht hc

theorem InSync.followReferences (hsync : s.InSync h versions es) :
    (s.followReferences id name new).InSync h versions es := by
  intro u hu hc
  obtain ⟨v, hv, rfl⟩ := List.mem_map.mp hu
  obtain ⟨stored, hstored, hf⟩ := hsync v hv hc
  exact ⟨stored, hstored, hf.name, hf.columns⟩

theorem InSync.takeDue (hsync : s.InSync h versions es) :
    (s.takeDue version).1.InSync h versions es := by
  intro u hu hc
  rw [takeDue_tables] at hu
  obtain ⟨v, hv, rfl⟩ := List.mem_map.mp hu
  obtain ⟨stored, hstored, hf⟩ := hsync v hv hc
  exact ⟨stored, hstored, hf.name, hf.columns⟩

/-- A column that has just been declared lists what its enum is. -/
theorem follows_redeclare {p : Property} (ha : h.EnumsApart)
    (hsplit : h.timeline = passed ++ version :: later)
    (hinuse : s.enums.timeline = h.timeline ∧
      ∀ e ∈ s.enums.enums, ∃ reference, h.enum? reference = some e)
    (hd : s.redeclare ⟨.mysql, h⟩ version p = .ok k) :
    StoredColumn.Follows h (passed ++ [version]) k (.ofDefinition k.declaration) := by
  obtain ⟨rfl, hdeclaration⟩ := redeclare_ok hd
  refine ⟨Dialect.definedName_declaration hdeclaration, fun reference e htype he => ?_⟩
  obtain ⟨state, hstate, htext⟩ := Dialect.declaration_enum htype hdeclaration
  obtain ⟨found, hfound, hsnapshot⟩ := EnumRegistry.scopeAt_ok.mp hstate
  -- the enum in use is the one that the history finds
  obtain ⟨hin, hdesignated⟩ := EnumRegistry.enum?_eq_some hfound
  obtain rfl := Option.some.inj (he.symm.trans (ha.enum? (hinuse.2 found hin) hdesignated))
  rw [hinuse.1, hsplit, EnumHistory.snapshotAt?_eq_visible (Changelog.notMem_passed hsplit)]
    at hsnapshot
  obtain ⟨-, rfl⟩ := EnumHistory.visible_eq_some.mp hsnapshot
  exact ⟨k.name, htext⟩

/-- Whatever an edit does, the database follows. -/
theorem Effect.inSync (ha : h.EnumsApart) (hsplit : h.timeline = passed ++ version :: later)
    (hsound : s.Sound) (hsupplied : Supplied h (passed ++ [version]) s)
    (hsync : s.InSync h (passed ++ [version]) es) (ht : s.table? id = some t)
    (hc : t.created = !e.isCreation) (he : Effect ⟨.mysql, h⟩ version s t e s' operations) :
    s'.InSync h (passed ++ [version]) (es ++ emitted id (operations.flatMap (·.statements))) := by
  obtain ⟨hm, rfl⟩ := table?_eq_some ht
  have hinuse : s.enums.timeline = h.timeline ∧
      ∀ e ∈ s.enums.enums, ∃ reference, h.enum? reference = some e :=
    ⟨hsupplied.timeline, hsupplied.resolved⟩
  have hregister := resolved_register (c := ⟨.mysql, h⟩)
  cases he with
  | @create step _ _ he =>
    obtain ⟨-, s₁, columns, hd, rfl, rfl⟩ := createTable_ok.mp he
    refine hsync.setTable (declareAll_frame hd).1 ⟨_, rfl, .create fun k hk => ?_⟩
    rcases mem_declareAll hd hk with hnil | ⟨front, name, shape, back, s₂, before, s₃, -, hfront,
      henums, hdeclared, -⟩
    · cases hnil
    · exact follows_redeclare ha hsplit
        (requireEnum_registry hregister (declareAll_registry hregister hinuse hfront) henums)
        hdeclared
  | @rename name =>
    unfold renameTable
    split
    · exact (List.append_nil es).symm ▸ hsync
    · next new =>
      split
      · exact (List.append_nil es).symm ▸ hsync
      · exact hsync.alter rfl hm hc rfl (fun _ => rfl) fun _ hf => hf.renameTable
  | addProperty he =>
    obtain ⟨-, s₁, column, hd, rfl, rfl⟩ := addProperty_ok.mp he
    obtain ⟨henums, hdeclared⟩ := declare_ok.mp hd
    have hcolumn := follows_redeclare ha hsplit (requireEnum_registry hregister hinuse henums)
      hdeclared
    exact hsync.alter (declare_frame hd).1 hm hc rfl (fun _ => rfl) fun _ hf =>
      hf.addColumn hcolumn
  | @renameProperty name new _ _ he =>
    obtain ⟨before, column, hb, -, hd, rfl, rfl⟩ := renameProperty_ok.mp he
    refine InSync.followReferences ?_
    refine hsync.alter rfl hm hc rfl (fun _ => rfl) fun _ hf => ?_
    exact hf.renameColumn (hsound.columns t hm) hb (redeclare_ok hd).1
  | @retypeProperty name shape _ _ he =>
    obtain ⟨before, after, s₁, statements, -, -, -, hd, hss, rfl, rfl⟩ := retypeProperty_ok.mp he
    obtain rfl := Except.ok.inj hss
    obtain ⟨henums, hdeclared⟩ := declare_ok.mp hd
    have hcolumn := follows_redeclare ha hsplit (requireEnum_registry hregister hinuse henums)
      hdeclared
    exact hsync.alter (declare_frame hd).1 hm hc rfl (fun _ => rfl) fun _ hf =>
      hf.modifyColumn (declare_name hd) hcolumn
  | removeProperty he =>
    obtain ⟨-, rfl, rfl⟩ := removeProperty_ok.mp he
    exact hsync.alter rfl hm hc rfl (fun _ => rfl) fun _ hf => hf.dropColumn
  | addPrimaryKey he =>
    obtain ⟨-, -, -, s₁, hr, rfl, rfl⟩ := addPrimaryKey_ok.mp he
    obtain ⟨-, rfl⟩ := reserve_ok.mp hr
    refine hsync.keep rfl hm hc rfl rfl rfl ?_
    unfold Dialect.primaryKeyCreation
    split <;> simp [Ddl.isAboutColumns]
  | addForeignKey he =>
    obtain ⟨own, target, s₁, -, -, -, -, -, hr, rfl, rfl⟩ := addForeignKey_ok.mp he
    obtain ⟨-, rfl⟩ := reserve_ok.mp hr
    refine hsync.keep rfl hm hc rfl rfl rfl ?_
    simp [Dialect.foreignKeyCreation, Ddl.isAboutColumns]
  | removePrimaryKey he =>
    obtain ⟨key, -, -, rfl, rfl⟩ := removePrimaryKey_ok.mp he
    refine hsync.keep rfl hm hc rfl rfl rfl ?_
    unfold Dialect.primaryKeyRemoval
    split <;> simp [Ddl.isAboutColumns]
  | removeForeignKey he =>
    obtain ⟨-, rfl, rfl⟩ := removeForeignKey_ok.mp he
    refine hsync.keep rfl hm hc rfl rfl rfl ?_
    simp [Dialect.foreignKeyRemoval, Ddl.isAboutColumns]
  | addIndex he =>
    obtain ⟨-, -, -, s₁, hr, rfl, rfl⟩ := addIndex_ok.mp he
    obtain ⟨-, rfl⟩ := reserve_ok.mp hr
    refine hsync.keep rfl hm hc rfl rfl rfl ?_
    simp [Dialect.indexCreation, Ddl.isAboutColumns]
  | removeIndex he =>
    obtain ⟨-, rfl, rfl⟩ := removeIndex_ok.mp he
    refine hsync.keep rfl hm hc rfl rfl rfl ?_
    simp [Dialect.indexRemoval, Ddl.isAboutColumns]

theorem InSync.edit {e : String × TableEdit} (ha : h.EnumsApart)
    (hsplit : h.timeline = passed ++ version :: later) (hsound : s.Sound)
    (hsupplied : Supplied h (passed ++ [version]) s) (hsync : s.InSync h (passed ++ [version]) es)
    (he : s.edit ⟨.mysql, h⟩ version e = .ok (s', operations)) :
    s'.InSync h (passed ++ [version]) (es ++ emitted e.1 (operations.flatMap (·.statements))) := by
  rcases edit_ok he with ⟨rfl, rfl, -⟩ | ⟨t, ht, hc, heffect⟩
  · exact (List.append_nil es).symm ▸ hsync
  · exact heffect.inSync ha hsplit hsound hsupplied hsync ht hc

end LiveSchema

end SchemaEvolution
