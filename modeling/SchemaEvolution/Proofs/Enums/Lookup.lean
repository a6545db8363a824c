import SchemaEvolution.Proofs.Extension.Unwritten
import SchemaEvolution.Proofs.FinalTables
import SchemaEvolution.Proofs.Walk.Changes
import SchemaEvolution.Proofs.Walk.Enums

/-!
# Looking enums up

A column names its enum by a reference, and two look for it: the history, when the enum comes into
use, and the registry of the enums in use, whenever the column is declared. The history goes by the
order of the document, the registry by the order in which enums came into use, and it takes no
second one of the same name. Whatever the registry finds is an enum of the history that the
reference designates, and it has values. It is the one that the history finds, if the reference does
not designate another that was in use before.
-/

namespace SchemaEvolution

/-! ## Snapshots -/

namespace EnumHistory

variable {e : EnumHistory} {versions later : List String} {version : String}

/-- What an enum is at a version of a timeline is what it has become until then. -/
theorem snapshotAt?_eq_visible (h : version ∉ versions) :
    e.snapshotAt? (versions ++ version :: later) version
      = visible (e.through (versions ++ [version])) := by
  have hlen : versions.length = (e.snapshotsFrom (.empty e) versions).length :=
    length_snapshotsFrom.symm
  rw [snapshotAt?_eq_zip, snapshots, snapshotsFrom_append, List.zip_append hlen,
    List.find?_append, List.find?_eq_none.mpr, snapshotsFrom_cons, through_concat]
  · simp [through]
  · rintro ⟨v, o⟩ hin he
    exact h (beq_iff_eq.mp he ▸ (List.of_mem_zip hin).1)

/-- An enum with values has values ever after. -/
theorem through_append_values (h : (e.through versions).values ≠ []) :
    (e.through (versions ++ later)).values ≠ [] :=
  fun hnil => h <| through_values_prefix hnil

end EnumHistory

namespace EnumRegistry

variable {g g' : EnumRegistry} {e : EnumHistory} {text version : String} {s : Enumeration}

theorem scopeAt_ok : g.scopeAt version text = .ok s ↔
    ∃ e, g.enum? text = some e ∧ e.snapshotAt? g.timeline version = some s := by
  unfold scopeAt
  cases g.enum? text with
  | none => simp
  | some e =>
    simp only [Option.some.injEq, exists_eq_left']
    cases e.snapshotAt? g.timeline version with
    | none => simp
    | some s' => simp

theorem enum?_eq_some (h : g.enum? text = some e) :
    e ∈ g.enums ∧ e.isDesignatedBy text = true :=
  ⟨List.mem_of_find?_eq_some h,
    List.find?_some (p := fun e : EnumHistory => e.isDesignatedBy text) h⟩

/-- An enum that is found is found still when others have come into use. -/
theorem Grows.enum? (h : g.Grows g') (he : g.enum? text = some e) : g'.enum? text = some e := by
  obtain ⟨further, hfurther⟩ := h.enums
  rw [EnumRegistry.enum?, ← hfurther, List.find?_append, ← EnumRegistry.enum?, he]
  rfl

end EnumRegistry

namespace LiveSchema

/-! ## Declarations -/

/-- A column is declared for a property in the course of an edit, while some enums are in use. -/
inductive Declares (c : Setting) (version : String) (s : LiveSchema) (t : LiveTable) :
    TableEdit → EnumRegistry → Property → Prop
  | create {step front name shape back s₁ columns s₂}
      (hstep : step.properties = front ++ .add name shape :: back)
      (hfront : declareAll c version t.name s [] front = .ok (s₁, columns))
      (henums : s₁.requireEnum c version shape.type = .ok s₂) :
      Declares c version s t (.create step) s₂.enums ⟨name, shape⟩
  | add {name shape s₁} (henums : s.requireEnum c version shape.type = .ok s₁) :
      Declares c version s t (.property (.add name shape)) s₁.enums ⟨name, shape⟩
  | retype {name shape s₁} (henums : s.requireEnum c version shape.type = .ok s₁) :
      Declares c version s t (.property (.retype name shape)) s₁.enums ⟨name, shape⟩
  | rename {name new column} (hcolumn : t.column? name = some column) :
      Declares c version s t (.property (.rename name new)) s.enums
        { column.property with name := new }

variable {c : Setting} {version : String} {s s' : LiveSchema} {t : LiveTable} {e : TableEdit}
  {enums : EnumRegistry} {p : Property} {operations : List Operation}

/-- Every column of a new table is declared after those before it. -/
theorem mem_declareAll {table : String} {start columns : List LiveColumn}
    {edits : List PropertyEdit}
    (h : declareAll c version table s start edits = .ok (s', columns)) {k : LiveColumn}
    (hk : k ∈ columns) :
    k ∈ start ∨ ∃ front name shape back s₁ before s₂, edits = front ++ .add name shape :: back ∧
      declareAll c version table s start front = .ok (s₁, before) ∧
      s₁.requireEnum c version shape.type = .ok s₂ ∧
      s₂.redeclare c version ⟨name, shape⟩ = .ok k ∧ s₂.enums.Grows s'.enums := by
  induction edits generalizing s start with
  | nil =>
    obtain ⟨rfl, rfl⟩ := declareAll_nil_ok.mp h
    exact Or.inl hk
  | cons edit edits ih =>
    obtain ⟨name, shape, s₁, column, rfl, hfree, hd, hrest⟩ := declareAll_cons_ok.mp h
    obtain ⟨henums, hdeclared⟩ := declare_ok.mp hd
    rcases ih hrest with hin | ⟨front, name', shape', back, s₂, before, s₃, rfl, hfront, hrest⟩
    · rcases List.mem_append.mp hin with hin | hin
      · exact Or.inl hin
      · obtain rfl := List.mem_singleton.mp hin
        exact Or.inr ⟨[], name, shape, edits, s, start, s₁, rfl, rfl, henums, hdeclared,
          declareAll_grows hrest⟩
    · refine Or.inr ⟨.add name shape :: front, name', shape', back, s₂, before, s₃, rfl, ?_, hrest⟩
      exact declareAll_cons_ok.mpr ⟨name, shape, s₁, column, rfl, hfree, hd, hfront⟩

/-- What is to be shown when a table takes the place of another: where its columns come from. -/
theorem columns_setTable {fresh : LiveColumn → Prop} {t' : LiveTable} (hs : s'.tables = s.tables)
    (hcolumns : ∀ k ∈ t'.columns, (∃ u ∈ s.tables, k ∈ u.columns) ∨ fresh k) :
    ∀ u ∈ (s'.setTable t').tables, ∀ k ∈ u.columns, (∃ u ∈ s.tables, k ∈ u.columns) ∨ fresh k := by
  intro u hu k hk
  rcases mem_setTable hu with rfl | ⟨hu, -⟩
  · exact hcolumns k hk
  · exact Or.inl ⟨u, hs ▸ hu, hk⟩

/-- Every column that an edit leaves in a table was in it before, or the edit declares it as it
stands there. -/
theorem Effect.declares (he : Effect c version s t e s' operations) (hm : t ∈ s.tables) :
    ∀ t' ∈ s'.tables, ∀ k ∈ t'.columns, (∃ u ∈ s.tables, k ∈ u.columns) ∨
      ∃ enums, Declares c version s t e enums k.property ∧
        c.dialect.declaration k.property (enums.scopeAt version) = .ok k.declaration ∧
        enums.Grows s'.enums := by
  -- a column of the table, and so of some table
  have hold : ∀ k ∈ t.columns, ∃ u ∈ s.tables, k ∈ u.columns := fun k hk => ⟨t, hm, hk⟩
  cases he with
  | create h =>
    obtain ⟨-, s₁, columns, hd, rfl, -⟩ := createTable_ok.mp h
    refine columns_setTable (declareAll_frame hd).1 fun k hk => Or.inr ?_
    rcases mem_declareAll hd hk with hnil | ⟨front, name, shape, back, s₂, before, s₃, hsplit,
      hfront, henums, hdeclared, hgrows⟩
    · cases hnil
    · obtain ⟨hp, hdeclaration⟩ := redeclare_ok hdeclared
      exact ⟨s₃.enums, hp ▸ .create hsplit hfront henums, hp ▸ hdeclaration, hgrows⟩
  | rename =>
    unfold renameTable
    split
    · exact fun u hu k hk => Or.inl ⟨u, hu, hk⟩
    · split
      · exact fun u hu k hk => Or.inl ⟨u, hu, hk⟩
      · exact columns_setTable rfl fun k hk => Or.inl (hold k hk)
  | addProperty h =>
    obtain ⟨-, s₁, column, hd, rfl, -⟩ := addProperty_ok.mp h
    refine columns_setTable (declare_frame hd).1 fun k hk => ?_
    rcases List.mem_append.mp hk with hk | hk
    · exact Or.inl (hold k hk)
    · obtain rfl := List.mem_singleton.mp hk
      obtain ⟨henums, hdeclared⟩ := declare_ok.mp hd
      obtain ⟨hp, hdeclaration⟩ := redeclare_ok hdeclared
      exact Or.inr ⟨s₁.enums, hp ▸ .add henums, hp ▸ hdeclaration, .refl _⟩
  | @renameProperty name new _ _ h =>
    obtain ⟨before, column, hb, -, hd, rfl, -⟩ := renameProperty_ok.mp h
    obtain ⟨hp, hdeclaration⟩ := redeclare_ok hd
    have hset : ∀ u ∈ (s.setTable ((t.setColumn name column).followColumn name new)).tables,
        ∀ k ∈ u.columns, (∃ u ∈ s.tables, k ∈ u.columns) ∨
          ∃ enums, Declares c version s t (.property (.rename name new)) enums k.property ∧
            c.dialect.declaration k.property (enums.scopeAt version) = .ok k.declaration ∧
            enums.Grows s.enums := by
      refine columns_setTable rfl fun k hk => ?_
      rcases LiveTable.mem_setColumn hk with rfl | ⟨hk, -⟩
      · exact Or.inr ⟨s.enums, hp ▸ .rename hb, hp ▸ hdeclaration, .refl _⟩
      · exact Or.inl (hold k hk)
    intro t' ht' k hk
    obtain ⟨u, hu, rfl⟩ := List.mem_map.mp ht'
    exact hset u hu k hk
  | retypeProperty h =>
    obtain ⟨before, after, s₁, statements, -, -, -, hd, -, rfl, -⟩ := retypeProperty_ok.mp h
    refine columns_setTable (declare_frame hd).1 fun k hk => ?_
    rcases LiveTable.mem_setColumn hk with rfl | ⟨hk, -⟩
    · obtain ⟨henums, hdeclared⟩ := declare_ok.mp hd
      obtain ⟨hp, hdeclaration⟩ := redeclare_ok hdeclared
      exact Or.inr ⟨s₁.enums, hp ▸ .retype henums, hp ▸ hdeclaration, .refl _⟩
    · exact Or.inl (hold k hk)
  | removeProperty h =>
    obtain ⟨-, rfl, -⟩ := removeProperty_ok.mp h
    exact columns_setTable rfl fun k hk => Or.inl (hold k (List.mem_filter.mp hk).1)
  | addPrimaryKey h =>
    obtain ⟨-, -, -, s₁, hr, rfl, -⟩ := addPrimaryKey_ok.mp h
    obtain ⟨-, rfl⟩ := reserve_ok.mp hr
    exact columns_setTable rfl fun k hk => Or.inl (hold k hk)
  | addForeignKey h =>
    obtain ⟨own, target, s₁, -, -, -, -, -, hr, rfl, -⟩ := addForeignKey_ok.mp h
    obtain ⟨-, rfl⟩ := reserve_ok.mp hr
    exact columns_setTable rfl fun k hk => Or.inl (hold k hk)
  | removePrimaryKey h =>
    obtain ⟨key, -, -, rfl, -⟩ := removePrimaryKey_ok.mp h
    exact columns_setTable rfl fun k hk => Or.inl (hold k hk)
  | removeForeignKey h =>
    obtain ⟨-, rfl, -⟩ := removeForeignKey_ok.mp h
    exact columns_setTable rfl fun k hk => Or.inl (hold k hk)
  | addIndex h =>
    obtain ⟨-, -, -, s₁, hr, rfl, -⟩ := addIndex_ok.mp h
    obtain ⟨-, rfl⟩ := reserve_ok.mp hr
    exact columns_setTable rfl fun k hk => Or.inl (hold k hk)
  | removeIndex h =>
    obtain ⟨-, rfl, -⟩ := removeIndex_ok.mp h
    exact columns_setTable rfl fun k hk => Or.inl (hold k hk)

/-! ## What is found -/

/-- An enum that has just been taken into use is found, and has values. -/
theorem requireEnum_found {type : ColumnType} {reference : String}
    (h : s.requireEnum c version type = .ok s')
    (hr : type.innermost.enumReference? = some reference) :
    ∃ found state, s'.enums.enum? reference = some found ∧
      found.snapshotAt? s'.enums.timeline version = some state := by
  unfold requireEnum at h
  rw [hr] at h
  simp only at h
  split at h
  · cases h
  · obtain ⟨state, hstate, rfl⟩ := Except.map_ok.mp h
    obtain ⟨found, hfound, hsnapshot⟩ := EnumRegistry.scopeAt_ok.mp hstate
    exact ⟨found, state, hfound, hsnapshot⟩

/-- What every registration keeps holds of the enums in use whenever a column is declared. -/
theorem Declares.registry {P : EnumRegistry → Prop}
    (hregister : ∀ g reference e, c.history.enum? reference = some e → P g → P (g.register e))
    (hP : P s.enums) (hd : Declares c version s t e enums p) : P enums := by
  cases hd with
  | create hstep hfront henums =>
    exact requireEnum_registry hregister (declareAll_registry hregister hP hfront) henums
  | add henums => exact requireEnum_registry hregister hP henums
  | retype henums => exact requireEnum_registry hregister hP henums
  | rename => exact hP

/-- What holds of the enums in use after some versions: each is one that the history finds by some
reference, and the enum of every column is found, and has values. -/
structure Supplied (h : SchemaHistory) (versions : List String) (s : LiveSchema) : Prop where
  timeline : s.enums.timeline = h.timeline
  resolved : ∀ e ∈ s.enums.enums, ∃ reference, h.enum? reference = some e
  columns : ∀ t ∈ s.tables, ∀ k ∈ t.columns, ∀ reference,
    k.property.shape.type.innermost.enumReference? = some reference →
    ∃ e, s.enums.enum? reference = some e ∧ (e.through versions).values ≠ []

variable {passed later versions : List String} {reference : String}

/-- The enums in use are those that the history finds. -/
theorem resolved_register (g : EnumRegistry) (reference : String) (e : EnumHistory)
    (he : c.history.enum? reference = some e)
    (h : g.timeline = c.history.timeline ∧
      ∀ e ∈ g.enums, ∃ reference, c.history.enum? reference = some e) :
    (g.register e).timeline = c.history.timeline ∧
      ∀ e' ∈ (g.register e).enums, ∃ reference, c.history.enum? reference = some e' := by
  unfold EnumRegistry.register
  split
  · exact h
  · refine ⟨h.1, fun e' he' => ?_⟩
    rcases List.mem_append.mp he' with he' | he'
    · exact h.2 e' he'
    · obtain rfl := List.mem_singleton.mp he'
      exact ⟨reference, he⟩

/-- Whenever a column is declared, the enum of its type is found, and has values. -/
theorem Supplied.found (h : Supplied c.history (passed ++ [version]) s) (hm : t ∈ s.tables)
    (hsplit : c.history.timeline = passed ++ version :: later)
    (hd : Declares c version s t e enums p)
    (hr : p.shape.type.innermost.enumReference? = some reference) :
    ∃ found, enums.enum? reference = some found ∧
      (found.through (passed ++ [version])).values ≠ [] := by
  have htimeline : enums.timeline = c.history.timeline :=
    (hd.registry resolved_register ⟨h.timeline, h.resolved⟩).1
  -- where the enum has just been taken into use, the snapshot is that of this version
  have hrequired : ∀ s₀ s₁ : LiveSchema, s₀.requireEnum c version p.shape.type = .ok s₁ →
      s₁.enums = enums → ∃ found, enums.enum? reference = some found ∧
        (found.through (passed ++ [version])).values ≠ [] := by
    rintro s₀ s₁ henums rfl
    obtain ⟨found, state, hfound, hstate⟩ := requireEnum_found henums hr
    rw [htimeline, hsplit, EnumHistory.snapshotAt?_eq_visible (Changelog.notMem_passed hsplit)]
      at hstate
    exact ⟨found, hfound, (EnumHistory.visible_eq_some.mp hstate).1⟩
  cases hd with
  | create hstep hfront henums => exact hrequired _ _ henums rfl
  | add henums => exact hrequired _ _ henums rfl
  | retype henums => exact hrequired _ _ henums rfl
  | @rename name new column hcolumn =>
    exact h.columns t hm column (LiveTable.column?_eq_some hcolumn).1 reference hr

/-! ## All along a walk -/

theorem Supplied.mono (h : Supplied c.history versions s) :
    Supplied c.history (versions ++ later) s := by
  refine ⟨h.timeline, h.resolved, fun t ht k hk reference hr => ?_⟩
  obtain ⟨e, he, hvalues⟩ := h.columns t ht k hk reference hr
  exact ⟨e, he, EnumHistory.through_append_values hvalues⟩

theorem Supplied.takeDue (h : Supplied c.history versions s) :
    Supplied c.history versions (s.takeDue version).1 := by
  refine ⟨h.timeline, h.resolved, fun u hu => ?_⟩
  rw [takeDue_tables] at hu
  obtain ⟨t, ht, rfl⟩ := List.mem_map.mp hu
  exact h.columns t ht

theorem Supplied.edit {e : String × TableEdit}
    (h : Supplied c.history (passed ++ [version]) s)
    (hsplit : c.history.timeline = passed ++ version :: later)
    (he : s.edit c version e = .ok (s', operations)) :
    Supplied c.history (passed ++ [version]) s' := by
  obtain ⟨htimeline, hresolved⟩ := edit_registry resolved_register ⟨h.timeline, h.resolved⟩ he
  have hgrows := edit_grows he
  refine ⟨htimeline, hresolved, fun t' ht' k hk reference hr => ?_⟩
  have hold : ∀ u ∈ s.tables, k ∈ u.columns →
      ∃ e, s'.enums.enum? reference = some e ∧ (e.through (passed ++ [version])).values ≠ [] := by
    intro u hu hku
    obtain ⟨found, hfound, hvalues⟩ := h.columns u hu k hku reference hr
    exact ⟨found, hgrows.enum? hfound, hvalues⟩
  rcases edit_ok he with ⟨rfl, -⟩ | ⟨t, ht, -, heffect⟩
  · exact hold t' ht' hk
  · have hm := (table?_eq_some ht).1
    rcases heffect.declares hm t' ht' k hk with ⟨u, hu, hku⟩ | ⟨enums, hd, -, hg⟩
    · exact hold u hu hku
    · obtain ⟨found, hfound, hvalues⟩ := h.found hm hsplit hd hr
      exact ⟨found, hg.enum? hfound, hvalues⟩

/-- At a version, the enums of all columns are supplied before each edit, and after the last. -/
theorem Supplied.advance (h : Supplied c.history passed s) (hs : s.Sound)
    (hsplit : c.history.timeline = passed ++ version :: later)
    (he : s.advance c version = .ok (s', operations)) :
    Supplied c.history (passed ++ [version]) s' ∧
      ∀ x ∈ changesOf c version (s.takeDue version).1 (script (s.takeDue version).2),
        Supplied c.history (passed ++ [version]) x.before := by
  have hstart : Supplied c.history (passed ++ [version]) (s.takeDue version).1 ∧
      ∀ x ∈ ([] : List Change), Supplied c.history (passed ++ [version]) x.before :=
    ⟨h.takeDue.mono, by simp⟩
  have hall := changesOf_invariant (P := fun s xs => Supplied c.history (passed ++ [version]) s ∧
      ∀ x ∈ xs, Supplied c.history (passed ++ [version]) x.before)
    (fun s xs e s' operations ⟨h, hxs⟩ he => ⟨h.edit hsplit he, ?_⟩) hstart (advance_script hs he)
  · rw [List.nil_append] at hall
    exact hall
  · rw [List.forall_mem_append, List.forall_mem_singleton]
    exact ⟨hxs, h⟩

theorem Supplied.walk {w : Walk} (h : Supplied c.history passed s) (hs : s.Sound)
    (hsplit : c.history.timeline = passed ++ versions ++ later)
    (hw : s.walk c versions = .ok w) : Supplied c.history (passed ++ versions) w.final := by
  induction versions generalizing s w passed with
  | nil =>
    obtain rfl := Except.ok.inj hw
    rw [List.append_nil]
    exact h
  | cons version versions ih =>
    obtain ⟨s₁, first, w₁, h₁, h₂, rfl⟩ := walk_cons_ok.mp hw
    obtain ⟨hhere, hthere⟩ := split_cons hsplit
    rw [List.append_cons]
    exact ih (w := w₁) (h.advance hs hhere h₁).1 (hs.advance h₁) hthere h₂

theorem supplied_start (hs : start c.history = .ok s) : Supplied c.history [] s := by
  refine ⟨?_, ?_, fun u hu k hk => ?_⟩
  · obtain ⟨tables, -, rfl⟩ := start_ok hs
    rfl
  · obtain ⟨tables, -, rfl⟩ := start_ok hs
    exact fun e he => absurd he List.not_mem_nil
  · obtain ⟨t, -, name, hu⟩ := tables_start hs hu
    rw [hu] at hk
    cases hk

end LiveSchema

namespace Changelog

open LiveSchema

variable {d : Dialect} {h : SchemaHistory} {log : Changelog} {passed later : List String}
  {version : String}

/-- Whenever a column is declared, at any version, the reference in its type is answered with what
an enum of the history is at that version: the first of those in use that the reference designates.
Either that enum is also the first one in the history that the reference designates, or it is the
first one in the history that some other reference designates. -/
theorem lookups_answer (hlog : ofHistory d h = .ok log)
    (hsplit : h.timeline = passed ++ version :: later) :
    ∃ start w s' operations, LiveSchema.start h = .ok start ∧
      start.walk ⟨d, h⟩ passed = .ok w ∧ w.final.advance ⟨d, h⟩ version = .ok (s', operations) ∧
      ∀ x ∈ changesOf ⟨d, h⟩ version (w.final.takeDue version).1
          (script (w.final.takeDue version).2),
        ∀ t, x.before.table? x.id = some t → ∀ enums p,
          Declares ⟨d, h⟩ version x.before t x.edit enums p →
          ∀ reference, p.shape.type.innermost.enumReference? = some reference →
            ∃ e ∈ h.enums, ∃ state, enums.enum? reference = some e ∧
              e.isDesignatedBy reference = true ∧
              e.snapshotAt? h.timeline version = some state ∧
              enums.scopeAt version reference = .ok state ∧
              ∃ first, h.enum? reference = some first ∧
                (e = first ∨ ∃ other, other ≠ reference ∧ h.enum? other = some e) := by
  obtain ⟨start, p, hs, hw, -⟩ := ofHistory_ok hlog
  obtain ⟨w, rest, hpassed, hrest, -⟩ := walk_split (hsplit ▸ hw)
  obtain ⟨s', operations, w', hadvance, -, -⟩ := walk_cons_ok.mp hrest
  have hsound := (sound_start hs).walk hpassed
  have hsupplied : Supplied h passed w.final :=
    (supplied_start (c := ⟨d, h⟩) hs).walk (sound_start hs) hsplit hpassed
  refine ⟨start, w, s', operations, hs, hpassed, hadvance, ?_⟩
  intro x hx t ht enums p hd reference hr
  have hbefore := (hsupplied.advance (c := ⟨d, h⟩) hsound hsplit hadvance).2 x hx
  obtain ⟨htimeline, hresolved⟩ := hd.registry resolved_register
    ⟨hbefore.timeline, hbefore.resolved⟩
  obtain ⟨e, he, hvalues⟩ := hbefore.found (table?_eq_some ht).1 hsplit hd hr
  obtain ⟨hin, hdesignated⟩ := EnumRegistry.enum?_eq_some he
  obtain ⟨other, hother⟩ := hresolved e hin
  have hhistory : e ∈ h.enums := List.mem_of_find?_eq_some hother
  have hstate : e.snapshotAt? h.timeline version = some (e.through (passed ++ [version])) := by
    rw [hsplit, EnumHistory.snapshotAt?_eq_visible (notMem_passed hsplit)]
    exact EnumHistory.visible_eq_some.mpr ⟨hvalues, rfl⟩
  obtain ⟨first, hfirst⟩ : ∃ first, h.enum? reference = some first :=
    Option.isSome_iff_exists.mp (List.find?_isSome.mpr ⟨e, hhistory, hdesignated⟩)
  refine ⟨e, hhistory, _, he, hdesignated, hstate,
    EnumRegistry.scopeAt_ok.mpr ⟨e, he, htimeline ▸ hstate⟩, first, hfirst, ?_⟩
  by_cases hsame : other = reference
  · exact Or.inl (Option.some.inj (hother.symm.trans (hsame ▸ hfirst)))
  · exact Or.inr ⟨other, hsame, hother⟩

/-- A column of an enum type that is renamed when the enum has grown. -/
def renamedMood : SchemaHistory where
  tables := [⟨"notes", [⟨"1", some "notes", [.add "mood" { type := .enum "app.Mood" }], [], []⟩,
    ⟨"2", none, [.rename "mood" "tone"], [], []⟩]⟩]
  enums := [⟨"mood", "app.Mood", [⟨"1", ["calm"]⟩, ⟨"2", ["bright"]⟩]⟩]

theorem lookups_answer_renamedMood :
    ∃ (x : Change) (t : LiveTable) (enums : EnumRegistry) (p : Property),
      x.edit = .property (.rename "mood" "tone") ∧
      Declares ⟨.mysql, renamedMood⟩ "2" x.before t x.edit enums p ∧
      ∃ e ∈ renamedMood.enums, ∃ state, e.snapshotAt? ["1", "2"] "2" = some state ∧
        enums.scopeAt "2" "app.Mood" = .ok state := by
  obtain ⟨log, hlog⟩ := Except.exists_of_isOk
    (show (ofHistory .mysql renamedMood).isOk = true by decide)
  have hsplit : renamedMood.timeline = ["1"] ++ "2" :: [] := by decide
  obtain ⟨start, w, s', operations, hs, hw, -, hanswers⟩ := lookups_answer hlog hsplit
  obtain ⟨x, t, column, hx, hedit, ht, hcolumn, htype⟩ :
      ∃ x t column, x ∈ changesOf ⟨.mysql, renamedMood⟩ "2" (w.final.takeDue "2").1
          (script (w.final.takeDue "2").2) ∧
        x.edit = .property (.rename "mood" "tone") ∧ x.before.table? x.id = some t ∧
        t.column? "mood" = some column ∧ column.property.shape.type = .enum "app.Mood" := by
    obtain rfl := Except.ok.inj (hs.symm.trans rfl)
    obtain rfl := Except.ok.inj (hw.symm.trans rfl)
    exact ⟨_, _, _, List.mem_of_getElem? (i := 1) rfl, rfl, rfl, rfl, rfl⟩
  have hd : Declares ⟨.mysql, renamedMood⟩ "2" x.before t x.edit x.before.enums
      { column.property with name := "tone" } := by
    rw [hedit]
    exact .rename hcolumn
  obtain ⟨e, he, state, -, -, hstate, hanswer, -⟩ := hanswers x hx t ht _ _ hd "app.Mood" (by
    rw [htype]
    rfl)
  exact ⟨x, t, _, _, hedit, hd, e, he, state, hstate, hanswer⟩

/-- Two enums, where one has the other's name for its reference. -/
def homonyms : SchemaHistory where
  tables := [⟨"notes", [⟨"1", some "notes",
    [.add "tone" { type := .enum "tone" }, .add "mood" { type := .enum "mood" }], [], []⟩]⟩]
  enums := [⟨"mood", "app.Mood", [⟨"1", ["calm"]⟩]⟩, ⟨"tone", "mood", [⟨"1", ["dry"]⟩]⟩]

/-- When the second column is declared, the enum that came into use first answers to a reference
that the history takes for the other. -/
theorem lookup_answers_with_another :
    (ofHistory .mysql homonyms).isOk = true ∧
      ∃ start s' operations, LiveSchema.start homonyms = .ok start ∧
        start.advance ⟨.mysql, homonyms⟩ "1" = .ok (s', operations) ∧
        ∃ x ∈ changesOf ⟨.mysql, homonyms⟩ "1" (start.takeDue "1").1
            (script (start.takeDue "1").2),
          ∃ t enums p, x.before.table? x.id = some t ∧
            Declares ⟨.mysql, homonyms⟩ "1" x.before t x.edit enums p ∧
            p.shape.type = .enum "mood" ∧
            enums.scopeAt "1" "mood" = .ok ⟨"tone", "mood", ["dry"]⟩ ∧
            homonyms.enum? "mood" = some ⟨"mood", "app.Mood", [⟨"1", ["calm"]⟩]⟩ := by
  have hedits : ([.add "tone" { type := .enum "tone" }, .add "mood" { type := .enum "mood" }] :
      List PropertyEdit) = [.add "tone" { type := .enum "tone" }]
        ++ .add "mood" { type := .enum "mood" } :: [] := rfl
  exact ⟨by decide, _, _, _, rfl, rfl, _, List.mem_of_getElem? (i := 3) rfl, _, _, _, rfl,
    Declares.create hedits rfl rfl, rfl, rfl, rfl⟩

end Changelog

end SchemaEvolution
