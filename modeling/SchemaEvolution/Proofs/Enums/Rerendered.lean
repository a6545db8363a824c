import SchemaEvolution.Proofs.Dialects.Operations
import SchemaEvolution.Proofs.Enums.Lookup
import SchemaEvolution.Proofs.Extension.Scope

/-!
# Columns can always be declared again

A column that stands in a table was declared once, maybe many versions ago. It is declared again
when it is renamed, and in MySQL when its enum grows. Neither the success of a type nor that of a
default depends on the name of the column, an enum that has been found is found ever after, and an
enum with values keeps them. So nothing can go wrong that has not gone wrong before.
-/

namespace SchemaEvolution

namespace Dialect

variable {d : Dialect} {p : Property} {property text : String} {type : ColumnType}
  {enums enums' : EnumScope}

/-- A type that had a name in some scope has one in every scope that finds its enum, whatever the
column is called. -/
theorem exists_typeName (property' : String) (h : d.typeName property type enums = .ok text)
    (hfound : ∀ reference, type.innermost.enumReference? = some reference →
      ∃ s, enums' reference = .ok s) :
    ∃ text', d.typeName property' type enums' = .ok text' := by
  cases d with
  | mysql =>
    cases type with
    | enum reference =>
      obtain ⟨s, hs⟩ := hfound reference rfl
      exact ⟨_, Except.map_ok.mpr ⟨s, hs, rfl⟩⟩
    | array => cases h
    | _ => exact ⟨_, rfl⟩
  | postgres =>
    induction type generalizing text with
    | enum reference =>
      obtain ⟨s, hs⟩ := hfound reference rfl
      exact ⟨_, Except.map_ok.mpr ⟨s, hs, rfl⟩⟩
    | array element ih =>
      rw [typeName_array] at h
      split at h
      · cases h
      · next hplain =>
        obtain ⟨inner, hinner, -⟩ := Except.map_ok.mp h
        obtain ⟨inner', hinner'⟩ := ih hfound hinner
        refine ⟨inner' ++ "[]", ?_⟩
        rw [typeName_array, if_neg hplain]
        exact Except.map_ok.mpr ⟨inner', hinner', rfl⟩
    | _ => exact ⟨_, rfl⟩
  | sqlite =>
    cases type with
    | array => cases h
    | _ => exact ⟨_, rfl⟩

/-- A column that could be declared can be declared under another name. -/
theorem exists_declaration_renamed (new : String) (h : d.declaration p enums = .ok text)
    (hfound : ∀ reference, p.shape.type.innermost.enumReference? = some reference →
      ∃ s, enums' reference = .ok s) :
    ∃ text', d.declaration { p with name := new } enums' = .ok text' := by
  obtain ⟨type, htype, h⟩ := Except.bind_ok.mp h
  obtain ⟨default, hdefault, -⟩ := Except.bind_ok.mp h
  obtain ⟨type', htype'⟩ := exists_typeName new htype hfound
  obtain ⟨default', hdefault'⟩ := exists_defaultClause d { p with name := new } hdefault rfl
  exact ⟨_, Except.bind_ok.mpr ⟨type', htype', Except.bind_ok.mpr ⟨default', hdefault', rfl⟩⟩⟩

end Dialect

namespace LiveSchema

/-- A state that a build goes through, with the versions that have begun: the schema at the start,
and from there on, whenever the steps of the next version are taken as being due, and whenever an
edit succeeds. -/
inductive Underway (c : Setting) : List String → LiveSchema → Prop
  | start {s} (h : start c.history = .ok s) : Underway c [] s
  | due {s passed version later} (h : Underway c passed s)
      (hsplit : c.history.timeline = passed ++ version :: later) :
      Underway c (passed ++ [version]) (s.takeDue version).1
  | edit {s passed version e s' operations} (h : Underway c (passed ++ [version]) s)
      (he : s.edit c version e = .ok (s', operations)) : Underway c (passed ++ [version]) s'

variable {c : Setting} {version name new : String} {versions passed later : List String}
  {s s' : LiveSchema} {t : LiveTable} {k : LiveColumn} {operations : List Operation}

namespace Underway

/-- The versions that have begun are the first ones of the timeline. -/
theorem timeline (h : Underway c versions s) : versions <+: c.history.timeline := by
  induction h with
  | start => exact List.nil_prefix
  | due _ hsplit => exact ⟨_, by rw [hsplit, List.append_assoc]; rfl⟩
  | edit _ _ ih => exact ih

theorem declared (h : Underway c versions s) : s.Declared c.dialect := by
  induction h with
  | start hs => exact declared_start hs
  | due _ _ ih => exact ih.takeDue
  | edit _ he ih => exact ih.edit he

theorem supplied (h : Underway c versions s) : Supplied c.history versions s := by
  induction h with
  | start hs => exact supplied_start hs
  | due _ _ ih => exact ih.takeDue.mono
  | edit h he ih =>
    obtain ⟨later, hlater⟩ := h.timeline
    rw [List.append_assoc] at hlater
    exact ih.edit hlater.symm he

/-- A build goes through the states between the edits of a version. -/
theorem edits {edits : List (String × TableEdit)} (h : Underway c (passed ++ [version]) s)
    (he : forEach (LiveSchema.edit c version) s edits = .ok (s', operations)) :
    Underway c (passed ++ [version]) s' :=
  forEach_invariant (fun _ _ _ _ _ h => h.edit) h he

/-- A build goes through the state after each version. -/
theorem walk {w : Walk} (h : Underway c passed s) (hsound : s.Sound)
    (hsplit : c.history.timeline = passed ++ versions ++ later)
    (hw : s.walk c versions = .ok w) : Underway c (passed ++ versions) w.final := by
  induction versions generalizing s w passed with
  | nil =>
    obtain rfl := Except.ok.inj hw
    rw [List.append_nil]
    exact h
  | cons version versions ih =>
    obtain ⟨s₁, first, w₁, h₁, h₂, rfl⟩ := walk_cons_ok.mp hw
    obtain ⟨hhere, hthere⟩ := split_cons hsplit
    rw [List.append_cons]
    exact ih (w := w₁) ((h.due hhere).edits (advance_script hsound h₁)) (hsound.advance h₁)
      hthere h₂

end Underway

/-! ## Renaming -/

/-- Where the enums of the columns are supplied, the enum of a column is found and has values. -/
theorem Supplied.scopeAt {reference : String} (h : Supplied c.history (passed ++ [version]) s)
    (hsplit : c.history.timeline = passed ++ version :: later) (ht : t ∈ s.tables)
    (hk : k ∈ t.columns)
    (hr : k.property.shape.type.innermost.enumReference? = some reference) :
    ∃ state, s.enums.scopeAt version reference = .ok state := by
  obtain ⟨e, he, hvalues⟩ := h.columns t ht k hk reference hr
  refine ⟨e.through (passed ++ [version]), EnumRegistry.scopeAt_ok.mpr ⟨e, he, ?_⟩⟩
  rw [h.timeline, hsplit, EnumHistory.snapshotAt?_eq_visible (Changelog.notMem_passed hsplit)]
  exact EnumHistory.visible_eq_some.mpr ⟨hvalues, rfl⟩

/-- A column that stands in a table can be declared again under any name, at the version that a
build has come to and at every later one. -/
theorem Underway.exists_redeclare (h : Underway c versions s)
    (hsplit : c.history.timeline = passed ++ version :: later)
    (hversions : versions <+: passed ++ [version]) (ht : t ∈ s.tables) (hk : k ∈ t.columns)
    (new : String) :
    ∃ column, s.redeclare c version { k.property with name := new } = .ok column := by
  obtain ⟨more, hmore⟩ := hversions
  have hsupplied : Supplied c.history (passed ++ [version]) s := hmore ▸ h.supplied.mono
  obtain ⟨enums, hdeclared⟩ := h.declared t ht k hk
  obtain ⟨text, htext⟩ := Dialect.exists_declaration_renamed new hdeclared fun reference hr =>
    hsupplied.scopeAt hsplit ht hk hr
  exact ⟨_, Except.map_ok.mpr ⟨text, htext, rfl⟩⟩

theorem renameProperty_error
    (hdeclares : ∀ k, t.column? name = some k →
      ∃ column, s.redeclare c version { k.property with name := new } = .ok column)
    (fault : SchemaFault) :
    s.renameProperty c version t name new = .error fault ↔
      (t.column? name = none ∧ fault = .unknownProperty t.name name) ∨
        (∃ k, t.column? name = some k) ∧ t.hasColumn new = true ∧
          fault = .duplicateProperty t.name new := by
  unfold renameProperty
  cases hk : t.column? name with
  | none =>
    constructor
    · rintro ⟨⟩
      exact .inl ⟨rfl, rfl⟩
    · rintro (⟨-, rfl⟩ | ⟨⟨_, ⟨⟩⟩, -⟩)
      rfl
  | some k =>
    dsimp only
    by_cases hnew : t.hasColumn new = true
    · rw [if_pos hnew]
      constructor
      · rintro ⟨⟩
        exact .inr ⟨⟨k, rfl⟩, hnew, rfl⟩
      · rintro (⟨⟨⟩, -⟩ | ⟨-, -, rfl⟩)
        rfl
    · obtain ⟨column, hcolumn⟩ := hdeclares k hk
      rw [if_neg hnew, hcolumn]
      constructor
      · rintro ⟨⟩
      · rintro (⟨⟨⟩, -⟩ | ⟨-, hnew', -⟩)
        exact absurd hnew' hnew

/-- What has been declared can be declared again. In every state of a build, at the version that it
has come to and at every later one, each column can be declared under any name, so that a renaming
fails only because the column is not there or the name is taken; and once all versions have been
walked, something can be done about all enums. -/
theorem declaring_again_succeeds (c : Setting) :
    (∀ versions s, Underway c versions s →
      ∀ passed version later, c.history.timeline = passed ++ version :: later →
        versions <+: passed ++ [version] →
        ∀ id t, s.table? id = some t → ∀ name new,
          (∀ k, t.column? name = some k →
            ∃ column, s.redeclare c version { k.property with name := new } = .ok column) ∧
          ∀ fault, s.editProperty c version id (.rename name new) = .error fault ↔
            (t.column? name = none ∧ fault = .unknownProperty t.name name) ∨
              (∃ k, t.column? name = some k) ∧ t.hasColumn new = true ∧
                fault = .duplicateProperty t.name new) ∧
      ∀ s w, LiveSchema.start c.history = .ok s → s.walk c c.history.timeline = .ok w →
        ∃ operations, w.final.enums.operations c.dialect w.usesAt = .ok operations := by
  refine ⟨fun versions s h passed version later hsplit hversions id t ht name new => ?_,
    fun s w hs hw => exists_operations (sound_start hs) (declared_start hs) hw⟩
  have hdeclares : ∀ k, t.column? name = some k →
      ∃ column, s.redeclare c version { k.property with name := new } = .ok column :=
    fun k hk => h.exists_redeclare hsplit hversions (table?_eq_some ht).1
      (LiveTable.column?_eq_some hk).1 new
  refine ⟨hdeclares, fun fault => ?_⟩
  rw [editProperty, withTable, ht]
  exact renameProperty_error hdeclares fault

/-- In MySQL the column is written with the values of its enum, which has grown since it was
declared: both the renaming and the new values need it declared again. -/
theorem declaring_again_succeeds_renamedMood :
    ∃ start w all operations, LiveSchema.start Changelog.renamedMood = .ok start ∧
      start.walk ⟨.mysql, Changelog.renamedMood⟩ ["1"] = .ok w ∧
      (∀ fault, w.final.editProperty ⟨.mysql, Changelog.renamedMood⟩ "2" "notes"
        (.rename "mood" "tone") ≠ .error fault) ∧
      start.walk ⟨.mysql, Changelog.renamedMood⟩ ["1", "2"] = .ok all ∧
      all.final.enums.operations .mysql all.usesAt = .ok operations := by
  obtain ⟨log, hlog⟩ := Except.exists_of_isOk
    (show (Changelog.ofHistory .mysql Changelog.renamedMood).isOk = true by decide)
  obtain ⟨start, p, hs, hw, -⟩ := Changelog.ofHistory_ok hlog
  have htimeline : Changelog.renamedMood.timeline = ["1", "2"] := by decide
  rw [htimeline] at hw
  obtain ⟨w, -, hpassed, -⟩ := walk_split (show start.walk _ (["1"] ++ ["2"]) = _ from hw)
  obtain ⟨hrenames, hgrows⟩ := declaring_again_succeeds ⟨.mysql, Changelog.renamedMood⟩
  obtain ⟨operations, hoperations⟩ := hgrows start p.walk hs (htimeline ▸ hw)
  have hunderway : Underway ⟨.mysql, Changelog.renamedMood⟩ ["1"] w.final :=
    (Underway.start hs).walk (sound_start hs) htimeline hpassed
  obtain ⟨t, ht, hmood, htone⟩ : ∃ t, w.final.table? "notes" = some t ∧
      t.column? "mood" ≠ none ∧ t.hasColumn "tone" = false := by
    obtain rfl := Except.ok.inj (hs.symm.trans rfl)
    obtain rfl := Except.ok.inj (hpassed.symm.trans rfl)
    exact ⟨_, rfl, by decide, rfl⟩
  refine ⟨start, w, p.walk, operations, hs, hpassed, fun fault hfault => ?_, hw, hoperations⟩
  obtain ⟨hnone, -⟩ | ⟨-, htaken, -⟩ := ((hrenames ["1"] w.final hunderway ["1"] "2" [] htimeline
    ⟨["2"], rfl⟩ "notes" t ht "mood" "tone").2 fault).mp hfault
  · exact hmood hnone
  · rw [htone] at htaken
    cases htaken

end LiveSchema

end SchemaEvolution
