import SchemaEvolution.Proofs.Descriptions
import SchemaEvolution.Proofs.FinalTables
import SchemaEvolution.Proofs.Walk.Changes

/-!
# The statements of a changelog

The queries of a changelog are the statements of what is done, written in SQL: version by version
those for enums, for functions and for the changes of tables. SQLite apart, a change of a table is
written with statements of its own kind, so a statement tells what it is written for.
-/

namespace SchemaEvolution

/-- The statements of operations, each with its version. -/
def dated (os : List Operation) : List (String × Ddl) :=
  os.flatMap fun o => o.statements.map (o.version, ·)

theorem map_snd_dated {os : List Operation} :
    (dated os).map (·.2) = os.flatMap (·.statements) := by
  rw [dated, List.map_flatMap]
  refine List.flatMap_congr fun o _ => ?_
  rw [List.map_map]
  exact List.map_id _

theorem dated_filter {os : List Operation} {version : String} :
    dated (os.filter (·.version == version)) = (dated os).filter (·.1 == version) := by
  induction os with
  | nil => rfl
  | cons o os ih =>
    have hcons : ∀ os, dated (o :: os) = o.statements.map (o.version, ·) ++ dated os :=
      fun _ => List.flatMap_cons ..
    rw [hcons, List.filter_append, ← ih, List.filter_map, List.filter_cons]
    by_cases hv : o.version = version
    · simp [hv, hcons, Function.comp_def]
    · simp [hv, Function.comp_def]

/-- The queries of all versions are the statements of the operations, version by version. -/
theorem queries_gather {d : Dialect} {taken versions : List String} {os : List Operation} :
    (gather versions (describeAll d taken os).1).flatMap
        (fun entry => entry.queries.map fun q => (entry.version, q.query))
      = versions.flatMap fun version => (dated (os.filter (·.version == version))).map
          fun x => (x.1, x.2.text d) := by
  have hversion : ∀ version, (entryOf version (queriesOf (describeAll d taken os).1
      version)).toList.flatMap (fun entry => entry.queries.map fun q => (entry.version, q.query))
        = (dated (os.filter (·.version == version))).map fun x => (x.1, x.2.text d) := by
    intro version
    have hentry : (entryOf version (queriesOf (describeAll d taken os).1 version)).toList.flatMap
        (fun entry => entry.queries.map fun q => (entry.version, q.query))
          = ((queriesOf (describeAll d taken os).1 version).map (·.query)).map (version, ·) := by
      unfold entryOf
      split
      · next h => simp [List.isEmpty_iff.mp h]
      · simp
    rw [hentry, map_query_queriesOf, dated, List.map_map, List.map_flatMap, List.map_flatMap]
    refine List.flatMap_congr fun o ho => ?_
    rw [List.map_map, ← beq_iff_eq.mp (List.mem_filter.mp ho).2]
    rfl
  rw [gather_eq]
  induction versions with
  | nil => rfl
  | cons version versions ih =>
    rw [List.flatMap_cons, ← ih, ← hversion, List.filterMap_cons]
    cases entryOf version (queriesOf (describeAll d taken os).1 version) with
    | none => rfl
    | some entry => rw [List.flatMap_cons, Option.toList_some, List.flatMap_singleton]

theorem map_query_gather {d : Dialect} {taken versions : List String} {os : List Operation} :
    (gather versions (describeAll d taken os).1).flatMap (fun entry => entry.queries.map (·.query))
      = (versions.flatMap fun version =>
          (os.filter (·.version == version)).flatMap (·.statements)).map (Ddl.text d) := by
  have hsecond : (gather versions (describeAll d taken os).1).flatMap
      (fun entry => entry.queries.map (·.query))
        = ((gather versions (describeAll d taken os).1).flatMap
          fun entry => entry.queries.map fun q => (entry.version, q.query)).map (·.2) := by
    rw [List.map_flatMap]
    exact List.flatMap_congr fun entry _ => by rw [List.map_map]; rfl
  rw [hsecond, queries_gather, List.map_flatMap, List.map_flatMap]
  refine List.flatMap_congr fun version _ => ?_
  rw [← map_snd_dated, List.map_map, List.map_map]
  rfl

/-- PostgreSQL gives a column its new type first, and then says whether it allows `NULL` and which
default it has. -/
theorem Dialect.columnRetyping_postgres {t : TableShape} {before after : LiveColumn}
    {enums : EnumScope} {statements : List Ddl}
    (h : columnRetyping .postgres t before after enums = .ok statements) :
    ∃ type rest,
      typeName .postgres after.property.name after.property.shape.type enums = .ok type ∧
      statements = .setType t.name after.property.name type :: rest ∧
      ∀ statement ∈ rest,
        (∃ nullable, statement = .setNullable t.name after.property.name nullable) ∨
        ∃ default, statement = .setDefault t.name after.property.name default := by
  have hnullable : ∀ defaults : List Ddl,
      (∀ statement ∈ defaults,
        ∃ default, statement = .setDefault t.name after.property.name default) →
      ∀ statement ∈
          .setNullable t.name after.property.name after.property.isNullable :: defaults,
        (∃ nullable, statement = .setNullable t.name after.property.name nullable) ∨
        ∃ default, statement = .setDefault t.name after.property.name default := by
    intro defaults hdefaults statement hin
    rcases List.mem_cons.mp hin with rfl | hin
    · exact Or.inl ⟨_, rfl⟩
    · exact Or.inr (hdefaults statement hin)
  unfold columnRetyping at h
  simp only at h
  split at h
  · cases h
  · obtain ⟨-, -, h⟩ := Except.bind_ok.mp h
    obtain ⟨type, htype, h⟩ := Except.bind_ok.mp h
    -- the default is the same, is taken away or is another one
    split at h
    · obtain rfl := Except.ok.inj h
      exact ⟨type, _, htype, rfl, hnullable _ (List.forall_mem_nil _)⟩
    · split at h
      · obtain rfl := Except.ok.inj h
        exact ⟨type, _, htype, rfl, hnullable _ (List.forall_mem_singleton.mpr ⟨_, rfl⟩)⟩
      · obtain ⟨value, -, h⟩ := Except.bind_ok.mp h
        obtain rfl := Except.ok.inj h
        exact ⟨type, _, htype, rfl, hnullable _ (List.forall_mem_singleton.mpr ⟨_, rfl⟩)⟩

namespace TableEdit

/-- Whether an edit may be written with a statement, where columns can be altered in place. -/
def renders : TableEdit → Ddl → Bool
  | .create _, .createTable _ _ => true
  | .rename _, .renameTable _ _ => true
  | .property (.add _ _), .addColumn _ _ => true
  | .property (.rename _ _), .renameColumn _ _ _ => true
  | .property (.retype _ _), .modifyColumn _ _ => true
  | .property (.retype _ _), .setType _ _ _ => true
  | .property (.retype _ _), .setNullable _ _ _ => true
  | .property (.retype _ _), .setDefault _ _ _ => true
  | .property (.remove _), .dropColumn _ _ => true
  | .constraint (.addPrimaryKey _ _), .addPrimaryKey _ _ _ => true
  | .constraint (.addForeignKey _ _ _ _), .addForeignKey _ _ _ _ _ => true
  | .constraint (.remove .primary _), .dropPrimaryKey _ => true
  | .constraint (.remove .foreign _), .dropForeignKey _ _ => true
  | .constraint (.remove _ _), .dropConstraint _ _ => true
  | .index (.add _ _ _), .createIndex _ _ _ _ => true
  | .index (.remove _ _), .dropIndex _ _ => true
  | _, _ => false

end TableEdit

namespace LiveSchema

variable {c : Setting} {version : String} {versions : List String} {s s' : LiveSchema}
  {t : LiveTable} {e : TableEdit} {operations : List Operation}
  {edits : List (String × TableEdit)} {x : Change}

/-- Every edit is written with statements of its own kind. -/
theorem Effect.renders (hd : c.dialect ≠ .sqlite) (he : Effect c version s t e s' operations) :
    ∀ statement ∈ operations.flatMap (·.statements), e.renders statement = true := by
  have hsingle : ∀ o : Operation, (∀ statement ∈ o.statements, e.renders statement = true) →
      ∀ statement ∈ [o].flatMap (·.statements), e.renders statement = true := by
    intro o ho statement hin
    rw [List.flatMap_singleton] at hin
    exact ho statement hin
  cases he with
  | create h =>
    obtain ⟨-, _, _, -, -, rfl⟩ := createTable_ok.mp h
    exact hsingle _ (List.forall_mem_singleton.mpr rfl)
  | rename =>
    unfold renameTable
    split
    · exact fun _ ho => absurd ho List.not_mem_nil
    · split
      · exact fun _ ho => absurd ho List.not_mem_nil
      · exact hsingle _ (List.forall_mem_singleton.mpr rfl)
  | addProperty h =>
    obtain ⟨-, _, _, -, -, rfl⟩ := addProperty_ok.mp h
    exact hsingle _ (List.forall_mem_singleton.mpr rfl)
  | renameProperty h =>
    obtain ⟨_, _, -, -, -, -, rfl⟩ := renameProperty_ok.mp h
    exact hsingle _ (List.forall_mem_singleton.mpr rfl)
  | retypeProperty h =>
    obtain ⟨_, _, _, _, -, -, -, -, hr, -, rfl⟩ := retypeProperty_ok.mp h
    refine hsingle _ ?_
    cases hdialect : c.dialect with
    | sqlite => exact absurd hdialect hd
    | mysql =>
      rw [hdialect] at hr
      obtain rfl := Except.ok.inj hr
      exact List.forall_mem_singleton.mpr rfl
    | postgres =>
      rw [hdialect] at hr
      obtain ⟨type, rest, -, rfl, hrest⟩ := Dialect.columnRetyping_postgres hr
      refine List.forall_mem_cons.mpr ⟨rfl, fun statement hin => ?_⟩
      rcases hrest statement hin with ⟨_, rfl⟩ | ⟨_, rfl⟩
      · rfl
      · rfl
  | removeProperty h =>
    obtain ⟨-, -, rfl⟩ := removeProperty_ok.mp h
    refine hsingle _ ?_
    cases hdialect : c.dialect with
    | sqlite => exact absurd hdialect hd
    | _ => exact List.forall_mem_singleton.mpr rfl
  | addPrimaryKey h =>
    obtain ⟨-, -, -, _, -, -, rfl⟩ := addPrimaryKey_ok.mp h
    refine hsingle _ ?_
    unfold Dialect.primaryKeyCreation
    split
    · exact List.forall_mem_nil _
    · split
      · next hdialect => exact absurd hdialect hd
      · exact List.forall_mem_singleton.mpr rfl
  | addForeignKey h =>
    obtain ⟨_, _, _, -, -, -, -, -, -, -, rfl⟩ := addForeignKey_ok.mp h
    refine hsingle _ ?_
    unfold Dialect.foreignKeyCreation
    split
    · exact List.forall_mem_nil _
    · exact List.forall_mem_singleton.mpr rfl
  | removePrimaryKey h =>
    obtain ⟨_, -, -, -, rfl⟩ := removePrimaryKey_ok.mp h
    refine hsingle _ ?_
    unfold Dialect.primaryKeyRemoval
    split
    · exact List.forall_mem_nil _
    · split
      · exact List.forall_mem_singleton.mpr rfl
      · exact List.forall_mem_singleton.mpr rfl
      · next hdialect => exact absurd hdialect hd
  | removeForeignKey h =>
    obtain ⟨-, -, rfl⟩ := removeForeignKey_ok.mp h
    refine hsingle _ ?_
    unfold Dialect.foreignKeyRemoval
    split
    · exact List.forall_mem_singleton.mpr rfl
    · exact List.forall_mem_singleton.mpr rfl
    · exact List.forall_mem_nil _
  | addIndex h =>
    obtain ⟨-, -, -, _, -, -, rfl⟩ := addIndex_ok.mp h
    exact hsingle _ (List.forall_mem_singleton.mpr rfl)
  | removeIndex h =>
    obtain ⟨-, -, rfl⟩ := removeIndex_ok.mp h
    exact hsingle _ (List.forall_mem_singleton.mpr rfl)

/-- A change of a walk is one that an edit makes. -/
theorem edit_of_mem_changes (hx : x ∈ changes c s versions) :
    ∃ version ∈ versions, x.before.edit c version (x.id, x.edit) = .ok (x.after, x.operations) := by
  induction versions generalizing s with
  | nil => cases hx
  | cons version versions ih =>
    unfold changes at hx
    split at hx
    · rcases List.mem_append.mp hx with hx | hx
      · exact ⟨version, List.mem_cons_self, (edit_of_mem_changesOf hx).2⟩
      · obtain ⟨v, hv, he⟩ := ih hx
        exact ⟨v, List.mem_cons_of_mem _ hv, he⟩
    · cases hx

theorem edit_renders (hd : c.dialect ≠ .sqlite)
    (h : s.edit c version (x.id, e) = .ok (s', operations)) :
    ∀ statement ∈ operations.flatMap (·.statements), e.renders statement = true := by
  rcases edit_ok h with ⟨-, rfl, -⟩ | ⟨t, -, -, he⟩
  · exact fun _ hin => absurd hin List.not_mem_nil
  · exact he.renders hd

end LiveSchema

namespace Changelog

open LiveSchema

variable {d : Dialect} {h : SchemaHistory} {p : Plan} {start : LiveSchema} {w : Walk}
  {version : String} {passed later : List String}

/-- Functions are only dropped and created. -/
theorem statements_functionOperations {os : List Operation}
    (hos : functionOperations ⟨d, h⟩ = .ok os) :
    ∀ statement ∈ os.flatMap (·.statements), (∃ name, statement = .dropFunction name) ∨
      ∃ name parameters returns body,
        statement = .createFunction name parameters returns body := by
  obtain ⟨parts, hparts, hflat⟩ := Except.bind_ok.mp hos
  obtain rfl := Except.pure_ok.mp hflat
  intro statement hin
  obtain ⟨o, ho, hin⟩ := List.mem_flatMap.mp hin
  obtain ⟨part, hpart, ho⟩ := List.mem_flatten.mp ho
  obtain ⟨f, -, hf⟩ := (Except.mem_of_mapM_ok hparts).mp hpart
  obtain ⟨step, -, hstep⟩ := (Except.mem_of_mapM_ok hf).mp ho
  obtain ⟨statements, hstatements, ho⟩ := Except.bind_ok.mp hstep
  obtain rfl := Except.pure_ok.mp ho
  unfold Dialect.functionCreation at hstatements
  split at hstatements
  · obtain rfl := Except.ok.inj hstatements
    cases hin
  · obtain ⟨types, -, hstatements⟩ := Except.bind_ok.mp hstatements
    obtain ⟨returns, -, hstatements⟩ := Except.bind_ok.mp hstatements
    split at hstatements
    · obtain rfl := Except.pure_ok.mp hstatements
      rcases List.mem_cons.mp hin with rfl | hin
      · exact Or.inl ⟨_, rfl⟩
      · exact Or.inr ⟨_, _, _, _, List.mem_singleton.mp hin⟩
    · obtain rfl := Except.pure_ok.mp hstatements
      exact Or.inr ⟨_, _, _, _, List.mem_singleton.mp hin⟩

/-- The queries for tables are the statements of their changes. -/
theorem map_query_tableEntries (hs : LiveSchema.start h = .ok start)
    (hw : start.walk ⟨d, h⟩ h.timeline = .ok p.walk) :
    (ofPlan ⟨d, h⟩ p).tableEntries.flatMap (fun entry => entry.queries.map (·.query))
      = ((start.changes ⟨d, h⟩ h.timeline).flatMap (·.statements)).map (Ddl.text d) := by
  have hqueries : (ofPlan ⟨d, h⟩ p).tableEntries.flatMap (fun entry => entry.queries.map (·.query))
      = (h.timeline.flatMap fun version =>
          (p.walk.operations.filter (·.version == version)).flatMap (·.statements)).map
            (Ddl.text d) := map_query_gather
  rw [hqueries, ← List.flatMap_assoc, walk_byVersion (sound_start hs) nodup_timeline hw,
    ← changes_operations (sound_start hs) hw, List.flatMap_assoc]
  rfl

/-- The queries of a version are the statements of what is done about enums, about functions and in
the changes of tables. -/
theorem map_query_at_version (hs : LiveSchema.start h = .ok start)
    (hw : start.walk ⟨d, h⟩ h.timeline = .ok p.walk)
    (hsplit : h.timeline = passed ++ version :: later)
    (hpassed : start.walk ⟨d, h⟩ passed = .ok w) :
    (queriesAt (ofPlan ⟨d, h⟩ p).enumEntries version
        ++ queriesAt (ofPlan ⟨d, h⟩ p).functionEntries version
        ++ queriesAt (ofPlan ⟨d, h⟩ p).tableEntries version).map (·.query)
      = ((p.enums.filter (·.version == version)).flatMap (·.statements)
        ++ (p.functions.filter (·.version == version)).flatMap (·.statements)
        ++ (changesOf ⟨d, h⟩ version (w.final.takeDue version).1
            (script (w.final.takeDue version).2)).flatMap (·.statements)).map (Ddl.text d) := by
  have hsound := sound_start hs
  have hv : version ∈ h.timeline := hsplit ▸ List.mem_append_right _ List.mem_cons_self
  obtain ⟨w', s', operations, hw', hadvance, hoperations, -⟩ :=
    walk_at_version hsound (hsplit ▸ nodup_timeline) (hsplit ▸ hw)
  obtain rfl := Except.ok.inj (hpassed.symm.trans hw')
  have hchanges : (changesOf ⟨d, h⟩ version (w.final.takeDue version).1
      (script (w.final.takeDue version).2)).flatMap (·.statements)
        = operations.flatMap (·.statements) := by
    rw [← changesOf_operations (advance_script (hsound.walk hpassed) hadvance),
      List.flatMap_assoc]
    rfl
  rw [hchanges, ← hoperations, List.map_append, List.map_append, List.map_append,
    List.map_append]
  congr 1
  · congr 1
    · exact map_query_queriesAt nodup_timeline hv
    · exact map_query_queriesAt nodup_timeline hv
  · exact map_query_queriesAt nodup_timeline hv

end Changelog

end SchemaEvolution
