import SchemaEvolution.Proofs.Statements

/-!
# The items of a changelog

In the order in which a changelog lists its queries, version by version, stands what is done for
enums and functions, and then, change by change, what is done in tables. The items say where each
query comes from; an item without statements is there too.
-/

namespace SchemaEvolution.Changelog

open LiveSchema

/-- What a changelog has at a place: something that is done for an enum or a function, or a change
of a table. -/
inductive Item where
  | apart (o : Operation)
  | change (x : Change)

namespace Item

def statements : Item → List Ddl
  | .apart o => o.statements
  | .change x => x.statements

def change? : Item → Option Change
  | .apart _ => none
  | .change x => some x

end Item

namespace Plan

/-- The items of a version, when the schema before it is `s`. -/
def itemsAt (p : Plan) (c : Setting) (s : LiveSchema) (version : String) : List Item :=
  (p.enums.filter (·.version == version) ++ p.functions.filter (·.version == version)).map .apart
    ++ (changesOf c version (s.takeDue version).1 (script (s.takeDue version).2)).map .change

/-- The items of some versions. -/
def items (p : Plan) (c : Setting) : LiveSchema → List String → List Item
  | _, [] => []
  | s, version :: versions =>
    match s.advance c version with
    | .ok (s', _) => p.itemsAt c s version ++ p.items c s' versions
    | .error _ => []

variable {d : Dialect} {c : Setting} {h : SchemaHistory} {p : Plan} {s start : LiveSchema}
  {w : Walk} {version : String} {versions passed later : List String}

theorem change?_itemsAt : (p.itemsAt c s version).filterMap (·.change?)
    = changesOf c version (s.takeDue version).1 (script (s.takeDue version).2) := by
  have hapart : ∀ os : List Operation, (os.map Item.apart).filterMap (·.change?) = [] := by
    intro os
    rw [List.filterMap_map]
    exact List.filterMap_eq_nil_iff.mpr fun _ _ => rfl
  rw [itemsAt, List.filterMap_append, hapart, List.nil_append, List.filterMap_map]
  exact List.filterMap_some

/-- The changes among the items are the changes of the walk. -/
theorem change?_items : (p.items c s versions).filterMap (·.change?) = changes c s versions := by
  induction versions generalizing s with
  | nil => rfl
  | cons version versions ih =>
    rw [items, changes]
    cases s.advance c version with
    | error f => rfl
    | ok outcome => exact (List.filterMap_append ..).trans (congrArg₂ _ change?_itemsAt ih)

theorem statements_itemsAt : (p.itemsAt c s version).flatMap (·.statements)
    = (p.enums.filter (·.version == version)).flatMap (·.statements)
      ++ (p.functions.filter (·.version == version)).flatMap (·.statements)
      ++ (changesOf c version (s.takeDue version).1 (script (s.takeDue version).2)).flatMap
        (·.statements) := by
  rw [itemsAt, List.flatMap_append, List.flatMap_map, List.flatMap_map, List.flatMap_append]
  rfl

/-- The queries of some versions are the statements of their items. -/
theorem map_query_items (hs : LiveSchema.start h = .ok start)
    (hw : start.walk ⟨d, h⟩ h.timeline = .ok p.walk)
    (hsplit : h.timeline = passed ++ versions ++ later)
    (hpassed : start.walk ⟨d, h⟩ passed = .ok w) :
    (versions.flatMap fun version =>
      (queriesAt (ofPlan ⟨d, h⟩ p).enumEntries version
        ++ queriesAt (ofPlan ⟨d, h⟩ p).functionEntries version
        ++ queriesAt (ofPlan ⟨d, h⟩ p).tableEntries version).map (·.query))
      = ((p.items ⟨d, h⟩ w.final versions).flatMap (·.statements)).map (Ddl.text d) := by
  induction versions generalizing passed w with
  | nil => rfl
  | cons version versions ih =>
    obtain ⟨hhere, hnext⟩ := split_cons hsplit
    obtain ⟨w', s', operations, hw', hadvance, -⟩ :=
      walk_at_version (sound_start hs) (hhere ▸ nodup_timeline) (hhere ▸ hw)
    obtain rfl := Except.ok.inj (hpassed.symm.trans hw')
    obtain ⟨w₁, hw₁, rfl⟩ := walk_concat hpassed hadvance
    rw [List.flatMap_cons, map_query_at_version hs hw hhere hpassed, ← statements_itemsAt,
      ih hnext hw₁, items, hadvance]
    exact (List.map_append ..).symm.trans (congrArg _ (List.flatMap_append ..).symm)

/-- The queries of a changelog are the statements of its items. -/
theorem map_query_entries (hs : LiveSchema.start h = .ok start)
    (hw : start.walk ⟨d, h⟩ h.timeline = .ok p.walk) :
    (ofPlan ⟨d, h⟩ p).entries.flatMap (fun e => e.queries.map (·.query))
      = ((p.items ⟨d, h⟩ start h.timeline).flatMap (·.statements)).map (Ddl.text d) := by
  have hversions : (ofPlan ⟨d, h⟩ p).versions = h.timeline ++ [] := (List.append_nil _).symm
  have hlength : h.timeline.length = (ofPlan ⟨d, h⟩ p).entries.length := (List.length_map _).symm
  have hqueries := map_query_take_entries hversions
  rw [hlength, List.take_length] at hqueries
  have hwhole : h.timeline = [] ++ h.timeline ++ [] := by simp
  exact hqueries.trans (map_query_items hs hw hwhole rfl)

end Plan

end SchemaEvolution.Changelog
