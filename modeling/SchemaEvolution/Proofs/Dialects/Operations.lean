import SchemaEvolution.Changelog.Plan
import SchemaEvolution.Proofs.Dialects.Acceptance
import SchemaEvolution.Proofs.Extension.Snapshots

/-!
# Enums and functions in other dialects

Whatever is done about enums can be done in every dialect: only MySQL declares columns again when an
enum grows, and it can, because each column finds the enum that grows and has a default that could
be written before. What is done about functions can be done in a dialect that accepts their types.
-/

namespace SchemaEvolution

/-! ## Enums -/

namespace Dialect

variable {d : Dialect} {p : Property} {s : Enumeration} {uses : List EnumUse}

/-- A column of an enum type can be declared again with nothing in scope but the enum. -/
theorem exists_declaration_scope (hdefault : d.WritesDefault p)
    (hs : p.shape.type.enumReference?.any s.isDesignatedBy = true) :
    ∃ text, declaration .mysql p s.scope = .ok text := by
  obtain ⟨text, htext⟩ := hdefault
  obtain ⟨default, hdefault⟩ := exists_defaultClause .mysql p htext rfl
  have htype : ∃ name, typeName .mysql p.name p.shape.type s.scope = .ok name := by
    cases htype : p.shape.type with
    | enum reference =>
      rw [htype] at hs
      have hscope : s.scope reference = .ok s := if_pos hs
      exact ⟨_, Except.map_ok.mpr ⟨s, hscope, rfl⟩⟩
    | _ =>
      rw [htype] at hs
      cases hs
  obtain ⟨name, hname⟩ := htype
  exact ⟨_, Except.bind_ok.mpr ⟨name, hname, Except.bind_ok.mpr ⟨default, hdefault, rfl⟩⟩⟩

theorem exists_enumGrowth (d' : Dialect) (added : List String)
    (hdefault : ∀ u ∈ uses, d.WritesDefault u.property)
    (hs : ∀ u ∈ uses, u.property.shape.type.enumReference?.any s.isDesignatedBy = true) :
    ∃ statements, d'.enumGrowth s added uses = .ok statements := by
  cases d' with
  | mysql =>
    refine Except.exists_mapM fun u hu => ?_
    obtain ⟨text, htext⟩ := exists_declaration_scope (hdefault u hu) (hs u hu)
    exact ⟨_, Except.map_ok.mpr ⟨text, htext, rfl⟩⟩
  | postgres => exact ⟨_, rfl⟩
  | sqlite => exact ⟨_, rfl⟩

end Dialect

namespace EnumRegistry

variable {d : Dialect} {e : EnumHistory} {g : EnumRegistry} {version : String}
  {uses : List EnumUse} {before after : Option Enumeration}

theorem exists_operation (d' : Dialect)
    (hafter : ∀ now, after = some now → now.isDesignatedBy = e.isDesignatedBy)
    (huses : ∀ u ∈ uses, d.WritesDefault u.property) :
    ∃ os, operation d' e version uses before after = .ok os := by
  unfold operation
  split
  · exact ⟨[], rfl⟩
  · exact ⟨_, rfl⟩
  · next previous now =>
    split
    · obtain ⟨statements, hstatements⟩ := Dialect.exists_enumGrowth (s := now) d'
        (now.values.drop previous.values.length)
        (fun u hu => huses u (List.mem_filter.mp hu).1)
        (fun u hu => hafter now rfl ▸ (List.mem_filter.mp hu).2)
      exact ⟨_, Except.bind_ok.mpr ⟨statements, hstatements, rfl⟩⟩
    · exact ⟨[], rfl⟩

theorem exists_operationsAt (d' : Dialect) {position : Nat}
    (huses : ∀ u ∈ uses, d.WritesDefault u.property) :
    ∃ os, g.operationsAt d' position version uses = .ok os := by
  have heach : ∀ e ∈ g.enums, ∃ os, operation d' e version uses
      (none :: e.snapshots g.timeline)[position]?.join (e.snapshots g.timeline)[position]?.join
        = .ok os := by
    refine fun e _ => exists_operation d' (fun now hnow => ?_) huses
    -- a snapshot goes by the names of its enum
    obtain ⟨hname, hreference, -⟩ :=
      EnumHistory.mem_snapshotsFrom (List.mem_of_getElem? (Option.join_eq_some_iff.mp hnow))
    funext text
    rw [Enumeration.isDesignatedBy, hname, hreference]
    rfl
  obtain ⟨parts, hparts⟩ := Except.exists_mapM heach
  exact ⟨parts.flatten, Except.bind_ok.mpr ⟨parts, hparts, rfl⟩⟩

/-- Whatever the dialect, something can be done about all enums along the timeline. -/
theorem exists_operations (d' : Dialect) {usesAt : String → List EnumUse}
    (huses : ∀ version, ∀ u ∈ usesAt version, d.WritesDefault u.property) :
    ∃ os, g.operations d' usesAt = .ok os := by
  have heach : ∀ x ∈ g.timeline.zipIdx, ∃ os, g.operationsAt d' x.2 x.1 (usesAt x.1) = .ok os :=
    fun x _ => exists_operationsAt d' (huses x.1)
  obtain ⟨parts, hparts⟩ := Except.exists_mapM heach
  exact ⟨parts.flatten, Except.bind_ok.mpr ⟨parts, hparts, rfl⟩⟩

end EnumRegistry

namespace LiveSchema

/-- The columns of enum types that a walk tells of have been declared. -/
theorem walk_writesDefault {c : Setting} {s : LiveSchema} {versions : List String} {w : Walk}
    (h : s.Sound) (hd : s.Declared c.dialect) (hw : s.walk c versions = .ok w) :
    ∀ entry ∈ w.uses, ∀ u ∈ entry.2, c.dialect.WritesDefault u.property := by
  induction versions generalizing s w with
  | nil =>
    obtain rfl := Except.ok.inj hw
    simp
  | cons version versions ih =>
    obtain ⟨s₁, first, w₁, he, hw₁, rfl⟩ := walk_cons_ok.mp hw
    refine List.forall_mem_cons.mpr ⟨fun u hu => ?_, ih (h.advance he) (hd.advance h he) hw₁⟩
    obtain ⟨t, ht, hu⟩ := List.mem_flatMap.mp hu
    obtain ⟨k, hk, rfl⟩ := List.mem_map.mp hu
    exact Dialect.writesDefault_of_isDeclared
      (hd t (List.mem_filter.mp ht).1 k (List.mem_filter.mp hk).1)

theorem Walk.mem_usesAt {w : Walk} {version : String} {u : EnumUse} (hu : u ∈ w.usesAt version) :
    ∃ entry ∈ w.uses, u ∈ entry.2 := by
  unfold usesAt at hu
  cases hentry : w.uses.find? (·.1 == version) with
  | none =>
    rw [hentry] at hu
    cases hu
  | some entry =>
    rw [hentry] at hu
    exact ⟨entry, List.mem_of_find?_eq_some hentry, hu⟩

/-- After a walk something can be done about all enums. -/
theorem exists_operations {c : Setting} {s : LiveSchema} {versions : List String} {w : Walk}
    (h : s.Sound) (hd : s.Declared c.dialect) (hw : s.walk c versions = .ok w) :
    ∃ os, w.final.enums.operations c.dialect w.usesAt = .ok os :=
  EnumRegistry.exists_operations c.dialect fun _ u hu => by
    obtain ⟨entry, hentry, hu⟩ := Walk.mem_usesAt hu
    exact walk_writesDefault h hd hw entry hentry u hu

end LiveSchema

/-! ## Functions -/

/-- The types of the parameters and of the result. -/
def FunctionStep.types (s : FunctionStep) : List ColumnType := s.parameters ++ [s.returns]

variable {c c' : Setting} {allowed : ColumnType → Prop}

theorem functionOperations_carried (hc : c.Accepts c' allowed)
    (hallowed : ∀ f ∈ c.history.functions, ∀ s ∈ f.steps, ∀ type ∈ s.types, allowed type)
    {os : List Operation} (hos : functionOperations c = .ok os) :
    ∃ os', functionOperations c' = .ok os' := by
  obtain ⟨parts, hparts, -⟩ := Except.bind_ok.mp hos
  have heach : ∀ f ∈ c'.history.functions, ∃ part, (f.steps.mapM fun s => do
      let statements ← c'.dialect.functionCreation f.name s
      return Operation.mk s.version ("create-function-" ++ f.name) statements) = .ok part := by
    intro f hf
    rw [hc.history] at hf
    obtain ⟨part, hpart⟩ := Except.exists_of_mapM_ok hparts hf
    refine Except.exists_mapM fun s hs => ?_
    obtain ⟨operation, hoperation⟩ := Except.exists_of_mapM_ok hpart hs
    obtain ⟨statements, hstatements, -⟩ := Except.bind_ok.mp hoperation
    obtain ⟨statements', hstatements'⟩ :=
      hc.dialect.functionCreation (hallowed f hf s hs) hstatements
    exact ⟨_, Except.bind_ok.mpr ⟨statements', hstatements', rfl⟩⟩
  obtain ⟨parts', hparts'⟩ := Except.exists_mapM heach
  exact ⟨parts'.flatten, Except.bind_ok.mpr ⟨parts', hparts', rfl⟩⟩

end SchemaEvolution
