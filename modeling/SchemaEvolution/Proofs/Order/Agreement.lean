import SchemaEvolution.Proofs.Walk.Outline

/-!
# One table of two schemas

What an edit can do to a table depends on the table, on the names that are in use, and little else.
So two schemas are compared at one id: they agree there if they have the same table, and the same of
those names that belong to it. The columns that its foreign keys refer to are left out; they belong
to other tables, which may rename them, and no edit asks for them.

An edit is confined to its own table: it leaves the others as they are, and all names but its own.
-/

namespace SchemaEvolution

/-! ## Foreign keys without their targets -/

namespace Constraint

variable {k : Constraint} {id name new : String}

/-- A constraint without the column that it refers to. -/
def withoutTarget : Constraint → Constraint
  | .foreignKey name column references _ => .foreignKey name column references ""
  | k => k

theorem name_withoutTarget : k.withoutTarget.name = k.name := by cases k <;> rfl

theorem isPrimaryKey_withoutTarget : k.withoutTarget.isPrimaryKey = k.isPrimaryKey := by
  cases k <;> rfl

theorem withoutTarget_followColumn :
    (k.followColumn name new).withoutTarget = k.withoutTarget.followColumn name new := by
  cases k <;> rfl

theorem withoutTarget_followReference :
    (k.followReference id name new).withoutTarget = k.withoutTarget := by cases k <;> rfl

end Constraint

namespace LiveTable

variable {t t' : LiveTable} {ks : List Constraint} {id name new : String}

/-- A table whose foreign keys do not say which columns they refer to. -/
def withoutTargets (t : LiveTable) : LiveTable :=
  { t with constraints := t.constraints.map (·.withoutTarget) }

/-- Tables that only differ in targets differ in constraints only. -/
theorem exists_constraints (h : t'.withoutTargets = t.withoutTargets) :
    ∃ ks, t' = { t with constraints := ks } ∧
      ks.map (·.withoutTarget) = t.constraints.map (·.withoutTarget) := by
  obtain ⟨id, name, columns, constraints, indices, created, pending⟩ := t
  obtain ⟨id', name', columns', constraints', indices', created', pending'⟩ := t'
  simp only [withoutTargets, mk.injEq] at h
  obtain ⟨rfl, rfl, rfl, hks, rfl, rfl, rfl⟩ := h
  exact ⟨constraints', rfl, hks⟩

theorem primaryKey?_withoutTargets : t.withoutTargets.primaryKey? = t.primaryKey? := by
  rw [primaryKey?, withoutTargets, List.findSome?_map, primaryKey?]
  congr 1
  funext k
  cases k <;> rfl

theorem withoutTargets_followReference :
    (t.followReference id name new).withoutTargets = t.withoutTargets := by
  simp only [withoutTargets, followReference, List.map_map]
  congr 1
  exact List.map_congr_left fun _ _ => Constraint.withoutTarget_followReference

end LiveTable

namespace TableEdit

/-- The name that an edit takes into use. -/
def takenName? : TableEdit → Option String
  | .constraint (.addPrimaryKey name _) => some name
  | .constraint (.addForeignKey name _ _ _) => some name
  | .index (.add _ name _) => some name
  | _ => none

/-- The name that an edit frees. -/
def freedName? : TableEdit → Option String
  | .constraint (.remove _ name) => some name
  | .index (.remove _ name) => some name
  | _ => none

end TableEdit

namespace LiveSchema

variable {c : Setting} {version id other name new : String} {s s' s₁ s₂ : LiveSchema}
  {t t' : LiveTable} {e : TableEdit} {operations : List Operation}

/-! ## The table with an id -/

/-- The table with an id, without targets. -/
def view? (s : LiveSchema) (id : String) : Option LiveTable :=
  (s.table? id).map (·.withoutTargets)

theorem view?_setTable (hs : s₁.tables = s.tables) (ht : s.table? t'.id = some t) :
    (s₁.setTable t').view? t'.id = some t'.withoutTargets := by
  have ht₁ : s₁.table? t'.id = some t := by rw [table?, hs, ← table?, ht]
  rw [view?, table?_setTable_self ht₁]
  rfl

theorem view?_setTable_of_ne (hs : s₁.tables = s.tables) (h : id ≠ t'.id) :
    (s₁.setTable t').view? id = s.view? id := by
  rw [view?, table?_setTable_of_ne h, table?, hs, ← table?, ← view?]

theorem view?_followReferences :
    (s.followReferences other name new).view? id = s.view? id := by
  rw [view?, table?_map (s := s) (f := (·.followReference other name new)) (fun _ => rfl) rfl,
    Option.map_map, view?]
  congr 1
  funext t
  exact LiveTable.withoutTargets_followReference

theorem outline?_eq_view? : s.outline? id = (s.view? id).map (·.outline) := by
  rw [view?, Option.map_map, outline?]
  rfl

/-! ## What an edit leaves alone -/

/-- Whether an edit of the table with an id has left all other tables as they were, and all names
but the one that it takes into use or frees. -/
structure Confined (id : String) (e : TableEdit) (s s' : LiveSchema) : Prop where
  others : ∀ other, other ≠ id → s'.view? other = s.view? other
  names : ∀ name, name ∈ s'.names ↔
    e.takenName? = some name ∨ (name ∈ s.names ∧ e.freedName? ≠ some name)

theorem Confined.keep (hs : s₁.tables = s.tables ∧ s₁.names = s.names) (hid : t'.id = id)
    (htaken : e.takenName? = none) (hfreed : e.freedName? = none) :
    Confined id e s (s₁.setTable t') where
  others other hother := view?_setTable_of_ne hs.1 (hid ▸ hother)
  names name := by
    rw [htaken, hfreed]
    show name ∈ s₁.names ↔ _
    simp [hs.2]

theorem Confined.gain (hr : s.reserve name = .ok s₁) (hid : t'.id = id)
    (htaken : e.takenName? = some name) (hfreed : e.freedName? = none) :
    Confined id e s (s₁.setTable t') := by
  obtain ⟨-, rfl⟩ := reserve_ok.mp hr
  refine ⟨fun other hother => view?_setTable_of_ne rfl (hid ▸ hother), fun n => ?_⟩
  rw [htaken, hfreed]
  show n ∈ name :: s.names ↔ _
  simp [eq_comm]

theorem Confined.lose (hid : t'.id = id) (htaken : e.takenName? = none)
    (hfreed : e.freedName? = some name) : Confined id e s ((s.release name).setTable t') where
  others other hother := view?_setTable_of_ne rfl (hid ▸ hother)
  names n := by
    rw [htaken, hfreed]
    show n ∈ s.names.filter (· != name) ↔ _
    rw [List.mem_filter, bne_iff_ne, ne_comm]
    simp

theorem Confined.followReferences (h : Confined id e s s') :
    Confined id e s (s'.followReferences other name new) :=
  ⟨fun other hother => view?_followReferences.trans (h.others other hother), h.names⟩

/-- An edit changes its own table only, and uses its own name only. -/
theorem Effect.confined (he : Effect c version s t e s' operations) : Confined t.id e s s' := by
  have hsame : e.takenName? = none → e.freedName? = none → Confined t.id e s s := by
    intro htaken hfreed
    exact ⟨fun _ _ => rfl, fun name => by simp [htaken, hfreed]⟩
  cases he with
  | create h =>
    obtain ⟨-, s₁, columns, hd, rfl, -⟩ := createTable_ok.mp h
    exact .keep (declareAll_frame hd) rfl rfl rfl
  | rename =>
    unfold renameTable
    split
    · exact hsame rfl rfl
    · split
      · exact hsame rfl rfl
      · exact .keep ⟨rfl, rfl⟩ rfl rfl rfl
  | addProperty h =>
    obtain ⟨-, s₁, column, hd, rfl, -⟩ := addProperty_ok.mp h
    exact .keep (declare_frame hd) rfl rfl rfl
  | renameProperty h =>
    obtain ⟨before, column, -, -, -, rfl, -⟩ := renameProperty_ok.mp h
    exact .followReferences (.keep ⟨rfl, rfl⟩ rfl rfl rfl)
  | retypeProperty h =>
    obtain ⟨before, after, s₁, statements, -, -, -, hd, -, rfl, -⟩ := retypeProperty_ok.mp h
    exact .keep (declare_frame hd) rfl rfl rfl
  | removeProperty h =>
    obtain ⟨-, rfl, -⟩ := removeProperty_ok.mp h
    exact .keep ⟨rfl, rfl⟩ rfl rfl rfl
  | addPrimaryKey h =>
    obtain ⟨-, -, -, s₁, hr, rfl, -⟩ := addPrimaryKey_ok.mp h
    exact .gain hr rfl rfl rfl
  | addForeignKey h =>
    obtain ⟨own, target, s₁, -, -, -, -, -, hr, rfl, -⟩ := addForeignKey_ok.mp h
    exact .gain hr rfl rfl rfl
  | removePrimaryKey h =>
    obtain ⟨key, -, -, rfl, -⟩ := removePrimaryKey_ok.mp h
    exact .lose rfl rfl rfl
  | removeForeignKey h =>
    obtain ⟨-, rfl, -⟩ := removeForeignKey_ok.mp h
    exact .lose rfl rfl rfl
  | addIndex h =>
    obtain ⟨-, -, -, s₁, hr, rfl, -⟩ := addIndex_ok.mp h
    exact .gain hr rfl rfl rfl
  | removeIndex h =>
    obtain ⟨-, rfl, -⟩ := removeIndex_ok.mp h
    exact .lose rfl rfl rfl

/-! ## Agreement -/

/-- Whether two schemas have the same table with an id, and the same of the names that belong to
it. -/
structure Agree (owned : String → List String) (id : String) (s s' : LiveSchema) : Prop where
  view : s'.view? id = s.view? id
  names : ∀ name ∈ owned id, name ∈ s'.names ↔ name ∈ s.names

variable {owned : String → List String}

theorem Agree.refl (s : LiveSchema) : Agree owned id s s := ⟨rfl, fun _ _ => Iff.rfl⟩

theorem Agree.symm (h : Agree owned id s s') : Agree owned id s' s :=
  ⟨h.view.symm, fun name hname => (h.names name hname).symm⟩

theorem Agree.trans (h : Agree owned id s s₁) (h₁ : Agree owned id s₁ s₂) :
    Agree owned id s s₂ :=
  ⟨h₁.view.trans h.view, fun name hname => (h₁.names name hname).trans (h.names name hname)⟩

theorem Agree.outline (h : Agree owned id s s') : s'.outline? id = s.outline? id := by
  rw [outline?_eq_view?, h.view, outline?_eq_view?]

/-- Where two schemas agree, their tables only differ in targets. -/
theorem Agree.exists_table? (h : Agree owned id s s') (ht : s.table? id = some t) :
    ∃ ks, s'.table? id = some { t with constraints := ks } ∧
      ks.map (·.withoutTarget) = t.constraints.map (·.withoutTarget) := by
  have hview : (s'.table? id).map (·.withoutTargets) = some t.withoutTargets := by
    rw [← view?, h.view, view?, ht]
    rfl
  obtain ⟨t', ht', hsame⟩ := Option.map_eq_some_iff.mp hview
  obtain ⟨ks, rfl, hks⟩ := LiveTable.exists_constraints hsame
  exact ⟨ks, ht', hks⟩

/-- Where edits are confined to a table, two schemas agree about any other. -/
theorem Confined.agree (hc : Confined id e s s') (hid : other ≠ id)
    (howned : ∀ name, e.takenName? = some name ∨ e.freedName? = some name →
      name ∉ owned other) : Agree owned other s s' := by
  refine ⟨hc.others other hid, fun name hname => ?_⟩
  have hown := fun h => howned name h hname
  rw [hc.names]
  grind

end LiveSchema

end SchemaEvolution
