import SchemaEvolution.Proofs.Walk.Tables

/-!
# One edit at a time

All that a walk does is made of edits of one table. `LiveSchema.edit` makes a single one, and
`Effect` lists what it can amount to; a proof about every edit is a case analysis on `Effect`.
-/

namespace SchemaEvolution

/-- What can be done to a table, one thing at a time. -/
inductive TableEdit where
  /-- The first step creates the table. -/
  | create (step : TableStep)
  /-- Renames the table, if there is a name and the table has another one. -/
  | rename (name : Option String)
  | property (edit : PropertyEdit)
  | constraint (edit : ConstraintEdit)
  | index (edit : IndexEdit)
  deriving DecidableEq, Repr

namespace TableEdit

def isCreation : TableEdit → Bool
  | .create _ => true
  | _ => false

/-- The column that an edit removes. -/
def removedColumn? : TableEdit → Option String
  | .property (.remove name) => some name
  | _ => none

/-- What the description of an edit begins with. -/
def heading : TableEdit → String
  | .create _ => "create-table-"
  | .rename _ => "rename-table-"
  | .property (.add _ _) => "add-column-"
  | .property (.rename _ _) => "rename-column-"
  | .property (.retype _ _) => "retype-column-"
  | .property (.remove _) => "remove-column-"
  | .constraint (.addPrimaryKey _ _) => "add-primary-key-"
  | .constraint (.addForeignKey _ _ _ _) => "add-foreign-key-"
  | .constraint (.remove .primary _) => "remove-primary-key-"
  | .constraint (.remove .foreign _) => "remove-foreign-key-"
  | .index (.add _ _ _) => "add-index-"
  | .index (.remove _ _) => "remove-index-"

/-- Whether an operation may come from an edit at a version. -/
structure Accounts (e : TableEdit) (version : String) (o : Operation) : Prop where
  version : o.version = version
  heading : ∃ rest, o.description = e.heading ++ rest

end TableEdit

namespace LiveSchema

/-- Makes an edit in the table with an id. A table is created once, and nothing else is done to it
before that. -/
def edit (c : Setting) (version : String) (s : LiveSchema) (e : String × TableEdit) : Outcome :=
  s.withTable e.1 fun t =>
    if e.2.isCreation = t.created then .ok (s, [])
    else
      match e.2 with
      | .create step => s.createTable c version t step
      | .rename name => .ok (s.renameTable c version t name)
      | .property edit => s.editProperty c version e.1 edit
      | .constraint edit => s.editConstraint c version e.1 edit
      | .index edit => s.editIndex c version e.1 edit

/-- What an edit of the table `t` amounts to, one case for each thing that can be done. -/
inductive Effect (c : Setting) (version : String) (s : LiveSchema) (t : LiveTable) :
    TableEdit → LiveSchema → List Operation → Prop
  | create {step s' operations} (h : s.createTable c version t step = .ok (s', operations)) :
      Effect c version s t (.create step) s' operations
  | rename {name} :
      Effect c version s t (.rename name) (s.renameTable c version t name).1
        (s.renameTable c version t name).2
  | addProperty {name shape s' operations}
      (h : s.addProperty c version t ⟨name, shape⟩ = .ok (s', operations)) :
      Effect c version s t (.property (.add name shape)) s' operations
  | renameProperty {name new s' operations}
      (h : s.renameProperty c version t name new = .ok (s', operations)) :
      Effect c version s t (.property (.rename name new)) s' operations
  | retypeProperty {name shape s' operations}
      (h : s.retypeProperty c version t ⟨name, shape⟩ = .ok (s', operations)) :
      Effect c version s t (.property (.retype name shape)) s' operations
  | removeProperty {name s' operations}
      (h : s.removeProperty c version t name = .ok (s', operations)) :
      Effect c version s t (.property (.remove name)) s' operations
  | addPrimaryKey {name columns s' operations}
      (h : s.addPrimaryKey c version t name columns = .ok (s', operations)) :
      Effect c version s t (.constraint (.addPrimaryKey name columns)) s' operations
  | addForeignKey {name column references referencedColumn s' operations}
      (h : s.addForeignKey c version t name column references referencedColumn
        = .ok (s', operations)) :
      Effect c version s t (.constraint (.addForeignKey name column references referencedColumn))
        s' operations
  | removePrimaryKey {name s' operations}
      (h : s.removePrimaryKey c version t name = .ok (s', operations)) :
      Effect c version s t (.constraint (.remove .primary name)) s' operations
  | removeForeignKey {name s' operations}
      (h : s.removeForeignKey c version t name = .ok (s', operations)) :
      Effect c version s t (.constraint (.remove .foreign name)) s' operations
  | addIndex {kind name columns s' operations}
      (h : s.addIndex c version t kind name columns = .ok (s', operations)) :
      Effect c version s t (.index (.add kind name columns)) s' operations
  | removeIndex {kind name s' operations}
      (h : s.removeIndex c version t name = .ok (s', operations)) :
      Effect c version s t (.index (.remove kind name)) s' operations

variable {c : Setting} {version id : String} {s s' : LiveSchema} {e : TableEdit}
  {operations : List Operation}

/-! ## Edits of one kind -/

section

variable {t : LiveTable}

theorem editProperty_ok {edit : PropertyEdit} (ht : s.table? id = some t) :
    s.editProperty c version id edit = .ok (s', operations) ↔
      Effect c version s t (.property edit) s' operations := by
  simp only [editProperty, withTable, ht]
  cases edit with
  | add name shape => exact ⟨.addProperty, fun | .addProperty h => h⟩
  | rename name new => exact ⟨.renameProperty, fun | .renameProperty h => h⟩
  | retype name shape => exact ⟨.retypeProperty, fun | .retypeProperty h => h⟩
  | remove name => exact ⟨.removeProperty, fun | .removeProperty h => h⟩

theorem editConstraint_ok {edit : ConstraintEdit} (ht : s.table? id = some t) :
    s.editConstraint c version id edit = .ok (s', operations) ↔
      Effect c version s t (.constraint edit) s' operations := by
  simp only [editConstraint, withTable, ht]
  cases edit with
  | addPrimaryKey name columns => exact ⟨.addPrimaryKey, fun | .addPrimaryKey h => h⟩
  | addForeignKey name column references referencedColumn =>
    exact ⟨.addForeignKey, fun | .addForeignKey h => h⟩
  | remove kind name =>
    cases kind with
    | primary => exact ⟨.removePrimaryKey, fun | .removePrimaryKey h => h⟩
    | foreign => exact ⟨.removeForeignKey, fun | .removeForeignKey h => h⟩

theorem editIndex_ok {edit : IndexEdit} (ht : s.table? id = some t) :
    s.editIndex c version id edit = .ok (s', operations) ↔
      Effect c version s t (.index edit) s' operations := by
  simp only [editIndex, withTable, ht]
  cases edit with
  | add kind name columns => exact ⟨.addIndex, fun | .addIndex h => h⟩
  | remove kind name => exact ⟨.removeIndex, fun | .removeIndex h => h⟩

end

/-! ## Any edit -/

/-- An edit that succeeds has an effect on the table, or there is nothing to be edited. -/
theorem edit_ok (h : s.edit c version (id, e) = .ok (s', operations)) :
    (s' = s ∧ operations = [] ∧ ∀ t, s.table? id = some t → e.isCreation = t.created) ∨
      ∃ t, s.table? id = some t ∧ t.created = !e.isCreation ∧
        Effect c version s t e s' operations := by
  unfold edit withTable at h
  cases ht : s.table? id with
  | none =>
    rw [ht] at h
    obtain ⟨rfl, rfl⟩ := Prod.mk.inj (Except.ok.inj h)
    exact Or.inl ⟨rfl, rfl, by simp⟩
  | some t =>
    simp only [ht] at h
    split at h
    · next hc =>
      obtain ⟨rfl, rfl⟩ := Prod.mk.inj (Except.ok.inj h)
      exact Or.inl ⟨rfl, rfl, by simpa using hc⟩
    · next hc =>
      refine Or.inr ⟨t, rfl, (Bool.not_eq.mpr hc).symm, ?_⟩
      -- where the table is looked up again, it is found again
      cases e with
      | create step => exact .create h
      | rename name =>
        obtain ⟨rfl, rfl⟩ := Prod.mk.inj (Except.ok.inj h)
        exact .rename
      | property edit => exact (editProperty_ok ht).mp h
      | constraint edit => exact (editConstraint_ok ht).mp h
      | index edit => exact (editIndex_ok ht).mp h

/-- An effect on a table is an edit of it. -/
theorem edit_of_effect {t : LiveTable} (ht : s.table? id = some t)
    (hc : t.created = !e.isCreation) (he : Effect c version s t e s' operations) :
    s.edit c version (id, e) = .ok (s', operations) := by
  have hne : ¬ e.isCreation = t.created := by simp [hc]
  simp only [edit, withTable, ht, if_neg hne]
  cases e with
  | create step => cases he with | create h => exact h
  | rename name => cases he with | rename => rfl
  | property edit => exact (editProperty_ok ht).mpr he
  | constraint edit => exact (editConstraint_ok ht).mpr he
  | index edit => exact (editIndex_ok ht).mpr he

/-- All that an edit does is described as what it is, at its version. -/
theorem Effect.accounts {t : LiveTable} (he : Effect c version s t e s' operations) :
    ∀ o ∈ operations, e.Accounts version o := by
  -- an edit does what it does in one operation
  have hsingle : ∀ o : Operation, e.Accounts version o → ∀ o' ∈ [o], e.Accounts version o' :=
    fun o ho o' ho' => List.mem_singleton.mp ho' ▸ ho
  cases he with
  | create h =>
    obtain ⟨-, _, _, -, -, rfl⟩ := createTable_ok.mp h
    exact hsingle _ ⟨rfl, _, rfl⟩
  | rename =>
    unfold renameTable
    split
    · exact fun _ ho => absurd ho List.not_mem_nil
    · split
      · exact fun _ ho => absurd ho List.not_mem_nil
      · exact hsingle _ ⟨rfl, _, rfl⟩
  | addProperty h =>
    obtain ⟨-, _, _, -, -, rfl⟩ := addProperty_ok.mp h
    exact hsingle _ ⟨rfl, _, by rw [String.append_assoc, String.append_assoc]; rfl⟩
  | renameProperty h =>
    obtain ⟨_, _, -, -, -, -, rfl⟩ := renameProperty_ok.mp h
    exact hsingle _ ⟨rfl, _, by rw [String.append_assoc, String.append_assoc]; rfl⟩
  | retypeProperty h =>
    obtain ⟨_, _, _, _, -, -, -, -, -, -, rfl⟩ := retypeProperty_ok.mp h
    exact hsingle _ ⟨rfl, _, by rw [String.append_assoc, String.append_assoc]; rfl⟩
  | removeProperty h =>
    obtain ⟨-, -, rfl⟩ := removeProperty_ok.mp h
    exact hsingle _ ⟨rfl, _, by rw [String.append_assoc, String.append_assoc]; rfl⟩
  | addPrimaryKey h =>
    obtain ⟨-, -, -, _, -, -, rfl⟩ := addPrimaryKey_ok.mp h
    exact hsingle _ ⟨rfl, _, rfl⟩
  | addForeignKey h =>
    obtain ⟨_, _, _, -, -, -, -, -, -, -, rfl⟩ := addForeignKey_ok.mp h
    exact hsingle _ ⟨rfl, _, rfl⟩
  | removePrimaryKey h =>
    obtain ⟨_, -, -, -, rfl⟩ := removePrimaryKey_ok.mp h
    exact hsingle _ ⟨rfl, _, rfl⟩
  | removeForeignKey h =>
    obtain ⟨-, -, rfl⟩ := removeForeignKey_ok.mp h
    exact hsingle _ ⟨rfl, _, rfl⟩
  | addIndex h =>
    obtain ⟨-, -, -, _, -, -, rfl⟩ := addIndex_ok.mp h
    exact hsingle _ ⟨rfl, _, rfl⟩
  | removeIndex h =>
    obtain ⟨-, -, rfl⟩ := removeIndex_ok.mp h
    exact hsingle _ ⟨rfl, _, rfl⟩

theorem edit_accounts {e : String × TableEdit} (h : s.edit c version e = .ok (s', operations)) :
    ∀ o ∈ operations, e.2.Accounts version o := by
  rcases edit_ok h with ⟨-, rfl, -⟩ | ⟨t, -, -, he⟩
  · exact fun _ ho => absurd ho List.not_mem_nil
  · exact he.accounts

end LiveSchema

end SchemaEvolution
