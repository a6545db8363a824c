import SchemaEvolution.Proofs.Walk.Outline

/-!
# Versions as lists of edits

At a version, the edits of all tables are made in three rounds. Laid end to end they are a script,
and advancing to the version is making the edits of the script one by one. The script only depends
on the steps that are due: it lists the creation of a table after its other edits, of which those
before the creation are idle for a new table, and the creation is idle for a table that is there.
-/

namespace SchemaEvolution

namespace TableStep

/-- The first of the steps to come, if it is one at a version. -/
def due? (version : String) : List TableStep → Option TableStep
  | [] => none
  | step :: _ => if step.version = version then some step else none

/-- The steps that are still to come after a version. -/
def beyond (version : String) : List TableStep → List TableStep
  | [] => []
  | step :: steps => if step.version = version then steps else step :: steps

end TableStep

theorem LiveTable.takeStep?_eq {t : LiveTable} {version : String} :
    t.takeStep? version = (TableStep.due? version t.pending).map
      (·, { t with pending := TableStep.beyond version t.pending }) := by
  unfold takeStep? TableStep.due? TableStep.beyond
  cases ht : t.pending with
  | nil => rfl
  | cons step steps => by_cases h : step.version = version <;> simp [h]

theorem TableStep.due?_eq_some {version : String} {steps : List TableStep} {step : TableStep}
    (h : due? version steps = some step) : ∃ rest, steps = step :: rest := by
  unfold due? at h
  split at h
  · cases h
  · split at h
    · exact ⟨_, by rw [Option.some.inj h]⟩
    · cases h

theorem TableStep.beyond_of_due? {version : String} {steps : List TableStep}
    (h : due? version steps = none) : beyond version steps = steps := by
  unfold due? at h
  unfold beyond
  split at h
  · rfl
  · split at h
    · cases h
    · next hne => exact if_neg hne

/-- Steps at other versions may follow. -/
theorem TableStep.due?_append {version : String} {steps later : List TableStep}
    (h : ∀ step ∈ later, step.version ≠ version) :
    due? version (steps ++ later) = due? version steps ∧
      beyond version (steps ++ later) = beyond version steps ++ later := by
  cases steps with
  | cons step steps =>
    refine ⟨rfl, ?_⟩
    simp only [List.cons_append, beyond]
    split <;> rfl
  | nil =>
    cases later with
    | nil => exact ⟨rfl, rfl⟩
    | cons step later =>
      have hne : step.version ≠ version := h step List.mem_cons_self
      exact ⟨if_neg hne, if_neg hne⟩

/-- What a step does to a table itself, and to its properties. -/
def TableStep.tableEdits (step : TableStep) : List TableEdit :=
  .rename step.name :: step.properties.map .property ++ [.create step]

/-- Renaming a table and editing its properties creates nothing. -/
theorem TableEdit.isCreation_of_mem {name : Option String} {edits : List PropertyEdit}
    {e : TableEdit} (he : e ∈ .rename name :: edits.map .property) : e.isCreation = false := by
  rcases List.mem_cons.mp he with rfl | he
  · rfl
  · obtain ⟨edit, -, rfl⟩ := List.mem_map.mp he
    rfl

def TableStep.constraintEdits (step : TableStep) : List TableEdit :=
  step.constraints.map .constraint

def TableStep.indexEdits (step : TableStep) : List TableEdit := step.indices.map .index

/-- The edits that one round takes from the steps that are due. -/
def round (edits : TableStep → List TableEdit) (due : List (String × TableStep)) :
    List (String × TableEdit) :=
  due.flatMap fun d => (edits d.2).map (d.1, ·)

/-- The edits of all steps that are due, in the order in which they are made. -/
def script (due : List (String × TableStep)) : List (String × TableEdit) :=
  round TableStep.tableEdits due ++ round TableStep.constraintEdits due
    ++ round TableStep.indexEdits due

theorem mem_script {due : List (String × TableStep)} {e : String × TableEdit}
    (h : e ∈ script due) : ∃ d ∈ due, d.1 = e.1 := by
  have hround : ∀ edits : TableStep → List TableEdit,
      e ∈ round edits due → ∃ d ∈ due, d.1 = e.1 := by
    intro edits he
    obtain ⟨d, hd, he⟩ := List.mem_flatMap.mp he
    obtain ⟨edit, -, rfl⟩ := List.mem_map.mp he
    exact ⟨d, hd, rfl⟩
  rcases List.mem_append.mp h with h | h
  · rcases List.mem_append.mp h with h | h
    · exact hround _ h
    · exact hround _ h
  · exact hround _ h

namespace LiveSchema

variable {c : Setting} {version id : String} {s s' : LiveSchema} {t : LiveTable}
  {e : TableEdit} {d : String × TableStep} {due : List (String × TableStep)}
  {operations : List Operation}

/-! ## Steps that are due -/

theorem takeDue_tables : (s.takeDue version).1.tables
    = s.tables.map fun t => { t with pending := TableStep.beyond version t.pending } := by
  refine List.map_congr_left fun t _ => ?_
  rw [LiveTable.takeStep?_eq]
  cases h : TableStep.due? version t.pending with
  | none => rw [TableStep.beyond_of_due? h]; rfl
  | some step => rfl

theorem takeDue_due : (s.takeDue version).2
    = s.tables.filterMap fun t => (TableStep.due? version t.pending).map (t.id, ·) := by
  refine congrArg (List.filterMap · s.tables) (funext fun t => ?_)
  rw [LiveTable.takeStep?_eq, Option.map_map]
  rfl

theorem ids_takeDue : (s.takeDue version).1.ids = s.ids := by
  rw [ids, takeDue_tables, List.map_map]
  rfl

/-- Only tables of the schema have steps that are due. -/
theorem mem_ids_of_due (hd : d ∈ (s.takeDue version).2) : d.1 ∈ s.ids := by
  rw [takeDue_due] at hd
  obtain ⟨t, ht, hdue⟩ := List.mem_filterMap.mp hd
  obtain ⟨step, -, rfl⟩ := Option.map_eq_some_iff.mp hdue
  exact List.mem_map_of_mem ht

/-- The schema in which the steps of a version are no longer to come is still sound. -/
theorem Sound.takeDue (h : s.Sound) : (s.takeDue version).1.Sound :=
  h.map takeDue_tables rfl fun _ => ⟨rfl, rfl, rfl, rfl, rfl⟩

/-! ## Tables that are there -/

/-- Whether the table with an id, if there is one, has been created. -/
def Ready (s : LiveSchema) (id : String) : Prop := ∀ o, s.outline? id = some o → o.created = true

theorem Ready.created (hr : s.Ready id) (ht : s.table? id = some t) : t.created = true :=
  hr t.outline (by rw [outline?, ht]; rfl)

/-- A table that has been created is never taken back. -/
theorem Ready.edit {id' : String} (hr : s.Ready id') (h : s.Sound)
    (he : s.edit c version (id, e) = .ok (s', operations)) : s'.Ready id' := by
  intro o' ho'
  rw [outline?_edit h he] at ho'
  obtain ⟨o, ho, rfl⟩ := Option.map_eq_some_iff.mp ho'
  have hc : o.created = true := hr o ho
  split
  · unfold Outline.after
    split
    · exact hc
    · rfl
  · exact hc

theorem ready_of_creation {step : TableStep} (h : s.Sound)
    (he : s.edit c version (id, .create step) = .ok (s', operations)) : s'.Ready id := by
  intro o' ho'
  rw [outline?_edit h he] at ho'
  obtain ⟨o, -, rfl⟩ := Option.map_eq_some_iff.mp ho'
  rw [if_pos rfl, Outline.after]
  split
  · next hc => exact hc.symm
  · rfl

/-- Nothing happens when a table is created again, or edited before it is created. -/
theorem edit_idle (h : ∀ t, s.table? id = some t → e.isCreation = t.created) :
    s.edit c version (id, e) = .ok (s, []) := by
  unfold LiveSchema.edit withTable
  cases ht : s.table? id with
  | none => rfl
  | some t => exact if_pos (h t ht)

theorem edit_property {edit : PropertyEdit} (hr : s.Ready id) :
    s.edit c version (id, .property edit) = s.editProperty c version id edit := by
  unfold LiveSchema.edit withTable
  cases ht : s.table? id with
  | none => simp [editProperty, withTable, ht]
  | some t => simp [TableEdit.isCreation, hr.created ht]

theorem edit_constraint {edit : ConstraintEdit} (hr : s.Ready id) :
    s.edit c version (id, .constraint edit) = s.editConstraint c version id edit := by
  unfold LiveSchema.edit withTable
  cases ht : s.table? id with
  | none => simp [editConstraint, withTable, ht]
  | some t => simp [TableEdit.isCreation, hr.created ht]

theorem edit_index {edit : IndexEdit} (hr : s.Ready id) :
    s.edit c version (id, .index edit) = s.editIndex c version id edit := by
  unfold LiveSchema.edit withTable
  cases ht : s.table? id with
  | none => simp [editIndex, withTable, ht]
  | some t => simp [TableEdit.isCreation, hr.created ht]

/-! ## From rounds to scripts -/

/-- A table that is there is renamed, its properties are edited, and the creation is idle. -/
theorem tableEdits_of_created {step : TableStep} (h : s.Sound) (ht : s.table? id = some t)
    (hc : t.created = true) :
    forEach (edit c version) s (step.tableEdits.map (id, ·)) = .ok (s', operations) ↔
      ∃ edits, forEach (editProperty c version id) (s.renameTable c version t step.name).1
          step.properties = .ok (s', edits) ∧
        operations = (s.renameTable c version t step.name).2 ++ edits := by
  have hrename : s.edit c version (id, .rename step.name)
      = .ok (s.renameTable c version t step.name) := by
    simp [LiveSchema.edit, withTable, ht, hc, TableEdit.isCreation]
  have hready : s.Ready id := by
    intro o ho
    rw [outline?, ht] at ho
    exact Option.some.inj ho ▸ hc
  have hafter := And.intro (h.edit hrename) (hready.edit h hrename)
  have hprops : forEach (edit c version) (s.renameTable c version t step.name).1
        ((step.properties.map .property).map (id, ·))
      = forEach (editProperty c version id) (s.renameTable c version t step.name).1
          step.properties := by
    rw [List.map_map, forEach_map]
    exact (forEach_eq (P := fun s => s.Sound ∧ s.Ready id)
      (fun s e _ hs => (edit_property hs.2).symm)
      (fun s e s' _ _ hs he => ⟨hs.1.edit he, hs.2.edit hs.1 he⟩) hafter).symm
  have hcreate : ∀ s₂ edits, forEach (edit c version) (s.renameTable c version t step.name).1
      ((step.properties.map .property).map (id, ·)) = .ok (s₂, edits) →
        s₂.edit c version (id, .create step) = .ok (s₂, []) := by
    intro s₂ edits he
    have hready₂ := (forEach_invariant (P := fun s => s.Sound ∧ s.Ready id)
      (fun s e s' _ _ hs he => ⟨hs.1.edit he, hs.2.edit hs.1 he⟩) hafter he).2
    exact edit_idle fun t ht => (hready₂.created ht).symm
  rw [TableStep.tableEdits, List.map_append, List.map_cons, forEach_append_ok, ← hprops]
  constructor
  · rintro ⟨s₂, front, last, hfront, hlast, rfl⟩
    obtain ⟨s₁, first, edits, h₁, h₂, rfl⟩ := forEach_cons_ok.mp hfront
    obtain ⟨rfl, rfl⟩ := Prod.mk.inj (Except.ok.inj (hrename.symm.trans h₁))
    obtain ⟨s₃, second, rest, h₃, h₄, rfl⟩ := forEach_cons_ok.mp hlast
    obtain ⟨rfl, rfl⟩ := Prod.mk.inj (Except.ok.inj ((hcreate s₂ edits h₂).symm.trans h₃))
    obtain ⟨rfl, rfl⟩ := forEach_nil_ok.mp h₄
    exact ⟨edits, h₂, List.append_nil _⟩
  · rintro ⟨edits, hedits, rfl⟩
    exact ⟨s', _, [], forEach_cons_ok.mpr ⟨_, _, edits, hrename, hedits, rfl⟩,
      forEach_cons_ok.mpr ⟨s', [], [], hcreate s' edits hedits, rfl, rfl⟩,
      (List.append_nil _).symm⟩

/-- For a table that is new, all that comes before the creation is idle. -/
theorem tableEdits_of_new {step : TableStep} (ht : s.table? id = some t)
    (hc : t.created = false) :
    forEach (edit c version) s (step.tableEdits.map (id, ·)) = .ok (s', operations) ↔
      s.createTable c version t step = .ok (s', operations) := by
  have hidle : forEach (edit c version) s
      ((.rename step.name :: step.properties.map .property).map (id, ·)) = .ok (s, []) := by
    refine forEach_idle fun a ha => ?_
    obtain ⟨e, he, rfl⟩ := List.mem_map.mp ha
    refine edit_idle fun u hu => ?_
    obtain rfl := Option.some.inj (ht.symm.trans hu)
    rw [hc, TableEdit.isCreation_of_mem he]
  have hcreate : s.edit c version (id, .create step) = s.createTable c version t step := by
    simp [LiveSchema.edit, withTable, ht, hc, TableEdit.isCreation]
  rw [TableStep.tableEdits, List.map_append, forEach_append_ok, ← hcreate]
  constructor
  · rintro ⟨s₁, front, last, hfront, hlast, rfl⟩
    obtain ⟨rfl, rfl⟩ := Prod.mk.inj (Except.ok.inj (hidle.symm.trans hfront))
    obtain ⟨s₂, first, rest, h₁, h₂, rfl⟩ := forEach_cons_ok.mp hlast
    obtain ⟨rfl, rfl⟩ := forEach_nil_ok.mp h₂
    rw [List.nil_append, List.append_nil]
    exact h₁
  · intro he
    exact ⟨s, [], operations, hidle,
      forEach_cons_ok.mpr ⟨s', operations, [], he, rfl, (List.append_nil _).symm⟩, rfl⟩

/-- What a step does to its table is done by the edits of the step. -/
theorem editTable_script (h : s.Sound) :
    forEach (edit c version) s (d.2.tableEdits.map (d.1, ·)) = .ok (s', operations) ↔
      s.editTable c version d = .ok (s', operations) := by
  obtain ⟨id, step⟩ := d
  unfold editTable withTable
  cases ht : s.table? id with
  | none =>
    have hidle : forEach (edit c version) s (step.tableEdits.map (id, ·)) = .ok (s, []) := by
      refine forEach_idle fun a ha => ?_
      obtain ⟨e, -, rfl⟩ := List.mem_map.mp ha
      exact edit_idle (by simp [ht])
    exact iff_of_eq (congrArg (· = _) hidle)
  | some t =>
    simp only
    split
    · next hc =>
      rw [tableEdits_of_created h ht hc]
      simp only [Except.bind_ok, Except.pure_ok, Prod.exists, Prod.mk.injEq]
      constructor
      · rintro ⟨edits, hprops, rfl⟩
        exact ⟨s', edits, hprops, rfl, rfl⟩
      · rintro ⟨s₂, edits, hprops, rfl, rfl⟩
        exact ⟨edits, hprops, rfl⟩
    · next hc => exact tableEdits_of_new ht (eq_false_of_ne_true hc)

/-- After the edits of a step its table is there, if there is one: the creation comes last. -/
theorem ready_of_tableEdits (h : s.Sound)
    (he : forEach (edit c version) s (d.2.tableEdits.map (d.1, ·)) = .ok (s', operations)) :
    s'.Sound ∧ s'.Ready d.1 := by
  refine ⟨forEach_invariant (fun s a s' _ _ h => h.edit) h he, ?_⟩
  rw [TableStep.tableEdits, List.map_append] at he
  obtain ⟨s₁, first, rest, h₁, h₂, -⟩ := forEach_append_ok.mp he
  obtain ⟨s₂, _, _, h₃, h₄, -⟩ := forEach_cons_ok.mp h₂
  obtain ⟨rfl, -⟩ := forEach_nil_ok.mp h₄
  exact ready_of_creation (forEach_invariant (fun s a s' _ _ h => h.edit) h h₁) h₃

/-- The first round is made of the edits of tables. -/
theorem round_tableEdits (h : s.Sound) :
    forEach (edit c version) s (round TableStep.tableEdits due) = .ok (s', operations) ↔
      forEach (editTable c version) s due = .ok (s', operations) := by
  induction due generalizing s operations with
  | nil => rfl
  | cons d due ih =>
    rw [round, List.flatMap_cons, forEach_append_ok, forEach_cons_ok]
    constructor
    · rintro ⟨s₁, first, rest, h₁, h₂, rfl⟩
      exact ⟨s₁, first, rest, (editTable_script h).mp h₁,
        (ih (ready_of_tableEdits h h₁).1).mp h₂, rfl⟩
    · rintro ⟨s₁, first, rest, h₁, h₂, rfl⟩
      have h₁ := (editTable_script h).mpr h₁
      exact ⟨s₁, first, rest, h₁, (ih (ready_of_tableEdits h h₁).1).mpr h₂, rfl⟩

/-- After the first round the tables that have steps are there. -/
theorem ready_of_round (h : s.Sound)
    (he : forEach (edit c version) s (round TableStep.tableEdits due) = .ok (s', operations)) :
    s'.Sound ∧ ∀ d ∈ due, s'.Ready d.1 := by
  induction due generalizing s operations with
  | nil =>
    obtain ⟨rfl, -⟩ := forEach_nil_ok.mp he
    exact ⟨h, by simp⟩
  | cons d due ih =>
    obtain ⟨s₁, first, rest, h₁, h₂, -⟩ := forEach_append_ok.mp he
    obtain ⟨hs₁, hready⟩ := ready_of_tableEdits h h₁
    obtain ⟨hs', hall⟩ := ih hs₁ h₂
    have hkept := forEach_invariant (P := fun s => s.Sound ∧ s.Ready d.1)
      (fun s a s' _ _ hs he => ⟨hs.1.edit he, hs.2.edit hs.1 he⟩) ⟨hs₁, hready⟩ h₂
    exact ⟨hs', List.forall_mem_cons.mpr ⟨hkept.2, hall⟩⟩

/-- Tables that are there stay there, whatever is edited. -/
theorem ready_of_edits {edits : List (String × TableEdit)}
    (h : s.Sound ∧ ∀ d ∈ due, s.Ready d.1)
    (he : forEach (edit c version) s edits = .ok (s', operations)) :
    s'.Sound ∧ ∀ d ∈ due, s'.Ready d.1 :=
  forEach_invariant (P := fun s => s.Sound ∧ ∀ d ∈ due, s.Ready d.1)
    (fun _ _ _ _ _ hs he => ⟨hs.1.edit he, fun d hd => (hs.2 d hd).edit hs.1 he⟩) h he

/-- The later rounds only concern tables that are there. -/
theorem round_later {α : Type} {f : String → LiveSchema → α → Outcome} (wrap : α → TableEdit)
    (items : TableStep → List α)
    (hf : ∀ s id a, s.Ready id → s.edit c version (id, wrap a) = f id s a)
    (h : s.Sound ∧ ∀ d ∈ due, s.Ready d.1) :
    forEach (edit c version) s (round (fun step => (items step).map wrap) due)
        = .ok (s', operations) ↔
      forEach (fun s d => forEach (f d.1) s (items d.2)) s due = .ok (s', operations) := by
  have hrounds : forEach (fun s d => forEach (f d.1) s (items d.2)) s due
      = forEach (fun s d => forEach (edit c version) s (((items d.2).map wrap).map (d.1, ·)))
          s due := by
    refine forEach_eq (P := fun s => s.Sound ∧ ∀ d ∈ due, s.Ready d.1) (fun s d hd hs => ?_)
      (fun s d s' _ _ hs he => ready_of_edits hs he) h
    rw [List.map_map, forEach_map]
    exact forEach_eq (P := fun s => s.Sound ∧ ∀ d ∈ due, s.Ready d.1)
      (fun s a _ hs => (hf s d.1 a (hs.2 d hd)).symm)
      (fun s a s' _ _ hs he => ⟨hs.1.edit he, fun d hd => (hs.2 d hd).edit hs.1 he⟩) hs
  rw [hrounds]
  exact forEach_flatMap.symm

/-- Advancing to a version is making the edits of its script. -/
theorem advance_script_iff (h : s.Sound) :
    forEach (edit c version) (s.takeDue version).1 (script (s.takeDue version).2)
        = .ok (s', operations) ↔
      s.advance c version = .ok (s', operations) := by
  simp only [advance, Except.bind_ok, Except.pure_ok, Prod.exists, Prod.mk.injEq, script,
    forEach_append_ok]
  constructor
  · rintro ⟨s₂, _, indices, ⟨s₁, properties, constraints, h₁, h₂, rfl⟩, h₃, rfl⟩
    have hr₁ := ready_of_round h.takeDue h₁
    have hr₂ := ready_of_edits hr₁ h₂
    exact ⟨s₁, properties, (round_tableEdits h.takeDue).mp h₁, s₂, constraints,
      (round_later .constraint (·.constraints) (fun s id a => edit_constraint) hr₁).mp h₂, s',
      indices, (round_later .index (·.indices) (fun s id a => edit_index) hr₂).mp h₃, rfl, rfl⟩
  · rintro ⟨s₁, properties, h₁, s₂, constraints, h₂, s₃, indices, h₃, rfl, rfl⟩
    have h₁ := (round_tableEdits h.takeDue).mpr h₁
    have hr₁ := ready_of_round h.takeDue h₁
    have h₂ := (round_later .constraint (·.constraints) (fun s id a => edit_constraint) hr₁).mpr h₂
    have hr₂ := ready_of_edits hr₁ h₂
    exact ⟨s₂, _, indices, ⟨s₁, properties, constraints, h₁, h₂, rfl⟩,
      (round_later .index (·.indices) (fun s id a => edit_index) hr₂).mpr h₃, rfl⟩

theorem advance_script (h : s.Sound) (he : s.advance c version = .ok (s', operations)) :
    forEach (edit c version) (s.takeDue version).1 (script (s.takeDue version).2)
      = .ok (s', operations) :=
  (advance_script_iff h).mpr he

theorem Sound.advance (h : s.Sound) (he : s.advance c version = .ok (s', operations)) : s'.Sound :=
  forEach_invariant (fun _ _ _ _ _ h => h.edit) h.takeDue (advance_script h he)

theorem Sound.walk {versions : List String} {w : Walk} (h : s.Sound)
    (hw : s.walk c versions = .ok w) : w.final.Sound :=
  forEach_invariant (fun _ _ _ _ _ h => h.advance) h (walk_ok hw)

/-- All that a walk does comes from edits, at the versions that it passes. -/
theorem walk_accounts {versions : List String} {w : Walk} (h : s.Sound)
    (hw : s.walk c versions = .ok w) :
    ∀ o ∈ w.operations, ∃ version ∈ versions, ∃ e : TableEdit, e.Accounts version o := by
  induction versions generalizing s w with
  | nil =>
    obtain rfl := Except.ok.inj hw
    exact fun _ ho => absurd ho List.not_mem_nil
  | cons version versions ih =>
    obtain ⟨s₁, first, w₁, h₁, h₂, rfl⟩ := walk_cons_ok.mp hw
    have hfirst : ∀ o ∈ first, ∃ e : TableEdit, e.Accounts version o :=
      forEach_operations (fun _ e _ _ _ he o ho => ⟨e.2, edit_accounts he o ho⟩)
        (advance_script h h₁)
    intro o ho
    rcases List.mem_append.mp ho with ho | ho
    · exact ⟨version, List.mem_cons_self, hfirst o ho⟩
    · obtain ⟨v, hv, he⟩ := ih (h.advance h₁) h₂ o ho
      exact ⟨v, List.mem_cons_of_mem _ hv, he⟩

/-- A walk says which columns of enum types there are before each version that it passes. -/
theorem walk_uses {versions : List String} {w : Walk} (hw : s.walk c versions = .ok w) :
    w.uses.map (·.1) = versions := by
  induction versions generalizing s w with
  | nil =>
    obtain rfl := Except.ok.inj hw
    rfl
  | cons version versions ih =>
    obtain ⟨s₁, first, w₁, h₁, h₂, rfl⟩ := walk_cons_ok.mp hw
    rw [List.map_cons, ih h₂]

end LiveSchema

end SchemaEvolution
