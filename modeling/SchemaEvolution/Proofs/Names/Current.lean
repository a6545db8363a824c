import Mathlib.Data.List.TakeWhile
import SchemaEvolution.Proofs.FinalTables
import SchemaEvolution.Proofs.Walk.Changes

/-!
# The names that tables go by

A table goes by the last name that its history has given it so far. How far the histories have come
when a property is edited depends on the order of the tables: at a version, the tables that stand
before the one that is edited have had their steps, and those after it have not.

A walk keeps the tables in their order, so what stands before a table in a schema is what stands
before it in the history. The edits that have been made at a version are cut off in the script where
the edit stands, and told apart by tables.
-/

namespace SchemaEvolution

/-! ## What a history says -/

namespace SchemaHistory

/-- Whether a table has its turn at a version no later than another one. -/
def upTo (h : SchemaHistory) (current id : String) : Bool :=
  id == current || id ∈ (h.tables.map (·.id)).takeWhile (· != current)

/-- The name that a table has been given last when another one has its turn at a version, if it has
been given one by then. -/
def nameDuring? (h : SchemaHistory) (version current id : String) : Option String :=
  (h.table? id).bind fun t =>
    ((t.steps.filter fun step =>
      step.version < version || (step.version == version && h.upTo current id)).filterMap
        (·.name)).getLast?

end SchemaHistory

/-- Of the steps of a table whose labels ascend, those that count at a version are the steps before
it, and the one at the version if it counts. -/
theorem TableStep.filter_reached {version : String} {steps rest : List TableStep}
    {passed later : List String} {counts : Bool}
    (hv : (passed ++ version :: later).Pairwise (· < ·))
    (hp : rest.Pairwise (·.version < ·.version))
    (hpassed : ∀ step ∈ steps, step.version ∈ passed)
    (hlater : ∀ step ∈ rest, step.version ∈ version :: later) :
    (steps ++ rest).filter (fun step =>
        step.version < version || (step.version == version && counts))
      = steps ++ if counts then (due? version rest).toList else [] := by
  obtain ⟨-, hafter, hbefore⟩ := List.pairwise_append.mp hv
  have hsteps : ∀ step ∈ steps, step.version < version := fun step hs =>
    hbefore step.version (hpassed step hs) version List.mem_cons_self
  have hbeyond : ∀ v ∈ later, version < v := (List.pairwise_cons.mp hafter).1
  -- a step that comes after the version does not count
  have hnone : ∀ steps : List TableStep, (∀ step ∈ steps, step.version ∈ later) →
      steps.filter (fun step =>
        step.version < version || (step.version == version && counts)) = [] := by
    intro steps hs
    refine List.filter_eq_nil_iff.mpr fun step hstep => ?_
    have hlt := hbeyond step.version (hs step hstep)
    have hne : step.version ≠ version := fun he => String.lt_irrefl version (he ▸ hlt)
    simpa [hne] using String.lt_asymm hlt
  rw [List.filter_append, List.filter_eq_self.mpr fun step hs => by simp [hsteps step hs]]
  congr 1
  rcases LiveSchema.due_or_later hbeyond hp hlater with
    ⟨step, others, rfl, rfl, hothers⟩ | ⟨hdue, hall⟩
  · rw [List.filter_cons, hnone others hothers]
    cases counts <;> simp [due?]
  · rw [hnone rest hall, hdue]
    simp

/-- The step that is due, if there is one, comes before the steps to come after it. -/
theorem TableStep.due?_append_beyond (version : String) (steps : List TableStep) :
    (due? version steps).toList ++ beyond version steps = steps := by
  cases steps with
  | nil => rfl
  | cons step steps => by_cases h : step.version = version <;> simp [due?, beyond, h]

/-! ## What a schema says -/

/-- The name of a table, once it has been created. -/
def Outline.name? (o : Outline) : Option String := if o.created then some o.table.name else none

/-- A table that has been created goes by the name that it is given, and edits of properties do not
change that. -/
theorem Outline.name?_renamed {o : Outline} {name : Option String} {edits : List PropertyEdit} :
    ((.rename name :: edits.map .property).foldl after o).name?
      = o.name?.map fun old => name.getD old := by
  obtain ⟨t, created, pending⟩ := o
  cases created with
  | true =>
    show Outline.name? ((edits.map TableEdit.property).foldl after
      ⟨{ t with name := name.getD t.name }, true, pending⟩) = _
    rw [foldl_properties]
    rfl
  | false =>
    rw [foldl_idle fun e he => TableEdit.isCreation_of_mem he]
    rfl

namespace LiveSchema

variable {c : Setting} {version id other : String} {s s' : LiveSchema}
  {operations : List Operation}

/-- The name that the table with an id goes by, once it has been created. -/
def name? (s : LiveSchema) (id : String) : Option String := (s.outline? id).bind (·.name?)

/-- The names of the tables that have been created. -/
def currentNames (s : LiveSchema) : List String := (s.tables.filter (·.created)).map (·.name)

theorem mem_currentNames (hn : s.ids.Nodup) {name : String} :
    name ∈ s.currentNames ↔ ∃ id, s.name? id = some name := by
  simp only [currentNames, List.mem_map, List.mem_filter]
  constructor
  · rintro ⟨t, ⟨ht, hc⟩, rfl⟩
    refine ⟨t.id, ?_⟩
    rw [name?, outline?, table?_eq_of_mem hn ht]
    simp [LiveTable.outline, Outline.name?, LiveTable.final, hc]
  · rintro ⟨id, hid⟩
    obtain ⟨o, ho, hname⟩ := Option.bind_eq_some_iff.mp hid
    obtain ⟨t, ht, rfl⟩ := Option.map_eq_some_iff.mp ho
    simp only [Outline.name?, Option.ite_none_right_eq_some, Option.some.injEq] at hname
    exact ⟨t, ⟨(table?_eq_some ht).1, hname.1⟩, hname.2⟩

/-- Only in tables that have been created something is done to a property. -/
theorem table?_of_property {edit : PropertyEdit}
    (he : s.edit c version (id, .property edit) = .ok (s', operations))
    (hdone : operations ≠ []) : ∃ t, s.table? id = some t ∧ s.name? id = some t.name := by
  obtain ⟨-, hnone, -⟩ | ⟨t, ht, hc, -⟩ := edit_ok he
  · exact absurd hnone hdone
  · refine ⟨t, ht, ?_⟩
    rw [name?, outline?, ht]
    simp [LiveTable.outline, Outline.name?, LiveTable.final, hc, TableEdit.isCreation]

/-! ## The order of the tables -/

theorem ids_edits {edits : List (String × TableEdit)}
    (he : forEach (edit c version) s edits = .ok (s', operations)) : s'.ids = s.ids :=
  forEach_invariant (P := fun s' => s'.ids = s.ids)
    (fun _ _ _ _ _ hs he => (ids_edit he).trans hs) rfl he

theorem ids_walk {versions : List String} (h : s.Sound)
    (hw : forEach (advance c) s versions = .ok (s', operations)) : s'.ids = s.ids := by
  refine (forEach_invariant (P := fun s' => s'.Sound ∧ s'.ids = s.ids)
    (fun s₁ version s₂ operations _ hs he => ⟨hs.1.advance he, ?_⟩) ⟨h, rfl⟩ hw).2
  exact (ids_edits (advance_script hs.1 he)).trans (ids_takeDue.trans hs.2)

/-- The tables that a walk starts with stand as in the history. -/
theorem mem_takeWhile_tablesOf {ids : List String} {ts : List TableHistory}
    {tables : List LiveTable} (h : tablesOf ids ts = .ok tables) (hother : other ∉ ids)
    (hid : id ∉ ids) :
    id ∈ (tables.map (·.id)).takeWhile (· != other) ↔
      id ∈ (ts.map (·.id)).takeWhile (· != other) := by
  induction ts generalizing ids tables with
  | nil =>
    obtain rfl := Except.ok.inj h
    rfl
  | cons t ts ih =>
    rcases tablesOf_cons_ok.mp h with ⟨hin, h⟩ | ⟨-, u, us, hu, hus, rfl⟩
    · -- a table whose id has been seen stands for nothing
      have hne : t.id ≠ other := fun he => hother (he ▸ hin)
      have hne' : id ≠ t.id := fun he => hid (he ▸ hin)
      simpa [hne, hne'] using ih h hother hid
    · obtain ⟨-, -, -, -, -, -, rfl⟩ := LiveTable.ofHistory_ok hu
      by_cases hne : t.id = other
      · simp [hne]
      · by_cases heq : id = t.id
        · simp [heq, hne]
        · simpa [hne, heq] using
            ih hus (by simpa [Ne.symm hne] using hother) (by simpa [heq] using hid)

/-- The schema with the tables that stand before one of them only. -/
def before (s : LiveSchema) (other : String) : LiveSchema :=
  { s with tables := s.tables.takeWhile (·.id != other) }

theorem find?_takeWhile {tables : List LiveTable} :
    (tables.takeWhile (·.id != other)).find? (·.id == id)
      = if id ∈ (tables.map (·.id)).takeWhile (· != other) then tables.find? (·.id == id)
        else none := by
  induction tables with
  | nil => rfl
  | cons t tables ih =>
    by_cases hne : t.id = other
    · simp [hne]
    · have hne' : (t.id != other) = true := by simpa using hne
      simp only [List.map_cons, List.takeWhile_cons, hne', if_true]
      by_cases hid : t.id = id
      · simp [hid]
      · simp [hid, Ne.symm hid, ih]

theorem outline?_before : (s.before other).outline? id
    = if id ∈ s.ids.takeWhile (· != other) then s.outline? id else none := by
  rw [outline?, table?, before, find?_takeWhile, ← ids]
  split <;> rfl

/-- The steps that are due before that of a table are those of the tables before it. -/
theorem due_before {front back : List (String × TableStep)} {step : TableStep}
    (h : (s.takeDue version).2 = front ++ (id, step) :: back) (hn : s.ids.Nodup) :
    front = ((s.before id).takeDue version).2 := by
  rw [takeDue_due] at h ⊢
  obtain ⟨before, others, hs, rfl, hothers⟩ := List.filterMap_eq_append_iff.mp h
  obtain ⟨skipped, t, after, rfl, hskipped, ht, -⟩ := List.filterMap_eq_cons_iff.mp hothers
  obtain ⟨_, -, hd⟩ := Option.map_eq_some_iff.mp ht
  have hid : t.id = id := congrArg Prod.fst hd
  have hbefore : (s.before id).tables = before ++ skipped := by
    rw [LiveSchema.before, hs, ← List.append_assoc]
    rw [ids, hs, ← List.append_assoc, List.map_append, List.map_cons] at hn
    refine List.takeWhile_append_of_pos (fun u hu => ?_) |>.trans ?_
    · have hne := (List.nodup_append.mp hn).2.2 u.id (List.mem_map_of_mem hu) t.id
        List.mem_cons_self
      simpa [← hid] using hne
    · simp [hid]
  rw [hbefore, List.filterMap_append, List.filterMap_eq_nil_iff.mpr hskipped, List.append_nil]

end LiveSchema

/-! ## Where an edit of a property stands -/

section

variable {front back : List (String × TableEdit)} {due : List (String × TableStep)} {id : String}
  {edit : PropertyEdit}

theorem TableStep.split_of_property {step : TableStep} {front back : List TableEdit}
    (h : step.tableEdits = front ++ .property edit :: back) :
    ∃ passed : List PropertyEdit, front = .rename step.name :: passed.map .property := by
  cases front with
  | nil => cases (List.cons.inj h).1
  | cons e front =>
    obtain ⟨rfl, hrest⟩ := List.cons.inj h
    change step.properties.map .property ++ [.create step]
      = front ++ .property edit :: back at hrest
    -- the creation comes last, after all edits of properties
    rcases List.eq_nil_or_concat back with rfl | ⟨between, last, rfl⟩
    · cases (List.append_singleton_inj.mp hrest).2
    · rw [List.concat_eq_append, ← List.cons_append, ← List.append_assoc,
        List.append_singleton_inj] at hrest
      obtain ⟨passed, _, -, rfl, -⟩ := List.map_eq_append_iff.mp hrest.1
      exact ⟨passed, rfl⟩

/-- Before an edit of a property, in the round that edits properties, stand all edits of the steps
before its own, and of its own step the renaming and some edits of properties. -/
theorem split_of_property_round
    (h : round TableStep.tableEdits due = front ++ (id, .property edit) :: back) :
    ∃ first step others, ∃ passed : List PropertyEdit, due = first ++ (id, step) :: others ∧
      front = round TableStep.tableEdits first
        ++ (.rename step.name :: passed.map .property).map (id, ·) := by
  induction due generalizing front with
  | nil => cases front <;> cases h
  | cons d due ih =>
    -- the edit stands in a later step, or in the first one
    have hlater : ∀ front', front = d.2.tableEdits.map (d.1, ·) ++ front' →
        round TableStep.tableEdits due = front' ++ (id, .property edit) :: back →
        ∃ first step others, ∃ passed : List PropertyEdit,
          d :: due = first ++ (id, step) :: others ∧ front = round TableStep.tableEdits first
            ++ (.rename step.name :: passed.map .property).map (id, ·) := by
      rintro front' rfl h
      obtain ⟨first, step, others, passed, rfl, rfl⟩ := ih h
      exact ⟨d :: first, step, others, passed, rfl, by simp [round]⟩
    rw [round, List.flatMap_cons] at h
    rcases List.append_eq_append_iff.mp h with ⟨front', hfront, h⟩ | ⟨own, hown, h⟩
    · exact hlater front' hfront h
    · cases own with
      | nil => exact hlater [] (by simpa using hown.symm) h.symm
      | cons e own =>
        obtain ⟨rfl, -⟩ := List.cons.inj h
        obtain ⟨before, after, hsplit, rfl, hafter⟩ := List.map_eq_append_iff.mp hown
        obtain ⟨e, rest, rfl, he, -⟩ := List.map_eq_cons_iff.mp hafter
        obtain ⟨hid, rfl⟩ := Prod.mk.inj he
        obtain ⟨passed, rfl⟩ := TableStep.split_of_property hsplit
        exact ⟨[], d.2, due, passed, by rw [← hid]; rfl, by rw [← hid]; rfl⟩

/-- Properties are edited in the first round. -/
theorem split_of_property_script (h : script due = front ++ (id, .property edit) :: back) :
    ∃ back', round TableStep.tableEdits due = front ++ (id, .property edit) :: back' := by
  rw [script, List.append_assoc] at h
  have hnone : (id, TableEdit.property edit) ∉
      round TableStep.constraintEdits due ++ round TableStep.indexEdits due := by
    simp [round, TableStep.constraintEdits, TableStep.indexEdits]
  rcases List.append_eq_append_iff.mp h with ⟨later, -, h⟩ | ⟨own, hown, h⟩
  · exact absurd (h ▸ List.mem_append_right later List.mem_cons_self) hnone
  · cases own with
    | nil => exact absurd (h ▸ List.mem_cons_self) hnone
    | cons e own =>
      obtain ⟨rfl, -⟩ := List.cons.inj h
      exact ⟨own, hown⟩

end

namespace LiveSchema

variable {c : Setting} {version id other : String} {s s' : LiveSchema}
  {operations : List Operation} {edit : PropertyEdit}

/-- The step of a table that is due at a version. -/
def dueStep? (s : LiveSchema) (version id : String) : Option TableStep :=
  (s.outline? id).bind fun o => TableStep.due? version o.pending

/-- What has been done to the tables at a version when a property of one of them is edited: the
tables before it have had the first round of their steps, the table itself has been renamed and some
of its properties have been edited, and nothing has been done to the tables after it. -/
theorem edits_before_property {front back : List (String × TableEdit)} (hn : s.ids.Nodup)
    (h : script (s.takeDue version).2 = front ++ (other, .property edit) :: back) :
    ∃ step, ∃ passed : List PropertyEdit, s.dueStep? version other = some step ∧
      ∀ id, (front.filter (·.1 == id)).map (·.2) =
        if id = other then .rename step.name :: passed.map .property
        else if id ∈ s.ids.takeWhile (· != other) then
          (s.dueStep? version id).toList.flatMap (·.tableEdits)
        else [] := by
  obtain ⟨_, h⟩ := split_of_property_script h
  obtain ⟨first, step, others, passed, hdue, rfl⟩ := split_of_property_round h
  have hfirst := due_before hdue hn
  have hbefore : (s.before other).ids.Nodup := hn.sublist ((List.takeWhile_sublist _).map _)
  refine ⟨step, passed, ?_, fun id => ?_⟩
  · have hself : (other, step) ∈ (s.takeDue version).2.filter (·.1 == other) := by simp [hdue]
    rw [due_filter hn] at hself
    obtain ⟨_, hstep, heq⟩ := List.mem_map.mp hself
    obtain ⟨-, rfl⟩ := Prod.mk.inj heq
    exact Option.mem_toList.mp hstep
  · rw [List.filter_append, List.map_append, round_filter, hfirst, due_filter hbefore,
      outline?_before, List.map_map, List.filter_map, List.map_map]
    by_cases hid : id = other
    · subst hid
      have hself : id ∉ s.ids.takeWhile (· != id) := fun hin => by
        simpa using List.mem_takeWhile_imp hin
      simp [hself, Function.comp_def]
    · rw [if_neg hid]
      split <;> simp [Ne.symm hid, Function.comp_def, dueStep?]

/-- What a table is like when a property of a table is edited: like before the version, after the
edits that have been made to it at the version. -/
theorem outline?_before_property {x : Change} (h : s.Sound)
    (he : s.advance c version = .ok (s', operations))
    (hx : x ∈ changesOf c version (s.takeDue version).1 (script (s.takeDue version).2))
    (hedit : x.edit = .property edit) :
    ∃ step, ∃ passed : List PropertyEdit, s.dueStep? version x.id = some step ∧
      ∀ id, x.before.outline? id = (s.outline? id).map fun o =>
        (if id = x.id then .rename step.name :: passed.map .property
          else if id ∈ s.ids.takeWhile (· != x.id) then
            (TableStep.due? version o.pending).toList.flatMap (·.tableEdits)
          else []).foldl Outline.after
          { o with pending := TableStep.beyond version o.pending } := by
  obtain ⟨front, back, made, hsplit, hmade⟩ := split_of_mem_changesOf (advance_script h he) hx
  rw [hedit] at hsplit
  obtain ⟨step, passed, hstep, hfront⟩ := edits_before_property h.distinct hsplit
  refine ⟨step, passed, hstep, fun id => ?_⟩
  rw [outline?_edits h.takeDue hmade, hfront, outline?_takeDue, Option.map_map]
  refine Option.map_congr fun o ho => ?_
  rw [dueStep?, ho]
  rfl

end LiveSchema

/-! ## Names along a walk -/

/-- The last name in the first steps of a table is what they make of its first name, if there are
any. -/
theorem TableHistory.getLast?_names {t : TableHistory} {name : String}
    {steps rest : List TableStep} (hname : t.firstName? = some name)
    (hsteps : t.steps = steps ++ rest) (pending : List TableStep) :
    (steps.filterMap (·.name)).getLast?
      = (Outline.mk (steps.foldl FinalTable.after ⟨name, []⟩) (!steps.isEmpty) pending).name? := by
  cases steps with
  | nil => rfl
  | cons first steps =>
    have hn : first.name = some name := by simpa [firstName?, hsteps] using hname
    exact FinalTable.getLast?_names hn

namespace Changelog

open LiveSchema

variable {c : Setting} {version : String} {passed later : List String} {start s s' : LiveSchema}
  {made operations : List Operation} {edit : PropertyEdit}

/-- At a version, a walk comes to the tables in the order of the history. -/
theorem upTo_iff (hs : LiveSchema.start c.history = .ok start)
    (hw : forEach (advance c) start passed = .ok (s, made)) {current id : String} :
    c.history.upTo current id = true ↔ id = current ∨ id ∈ s.ids.takeWhile (· != current) := by
  rw [ids_walk (sound_start hs) hw]
  obtain ⟨tables, ht, rfl⟩ := start_ok hs
  simp only [SchemaHistory.upTo, Bool.or_eq_true, beq_iff_eq, decide_eq_true_iff, ids,
    mem_takeWhile_tablesOf ht List.not_mem_nil List.not_mem_nil]

/-- What the history calls a table during a version is told by its outline before the version: it is
the name that the version leads to if the table has had its turn, and the name that it has else. -/
theorem nameDuring?_of_outline {t : TableHistory} (hs : LiveSchema.start c.history = .ok start)
    (hw : forEach (advance c) start passed = .ok (s, made))
    (hsplit : c.history.timeline = passed ++ version :: later)
    (ht : c.history.table? t.id = some t) :
    ∃ o, s.outline? t.id = some o ∧
      (∀ step, TableStep.due? version o.pending = some step → o.created = false →
        o.table.properties = [] ∧ step.name = some o.table.name) ∧
      ∀ current, c.history.nameDuring? version current t.id
        = if c.history.upTo current t.id then (o.advance version).name? else o.name? := by
  obtain ⟨name, steps, rest, hname, hp, hsteps, hpassed, hlater, -, ho⟩ :=
    outline?_passed hs hw hsplit ht
  have hrest : rest.Pairwise (·.version < ·.version) :=
    (List.pairwise_append.mp (hsteps ▸ hp)).2.1
  refine ⟨_, ho, fun step hstep hnew => ?_, fun current => ?_⟩
  · -- a table that is not created yet has its first step to come
    obtain rfl : steps = [] := by simpa using hnew
    obtain ⟨others, rfl⟩ := TableStep.due?_eq_some hstep
    exact ⟨rfl, by simpa [TableHistory.firstName?, hsteps] using hname⟩
  rw [SchemaHistory.nameDuring?, ht, Option.bind_some, hsteps,
    TableStep.filter_reached (hsplit ▸ Timeline.pairwise_ofLabels _) hrest hpassed hlater]
  have hnow := TableHistory.getLast?_names hname hsteps rest
  split
  · have hall := TableStep.due?_append_beyond version rest
    rw [Outline.advance]
    cases hdue : TableStep.due? version rest with
    | none => simpa using hnow
    | some step =>
      rw [hdue, Option.toList_some] at hall
      have hsteps' : t.steps = (steps ++ [step]) ++ TableStep.beyond version rest := by
        rw [List.append_assoc, hall, hsteps]
      rw [Option.toList_some, TableHistory.getLast?_names hname hsteps' [], List.foldl_append]
      simp [Outline.name?]
  · rw [List.append_nil]
    exact hnow

/-- When something is done to a property at a version, each table goes by the last name that its
history has given it by then, of those tables that have been created. -/
theorem name?_before_property {x : Change} (hs : LiveSchema.start c.history = .ok start)
    (hw : forEach (advance c) start passed = .ok (s, made))
    (hsplit : c.history.timeline = passed ++ version :: later)
    (he : s.advance c version = .ok (s', operations))
    (hx : x ∈ changesOf c version (s.takeDue version).1 (script (s.takeDue version).2))
    (hedit : x.edit = .property edit) (hdone : x.operations ≠ []) (id : String) :
    x.before.name? id = c.history.nameDuring? version x.id id := by
  have hsound := forEach_invariant (fun _ _ _ _ _ h => h.advance) (sound_start hs) hw
  obtain ⟨step, edits, hdue, houtline⟩ := outline?_before_property hsound he hx hedit
  cases ht : c.history.table? id with
  | none =>
    have hstart := table?_start hs id
    rw [ht] at hstart
    have hnone : s.outline? id = none :=
      outline?_walk_eq_none (sound_start hs) hw (by rw [outline?, hstart]; rfl)
    rw [name?, houtline, hnone, SchemaHistory.nameDuring?, ht]
    rfl
  | some t =>
    obtain rfl : t.id = id := by simpa using List.find?_some ht
    obtain ⟨o, ho, hfirst, hnamed⟩ := nameDuring?_of_outline hs hw hsplit ht
    have hbefore := houtline t.id
    rw [ho, Option.map_some] at hbefore
    rw [hnamed, name?, hbefore, Option.bind_some]
    by_cases hid : t.id = x.id
    · -- the table itself has been renamed, and it has been created before the version
      have hstep : TableStep.due? version o.pending = some step := by
        rw [dueStep?, ← hid, ho] at hdue
        exact hdue
      have hmade := (edit_of_mem_changesOf hx).2
      rw [hedit] at hmade
      obtain ⟨_, -, hcurrent⟩ := table?_of_property hmade hdone
      rw [← hid, name?, hbefore, Option.bind_some, if_pos hid, Outline.name?_renamed] at hcurrent
      rw [if_pos hid, if_pos ((upTo_iff hs hw).mpr (Or.inl hid)), Outline.name?_renamed,
        Outline.advance, hstep]
      obtain ⟨old, hold, -⟩ := Option.map_eq_some_iff.mp hcurrent
      rw [hold]
      simp only [Outline.name?, Option.ite_none_right_eq_some, Option.some.injEq] at hold
      obtain ⟨-, rfl⟩ := hold
      rfl
    · rw [if_neg hid]
      by_cases hin : t.id ∈ s.ids.takeWhile (· != x.id)
      · rw [if_pos hin, if_pos ((upTo_iff hs hw).mpr (Or.inr hin)), Outline.advance]
        cases hstep : TableStep.due? version o.pending with
        | none => rfl
        | some step =>
          have hall := Outline.foldl_tableEdits
            (o := { o with pending := TableStep.beyond version o.pending }) (hfirst step hstep)
          rw [Option.toList_some, List.flatMap_singleton, hall]
      · have hup : ¬ c.history.upTo x.id t.id = true := fun hup =>
          ((upTo_iff hs hw).mp hup).elim hid hin
        rw [if_neg hin, if_neg hup]
        rfl

end Changelog

end SchemaEvolution
