import SchemaEvolution.Proofs.SortedMap
import SchemaEvolution.Proofs.Walk.Start

/-!
# The tables that a changelog leads to

A history is used up: each step of a table is taken once, at the version that it names, and in the
end no step is left. What a changelog says of a table after the last version is then the fold of
the steps of its history, whatever the other tables do in between.

The version list ascends strictly, and so do the labels of each table. A step could be missed for
good if the walk passed its label while another step was first in line; that this never happens is
what `outline?_walk` carries along: the labels that a table has to come are labels that the walk has
to come.
-/

namespace SchemaEvolution

/-- What a step makes of a table. -/
def FinalTable.after (t : FinalTable) (step : TableStep) : FinalTable :=
  ⟨step.name.getD t.name, step.properties.foldl PropertyEdit.apply t.properties⟩

namespace Outline

variable {t : FinalTable} {steps : List TableStep} {step : TableStep} {version : String}
  {edits : List TableEdit}

/-- What a version makes of a table in outline. -/
def advance (o : Outline) (version : String) : Outline :=
  match TableStep.due? version o.pending with
  | none => o
  | some step => ⟨o.table.after step, true, TableStep.beyond version o.pending⟩

/-! ## A step in outline -/

theorem foldl_properties {edits : List PropertyEdit} :
    (edits.map TableEdit.property).foldl after ⟨t, true, steps⟩
      = ⟨⟨t.name, edits.foldl PropertyEdit.apply t.properties⟩, true, steps⟩ := by
  induction edits generalizing t with
  | nil => rfl
  | cons edit edits ih => exact ih

/-- Edits that do not show in outline do not show together. -/
theorem foldl_unseen {α : Type} {wrap : α → TableEdit} {items : List α}
    (h : ∀ a, after ⟨t, true, steps⟩ (wrap a) = ⟨t, true, steps⟩) :
    (items.map wrap).foldl after ⟨t, true, steps⟩ = ⟨t, true, steps⟩ := by
  induction items with
  | nil => rfl
  | cons a items ih =>
    rw [List.map_cons, List.foldl_cons, h]
    exact ih

/-- The edits before the creation leave a table alone that is not created. -/
theorem foldl_idle (he : ∀ e ∈ edits, e.isCreation = false) :
    edits.foldl after ⟨t, false, steps⟩ = ⟨t, false, steps⟩ := by
  induction edits with
  | nil => rfl
  | cons e edits ih =>
    have hafter : after ⟨t, false, steps⟩ e = ⟨t, false, steps⟩ := if_pos (he e List.mem_cons_self)
    rw [List.foldl_cons, hafter]
    exact ih fun e h => he e (List.mem_cons_of_mem _ h)

/-- The edits of a step that concern a table itself make of it what the step makes of it. A table
that is not created yet has to be blank, and to go by the name that the step gives it. -/
theorem foldl_tableEdits {o : Outline}
    (h : o.created = false → o.table.properties = [] ∧ step.name = some o.table.name) :
    step.tableEdits.foldl after o = ⟨o.table.after step, true, o.pending⟩ := by
  obtain ⟨t, created, steps⟩ := o
  rw [TableStep.tableEdits, List.foldl_append]
  cases created with
  | true =>
    -- the creation comes last and is idle
    show after ((step.properties.map TableEdit.property).foldl after
      ⟨{ t with name := step.name.getD t.name }, true, steps⟩) (.create step) = _
    rw [foldl_properties]
    rfl
  | false =>
    obtain ⟨hp, hn⟩ := h rfl
    rw [foldl_idle fun e he => TableEdit.isCreation_of_mem he]
    show Outline.mk ⟨t.name, _⟩ true steps = ⟨⟨step.name.getD t.name, _⟩, true, steps⟩
    rw [hp, hn]
    rfl

/-- All edits of a step together do no more: keys do not show. -/
theorem foldl_step {o : Outline}
    (h : o.created = false → o.table.properties = [] ∧ step.name = some o.table.name) :
    (step.tableEdits ++ step.constraintEdits ++ step.indexEdits).foldl after o
      = ⟨o.table.after step, true, o.pending⟩ := by
  rw [List.foldl_append, List.foldl_append, foldl_tableEdits h, TableStep.constraintEdits,
    TableStep.indexEdits, foldl_unseen fun _ => rfl, foldl_unseen fun _ => rfl]

theorem foldl_after_pending {o : Outline} {edits : List TableEdit} :
    (edits.foldl after o).pending = o.pending := by
  induction edits generalizing o with
  | nil => rfl
  | cons e edits ih =>
    rw [List.foldl_cons, ih, after]
    split <;> rfl

end Outline

theorem TableStep.beyond_subset {version : String} {steps : List TableStep} :
    beyond version steps ⊆ steps := by
  unfold beyond
  split
  · exact List.Subset.refl _
  · split
    · exact List.subset_cons_self _ _
    · exact List.Subset.refl _

/-! ## A version in outline -/

/-- The edits of a table in a script are those of its own steps. -/
theorem round_filter {edits : TableStep → List TableEdit} {due : List (String × TableStep)}
    {id : String} :
    ((round edits due).filter (·.1 == id)).map (·.2)
      = ((due.filter (·.1 == id)).map (·.2)).flatMap edits := by
  induction due with
  | nil => rfl
  | cons d due ih =>
    have hd : (((edits d.2).map (d.1, ·)).filter (·.1 == id)).map (·.2)
        = if d.1 = id then edits d.2 else [] := by
      by_cases h : d.1 = id
      · simp [h, List.filter_map, Function.comp_def]
      · simp [h, List.filter_map, Function.comp_def]
    rw [round, List.flatMap_cons, List.filter_append, List.map_append, ← round, ih, hd]
    by_cases h : d.1 = id
    · simp [h]
    · simp [h]

theorem script_filter {due : List (String × TableStep)} {id : String} :
    ((script due).filter (·.1 == id)).map (·.2)
      = ((due.filter (·.1 == id)).map (·.2)).flatMap (·.tableEdits)
        ++ ((due.filter (·.1 == id)).map (·.2)).flatMap (·.constraintEdits)
        ++ ((due.filter (·.1 == id)).map (·.2)).flatMap (·.indexEdits) := by
  simp only [script, List.filter_append, List.map_append, round_filter]

namespace LiveSchema

variable {c : Setting} {version id : String} {s s' : LiveSchema} {operations : List Operation}
  {versions later : List String} {o : Outline}

/-- In outline, a list of edits is the fold of those that concern the table. -/
theorem outline?_edits {edits : List (String × TableEdit)} (h : s.Sound)
    (he : forEach (edit c version) s edits = .ok (s', operations)) :
    s'.outline? id = (s.outline? id).map
      (((edits.filter (·.1 == id)).map (·.2)).foldl Outline.after) := by
  induction edits generalizing s operations with
  | nil =>
    obtain ⟨rfl, -⟩ := forEach_nil_ok.mp he
    simp
  | cons e edits ih =>
    obtain ⟨s₁, first, rest, h₁, h₂, -⟩ := forEach_cons_ok.mp he
    rw [ih (h.edit h₁) h₂, outline?_edit h h₁, Option.map_map]
    congr 1
    funext o
    by_cases hid : id = e.1
    · simp [hid]
    · simp [hid, Ne.symm hid]

theorem outline?_takeDue : (s.takeDue version).1.outline? id
    = (s.outline? id).map fun o => { o with pending := TableStep.beyond version o.pending } := by
  have htable : (s.takeDue version).1.table? id = (s.table? id).map _ :=
    table?_map (f := fun t => { t with pending := TableStep.beyond version t.pending })
      (fun _ => rfl) takeDue_tables
  rw [outline?, htable, outline?, Option.map_map, Option.map_map]
  rfl

/-- At most one step of a table is due at a version: its next one. -/
theorem due_filter (hn : s.ids.Nodup) :
    (s.takeDue version).2.filter (·.1 == id)
      = ((s.outline? id).bind fun o => TableStep.due? version o.pending).toList.map (id, ·) := by
  rw [takeDue_due, outline?]
  unfold table?
  unfold ids at hn
  generalize s.tables = tables at hn
  induction tables with
  | nil => rfl
  | cons t tables ih =>
    rw [List.map_cons, List.nodup_cons] at hn
    have ih := ih hn.2
    by_cases hid : t.id = id
    · -- no other table has this id, so nothing else is taken for it
      have hnone : tables.find? (·.id == id) = none := by
        refine List.find?_eq_none.mpr fun u hu => ?_
        have hne : u.id ≠ t.id := fun he => hn.1 (he ▸ List.mem_map_of_mem hu)
        simpa [← hid] using hne
      rw [hnone] at ih
      rw [List.find?_cons_of_pos (by simpa using hid)]
      cases hdue : TableStep.due? version t.pending with
      | none => simpa [LiveTable.outline, hdue] using ih
      | some step => simpa [LiveTable.outline, hdue, hid] using ih
    · rw [List.find?_cons_of_neg (by simpa using hid), ← ih]
      cases hdue : TableStep.due? version t.pending with
      | none => simp [hdue]
      | some step => simp [hdue, hid]

/-- In outline, what a version makes of the tables is made of each of them by itself. -/
theorem outline?_advance (h : s.Sound) (he : s.advance c version = .ok (s', operations))
    (ho : s.outline? id = some o)
    (hname : ∀ step, TableStep.due? version o.pending = some step → o.created = false →
      o.table.properties = [] ∧ step.name = some o.table.name) :
    s'.outline? id = some (o.advance version) := by
  rw [outline?_edits h.takeDue (advance_script h he), outline?_takeDue, ho, script_filter,
    due_filter h.distinct, ho, Outline.advance]
  cases hdue : TableStep.due? version o.pending with
  | none => simp [hdue, TableStep.beyond_of_due? hdue]
  | some step =>
    have hstep := Outline.foldl_step
      (o := { o with pending := TableStep.beyond version o.pending }) (hname step hdue)
    simpa [hdue] using hstep

/-- A version only takes steps out of the line. -/
theorem pending_advance {o' : Outline} (h : s.Sound)
    (he : s.advance c version = .ok (s', operations)) (ho' : s'.outline? id = some o') :
    ∃ o, s.outline? id = some o ∧ o'.pending ⊆ o.pending := by
  rw [outline?_edits h.takeDue (advance_script h he), outline?_takeDue, Option.map_map] at ho'
  obtain ⟨o, ho, rfl⟩ := Option.map_eq_some_iff.mp ho'
  refine ⟨o, ho, ?_⟩
  rw [Function.comp, Outline.foldl_after_pending]
  exact TableStep.beyond_subset

/-! ## A whole walk in outline -/

/-- The steps that a walk takes, each after the version at which it is taken and the id of its
table. -/
def taken (c : Setting) : LiveSchema → List String → List (String × String × TableStep)
  | _, [] => []
  | s, version :: versions =>
    (s.takeDue version).2.map (version, ·)
      ++ match s.advance c version with
        | .ok (s', _) => taken c s' versions
        | .error _ => []

theorem taken_cons {s₁ : LiveSchema} (h : s.Sound) (ho : s.outline? id = some o)
    (h₁ : s.advance c version = .ok (s₁, operations)) :
    (taken c s (version :: versions)).filter (·.2.1 == id)
      = (TableStep.due? version o.pending).toList.map (fun step => (version, id, step))
        ++ (taken c s₁ versions).filter (·.2.1 == id) := by
  have hdue : (s.takeDue version).2.filter (·.1 == id)
      = (TableStep.due? version o.pending).toList.map (id, ·) := by
    rw [due_filter h.distinct, ho]
    rfl
  rw [taken, h₁, List.filter_append, List.filter_map]
  congr 1
  rw [show (fun due : String × String × TableStep => due.2.1 == id) ∘ (version, ·)
    = fun due : String × TableStep => due.1 == id from rfl, hdue, List.map_map]
  rfl

/-- The first step in line is due at the first of the versions to come, or no step is; the other
steps come later. -/
theorem due_or_later {steps : List TableStep} (hv : ∀ v ∈ versions, version < v)
    (hp : steps.Pairwise (·.version < ·.version))
    (hmem : ∀ step ∈ steps, step.version ∈ version :: versions) :
    (∃ step rest, steps = step :: rest ∧ step.version = version ∧
      ∀ later ∈ rest, later.version ∈ versions) ∨
    (TableStep.due? version steps = none ∧ ∀ step ∈ steps, step.version ∈ versions) := by
  cases steps with
  | nil => exact Or.inr ⟨rfl, by simp⟩
  | cons step rest =>
    rw [List.pairwise_cons] at hp
    -- what comes after a label that has been reached is beyond the first version
    have hrest : ∀ later ∈ rest, ¬ step.version < version → later.version ∈ versions := by
      intro later hl hge
      rcases List.mem_cons.mp (hmem later (List.mem_cons_of_mem _ hl)) with he | hin
      · exact absurd (he ▸ hp.1 later hl) hge
      · exact hin
    rcases List.mem_cons.mp (hmem step List.mem_cons_self) with he | hin
    · exact Or.inl ⟨step, rest, rfl, he, fun later hl =>
        hrest later hl (he ▸ String.lt_irrefl version)⟩
    · have hlt : version < step.version := hv step.version hin
      have hne : step.version ≠ version := fun he => String.lt_irrefl version (he ▸ hlt)
      refine Or.inr ⟨if_neg hne, List.forall_mem_cons.mpr ⟨hin, fun later hl => ?_⟩⟩
      exact hrest later hl fun hgt => String.lt_irrefl _ (String.lt_trans hlt hgt)

/-- A walk along the first of some versions, among which all labels of a table are, takes the steps
of these first versions, in order, each at its label. -/
theorem outline?_walk (h : s.Sound) (hv : (versions ++ later).Pairwise (· < ·))
    (hw : forEach (advance c) s versions = .ok (s', operations)) (ho : s.outline? id = some o)
    (hname : ∀ step steps, o.pending = step :: steps → o.created = false →
      o.table.properties = [] ∧ step.name = some o.table.name)
    (hp : o.pending.Pairwise (·.version < ·.version))
    (hmem : ∀ step ∈ o.pending, step.version ∈ versions ++ later) :
    ∃ steps rest, o.pending = steps ++ rest ∧ (∀ step ∈ steps, step.version ∈ versions) ∧
      (∀ step ∈ rest, step.version ∈ later) ∧
      (taken c s versions).filter (·.2.1 == id)
        = steps.map (fun step => (step.version, id, step)) ∧
      s'.outline? id
        = some ⟨steps.foldl FinalTable.after o.table, o.created || !steps.isEmpty, rest⟩ := by
  induction versions generalizing s o operations with
  | nil =>
    obtain ⟨rfl, -⟩ := forEach_nil_ok.mp hw
    exact ⟨[], o.pending, rfl, List.forall_mem_nil _, hmem, rfl, by simp [ho]⟩
  | cons version versions ih =>
    obtain ⟨s₁, first, rest, h₁, h₂, rfl⟩ := forEach_cons_ok.mp hw
    rw [List.cons_append, List.pairwise_cons] at hv
    rw [taken_cons h ho h₁]
    have ho₁ : s₁.outline? id = some (o.advance version) := by
      refine outline?_advance h h₁ ho fun step hs => ?_
      obtain ⟨steps, hsteps⟩ := TableStep.due?_eq_some hs
      exact hname step steps hsteps
    -- either the first step in line is taken at this version, or none is and all steps are to come
    rcases due_or_later hv.1 hp hmem with ⟨step, steps, hs, rfl, hlater⟩ | ⟨hnone, hlater⟩
    · have hadvance : o.advance step.version = ⟨o.table.after step, true, steps⟩ := by
        simp [Outline.advance, TableStep.due?, TableStep.beyond, hs]
      rw [hadvance] at ho₁
      rw [hs] at hp
      obtain ⟨front, back, hsplit, hfront, hback, htaken, ho'⟩ := ih (h.advance h₁) hv.2 h₂ ho₁
        (fun _ _ _ hc => by cases hc) (List.pairwise_cons.mp hp).2 hlater
      refine ⟨step :: front, back, hs.trans (congrArg (step :: ·) hsplit), ?_, hback, ?_,
        by simp [ho']⟩
      · exact List.forall_mem_cons.mpr
          ⟨List.mem_cons_self, fun next hn => List.mem_cons_of_mem _ (hfront next hn)⟩
      · rw [htaken, hs]
        simp [TableStep.due?]
    · have hadvance : o.advance version = o := by rw [Outline.advance, hnone]
      rw [hadvance] at ho₁
      obtain ⟨front, back, hsplit, hfront, hback, htaken, ho'⟩ :=
        ih (h.advance h₁) hv.2 h₂ ho₁ hname hp hlater
      exact ⟨front, back, hsplit, fun step hs => List.mem_cons_of_mem _ (hfront step hs), hback,
        by rw [htaken, hnone]; rfl, ho'⟩

/-- A walk neither adds tables nor takes any away. -/
theorem outline?_walk_eq_none (h : s.Sound)
    (hw : forEach (advance c) s versions = .ok (s', operations)) (ho : s.outline? id = none) :
    s'.outline? id = none := by
  refine (forEach_invariant (P := fun s => s.Sound ∧ s.outline? id = none)
    (fun s a s' operations _ hs he => ⟨hs.1.advance he, ?_⟩) ⟨h, ho⟩ hw).2
  rw [outline?_edits hs.1.takeDue (advance_script hs.1 he), outline?_takeDue, hs.2]
  rfl

end LiveSchema

/-! ## What a changelog says -/

theorem FinalTable.foldl_after {t : FinalTable} {steps : List TableStep} :
    steps.foldl after t
      = ⟨((steps.filterMap (·.name)).getLast?).getD t.name,
        (steps.flatMap (·.properties)).foldl PropertyEdit.apply t.properties⟩ := by
  induction steps generalizing t with
  | nil => rfl
  | cons step steps ih =>
    rw [List.foldl_cons, ih, List.flatMap_cons, List.foldl_append, after]
    cases hn : step.name with
    | none => simp [hn]
    | some name => simp [hn, List.getLast?_cons]

/-- The last name in some steps, of which the first has one, is the name that they lead to. -/
theorem FinalTable.getLast?_names {step : TableStep} {steps : List TableStep} {name : String}
    (hn : step.name = some name) {t : FinalTable} :
    ((step :: steps).filterMap (·.name)).getLast? = some ((step :: steps).foldl after t).name := by
  rw [foldl_after, List.filterMap_cons_some hn, List.getLast?_cons]
  rfl

namespace Changelog

variable {d : Dialect} {h : SchemaHistory} {log : Changelog}

/-- How a plan comes from a walk. -/
theorem plan_ok {p : Plan} (hp : plan ⟨d, h⟩ = .ok p) :
    ∃ start, LiveSchema.start h = .ok start ∧ start.walk ⟨d, h⟩ h.timeline = .ok p.walk ∧
      checkSerials p.walk.final.tables = .ok () ∧
      p.walk.final.enums.operations d p.walk.usesAt = .ok p.enums ∧
      functionOperations ⟨d, h⟩ = .ok p.functions := by
  simp only [plan, Except.bind_ok, Except.pure_ok] at hp
  obtain ⟨start, hs, walk, hw, ⟨⟩, hc, enums, he, functions, hf, rfl⟩ := hp
  exact ⟨start, hs, hw, hc, he, hf⟩

/-- A plan is made from a walk when nothing is wrong with what the walk leads to. -/
theorem plan_of_walk {start : LiveSchema} {w : LiveSchema.Walk} {enums functions : List Operation}
    (hs : LiveSchema.start h = .ok start) (hw : start.walk ⟨d, h⟩ h.timeline = .ok w)
    (hc : checkSerials w.final.tables = .ok ())
    (he : w.final.enums.operations d w.usesAt = .ok enums)
    (hf : functionOperations ⟨d, h⟩ = .ok functions) :
    plan ⟨d, h⟩ = .ok ⟨w, enums, functions⟩ := by
  simp only [plan, Except.bind_ok, Except.pure_ok]
  exact ⟨start, hs, w, hw, (), hc, enums, he, functions, hf, rfl⟩

/-- How a changelog comes from a walk. -/
theorem ofHistory_ok (hlog : ofHistory d h = .ok log) :
    ∃ start, ∃ p : Plan, LiveSchema.start h = .ok start ∧
      start.walk ⟨d, h⟩ h.timeline = .ok p.walk ∧
      checkSerials p.walk.final.tables = .ok () ∧
      p.walk.final.enums.operations d p.walk.usesAt = .ok p.enums ∧
      functionOperations ⟨d, h⟩ = .ok p.functions ∧ log = ofPlan ⟨d, h⟩ p := by
  obtain ⟨p, hp, rfl⟩ := Except.map_ok.mp hlog
  obtain ⟨start, hs, hw, hc, he, hf⟩ := plan_ok hp
  exact ⟨start, p, hs, hw, hc, he, hf, rfl⟩

theorem nodup_timeline : h.timeline.Nodup :=
  (Timeline.pairwise_ofLabels h.labels).imp fun hlt he => absurd (he ▸ hlt) (String.lt_irrefl _)

/-- A version is none of those that come before it. -/
theorem notMem_passed {passed later : List String} {version : String}
    (hsplit : h.timeline = passed ++ version :: later) : version ∉ passed := by
  have hn : (passed ++ version :: later).Nodup := hsplit ▸ nodup_timeline
  exact fun hin => (List.nodup_append.mp hn).2.2 version hin version List.mem_cons_self rfl

/-- The labels of a table are on the timeline. -/
theorem mem_timeline_of_table {t : TableHistory} {step : TableStep} (ht : t ∈ h.tables)
    (hs : step ∈ t.steps) : step.version ∈ h.timeline := by
  refine Timeline.mem_ofLabels.mpr (List.mem_append_left _ (List.mem_append_left _ ?_))
  exact List.mem_flatMap.mpr ⟨t, ht, List.mem_map_of_mem hs⟩

/-- What a walk along the first versions makes of the table of a history: its steps at these
versions are taken, the others are still to come. -/
theorem outline?_passed {c : Setting} {start s : LiveSchema} {operations : List Operation}
    {t : TableHistory} {passed later : List String} (hs : LiveSchema.start c.history = .ok start)
    (hw : LiveSchema.forEach (LiveSchema.advance c) start passed = .ok (s, operations))
    (hsplit : c.history.timeline = passed ++ later) (ht : c.history.table? t.id = some t) :
    ∃ name steps rest, t.firstName? = some name ∧ t.steps.Pairwise (·.version < ·.version) ∧
      t.steps = steps ++ rest ∧ (∀ step ∈ steps, step.version ∈ passed) ∧
      (∀ step ∈ rest, step.version ∈ later) ∧
      (start.taken c passed).filter (·.2.1 == t.id)
        = steps.map (fun step => (step.version, t.id, step)) ∧
      s.outline? t.id = some ⟨steps.foldl FinalTable.after ⟨name, []⟩, !steps.isEmpty, rest⟩ := by
  have htable := LiveSchema.table?_start hs t.id
  rw [ht] at htable
  obtain ⟨u, hu, hof⟩ := htable
  obtain ⟨first, others, name, hfirst, hname, hp, rfl⟩ := LiveTable.ofHistory_ok hof
  have ho : start.outline? t.id = some ⟨⟨name, []⟩, false, t.steps⟩ := by
    rw [LiveSchema.outline?, hu]
    rfl
  have hmem : ∀ step ∈ t.steps, step.version ∈ passed ++ later := fun step hstep =>
    hsplit ▸ mem_timeline_of_table (List.mem_of_find?_eq_some ht) hstep
  obtain ⟨steps, rest, hsteps, hpassed, hlater, htaken, hreached⟩ :=
    LiveSchema.outline?_walk (LiveSchema.sound_start hs)
      (hsplit ▸ Timeline.pairwise_ofLabels _) hw ho
      (fun step steps hsteps _ => ⟨rfl, by
        obtain ⟨rfl, -⟩ := List.cons.inj (hfirst.symm.trans hsteps)
        exact hname⟩) hp hmem
  refine ⟨name, steps, rest, ?_, hp, hsteps, hpassed, hlater, htaken, hreached⟩
  rw [TableHistory.firstName?, hfirst]
  exact hname

/-- What a whole walk makes of the table of a history. -/
theorem outline?_final {c : Setting} {start final : LiveSchema} {operations : List Operation}
    {t : TableHistory} (hs : LiveSchema.start c.history = .ok start)
    (hw : LiveSchema.forEach (LiveSchema.advance c) start c.history.timeline
      = .ok (final, operations))
    (ht : c.history.table? t.id = some t) :
    (start.taken c c.history.timeline).filter (·.2.1 == t.id)
        = t.steps.map (fun step => (step.version, t.id, step)) ∧
      ∃ o, final.outline? t.id = some o ∧ o.pending = [] ∧
        (t.steps.filterMap (·.name)).getLast? = some o.table.name ∧
        o.table.properties = (t.steps.flatMap (·.properties)).foldl PropertyEdit.apply [] := by
  obtain ⟨name, steps, rest, hname, -, hsteps, -, hrest, htaken, hfinal⟩ :=
    outline?_passed hs hw (List.append_nil _).symm ht
  obtain rfl : rest = [] := List.eq_nil_iff_forall_not_mem.mpr fun step hstep =>
    List.not_mem_nil (hrest step hstep)
  obtain rfl : t.steps = steps := hsteps.trans (List.append_nil _)
  refine ⟨htaken, _, hfinal, rfl, ?_, by rw [FinalTable.foldl_after]⟩
  -- the first step has a name, so there is a last one
  cases hfirst : t.steps with
  | nil => simp [TableHistory.firstName?, hfirst] at hname
  | cons first others =>
    have hn : first.name = some name := by simpa [TableHistory.firstName?, hfirst] using hname
    exact FinalTable.getLast?_names hn

/-- The tables of a changelog are those that the walk ends with. -/
theorem get?_tables {c : Setting} {p : Plan} (h : p.walk.final.Sound) {id : String} :
    (ofPlan c p).tables.get? id = (p.walk.final.outline? id).map (·.table) := by
  have hn : ((p.walk.final.tables.map fun t => (t.id, t.final)).map (·.1)).Nodup := by
    rw [List.map_map]
    exact h.distinct
  show (SortedMap.ofList (p.walk.final.tables.map fun t => (t.id, t.final))).get? id = _
  rw [SortedMap.get?_ofList hn, List.find?_map, Option.map_map, LiveSchema.outline?,
    Option.map_map]
  rfl

/-- A changelog is computed by a walk that uses up every history: each step of a table is taken
once, at the version that it names, in the order of the history, and none is left in the end. The
changelog has one table for each id, and says of it what the fold of its history says. -/
theorem history_used_up (hlog : ofHistory d h = .ok log) :
    ∃ start walk, LiveSchema.start h = .ok start ∧ start.walk ⟨d, h⟩ h.timeline = .ok walk ∧
      (∀ t ∈ walk.final.tables, t.pending = []) ∧
      (log.tables.entries.map (·.1)).Nodup ∧
      (∀ id, id ∈ log.tables.entries.map (·.1) ↔ id ∈ h.tables.map (·.id)) ∧
      ∀ t, h.table? t.id = some t →
        (start.taken ⟨d, h⟩ h.timeline).filter (·.2.1 == t.id)
            = t.steps.map (fun step => (step.version, t.id, step)) ∧
          ∃ final, log.tables.get? t.id = some final ∧
            (t.steps.filterMap (·.name)).getLast? = some final.name ∧
            final.properties = (t.steps.flatMap (·.properties)).foldl PropertyEdit.apply [] := by
  obtain ⟨start, p, hs, hw, -, -, -, rfl⟩ := ofHistory_ok hlog
  have hsound := LiveSchema.sound_start hs
  have hwalk := LiveSchema.walk_ok hw
  have hfinal := hsound.walk hw
  have habsent : ∀ id, h.table? id = none → p.walk.final.outline? id = none := by
    intro id ht
    have hstart := LiveSchema.table?_start hs id
    rw [ht] at hstart
    exact LiveSchema.outline?_walk_eq_none hsound hwalk (by rw [LiveSchema.outline?, hstart]; rfl)
  have hpresent : ∀ id t, h.table? id = some t →
      t.id = id ∧ ∃ o, p.walk.final.outline? id = some o ∧ o.pending = [] := by
    intro id t ht
    have hid : t.id = id := by simpa using List.find?_some ht
    subst hid
    obtain ⟨-, o, ho, hend, -⟩ := outline?_final hs hwalk ht
    exact ⟨rfl, o, ho, hend⟩
  refine ⟨start, p.walk, hs, hw, fun t ht => ?_, SortedMap.nodup_keys _, fun id => ?_,
    fun t ht => ?_⟩
  · have ho : p.walk.final.outline? t.id = some t.outline := by
      rw [LiveSchema.outline?, LiveSchema.table?_eq_of_mem hfinal.distinct ht]
      rfl
    cases htable : h.table? t.id with
    | none => cases ho.symm.trans (habsent t.id htable)
    | some u =>
      obtain ⟨-, o, ho', hend⟩ := hpresent t.id u htable
      obtain rfl := Option.some.inj (ho.symm.trans ho')
      exact hend
  · rw [SortedMap.mem_keys_iff, get?_tables hfinal, Option.isSome_map]
    cases htable : h.table? id with
    | none =>
      rw [habsent id htable]
      simpa [SchemaHistory.table?] using htable
    | some t =>
      obtain ⟨rfl, o, ho, -⟩ := hpresent id t htable
      simpa [ho] using ⟨t, List.mem_of_find?_eq_some htable, rfl⟩
  · obtain ⟨htaken, o, ho, -, hname, hproperties⟩ := outline?_final hs hwalk ht
    exact ⟨htaken, o.table, by rw [get?_tables hfinal, ho]; rfl, hname, hproperties⟩

/-- A table that is created, and later renamed with one of its two columns. -/
def renamedBooks : SchemaHistory where
  tables := [⟨"books",
    [⟨"1", some "book", [.add "id" { type := .serial }, .add "name" { type := .text }], [], []⟩,
      ⟨"2", some "volume", [.rename "name" "title", .remove "id"], [], []⟩]⟩]

theorem history_used_up_renamedBooks :
    ∃ log, ofHistory .sqlite renamedBooks = .ok log ∧
      (∀ id, id ∈ log.tables.entries.map (·.1) ↔ id = "books") ∧
      ∃ final, log.tables.get? "books" = some final ∧ final.name = "volume" ∧
        final.properties = [⟨"title", { type := .text }⟩] := by
  obtain ⟨log, hlog⟩ := Except.exists_of_isOk
    (show (ofHistory .sqlite renamedBooks).isOk = true by decide)
  obtain ⟨start, walk, -, -, -, hn, hids, hall⟩ := history_used_up hlog
  obtain ⟨-, final, hget, hname, hproperties⟩ := hall ⟨"books", _⟩ rfl
  refine ⟨log, hlog, by simpa [renamedBooks] using hids, final, hget, ?_, ?_⟩
  · exact (Option.some.inj hname).symm
  · rw [hproperties]
    decide

end Changelog

end SchemaEvolution
