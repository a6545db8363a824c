import SchemaEvolution.Proofs.Order.Rounds

/-!
# Walks over tables in any order

Schemas that are abreast have the same tables but for the order, so at every version the same steps
are due, in some order. The three rounds of the version are then the same but for the order too:
the first is about tables and their columns, and when it is over all that foreign keys can refer to
is settled.
-/

namespace SchemaEvolution

theorem Outline.after_key {o : Outline} {e : TableEdit} {step : TableStep}
    (he : e ∈ step.constraintEdits ++ step.indexEdits) : o.after e = o := by
  have hkey : e.isCreation = false ∧ e.onTable o.table = o.table := by
    rcases List.mem_append.mp he with he | he
    · obtain ⟨k, -, rfl⟩ := List.mem_map.mp he
      exact ⟨rfl, rfl⟩
    · obtain ⟨i, -, rfl⟩ := List.mem_map.mp he
      exact ⟨rfl, rfl⟩
  unfold after
  split
  · rfl
  · next hne =>
    have hcreated : o.created = true := by simpa [hkey.1] using hne
    rw [hkey.2, ← hcreated]

namespace LiveSchema

variable {c : Setting} {version id : String} {versions passed later : List String}
  {owned : String → List String} {s s' s₁ : LiveSchema} {operations : List Operation} {w : Walk}

/-! ## The rounds of a version -/

/-- Edits of tables use no names and refer to no other table. -/
theorem stage_tables (hsplit : c.history.timeline = passed ++ version :: later) :
    Stage c version (passed ++ [version]) TableStep.tableEdits fun s =>
      s.Sound ∧ Supplied c.history (passed ++ [version]) s := by
  have hplain : ∀ step : TableStep, ∀ e ∈ step.tableEdits,
      e.takenName? = none ∧ e.freedName? = none ∧ e.references? = none := by
    intro step e he
    rcases List.mem_append.mp he with he | he
    · rcases List.mem_cons.mp he with rfl | he
      · exact ⟨rfl, rfl, rfl⟩
      · obtain ⟨edit, -, rfl⟩ := List.mem_map.mp he
        exact ⟨rfl, rfl, rfl⟩
    · obtain rfl := List.mem_singleton.mp he
      exact ⟨rfl, rfl, rfl⟩
  refine ⟨fun s hs => hs.2, fun s s' id step e operations hs _ he => ?_,
    fun step e name he hname => ?_, fun s s' step e other _ _ he hother => ?_⟩
  · exact ⟨hs.1.edit he, hs.2.edit hsplit he⟩
  · obtain ⟨htaken, hfreed, -⟩ := hplain step e he
    rw [htaken, hfreed] at hname
    simp at hname
  · rw [(hplain step e he).2.2] at hother
    cases hother

/-- Edits of keys use the names of their step, and leave what foreign keys refer to as it is. -/
theorem stage_keys (edits : TableStep → List TableEdit) (outline : String → Option Outline)
    (hsplit : c.history.timeline = passed ++ version :: later)
    (hedits : ∀ step, edits step ⊆ step.constraintEdits ++ step.indexEdits) :
    Stage c version (passed ++ [version]) edits fun s =>
      (s.Sound ∧ Supplied c.history (passed ++ [version]) s) ∧
        ∀ id, s.outline? id = outline id := by
  refine ⟨fun s hs => hs.1.2, fun s s' id step e operations hs hin he => ?_,
    fun step e name he hname => ?_, fun s s' step e other hs hs' _ _ => ?_⟩
  · refine ⟨⟨hs.1.1.edit he, hs.1.2.edit hsplit he⟩, fun other => ?_⟩
    rw [outline?_edit hs.1.1 he, ← hs.2 other]
    cases s.outline? other with
    | none => rfl
    | some o =>
      exact congrArg some (ite_eq_right_iff.mpr fun _ => Outline.after_key (hedits step hin))
  · rcases List.mem_append.mp (hedits step he) with he | he
    · obtain ⟨k, hk, rfl⟩ := List.mem_map.mp he
      refine List.mem_append_left _ (List.mem_map.mpr ⟨k, hk, ?_⟩)
      cases k with
      | _ => simpa [TableEdit.takenName?, TableEdit.freedName?, ConstraintEdit.name] using hname
    · obtain ⟨i, hi, rfl⟩ := List.mem_map.mp he
      refine List.mem_append_right _ (List.mem_map.mpr ⟨i, hi, ?_⟩)
      cases i with
      | _ => simpa [TableEdit.takenName?, TableEdit.freedName?, IndexEdit.name] using hname
  · rw [hs'.2, hs.2]

/-- A script is made in three rounds, each of them table by table. -/
theorem script_ok {due : List (String × TableStep)} :
    forEach (edit c version) s (script due) = .ok (s', operations) ↔
      ∃ s₁ s₂ tables constraints indices,
        forEach (editBlock c version TableStep.tableEdits) s due = .ok (s₁, tables) ∧
        forEach (editBlock c version TableStep.constraintEdits) s₁ due = .ok (s₂, constraints) ∧
        forEach (editBlock c version TableStep.indexEdits) s₂ due = .ok (s', indices) ∧
        operations = tables ++ constraints ++ indices := by
  have hround : ∀ edits (s s' : LiveSchema) operations,
      forEach (editBlock c version edits) s due = .ok (s', operations) ↔
        forEach (edit c version) s (round edits due) = .ok (s', operations) :=
    fun _ _ _ _ => forEach_flatMap
  rw [script, forEach_append_ok]
  simp only [forEach_append_ok, hround]
  constructor
  · rintro ⟨s₂, _, indices, ⟨s₁, tables, constraints, h₁, h₂, rfl⟩, h₃, rfl⟩
    exact ⟨s₁, s₂, tables, constraints, indices, h₁, h₂, h₃, rfl⟩
  · rintro ⟨s₁, s₂, tables, constraints, indices, h₁, h₂, h₃, rfl⟩
    exact ⟨s₂, _, indices, ⟨s₁, tables, constraints, h₁, h₂, rfl⟩, h₃, rfl⟩

/-! ## The tables in some order -/

theorem view?_eq_of_mem (h : s.ids.Nodup) {t : LiveTable} (ht : t ∈ s.tables) :
    s.view? t.id = some t.withoutTargets := by
  rw [view?, table?_eq_of_mem h ht]
  rfl

/-- Schemas that agree about every table have the same tables, but for targets and order. -/
theorem perm_tables (hs : s.ids.Nodup) (hs' : s'.ids.Nodup)
    (hviews : ∀ id, s'.view? id = s.view? id) :
    (s.tables.map (·.withoutTargets)).Perm (s'.tables.map (·.withoutTargets)) := by
  have hnodup : ∀ s : LiveSchema, s.ids.Nodup → (s.tables.map (·.withoutTargets)).Nodup := by
    intro s hs
    refine List.Nodup.of_map (·.id) ?_
    rw [List.map_map]
    exact hs
  have hmem : ∀ s : LiveSchema, s.ids.Nodup → ∀ u,
      u ∈ s.tables.map (·.withoutTargets) ↔ s.view? u.id = some u := by
    intro s hs u
    rw [List.mem_map]
    constructor
    · rintro ⟨t, ht, rfl⟩
      exact view?_eq_of_mem hs ht
    · intro hu
      obtain ⟨t, ht, htu⟩ := Option.map_eq_some_iff.mp hu
      exact ⟨t, (table?_eq_some ht).1, htu⟩
  exact (List.perm_ext_iff_of_nodup (hnodup s hs) (hnodup s' hs')).mpr fun u => by
    rw [hmem s hs, hmem s' hs', hviews]

/-- The tables that have a step at a version are different tables. -/
theorem nodup_due (h : s.Sound) : ((s.takeDue version).2.map (·.1)).Nodup := by
  rw [takeDue_due, List.map_filterMap]
  have hids : s.tables.Pairwise (·.id ≠ ·.id) := List.pairwise_map.mp h.distinct
  have hid : ∀ (t : LiveTable) id,
      ((TableStep.due? version t.pending).map (t.id, ·)).map (·.1) = some id → t.id = id := by
    intro t id hid
    obtain ⟨d, hd, rfl⟩ := Option.map_eq_some_iff.mp hid
    obtain ⟨step, -, rfl⟩ := Option.map_eq_some_iff.mp hd
    rfl
  exact hids.filterMap _ fun t u hne _ ht _ hu heq =>
    hne ((hid t _ ht).trans (heq.trans (hid u _ hu).symm))

/-- Whether all names in the steps to come belong to the tables that will take them. -/
def Owns (owned : String → List String) (s : LiveSchema) : Prop :=
  ∀ id o, s.outline? id = some o → ∀ step ∈ o.pending, ∀ name ∈ step.keyNames, name ∈ owned id

theorem Owns.due (ho : Owns owned s) (hs : s.Sound) {d : String × TableStep}
    (hd : d ∈ (s.takeDue version).2) : ∀ name ∈ d.2.keyNames, name ∈ owned d.1 := by
  rw [takeDue_due] at hd
  obtain ⟨t, ht, hdue⟩ := List.mem_filterMap.mp hd
  obtain ⟨step, hstep, rfl⟩ := Option.map_eq_some_iff.mp hdue
  obtain ⟨rest, hrest⟩ := TableStep.due?_eq_some hstep
  have houtline : s.outline? t.id = some t.outline := by
    rw [outline?, table?_eq_of_mem hs.distinct ht]
    rfl
  have hnext : step ∈ t.pending := by
    rw [hrest]
    exact List.mem_cons_self
  exact ho t.id t.outline houtline step hnext

theorem Owns.advance (ho : Owns owned s) (hs : s.Sound)
    (he : s.advance c version = .ok (s₁, operations)) : Owns owned s₁ := by
  intro id o₁ ho₁ step hstep
  obtain ⟨o, houtline, hsub⟩ := pending_advance hs he ho₁
  exact ho id o houtline step (hsub hstep)

theorem Abreast.takeDue (habreast : Abreast owned s s') (version : String) :
    Abreast owned (s.takeDue version).1 (s'.takeDue version).1 := by
  have hview : ∀ s : LiveSchema, ∀ id, (s.takeDue version).1.view? id
      = (s.view? id).map fun t => { t with pending := TableStep.beyond version t.pending } := by
    intro s id
    rw [view?, table?_map (s := s)
      (f := fun t => { t with pending := TableStep.beyond version t.pending }) (fun _ => rfl)
      takeDue_tables, Option.map_map, view?, Option.map_map]
    rfl
  exact ⟨fun id => ⟨by rw [hview, (habreast.agree id).view, hview], (habreast.agree id).names⟩,
    habreast.enums⟩

section

variable (hs : s.Sound) (hs' : s'.Sound) (habreast : Abreast owned s s')

include hs hs' habreast

theorem Abreast.perm_due :
    ((s.takeDue version).2).Perm (s'.takeDue version).2 := by
  have hdue : ∀ s : LiveSchema, (s.takeDue version).2
      = (s.tables.map (·.withoutTargets)).filterMap fun t =>
        (TableStep.due? version t.pending).map (t.id, ·) := by
    intro s
    rw [takeDue_due, List.filterMap_map]
    rfl
  rw [hdue, hdue]
  exact (perm_tables hs.distinct hs'.distinct fun id => (habreast.agree id).view).filterMap _

theorem Abreast.perm_enumUses : s.enumUses.Perm s'.enumUses := by
  have huses : ∀ s : LiveSchema, s.enumUses
      = ((s.tables.map (·.withoutTargets)).filter (·.created)).flatMap fun t =>
        (t.columns.filter (·.property.shape.type.enumReference?.isSome)).map fun k =>
          ⟨t.name, k.property⟩ := by
    intro s
    rw [List.filter_map, List.flatMap_map]
    rfl
  rw [huses, huses]
  exact ((perm_tables hs.distinct hs'.distinct fun id =>
    (habreast.agree id).view).filter _).flatMap_right _

end

/-! ## Versions -/

section

variable (ha : c.history.EnumsApart)
  (hapart : ∀ id other, id ≠ other → (owned id).Disjoint (owned other))

include ha hapart

/-- A version that can be reached can be reached with the tables in any other order. -/
theorem Abreast.advance (hs : s.Sound) (hs' : s'.Sound) (habreast : Abreast owned s s')
    (hsupplied : Supplied c.history passed s) (hsupplied' : Supplied c.history passed s')
    (howns : Owns owned s) (hsplit : c.history.timeline = passed ++ version :: later)
    (he : s.advance c version = .ok (s₁, operations)) :
    ∃ s₁' operations', s'.advance c version = .ok (s₁', operations') ∧
      operations.Perm operations' ∧ Abreast owned s₁ s₁' := by
  have hperm : ((s.takeDue version).2).Perm (s'.takeDue version).2 := habreast.perm_due hs hs'
  have hids : ((s.takeDue version).2.map (·.1)).Nodup := nodup_due hs
  have hnames : ∀ d ∈ (s.takeDue version).2, ∀ name ∈ d.2.keyNames, name ∈ owned d.1 :=
    fun d hd => howns.due hs hd
  obtain ⟨s₂, s₃, tables, constraints, indices, h₁, h₂, h₃, rfl⟩ :=
    script_ok.mp (advance_script hs he)
  -- first come the edits of tables, after which all outlines are settled
  have htables := stage_tables hsplit
  have hstart : ∀ {s : LiveSchema}, s.Sound → Supplied c.history passed s →
      (s.takeDue version).1.Sound ∧
        Supplied c.history (passed ++ [version]) (s.takeDue version).1 :=
    fun hs hsupplied => ⟨hs.takeDue, hsupplied.takeDue.mono⟩
  have hP := hstart hs hsupplied
  have hP' := hstart hs' hsupplied'
  obtain ⟨s₂', tables', h₁', hfirst, habreast₂⟩ :=
    (habreast.takeDue version).permuted_round htables ha hapart hperm hids hnames hP hP' h₁
  have hP₂ := And.intro (htables.round_kept hP h₁) fun id => Eq.refl (s₂.outline? id)
  have hP₂' := And.intro (htables.round_kept hP' h₁') fun id => (habreast₂.agree id).outline
  -- then come the edits of constraints, then those of indices
  have hconstraints := stage_keys TableStep.constraintEdits s₂.outline? hsplit fun _ =>
    List.subset_append_left _ _
  obtain ⟨s₃', constraints', h₂', hsecond, habreast₃⟩ :=
    habreast₂.permuted_round hconstraints ha hapart hperm hids hnames hP₂ hP₂' h₂
  have hindices := stage_keys TableStep.indexEdits s₂.outline? hsplit fun _ =>
    List.subset_append_right _ _
  obtain ⟨s₁', indices', h₃', hthird, habreast₁⟩ :=
    habreast₃.permuted_round hindices ha hapart hperm hids hnames
      (hconstraints.round_kept hP₂ h₂) (hconstraints.round_kept hP₂' h₂') h₃
  exact ⟨s₁', tables' ++ constraints' ++ indices', (advance_script_iff hs').mp (script_ok.mpr
    ⟨s₂', s₃', tables', constraints', indices', h₁', h₂', h₃', rfl⟩),
    (hfirst.append hsecond).append hthird, habreast₁⟩

/-- A walk that can be taken can be taken with the tables in any other order. -/
theorem Abreast.walk (hs : s.Sound) (hs' : s'.Sound) (habreast : Abreast owned s s')
    (hsupplied : Supplied c.history passed s) (hsupplied' : Supplied c.history passed s')
    (howns : Owns owned s) (hsplit : c.history.timeline = passed ++ versions ++ later)
    (hw : s.walk c versions = .ok w) :
    ∃ w', s'.walk c versions = .ok w' ∧ w.operations.Perm w'.operations ∧
      (∀ version, (w.usesAt version).Perm (w'.usesAt version)) ∧
      Abreast owned w.final w'.final := by
  induction versions generalizing s s' w passed with
  | nil =>
    obtain rfl := Except.ok.inj hw
    exact ⟨⟨s', [], []⟩, rfl, .nil, fun _ => .nil, habreast⟩
  | cons version versions ih =>
    obtain ⟨s₁, first, w₁, h₁, hw₁, rfl⟩ := walk_cons_ok.mp hw
    obtain ⟨hhere, hthere⟩ := split_cons hsplit
    obtain ⟨s₁', first', h₁', hfirst, habreast₁⟩ :=
      habreast.advance ha hapart hs hs' hsupplied hsupplied' howns hhere h₁
    obtain ⟨w₁', hw₁', hrest, huses, hfinal⟩ := ih (hs.advance h₁) (hs'.advance h₁') habreast₁
      (hsupplied.advance hs hhere h₁).1 (hsupplied'.advance hs' hhere h₁').1
      (howns.advance hs h₁) hthere hw₁
    refine ⟨_, walk_cons_ok.mpr ⟨s₁', first', w₁', h₁', hw₁', rfl⟩, hfirst.append hrest,
      fun v => ?_, hfinal⟩
    have hat : ∀ (s : LiveSchema) (w : Walk) final operations,
        Walk.usesAt ⟨final, (version, s.enumUses) :: w.uses, operations⟩ v
          = if version = v then s.enumUses else w.usesAt v := by
      intro s w final operations
      by_cases hv : version = v
      · simp [Walk.usesAt, hv]
      · simp [Walk.usesAt, hv]
    rw [hat, hat]
    split
    · exact habreast.perm_enumUses hs hs'
    · exact huses v

end

end LiveSchema

end SchemaEvolution
