import SchemaEvolution.Proofs.Order.Edits

/-!
# Tables in any order

In a round of a version every table that has a step gets its edits, one table after the other. The
edits of two tables do not get in each other's way, so they may as well be made the other way round;
and so the tables of a round may come in any order. What is done in the database is the same then,
but for the order.
-/

namespace SchemaEvolution

/-! ## Names that belong to a table -/

/-- The name of the constraint that an edit adds or removes. -/
def ConstraintEdit.name : ConstraintEdit → String
  | .addPrimaryKey name _ | .addForeignKey name _ _ _ | .remove _ name => name

/-- The name of the index that an edit adds or removes. -/
def IndexEdit.name : IndexEdit → String
  | .add _ name _ | .remove _ name => name

/-- The names of all constraints and indices that a step adds or removes. -/
def TableStep.keyNames (step : TableStep) : List String :=
  step.constraints.map (·.name) ++ step.indices.map (·.name)

namespace LiveSchema

variable {c : Setting} {version id other : String} {versions : List String}
  {owned : String → List String} {edits : TableStep → List TableEdit} {P : LiveSchema → Prop}
  {s s' s₁ s₂ : LiveSchema} {step : TableStep} {d d' : String × TableStep}
  {due due' : List (String × TableStep)} {operations operations' : List Operation}

/-- What the edits of a round may rely on, and keep: the enums of all columns are supplied, no names
but those of the step are used, and what foreign keys refer to is settled. -/
structure Stage (c : Setting) (version : String) (versions : List String)
    (edits : TableStep → List TableEdit) (P : LiveSchema → Prop) : Prop where
  supplied : ∀ s, P s → Supplied c.history versions s
  kept : ∀ s s' id step e operations, P s → e ∈ edits step →
    s.edit c version (id, e) = .ok (s', operations) → P s'
  names : ∀ step e name, e ∈ edits step → e.takenName? = some name ∨ e.freedName? = some name →
    name ∈ step.keyNames
  target : ∀ s s' step e other, P s → P s' → e ∈ edits step → e.references? = some other →
    s'.outline? other = s.outline? other

/-- The edits of one table in a round. -/
def editBlock (c : Setting) (version : String) (edits : TableStep → List TableEdit)
    (s : LiveSchema) (d : String × TableStep) : Outcome :=
  forEach (edit c version) s ((edits d.2).map (d.1, ·))

/-- Two schemas are abreast when they agree about every table, and the second has all enums of the
first in use. -/
structure Abreast (owned : String → List String) (s s' : LiveSchema) : Prop where
  agree : ∀ id, Agree owned id s s'
  enums : s.enums.enums ⊆ s'.enums.enums

theorem Abreast.refl (s : LiveSchema) : Abreast owned s s :=
  ⟨fun _ => .refl s, List.Subset.refl _⟩

theorem Abreast.trans (h : Abreast owned s s₁) (h₁ : Abreast owned s₁ s₂) : Abreast owned s s₂ :=
  ⟨fun id => (h.agree id).trans (h₁.agree id), List.Subset.trans h.enums h₁.enums⟩

/-! ## The edits of one table -/

section

variable (hstage : Stage c version versions edits P)

include hstage

theorem Stage.block_kept (hP : P s)
    (hd : editBlock c version edits s d = .ok (s₁, operations)) : P s₁ := by
  refine forEach_invariant (fun s a s' operations ha hP he => ?_) hP hd
  obtain ⟨e, hin, rfl⟩ := List.mem_map.mp ha
  exact hstage.kept s s' d.1 d.2 e operations hP hin he

theorem Stage.round_kept (hP : P s)
    (hd : forEach (editBlock c version edits) s due = .ok (s₁, operations)) : P s₁ :=
  forEach_invariant (fun _ _ _ _ _ hP hd => hstage.block_kept hP hd) hP hd

/-- The edits of a table make no difference to another one. -/
theorem Stage.block_other (hnames : ∀ name ∈ d.2.keyNames, name ∉ owned other)
    (hid : other ≠ d.1) (hd : editBlock c version edits s d = .ok (s₁, operations)) :
    Agree owned other s s₁ := by
  refine forEach_invariant (P := Agree owned other s) (fun s' a s₂ operations ha hs' he => ?_)
    (.refl s) hd
  obtain ⟨e, hin, rfl⟩ := List.mem_map.mp ha
  exact hs'.trans (agree_of_edit he hid fun name hname =>
    hnames name (hstage.names d.2 e name hin hname))

variable (ha : c.history.EnumsApart)

include ha

/-- The edits of a table can be made wherever two schemas agree about the table. -/
theorem Stage.block_agree (hnames : ∀ name ∈ d.2.keyNames, name ∈ owned d.1) (hP : P s)
    (hP' : P s') (hagree : Agree owned d.1 s s')
    (hd : editBlock c version edits s d = .ok (s₁, operations)) :
    ∃ s₁', editBlock c version edits s' d = .ok (s₁', operations) ∧ Agree owned d.1 s₁ s₁' ∧
      s.enums.NewIn s₁.enums s₁'.enums := by
  suffices hpart : ∀ es : List TableEdit, es ⊆ edits d.2 → ∀ s s' operations, P s → P s' →
      Agree owned d.1 s s' → forEach (edit c version) s (es.map (d.1, ·)) = .ok (s₁, operations) →
      ∃ s₁', forEach (edit c version) s' (es.map (d.1, ·)) = .ok (s₁', operations) ∧
        Agree owned d.1 s₁ s₁' ∧ s.enums.NewIn s₁.enums s₁'.enums from
    hpart (edits d.2) (List.Subset.refl _) s s' operations hP hP' hagree hd
  intro es
  induction es with
  | nil =>
    intro _ s s' operations _ _ hagree he
    obtain ⟨rfl, rfl⟩ := forEach_nil_ok.mp he
    exact ⟨s', rfl, hagree, .refl⟩
  | cons e es ih =>
    intro hsub s s' operations hP hP' hagree he
    obtain ⟨hin, hsub⟩ := List.cons_subset.mp hsub
    obtain ⟨s₂, first, rest, h₁, h₂, rfl⟩ := forEach_cons_ok.mp he
    obtain ⟨s₂', h₁', hagree₂, hnew⟩ := edit_agree ha (hstage.supplied s hP)
      (hstage.supplied s' hP') hagree
      (fun name hname => hnames name (hstage.names d.2 e name hin (Or.inl hname)))
      (fun other => hstage.target s s' d.2 e other hP hP' hin) h₁
    obtain ⟨s₁', h₂', hagree₁, hnew₁⟩ := ih hsub s₂ s₂' rest
      (hstage.kept s s₂ d.1 d.2 e first hP hin h₁)
      (hstage.kept s' s₂' d.1 d.2 e first hP' hin h₁') hagree₂ h₂
    exact ⟨s₁', forEach_cons_ok.mpr ⟨s₂', first, rest, h₁', h₂', rfl⟩, hagree₁,
      hnew.trans hnew₁ (edits_grow h₂')⟩

end

/-! ## A round -/

section

variable (hstage : Stage c version versions edits P) (ha : c.history.EnumsApart)
  (hapart : ∀ id other, id ≠ other → (owned id).Disjoint (owned other))

include hstage ha hapart

/-- Schemas that are abreast are still abreast when a table has got its edits in both. -/
theorem Abreast.block (hnames : ∀ name ∈ d.2.keyNames, name ∈ owned d.1) (hP : P s) (hP' : P s')
    (habreast : Abreast owned s s') (hd : editBlock c version edits s d = .ok (s₁, operations)) :
    ∃ s₁', editBlock c version edits s' d = .ok (s₁', operations) ∧ Abreast owned s₁ s₁' := by
  obtain ⟨s₁', hd', hagree, hnew⟩ :=
    hstage.block_agree ha hnames hP hP' (habreast.agree d.1) hd
  refine ⟨s₁', hd', fun id => ?_, fun e he => ?_⟩
  · by_cases hid : id = d.1
    · exact hid ▸ hagree
    · have hother : ∀ name ∈ d.2.keyNames, name ∉ owned id := fun name hname hin =>
        hapart d.1 id (Ne.symm hid) (hnames name hname) hin
      exact ((hstage.block_other hother hid hd).symm.trans (habreast.agree id)).trans
        (hstage.block_other hother hid hd')
  · rcases hnew e he with he | he
    · exact (edits_grow hd').enums.subset (habreast.enums he)
    · exact he

/-- The edits of two tables may be made the other way round. -/
theorem Stage.swap (hid : d.1 ≠ d'.1) (hnames : ∀ name ∈ d.2.keyNames, name ∈ owned d.1)
    (hnames' : ∀ name ∈ d'.2.keyNames, name ∈ owned d'.1) (hP : P s)
    (h₁ : editBlock c version edits s d = .ok (s₁, operations))
    (h₂ : editBlock c version edits s₁ d' = .ok (s₂, operations')) :
    ∃ s₁' s₂', editBlock c version edits s d' = .ok (s₁', operations') ∧
      editBlock c version edits s₁' d = .ok (s₂', operations) ∧ Abreast owned s₂ s₂' := by
  have hother : ∀ id, id ≠ d.1 → ∀ name ∈ d.2.keyNames, name ∉ owned id :=
    fun id hid name hname hin => hapart d.1 id (Ne.symm hid) (hnames name hname) hin
  have hother' : ∀ id, id ≠ d'.1 → ∀ name ∈ d'.2.keyNames, name ∉ owned id :=
    fun id hid name hname hin => hapart d'.1 id (Ne.symm hid) (hnames' name hname) hin
  have hkeep : ∀ id, id ≠ d.1 → Agree owned id s s₁ := fun id hid =>
    hstage.block_other (hother id hid) hid h₁
  have hP₁ : P s₁ := hstage.block_kept hP h₁
  -- the second table looks the same before the first one gets its edits, and the other way round
  obtain ⟨s₁', h₁', hagree', hnew'⟩ :=
    hstage.block_agree ha hnames' hP₁ hP (hkeep d'.1 (Ne.symm hid)).symm h₂
  have hkeep' : ∀ id, id ≠ d'.1 → Agree owned id s s₁' := fun id hid =>
    hstage.block_other (hother' id hid) hid h₁'
  obtain ⟨s₂', h₂', hagree, hnew⟩ :=
    hstage.block_agree ha hnames hP (hstage.block_kept hP h₁') (hkeep' d.1 hid) h₁
  have hlast : ∀ id, id ≠ d'.1 → Agree owned id s₂ s₁ := fun id hid =>
    (hstage.block_other (hother' id hid) hid h₂).symm
  have hlast' : ∀ id, id ≠ d.1 → Agree owned id s₁' s₂' := fun id hid =>
    hstage.block_other (hother id hid) hid h₂'
  refine ⟨s₁', s₂', h₁', h₂', fun id => ?_, fun e he => ?_⟩
  · by_cases hfirst : id = d.1
    · exact (hlast id (hfirst ▸ hid)).trans (hfirst ▸ hagree)
    · by_cases hsecond : id = d'.1
      · exact (hsecond ▸ hagree').trans (hlast' id hfirst)
      · exact ((hlast id hsecond).trans (hkeep id hfirst).symm).trans
          ((hkeep' id hsecond).trans (hlast' id hfirst))
  · rcases hnew' e he with he | he
    · rcases hnew e he with he | he
      · exact (edits_grow h₂').enums.subset ((edits_grow h₁').enums.subset he)
      · exact he
    · exact (edits_grow h₂').enums.subset he

theorem Abreast.round (hnames : ∀ d ∈ due, ∀ name ∈ d.2.keyNames, name ∈ owned d.1) (hP : P s)
    (hP' : P s') (habreast : Abreast owned s s')
    (he : forEach (editBlock c version edits) s due = .ok (s₁, operations)) :
    ∃ s₁', forEach (editBlock c version edits) s' due = .ok (s₁', operations) ∧
      Abreast owned s₁ s₁' := by
  induction due generalizing s s' operations with
  | nil =>
    obtain ⟨rfl, rfl⟩ := forEach_nil_ok.mp he
    exact ⟨s', rfl, habreast⟩
  | cons d due ih =>
    rw [List.forall_mem_cons] at hnames
    obtain ⟨s₂, first, rest, h₁, h₂, rfl⟩ := forEach_cons_ok.mp he
    obtain ⟨s₂', h₁', habreast₂⟩ := habreast.block hstage ha hapart hnames.1 hP hP' h₁
    obtain ⟨s₁', h₂', habreast₁⟩ := ih hnames.2 (hstage.block_kept hP h₁)
      (hstage.block_kept hP' h₁') habreast₂ h₂
    exact ⟨s₁', forEach_cons_ok.mpr ⟨s₂', first, rest, h₁', h₂', rfl⟩, habreast₁⟩

/-- The tables of a round may come in any order. -/
theorem Abreast.permuted_round (hperm : due.Perm due') (hids : (due.map (·.1)).Nodup)
    (hnames : ∀ d ∈ due, ∀ name ∈ d.2.keyNames, name ∈ owned d.1) (hP : P s) (hP' : P s')
    (habreast : Abreast owned s s')
    (he : forEach (editBlock c version edits) s due = .ok (s₁, operations)) :
    ∃ s₁' operations', forEach (editBlock c version edits) s' due' = .ok (s₁', operations') ∧
      operations.Perm operations' ∧ Abreast owned s₁ s₁' := by
  induction hperm generalizing s s' s₁ operations with
  | nil =>
    obtain ⟨rfl, rfl⟩ := forEach_nil_ok.mp he
    exact ⟨s', [], rfl, .nil, habreast⟩
  | cons d _ ih =>
    rw [List.forall_mem_cons] at hnames
    obtain ⟨s₂, first, rest, h₁, h₂, rfl⟩ := forEach_cons_ok.mp he
    obtain ⟨s₂', h₁', habreast₂⟩ := habreast.block hstage ha hapart hnames.1 hP hP' h₁
    obtain ⟨s₁', rest', h₂', hrest, habreast₁⟩ := ih (List.nodup_cons.mp hids).2 hnames.2
      (hstage.block_kept hP h₁) (hstage.block_kept hP' h₁') habreast₂ h₂
    exact ⟨s₁', first ++ rest', forEach_cons_ok.mpr ⟨s₂', first, rest', h₁', h₂', rfl⟩,
      hrest.append_left first, habreast₁⟩
  | swap d d' due =>
    rw [List.forall_mem_cons, List.forall_mem_cons] at hnames
    have hne : d'.1 ≠ d.1 := fun heq =>
      (List.nodup_cons.mp hids).1 (List.mem_cons.mpr (Or.inl heq))
    obtain ⟨s₂, first, _, h₁, hrest, rfl⟩ := forEach_cons_ok.mp he
    obtain ⟨s₃, second, rest, h₂, h₃, rfl⟩ := forEach_cons_ok.mp hrest
    obtain ⟨s₂', s₃', h₁', h₂', hswapped⟩ :=
      hstage.swap ha hapart hne hnames.1 hnames.2.1 hP h₁ h₂
    -- the other way round they are made in the other schema, and the rest follows
    obtain ⟨s₂'', h₁'', habreast₂⟩ :=
      habreast.block hstage ha hapart hnames.2.1 hP hP' h₁'
    have hP₂ : P s₂' := hstage.block_kept hP h₁'
    have hP₂' : P s₂'' := hstage.block_kept hP' h₁''
    obtain ⟨s₃'', h₂'', habreast₃⟩ := habreast₂.block hstage ha hapart hnames.1 hP₂ hP₂' h₂'
    obtain ⟨s₁', h₃'', habreast₁⟩ := (hswapped.trans habreast₃).round hstage ha hapart hnames.2.2
      (hstage.block_kept (hstage.block_kept hP h₁) h₂) (hstage.block_kept hP₂' h₂'') h₃
    refine ⟨s₁', second ++ (first ++ rest), forEach_cons_ok.mpr ⟨s₂'', second, _, h₁'',
      forEach_cons_ok.mpr ⟨s₃'', first, rest, h₂'', h₃'', rfl⟩, rfl⟩, ?_, habreast₁⟩
    rw [← List.append_assoc, ← List.append_assoc]
    exact List.perm_append_comm.append_right rest
  | trans hperm hperm' ih ih' =>
    obtain ⟨s₂, middle, h₁, hmiddle, habreast₁⟩ := ih hids hnames hP hP (.refl s) he
    obtain ⟨s₁', operations', h₂, hlast, habreast₂⟩ := ih' ((hperm.map _).nodup_iff.mp hids)
      (fun d hd => hnames d (hperm.mem_iff.mpr hd)) hP hP' habreast h₁
    exact ⟨s₁', operations', h₂, hmiddle.trans hlast, habreast₁.trans habreast₂⟩

end

end LiveSchema

end SchemaEvolution
