import SchemaEvolution.Proofs.Walk.Replay

/-!
# A walk as a list of changes

What becomes of a database depends on the order in which edits were made, so a walk is written down
here edit by edit. The list holds every edit of every script, those that had nothing to do too.
-/

namespace SchemaEvolution

/-- An edit that was made, with the schemas before and after it and what it does. -/
structure Change where
  before : LiveSchema
  /-- The id of the table that is edited. -/
  id : String
  edit : TableEdit
  after : LiveSchema
  operations : List Operation

/-- A change either is the last one, or stands before it. -/
theorem append_cons_eq_concat {front later xs : List Change} {y x : Change}
    (h : front ++ y :: later = xs ++ [x]) :
    (front = xs ∧ y = x ∧ later = []) ∨
      ∃ between, xs = front ++ y :: between ∧ later = between ++ [x] := by
  rcases List.eq_nil_or_concat later with rfl | ⟨between, z, rfl⟩
  · obtain ⟨rfl, rfl⟩ := List.append_singleton_inj.mp h
    exact Or.inl ⟨rfl, rfl, rfl⟩
  · rw [List.concat_eq_append, ← List.cons_append, ← List.append_assoc,
      List.append_singleton_inj] at h
    obtain ⟨rfl, rfl⟩ := h
    exact Or.inr ⟨between, rfl, List.concat_eq_append ..⟩

/-- Something has happened and something else not since: either it happens last, or that was so
before and still is. -/
theorem exists_since_concat {xs : List Change} {x : Change} {happens undone : Change → Prop} :
    (∃ passed y since, xs ++ [x] = passed ++ y :: since ∧ happens y ∧ ∀ z ∈ since, ¬ undone z) ↔
      happens x ∨ ((∃ passed y since, xs = passed ++ y :: since ∧ happens y ∧
        ∀ z ∈ since, ¬ undone z) ∧ ¬ undone x) := by
  constructor
  · rintro ⟨passed, y, since, heq, hy, hsince⟩
    rcases append_cons_eq_concat heq.symm with ⟨-, rfl, -⟩ | ⟨between, rfl, rfl⟩
    · exact Or.inl hy
    · rw [List.forall_mem_append, List.forall_mem_singleton] at hsince
      exact Or.inr ⟨⟨passed, y, between, rfl, hy, hsince.1⟩, hsince.2⟩
  · rintro (hx | ⟨⟨passed, y, since, rfl, hy, hsince⟩, hlast⟩)
    · exact ⟨xs, x, [], rfl, hx, by simp⟩
    · refine ⟨passed, y, since ++ [x], by simp, hy, ?_⟩
      rw [List.forall_mem_append, List.forall_mem_singleton]
      exact ⟨hsince, hlast⟩

/-- The statements of a change, in order. -/
def Change.statements (x : Change) : List Ddl := x.operations.flatMap (·.statements)

namespace LiveSchema

variable {c : Setting} {version : String} {versions : List String} {s s' : LiveSchema}
  {edits : List (String × TableEdit)} {operations : List Operation}
  {P : LiveSchema → List Change → Prop} {xs : List Change}

/-- The changes that a list of edits makes. -/
def changesOf (c : Setting) (version : String) :
    LiveSchema → List (String × TableEdit) → List Change
  | _, [] => []
  | s, e :: edits =>
    match s.edit c version e with
    | .ok (s', operations) => ⟨s, e.1, e.2, s', operations⟩ :: changesOf c version s' edits
    | .error _ => []

/-- The changes that a walk makes. -/
def changes (c : Setting) : LiveSchema → List String → List Change
  | _, [] => []
  | s, version :: versions =>
    match s.advance c version with
    | .ok (s', _) =>
      changesOf c version (s.takeDue version).1 (script (s.takeDue version).2)
        ++ changes c s' versions
    | .error _ => []

/-! ## What is done -/

theorem changesOf_operations (h : forEach (edit c version) s edits = .ok (s', operations)) :
    (changesOf c version s edits).flatMap (·.operations) = operations := by
  induction edits generalizing s operations with
  | nil =>
    obtain ⟨-, rfl⟩ := forEach_nil_ok.mp h
    rfl
  | cons e edits ih =>
    obtain ⟨s₁, first, rest, h₁, h₂, rfl⟩ := forEach_cons_ok.mp h
    rw [changesOf, h₁]
    exact congrArg (first ++ ·) (ih h₂)

/-- The changes of a walk do what the walk does. -/
theorem changes_operations {w : Walk} (h : s.Sound) (hw : s.walk c versions = .ok w) :
    (changes c s versions).flatMap (·.operations) = w.operations := by
  induction versions generalizing s w with
  | nil =>
    obtain rfl := Except.ok.inj hw
    rfl
  | cons version versions ih =>
    obtain ⟨s₁, first, w₁, h₁, h₂, rfl⟩ := walk_cons_ok.mp hw
    rw [changes, h₁]
    simp only [List.flatMap_append]
    rw [changesOf_operations (advance_script h h₁), ih (h.advance h₁) h₂]

/-! ## What is kept -/

theorem changesOf_invariant
    (hstep : ∀ s xs e s' operations, P s xs → s.edit c version e = .ok (s', operations) →
      P s' (xs ++ [⟨s, e.1, e.2, s', operations⟩]))
    (hs : P s xs) (h : forEach (edit c version) s edits = .ok (s', operations)) :
    P s' (xs ++ changesOf c version s edits) := by
  induction edits generalizing s xs operations with
  | nil =>
    obtain ⟨rfl, -⟩ := forEach_nil_ok.mp h
    rw [changesOf, List.append_nil]
    exact hs
  | cons e edits ih =>
    obtain ⟨s₁, first, rest, h₁, h₂, rfl⟩ := forEach_cons_ok.mp h
    rw [changesOf, h₁]
    simp only
    rw [List.append_cons]
    exact ih (hstep s xs e s₁ first hs h₁) h₂

/-- What holds of a schema and the changes that led to it holds after a walk, if taking the steps
that are due keeps it, and so does every edit. -/
theorem changes_invariant {w : Walk} (hdue : ∀ s xs version, P s xs → P (s.takeDue version).1 xs)
    (hstep : ∀ version s xs e s' operations, P s xs →
      s.edit c version e = .ok (s', operations) → P s' (xs ++ [⟨s, e.1, e.2, s', operations⟩]))
    (hsound : s.Sound) (hs : P s xs) (hw : s.walk c versions = .ok w) :
    P w.final (xs ++ changes c s versions) := by
  induction versions generalizing s xs w with
  | nil =>
    obtain rfl := Except.ok.inj hw
    rw [changes, List.append_nil]
    exact hs
  | cons version versions ih =>
    obtain ⟨s₁, first, w₁, h₁, h₂, rfl⟩ := walk_cons_ok.mp hw
    rw [changes, h₁]
    simp only
    rw [← List.append_assoc]
    exact ih (hsound.advance h₁) (changesOf_invariant (hstep version) (hdue s xs version hs)
      (advance_script hsound h₁)) h₂

/-! ## What changes are made of -/

/-- A change of a list comes from one of the edits. -/
theorem edit_of_mem_changesOf {x : Change} (hx : x ∈ changesOf c version s edits) :
    (x.id, x.edit) ∈ edits ∧
      x.before.edit c version (x.id, x.edit) = .ok (x.after, x.operations) := by
  induction edits generalizing s with
  | nil => cases hx
  | cons e edits ih =>
    unfold changesOf at hx
    split at hx
    · next s' operations he =>
      rcases List.mem_cons.mp hx with rfl | hx
      · exact ⟨List.mem_cons_self, he⟩
      · obtain ⟨hin, he⟩ := ih hx
        exact ⟨List.mem_cons_of_mem _ hin, he⟩
    · cases hx

/-- Where a change of a list stands, the edits before its own have been made. -/
theorem split_of_mem_changesOf {x : Change}
    (h : forEach (edit c version) s edits = .ok (s', operations))
    (hx : x ∈ changesOf c version s edits) :
    ∃ front back made, edits = front ++ (x.id, x.edit) :: back ∧
      forEach (edit c version) s front = .ok (x.before, made) := by
  induction edits generalizing s operations with
  | nil => cases hx
  | cons e edits ih =>
    obtain ⟨s₁, first, rest, h₁, h₂, -⟩ := forEach_cons_ok.mp h
    rw [changesOf, h₁] at hx
    rcases List.mem_cons.mp hx with rfl | hx
    · exact ⟨[], edits, [], rfl, rfl⟩
    · obtain ⟨front, back, made, rfl, hmade⟩ := ih h₂ hx
      exact ⟨e :: front, back, first ++ made, rfl,
        forEach_cons_ok.mpr ⟨s₁, first, made, h₁, hmade, rfl⟩⟩

theorem changesOf_append {rest : List (String × TableEdit)}
    (h : forEach (edit c version) s edits = .ok (s', operations)) :
    changesOf c version s (edits ++ rest)
      = changesOf c version s edits ++ changesOf c version s' rest := by
  induction edits generalizing s operations with
  | nil =>
    obtain ⟨rfl, -⟩ := forEach_nil_ok.mp h
    rfl
  | cons e edits ih =>
    obtain ⟨s₁, first, others, h₁, h₂, rfl⟩ := forEach_cons_ok.mp h
    rw [List.cons_append, changesOf, changesOf, h₁]
    exact congrArg (_ :: ·) (ih h₂)

/-- What every edit keeps holds before every change of a list. -/
theorem before_of_mem_changesOf {Q : LiveSchema → Prop} {x : Change}
    (hstep : ∀ s e s' operations, Q s → s.edit c version e = .ok (s', operations) → Q s')
    (hs : Q s) (h : forEach (edit c version) s edits = .ok (s', operations))
    (hx : x ∈ changesOf c version s edits) : Q x.before := by
  have hall := changesOf_invariant (P := fun s xs => Q s ∧ ∀ x ∈ xs, Q x.before)
    (fun s xs e s' operations ⟨hs, hxs⟩ he => ⟨hstep s e s' operations hs he, ?_⟩)
    ⟨hs, List.forall_mem_nil _⟩ h
  · exact hall.2 x hx
  · rw [List.forall_mem_append, List.forall_mem_singleton]
    exact ⟨hxs, hs⟩

/-- At every version, keys are edited in tables that have been created. -/
theorem later_of_mem_changesOf {x : Change} (h : s.Sound)
    (he : s.advance c version = .ok (s', operations))
    (hx : x ∈ changesOf c version (s.takeDue version).1 (script (s.takeDue version).2))
    (hlater : ∀ step : TableStep, x.edit ∉ step.tableEdits) :
    x.before.Sound ∧ ∃ t, x.before.table? x.id = some t ∧ t.created = true := by
  obtain ⟨hin, -⟩ := edit_of_mem_changesOf hx
  obtain ⟨d, hd, hid : d.1 = x.id⟩ := mem_script hin
  have hscript := advance_script h he
  simp only [advance, Except.bind_ok, Prod.exists] at he
  obtain ⟨s₁, properties, h₁, -⟩ := he
  have h₁ := (round_tableEdits h.takeDue).mpr h₁
  obtain ⟨hs₁, hready⟩ := ready_of_round h.takeDue h₁
  rw [script, List.append_assoc] at hx hscript
  rw [changesOf_append h₁] at hx
  obtain ⟨_, _, others, h₁', h₂, -⟩ := forEach_append_ok.mp hscript
  obtain ⟨rfl, -⟩ := Prod.mk.inj (Except.ok.inj (h₁.symm.trans h₁'))
  rcases List.mem_append.mp hx with hx | hx
  · -- the first round has no edits of keys
    obtain ⟨d, -, hedit⟩ := List.mem_flatMap.mp (edit_of_mem_changesOf hx).1
    obtain ⟨e, he, heq⟩ := List.mem_map.mp hedit
    exact absurd ((Prod.mk.inj heq).2 ▸ he) (hlater d.2)
  · -- the first round has seen to it that the table is there, and edits leave it there
    have hids : (s.takeDue version).1.Sound ∧ d.1 ∈ (s.takeDue version).1.ids :=
      ⟨h.takeDue, by rw [ids_takeDue]; exact mem_ids_of_due hd⟩
    obtain ⟨-, hids⟩ := forEach_invariant (P := fun s => s.Sound ∧ d.1 ∈ s.ids)
      (fun s a s' operations _ hs he => ⟨hs.1.edit he, (ids_edit he).symm ▸ hs.2⟩) hids h₁
    obtain ⟨hsound, hthere, hready⟩ := before_of_mem_changesOf
      (Q := fun s => s.Sound ∧ d.1 ∈ s.ids ∧ s.Ready d.1)
      (fun s a s' operations hs he =>
        ⟨hs.1.edit he, (ids_edit he).symm ▸ hs.2.1, hs.2.2.edit hs.1 he⟩)
      ⟨hs₁, hids, hready d hd⟩ h₂ hx
    obtain ⟨t, ht⟩ := mem_ids_iff.mp hthere
    exact ⟨hsound, t, hid ▸ ht, hready.created ht⟩

theorem later_of_mem_changes {x : Change} {w : Walk} (h : s.Sound)
    (hw : s.walk c versions = .ok w) (hx : x ∈ changes c s versions)
    (hlater : ∀ step : TableStep, x.edit ∉ step.tableEdits) :
    x.before.Sound ∧ ∃ t, x.before.table? x.id = some t ∧ t.created = true := by
  induction versions generalizing s w with
  | nil => cases hx
  | cons version versions ih =>
    obtain ⟨s₁, first, w₁, h₁, h₂, rfl⟩ := walk_cons_ok.mp hw
    rw [changes, h₁] at hx
    rcases List.mem_append.mp hx with hx | hx
    · exact later_of_mem_changesOf h h₁ hx hlater
    · exact ih (h.advance h₁) h₂ hx

theorem constraint_of_mem_changes {x : Change} {k : ConstraintEdit} {w : Walk} (h : s.Sound)
    (hw : s.walk c versions = .ok w) (hx : x ∈ changes c s versions)
    (hk : x.edit = .constraint k) :
    x.before.Sound ∧ ∃ t, x.before.table? x.id = some t ∧ t.created = true :=
  later_of_mem_changes h hw hx fun step => by simp [hk, TableStep.tableEdits]

/-- A longer walk begins with a shorter one. -/
theorem walk_split {later : List String} {w : Walk} (hw : s.walk c (versions ++ later) = .ok w) :
    ∃ w₁ w₂, s.walk c versions = .ok w₁ ∧ w₁.final.walk c later = .ok w₂ ∧ w.final = w₂.final ∧
      w.uses = w₁.uses ++ w₂.uses ∧ w.operations = w₁.operations ++ w₂.operations := by
  induction versions generalizing s w with
  | nil => exact ⟨⟨s, [], []⟩, w, rfl, hw, rfl, rfl, rfl⟩
  | cons version versions ih =>
    rw [List.cons_append] at hw
    obtain ⟨s₁, first, w', h₁, hw', rfl⟩ := walk_cons_ok.mp hw
    obtain ⟨w₁, w₂, hw₁, hw₂, hfinal, huses, hoperations⟩ := ih hw'
    refine ⟨_, w₂, walk_cons_ok.mpr ⟨s₁, first, w₁, h₁, hw₁, rfl⟩, hw₂, hfinal, ?_, ?_⟩
    · rw [huses, List.cons_append]
    · rw [hoperations, List.append_assoc]

/-- A walk goes on to one more version. -/
theorem walk_concat {w : Walk} (hw : s.walk c versions = .ok w)
    (hadvance : w.final.advance c version = .ok (s', operations)) :
    ∃ w', s.walk c (versions ++ [version]) = .ok w' ∧ w'.final = s' := by
  induction versions generalizing s w with
  | nil =>
    obtain rfl := Except.ok.inj hw
    exact ⟨_, walk_cons_ok.mpr ⟨s', operations, ⟨s', [], []⟩, hadvance, rfl, rfl⟩, rfl⟩
  | cons first versions ih =>
    obtain ⟨s₁, os, w₁, h₁, h₂, rfl⟩ := walk_cons_ok.mp hw
    obtain ⟨w', hw', hfinal⟩ := ih h₂ hadvance
    exact ⟨_, walk_cons_ok.mpr ⟨s₁, os, w', h₁, hw', rfl⟩, hfinal⟩

/-- The operations at one version, where others stand before and after them. -/
theorem filter_version {front here back : List Operation}
    (hfront : ∀ o ∈ front, o.version ≠ version) (hhere : ∀ o ∈ here, o.version = version)
    (hback : ∀ o ∈ back, o.version ≠ version) :
    (front ++ (here ++ back)).filter (·.version == version) = here := by
  rw [List.filter_append, List.filter_append, List.filter_eq_nil_iff.mpr, List.filter_eq_self.mpr,
    List.filter_eq_nil_iff.mpr, List.nil_append, List.append_nil]
  · exact fun o ho => by simpa using hback o ho
  · exact fun o ho => by simpa using hhere o ho
  · exact fun o ho => by simpa using hfront o ho

/-- At each version a walk does what it does to advance to it. -/
theorem walk_at_version {passed later : List String} {w : Walk} (h : s.Sound)
    (hn : (passed ++ version :: later).Nodup) (hw : s.walk c (passed ++ version :: later) = .ok w) :
    ∃ w₁ s' operations, s.walk c passed = .ok w₁ ∧
      w₁.final.advance c version = .ok (s', operations) ∧
      w.operations.filter (·.version == version) = operations ∧
      w.usesAt version = w₁.final.enumUses := by
  obtain ⟨hpassed, hthere, hapart⟩ := List.nodup_append.mp hn
  obtain ⟨w₁, w₂, hw₁, hw₂, -, huses, hoperations⟩ := walk_split hw
  obtain ⟨s', operations, w₃, hadvance, hw₃, rfl⟩ := walk_cons_ok.mp hw₂
  have hsound := h.walk hw₁
  refine ⟨w₁, s', operations, hw₁, hadvance, ?_, ?_⟩
  · rw [hoperations, filter_version]
    · intro o ho
      obtain ⟨v, hv, e, he⟩ := walk_accounts h hw₁ o ho
      rw [he.version]
      exact hapart v hv version List.mem_cons_self
    · exact forEach_operations (fun _ _ _ _ _ he o ho => (edit_accounts he o ho).version)
        (advance_script hsound hadvance)
    · intro o ho heq
      obtain ⟨v, hv, e, he⟩ := walk_accounts (hsound.advance hadvance) hw₃ o ho
      rw [he.version] at heq
      exact (List.nodup_cons.mp hthere).1 (heq ▸ hv)
  · have hbefore : w₁.uses.find? (·.1 == version) = none := by
      refine List.find?_eq_none.mpr fun entry hentry heq => ?_
      have hv : entry.1 ∈ passed := walk_uses hw₁ ▸ List.mem_map_of_mem hentry
      exact hapart entry.1 hv version List.mem_cons_self (beq_iff_eq.mp heq)
    simp [Walk.usesAt, huses, List.find?_append, hbefore]

/-- Going along versions, the operations at the first are followed by those at the others. -/
theorem flatMap_filter_version {first rest : List Operation} (hnew : version ∉ versions)
    (hfirst : ∀ o ∈ first, o.version = version) (hrest : ∀ o ∈ rest, o.version ∈ versions) :
    (version :: versions).flatMap (fun v => (first ++ rest).filter (·.version == v))
      = first ++ versions.flatMap (fun v => rest.filter (·.version == v)) := by
  have hhere : ([] ++ (first ++ rest)).filter (·.version == version) = first :=
    filter_version (List.forall_mem_nil _) hfirst fun o ho hv => hnew (hv ▸ hrest o ho)
  rw [List.nil_append] at hhere
  have hthere : ∀ v ∈ versions,
      (first ++ rest).filter (·.version == v) = rest.filter (·.version == v) := by
    intro v hv
    rw [List.filter_append, List.filter_eq_nil_iff.mpr, List.nil_append]
    intro o ho he
    exact hnew (hfirst o ho ▸ beq_iff_eq.mp he ▸ hv)
  rw [List.flatMap_cons, hhere, List.flatMap_congr hthere]

/-- The operations of a walk stand in the order of its versions. -/
theorem walk_byVersion {w : Walk} (h : s.Sound) (hn : versions.Nodup)
    (hw : s.walk c versions = .ok w) :
    versions.flatMap (fun version => w.operations.filter (·.version == version))
      = w.operations := by
  induction versions generalizing s w with
  | nil =>
    obtain rfl := Except.ok.inj hw
    rfl
  | cons version versions ih =>
    obtain ⟨s₁, first, w₁, h₁, h₂, rfl⟩ := walk_cons_ok.mp hw
    obtain ⟨hnew, hn⟩ := List.nodup_cons.mp hn
    have hfirst : ∀ o ∈ first, o.version = version :=
      forEach_operations (fun _ _ _ _ _ he o ho => (edit_accounts he o ho).version)
        (advance_script h h₁)
    have hrest : ∀ o ∈ w₁.operations, o.version ∈ versions := by
      intro o ho
      obtain ⟨v, hv, e, he⟩ := walk_accounts (h.advance h₁) h₂ o ho
      rw [he.version]
      exact hv
    rw [flatMap_filter_version hnew hfirst hrest, ih (h.advance h₁) hn h₂]

end LiveSchema

end SchemaEvolution
