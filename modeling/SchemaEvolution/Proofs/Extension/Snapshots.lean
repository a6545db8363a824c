import Mathlib.Data.List.Induction
import SchemaEvolution.Changelog.EnumRegistry
import SchemaEvolution.Proofs.Extension.Extends

/-!
# What an enum was remains

What an enum is at a version only depends on its steps up to there. So a longer timeline changes
nothing at the old labels, and neither do further steps unless they carry old labels; and even if
they do, an enum that was there at a version is there still, by the same name.
-/

namespace SchemaEvolution

/-! ## Gaining values -/

namespace Enumeration

theorem insertValue_ne_nil {values : List String} {value : String} :
    insertValue values value ≠ [] := by
  unfold insertValue
  split
  · next h => exact List.ne_nil_of_mem h
  · simp

theorem gaining_values_eq_nil {s : Enumeration} {values : List String} :
    (s.gaining values).values = [] ↔ s.values = [] ∧ values = [] := by
  have hfold : ∀ vs start : List String,
      vs.foldl insertValue start = [] ↔ start = [] ∧ vs = [] := by
    intro vs
    induction vs with
    | nil => simp
    | cons v vs ih => simp [ih, insertValue_ne_nil]
  exact hfold values s.values

end Enumeration

namespace EnumHistory

variable {e e' : EnumHistory} {s s' : Enumeration} {versions later : List String}
  {version : String} {label : String → Prop}

/-- What an enum becomes at a version. -/
def next (e : EnumHistory) (s : Enumeration) (version : String) : Enumeration :=
  match e.stepAt? version with
  | some step => s.gaining step.values
  | none => s

/-- An enum without values is not there. -/
def visible (s : Enumeration) : Option Enumeration := if s.values.isEmpty then none else some s

theorem snapshotsFrom_cons :
    e.snapshotsFrom s (version :: versions)
      = visible (e.next s version) :: e.snapshotsFrom (e.next s version) versions := rfl

theorem length_snapshotsFrom : (e.snapshotsFrom s versions).length = versions.length := by
  induction versions generalizing s with
  | nil => rfl
  | cons version versions ih => rw [snapshotsFrom_cons, List.length_cons, ih, List.length_cons]

/-- A longer timeline has the same beginning. -/
theorem snapshotsFrom_append :
    e.snapshotsFrom s (versions ++ later)
      = e.snapshotsFrom s versions ++ e.snapshotsFrom (versions.foldl e.next s) later := by
  induction versions generalizing s with
  | nil => rfl
  | cons version versions ih =>
    rw [List.cons_append, snapshotsFrom_cons, ih]
    rfl

theorem next_name : (e.next s version).name = s.name ∧
    (e.next s version).reference = s.reference := by
  unfold next
  split <;> exact ⟨rfl, rfl⟩

theorem visible_eq_some : visible s = some s' ↔ s.values ≠ [] ∧ s = s' := by
  unfold visible
  split
  · next h => simp_all
  · next h => simp_all

/-- A snapshot has the name of the enum, and some values. -/
theorem mem_snapshotsFrom (h : some s' ∈ e.snapshotsFrom s versions) :
    s'.name = s.name ∧ s'.reference = s.reference ∧ s'.values ≠ [] := by
  induction versions generalizing s with
  | nil => cases h
  | cons version versions ih =>
    rw [snapshotsFrom_cons] at h
    rcases List.mem_cons.mp h with h | h
    · obtain ⟨hv, rfl⟩ := visible_eq_some.mp h.symm
      exact ⟨next_name.1, next_name.2, hv⟩
    · obtain ⟨hn, hr, hv⟩ := ih h
      exact ⟨hn.trans next_name.1, hr.trans next_name.2, hv⟩

/-! ## Up to a version -/

/-- What an enum has become after some versions. -/
def through (e : EnumHistory) (versions : List String) : Enumeration :=
  versions.foldl e.next (.empty e)

theorem through_concat : e.through (versions ++ [version]) = e.next (e.through versions) version :=
  List.foldl_concat ..

/-- An enum that has values keeps them. -/
theorem through_values (h : (e.through (versions ++ [version])).values = []) :
    (e.through versions).values = [] := by
  rw [through_concat, next] at h
  split at h
  · exact (Enumeration.gaining_values_eq_nil.mp h).1
  · exact h

/-- The snapshot at a version shows what the enum has become with it. -/
theorem snapshots_at :
    (e.snapshots (versions ++ version :: later))[versions.length]?
      = some (visible (e.through (versions ++ [version]))) := by
  rw [snapshots, snapshotsFrom_append, through_concat, snapshotsFrom_cons,
    List.getElem?_append_right (by rw [length_snapshotsFrom]), length_snapshotsFrom, Nat.sub_self]
  rfl

/-- The snapshot before it shows what the enum has become until then. -/
theorem snapshots_before :
    (none :: e.snapshots (versions ++ version :: later))[versions.length]?
      = some (visible (e.through versions)) := by
  induction versions using List.reverseRecOn with
  | nil => rfl
  | append_singleton versions last _ =>
    rw [List.length_append, List.length_singleton, List.getElem?_cons_succ, List.append_assoc]
    exact snapshots_at

/-! ## At one version -/

theorem snapshotAt?_eq_zip :
    e.snapshotAt? versions version
      = ((versions.zip (e.snapshots versions)).find? (·.1 == version)).bind (·.2) := rfl

theorem snapshotAt?_name (h : e.snapshotAt? versions version = some s) :
    s.name = e.name ∧ s.reference = e.reference ∧ s.values ≠ [] := by
  obtain ⟨⟨v, o⟩, hf, rfl⟩ := Option.bind_eq_some_iff.mp h
  exact mem_snapshotsFrom (List.of_mem_zip (List.mem_of_find?_eq_some hf)).2

/-- At the old labels, a longer timeline says the same. -/
theorem snapshotAt?_append (h : version ∈ versions) :
    e.snapshotAt? (versions ++ later) version = e.snapshotAt? versions version := by
  have hlen : versions.length = (e.snapshots versions).length := length_snapshotsFrom.symm
  obtain ⟨o, ho⟩ : ∃ o, (versions.zip (e.snapshots versions)).find? (·.1 == version) = some o := by
    have hv : version ∈ (versions.zip (e.snapshots versions)).map (·.1) := by
      rw [List.map_fst_zip (le_of_eq hlen)]
      exact h
    obtain ⟨o, ho, rfl⟩ := List.mem_map.mp hv
    exact Option.isSome_iff_exists.mp (List.find?_isSome.mpr ⟨o, ho, by simp⟩)
  rw [snapshotAt?_eq_zip, snapshotAt?_eq_zip, snapshots, snapshotsFrom_append, ← snapshots,
    List.zip_append hlen, List.find?_append, ho]
  rfl

/-! ## Further steps -/

/-- Of two steps at a version the first counts, so further steps do not change it. -/
theorem Continues.stepAt?_eq_some (h : e.Continues label e') {step : EnumStep}
    (hs : e.stepAt? version = some step) : e'.stepAt? version = some step := by
  obtain ⟨steps, rfl, -⟩ := h
  rw [stepAt?, List.find?_append, ← stepAt?, hs]
  rfl

theorem Continues.stepAt?_eq (h : e.Continues label e') (hv : ¬ label version) :
    e'.stepAt? version = e.stepAt? version := by
  obtain ⟨steps, rfl, hsteps⟩ := h
  have hnone : steps.find? (·.version == version) = none := by
    refine List.find?_eq_none.mpr fun step hs he => hv ?_
    have he : step.version = version := by simpa using he
    exact he ▸ hsteps step hs
  rw [stepAt?, List.find?_append, hnone, Option.or_none, ← stepAt?]

theorem Continues.name_eq (h : e.Continues label e') :
    e'.name = e.name ∧ e'.reference = e.reference := by
  obtain ⟨steps, rfl, -⟩ := h
  exact ⟨rfl, rfl⟩

/-- Steps at other labels make no difference. -/
theorem Continues.snapshotsFrom_eq (h : e.Continues label e')
    (hv : ∀ version ∈ versions, ¬ label version) :
    e'.snapshotsFrom s versions = e.snapshotsFrom s versions := by
  induction versions generalizing s with
  | nil => rfl
  | cons version versions ih =>
    rw [List.forall_mem_cons] at hv
    have hnext : e'.next s version = e.next s version := by
      rw [next, next, h.stepAt?_eq hv.1]
    rw [snapshotsFrom_cons, snapshotsFrom_cons, hnext, ih hv.2]

theorem Continues.snapshots_eq (h : e.Continues label e')
    (hv : ∀ version ∈ versions, ¬ label version) :
    e'.snapshots versions = e.snapshots versions := by
  rw [snapshots, snapshots, Enumeration.empty, Enumeration.empty, h.name_eq.1, h.name_eq.2]
  exact h.snapshotsFrom_eq hv

theorem Continues.through_eq (h : e.Continues label e')
    (hv : ∀ version ∈ versions, ¬ label version) : e'.through versions = e.through versions := by
  induction versions using List.reverseRecOn with
  | nil =>
    rw [through, through, Enumeration.empty, Enumeration.empty, h.name_eq.1, h.name_eq.2]
    rfl
  | append_singleton versions version ih =>
    rw [List.forall_mem_append, List.forall_mem_singleton] at hv
    rw [through_concat, through_concat, ih hv.1, next, next, h.stepAt?_eq hv.2]

theorem Continues.snapshotAt?_eq (h : e.Continues label e')
    (hv : ∀ version ∈ versions, ¬ label version) :
    e'.snapshotAt? versions version = e.snapshotAt? versions version := by
  rw [snapshotAt?_eq_zip, snapshotAt?_eq_zip, h.snapshots_eq hv]

/-- An enum with values has values after the next version too, with further steps or without. -/
theorem Continues.next_values (h : e.Continues label e')
    (hs : s.values ≠ [] → s'.values ≠ []) (hv : (e.next s version).values ≠ []) :
    (e'.next s' version).values ≠ [] := by
  unfold next at hv ⊢
  cases hstep : e.stepAt? version with
  | some step =>
    rw [hstep] at hv
    rw [h.stepAt?_eq_some hstep]
    intro hnil
    obtain ⟨hs', hvalues⟩ := Enumeration.gaining_values_eq_nil.mp hnil
    refine hv (Enumeration.gaining_values_eq_nil.mpr ⟨?_, hvalues⟩)
    by_contra hne
    exact hs hne hs'
  | none =>
    rw [hstep] at hv
    split
    · exact fun hnil => hs hv (Enumeration.gaining_values_eq_nil.mp hnil).1
    · exact hs hv

/-- Whatever labels the further steps carry, an enum that was there is there still. -/
theorem Continues.snapshotAt?_isSome (h : e.Continues label e')
    (hsome : (e.snapshotAt? versions version).isSome = true) :
    (e'.snapshotAt? versions version).isSome = true := by
  suffices hfrom : ∀ s s' : Enumeration, (s.values ≠ [] → s'.values ≠ []) →
      (((versions.zip (e.snapshotsFrom s versions)).find? (·.1 == version)).bind
        (·.2)).isSome = true →
      (((versions.zip (e'.snapshotsFrom s' versions)).find? (·.1 == version)).bind
        (·.2)).isSome = true from
    hfrom (.empty e) (.empty e') (fun hne => absurd rfl hne) hsome
  clear hsome
  induction versions with
  | nil => simp
  | cons v versions ih =>
    intro s s' hs hsome
    have hnext : (e.next s v).values ≠ [] → (e'.next s' v).values ≠ [] := h.next_values hs
    rw [snapshotsFrom_cons, List.zip_cons_cons] at hsome ⊢
    by_cases hv : v = version
    · rw [List.find?_cons_of_pos (by simpa using hv)] at hsome ⊢
      obtain ⟨x, hx⟩ := Option.isSome_iff_exists.mp hsome
      obtain ⟨hne, -⟩ := visible_eq_some.mp hx
      exact Option.isSome_iff_exists.mpr ⟨_, visible_eq_some.mpr ⟨hnext hne, rfl⟩⟩
    · rw [List.find?_cons_of_neg (by simpa using hv)] at hsome ⊢
      exact ih _ _ hnext hsome

end EnumHistory

end SchemaEvolution
