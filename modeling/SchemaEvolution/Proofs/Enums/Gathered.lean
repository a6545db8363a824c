import Mathlib.Data.List.Sort
import SchemaEvolution.Proofs.Enums.Lookup

/-!
# What an enum has gathered

An enum is asked for its step at each label of a timeline, one label after the other, and of several
steps with one label only the first answers. So at a version it holds the values of those steps up
to there, in the order of their labels, each value where it occurs first. The order in which the
history lists its steps does not matter, but a step whose label occurred before adds nothing.
-/

namespace SchemaEvolution

/-! ## The first occurrence of each value -/

namespace Enumeration

theorem insertValue_eraseDups {values : List String} {value : String} :
    insertValue values.eraseDups value = (values ++ [value]).eraseDups := by
  rw [List.eraseDups_append]
  unfold insertValue
  split
  · next h => simp [List.removeAll, List.mem_eraseDups.mp h]
  · next h =>
    rw [List.mem_eraseDups] at h
    simp [List.removeAll, List.eraseDups_cons, h]

/-- Values that are inserted one after the other stay where they occurred first. -/
theorem foldl_insertValue {values added : List String} :
    added.foldl insertValue values.eraseDups = (values ++ added).eraseDups := by
  induction added generalizing values with
  | nil => simp
  | cons value added ih =>
    rw [List.foldl_cons, insertValue_eraseDups, ih, List.append_assoc, List.singleton_append]

end Enumeration

/-! ## Steps in the order of their labels -/

namespace EnumStep

/-- Steps in the order of their labels. Steps with the same label keep their order. -/
def inOrder (steps : List EnumStep) : List EnumStep :=
  steps.insertionSort fun a b => a.version ≤ b.version

/-- The values that steps up to a version have gathered: in the order of their labels, each where it
occurs first. -/
def gathered (steps : List EnumStep) (version : String) : List String :=
  ((inOrder (steps.filter (·.version ≤ version))).flatMap (·.values)).eraseDups

/-- Steps without those whose label occurred before. -/
def firstOfEachLabel : List EnumStep → List EnumStep
  | [] => []
  | step :: steps => step :: (firstOfEachLabel steps).filter (·.version != step.version)

variable {step : EnumStep} {steps : List EnumStep} {labels : List String} {label : String}

/-- The steps with a label, among steps that are taken apart by label. -/
def block (steps : List EnumStep) (label : String) : List EnumStep :=
  steps.filter (·.version == label)

theorem version_of_mem_block (h : step ∈ block steps label) : step.version = label :=
  beq_iff_eq.mp (List.mem_filter.mp h).2

/-- A step that is put in its place passes by everything that has an earlier label. -/
theorem orderedInsert_append {early late : List EnumStep}
    (h : ∀ other ∈ early, other.version < step.version) :
    List.orderedInsert (fun a b : EnumStep => a.version ≤ b.version) step (early ++ late)
      = early ++ List.orderedInsert (fun a b => a.version ≤ b.version) step late := by
  induction early with
  | nil => rfl
  | cons other early ih =>
    rw [List.forall_mem_cons] at h
    rw [List.cons_append, List.orderedInsert_cons, if_neg (String.not_le.mpr h.1), ih h.2,
      List.cons_append]

/-- It stops before everything that has its label or a later one. -/
theorem orderedInsert_of_le (h : ∀ other ∈ steps, step.version ≤ other.version) :
    List.orderedInsert (fun a b : EnumStep => a.version ≤ b.version) step steps
      = step :: steps := by
  cases steps with
  | nil => rfl
  | cons other steps => rw [List.orderedInsert_cons, if_pos (h other List.mem_cons_self)]

/-- So it comes first among those with its label, if the labels ascend. -/
theorem orderedInsert_blocks (hsorted : labels.Pairwise (· < ·)) (hmem : step.version ∈ labels) :
    List.orderedInsert (fun a b : EnumStep => a.version ≤ b.version) step
        (labels.flatMap (block steps)) = labels.flatMap (block (step :: steps)) := by
  induction labels with
  | nil => cases hmem
  | cons label labels ih =>
    rw [List.pairwise_cons] at hsorted
    rw [List.flatMap_cons, List.flatMap_cons]
    by_cases hlabel : step.version = label
    · have hfirst : ∀ other ∈ block steps label ++ labels.flatMap (block steps),
          step.version ≤ other.version := by
        intro other hother
        rcases List.mem_append.mp hother with hother | hother
        · exact Std.le_of_eq (hlabel.trans (version_of_mem_block hother).symm)
        · obtain ⟨later, hlater, hother⟩ := List.mem_flatMap.mp hother
          rw [hlabel, version_of_mem_block hother]
          exact Std.le_of_lt (hsorted.1 later hlater)
      have hhere : block (step :: steps) label = step :: block steps label :=
        List.filter_cons_of_pos (by simpa using hlabel)
      have hlater : labels.flatMap (block (step :: steps)) = labels.flatMap (block steps) := by
        refine List.flatMap_congr fun later hin => List.filter_cons_of_neg ?_
        rw [beq_iff_eq, hlabel]
        exact String.ne_of_lt (hsorted.1 later hin)
      rw [hhere, hlater, List.cons_append, orderedInsert_of_le hfirst]
    · have hin : step.version ∈ labels := (List.mem_cons.mp hmem).resolve_left hlabel
      have hhere : block (step :: steps) label = block steps label :=
        List.filter_cons_of_neg (by simpa using hlabel)
      rw [hhere, ← ih hsorted.2 hin]
      refine orderedInsert_append fun other hother => ?_
      rw [version_of_mem_block hother]
      exact hsorted.1 _ hin

/-- Steps are put in order by going along their labels. -/
theorem inOrder_eq_blocks (hsorted : labels.Pairwise (· < ·))
    (hmem : ∀ step ∈ steps, step.version ∈ labels) :
    inOrder steps = labels.flatMap (block steps) := by
  induction steps with
  | nil => simp [inOrder, block]
  | cons step steps ih =>
    rw [List.forall_mem_cons] at hmem
    have hrest : List.insertionSort (fun a b : EnumStep => a.version ≤ b.version) steps
        = labels.flatMap (block steps) := ih hmem.2
    rw [inOrder, List.insertionSort_cons, hrest, orderedInsert_blocks hsorted hmem.1]

/-- Only the first step with a label is left. -/
theorem block_firstOfEachLabel :
    block (firstOfEachLabel steps) label = (steps.find? (·.version == label)).toList := by
  induction steps with
  | nil => rfl
  | cons step steps ih =>
    by_cases hlabel : step.version = label
    · have hnone : block ((firstOfEachLabel steps).filter (·.version != step.version)) label
          = [] := by
        refine List.filter_eq_nil_iff.mpr fun other hother => ?_
        have hne : other.version ≠ step.version := by simpa using (List.mem_filter.mp hother).2
        simpa [hlabel] using hne
      rw [List.find?_cons_of_pos (by simpa using hlabel), block, firstOfEachLabel,
        List.filter_cons_of_pos (by simpa using hlabel), ← block, hnone]
      rfl
    · rw [List.find?_cons_of_neg (by simpa using hlabel), ← ih, block, firstOfEachLabel,
        List.filter_cons_of_neg (by simpa using hlabel), List.filter_filter, block]
      refine List.filter_congr fun other _ => ?_
      rw [Bool.and_eq_left_iff_imp, beq_iff_eq, bne_iff_ne]
      rintro rfl hsame
      exact hlabel hsame.symm

theorem firstOfEachLabel_subset : firstOfEachLabel steps ⊆ steps := by
  induction steps with
  | nil => exact fun _ h => h
  | cons step steps ih =>
    exact List.cons_subset_cons step fun _ h => ih (List.mem_filter.mp h).1

/-- Where no label occurs twice, every step is the first of its label. -/
theorem firstOfEachLabel_eq_self (h : (steps.map (·.version)).Nodup) :
    firstOfEachLabel steps = steps := by
  induction steps with
  | nil => rfl
  | cons step steps ih =>
    rw [List.map_cons, List.nodup_cons] at h
    rw [firstOfEachLabel, ih h.2, List.filter_eq_self.mpr]
    intro other hother
    rw [bne_iff_ne]
    intro hsame
    exact h.1 (hsame ▸ List.mem_map_of_mem hother)

end EnumStep

/-! ## What the enum holds -/

namespace EnumHistory

open EnumStep

variable {e : EnumHistory} {versions passed later : List String} {version : String}

/-- What an enum has become after some versions, by the steps that it was asked for. -/
theorem through_eq_eraseDups :
    e.through versions = ⟨e.name, e.reference,
      (versions.flatMap fun v => (e.stepAt? v).toList.flatMap (·.values)).eraseDups⟩ := by
  induction versions using List.reverseRecOn with
  | nil => rfl
  | append_singleton versions version ih =>
    rw [through_concat, ih, next, List.flatMap_append, List.flatMap_singleton]
    cases e.stepAt? version with
    | none => simp
    | some step =>
      unfold Enumeration.gaining
      simp only [Enumeration.foldl_insertValue, Option.toList_some, List.flatMap_singleton]

/-- Going along a timeline, an enum gathers the values of the first step with each label. -/
theorem through_values_eq_gathered (hsorted : (passed ++ version :: later).Pairwise (· < ·))
    (hlabels : ∀ step ∈ e.steps, step.version ∈ passed ++ version :: later) :
    e.through (passed ++ [version])
      = ⟨e.name, e.reference, gathered (firstOfEachLabel e.steps) version⟩ := by
  obtain ⟨hpassed, hthere, hapart⟩ := List.pairwise_append.mp hsorted
  have hupTo : (passed ++ [version]).Pairwise (· < ·) :=
    List.pairwise_append.mpr ⟨hpassed, List.pairwise_singleton _ _, fun a ha b hb =>
      hapart a ha b (List.mem_singleton.mp hb ▸ List.mem_cons_self)⟩
  have hle : ∀ label ∈ passed ++ [version], label ≤ version := by
    intro label hlabel
    rcases List.mem_append.mp hlabel with hlabel | hlabel
    · exact Std.le_of_lt (hapart label hlabel version List.mem_cons_self)
    · exact Std.le_of_eq (List.mem_singleton.mp hlabel)
  -- the steps up to the version are those with a label that has been passed
  have hmem : ∀ step ∈ (firstOfEachLabel e.steps).filter (·.version ≤ version),
      step.version ∈ passed ++ [version] := by
    intro step hstep
    obtain ⟨hstep, hversion⟩ := List.mem_filter.mp hstep
    have hin := hlabels step (firstOfEachLabel_subset hstep)
    rcases List.mem_append.mp hin with hin | hin
    · exact List.mem_append_left _ hin
    · rcases List.mem_cons.mp hin with hin | hin
      · exact hin ▸ List.mem_append_right _ (List.mem_singleton_self _)
      · exact absurd ((List.pairwise_cons.mp hthere).1 _ hin)
          (String.not_lt.mpr (of_decide_eq_true hversion))
  have hblock : ∀ label ∈ passed ++ [version],
      block ((firstOfEachLabel e.steps).filter (·.version ≤ version)) label
        = (e.stepAt? label).toList := by
    intro label hlabel
    rw [stepAt?, ← block_firstOfEachLabel, block, List.filter_filter, block]
    refine List.filter_congr fun step _ => ?_
    rw [Bool.and_eq_left_iff_imp, beq_iff_eq, decide_eq_true_iff]
    rintro rfl
    exact hle _ hlabel
  rw [through_eq_eraseDups, gathered, inOrder_eq_blocks hupTo hmem, List.flatMap_assoc]
  congr 2
  refine List.flatMap_congr fun label hlabel => ?_
  rw [hblock label hlabel]

end EnumHistory

namespace EnumRegistry

open EnumStep

variable {g : EnumRegistry} {e : EnumHistory} {version : String}

/-- When an enum comes into use under a new name, its snapshot at each version of the timeline holds
the values of its steps up to there, in the order of their labels, each value where it occurs first;
without any such value there is no snapshot. Of several steps with one label only the first is
counted; if no label occurs twice, all of them are. -/
theorem register_gathers (hsorted : g.timeline.Pairwise (· < ·))
    (hlabels : ∀ step ∈ e.steps, step.version ∈ g.timeline)
    (hnew : ∀ other ∈ g.enums, other.name ≠ e.name) (hversion : version ∈ g.timeline) :
    g.register e = { g with enums := g.enums ++ [e] } ∧
      e.snapshotAt? (g.register e).timeline version
        = (if gathered (firstOfEachLabel e.steps) version = [] then none
          else some ⟨e.name, e.reference, gathered (firstOfEachLabel e.steps) version⟩) ∧
      ((e.steps.map (·.version)).Nodup → firstOfEachLabel e.steps = e.steps) := by
  have hregister : g.register e = { g with enums := g.enums ++ [e] } := by
    refine if_neg ?_
    simpa using hnew
  obtain ⟨passed, later, htimeline⟩ := List.append_of_mem hversion
  have hpassed : version ∉ passed := by
    intro hin
    rw [htimeline] at hsorted
    exact String.lt_irrefl version <|
      (List.pairwise_append.mp hsorted).2.2 version hin version List.mem_cons_self
  refine ⟨hregister, ?_, firstOfEachLabel_eq_self⟩
  rw [hregister]
  show e.snapshotAt? g.timeline version = _
  rw [htimeline] at hsorted hlabels ⊢
  rw [EnumHistory.snapshotAt?_eq_visible hpassed,
    EnumHistory.through_values_eq_gathered hsorted hlabels]
  unfold EnumHistory.visible
  simp only [List.isEmpty_iff]

/-- An enum whose steps are in no order, and with a label that occurs twice. -/
def blendedMood : EnumHistory :=
  ⟨"mood", "app.Mood", [⟨"3", ["loud", "calm"]⟩, ⟨"1", ["calm", "calm"]⟩, ⟨"1", ["bright"]⟩]⟩

theorem register_gathers_blendedMood :
    (ofTimeline ["1", "2", "3"]).register blendedMood = ⟨["1", "2", "3"], [blendedMood]⟩ ∧
      blendedMood.snapshotAt? ["1", "2", "3"] "3"
        = some ⟨"mood", "app.Mood", ["calm", "loud"]⟩ ∧
      gathered blendedMood.steps "3" = ["calm", "bright", "loud"] := by
  obtain ⟨hregister, hsnapshot, -⟩ := register_gathers (g := ofTimeline ["1", "2", "3"])
    (e := blendedMood) (by decide) (by decide) (by decide) (show "3" ∈ ["1", "2", "3"] by decide)
  rw [hregister] at hsnapshot
  refine ⟨hregister, hsnapshot.trans ?_, ?_⟩
  · decide
  · decide

end EnumRegistry

end SchemaEvolution
