import Mathlib.Data.List.Forall2
import Mathlib.Data.List.Sort
import SchemaEvolution.Schema.SchemaHistory

/-!
# Histories that go on

A history is extended when further steps are appended to what it has, and further tables, enums and
functions at the end. Which labels the additions may carry is left open here: a label that was there
before may stand in an addition too, unless it is forbidden.
-/

namespace SchemaEvolution

variable {label : String → Prop}

/-- Whether a table has further steps, with labels of some kind. -/
def TableHistory.Continues (label : String → Prop) (t t' : TableHistory) : Prop :=
  ∃ steps, t' = { t with steps := t.steps ++ steps } ∧ ∀ step ∈ steps, label step.version

/-- Whether an enum has further steps, with labels of some kind. -/
def EnumHistory.Continues (label : String → Prop) (e e' : EnumHistory) : Prop :=
  ∃ steps, e' = { e with steps := e.steps ++ steps } ∧ ∀ step ∈ steps, label step.version

/-- Whether a function has further steps, with labels of some kind. -/
def FunctionHistory.Continues (label : String → Prop) (f f' : FunctionHistory) : Prop :=
  ∃ steps, f' = { f with steps := f.steps ++ steps } ∧ ∀ step ∈ steps, label step.version

/-- What a label may be added to: a table, which may be there or not, an enum that is there, a
further enum, or a function. -/
inductive Addition where
  | table
  | enumStep
  | enum
  | function

/-! ## Related lists -/

/-- What stands in a list has a counterpart in one that is related to it. -/
theorem exists_of_forall₂ {α β : Type} {r : α → β → Prop} {as : List α} {bs : List β}
    (h : List.Forall₂ r as bs) {a : α} (ha : a ∈ as) : ∃ b ∈ bs, r a b := by
  induction h with
  | nil => cases ha
  | cons hr _ ih =>
    rcases List.mem_cons.mp ha with rfl | ha
    · exact ⟨_, List.mem_cons_self, hr⟩
    · obtain ⟨b, hb, hr⟩ := ih ha
      exact ⟨b, List.mem_cons_of_mem _ hb, hr⟩

theorem find?_of_forall₂ {α β : Type} {r : α → β → Prop} {p : α → Bool} {q : β → Bool}
    {as : List α} {bs : List β} (h : List.Forall₂ r as bs) (hp : ∀ a b, r a b → q b = p a) {a : α}
    (ha : as.find? p = some a) : ∃ b, bs.find? q = some b ∧ r a b := by
  induction h with
  | nil => cases ha
  | @cons a₁ b₁ as bs hr _ ih =>
    cases hc : p a₁ with
    | true =>
      rw [List.find?_cons_of_pos hc] at ha
      obtain rfl := Option.some.inj ha
      exact ⟨b₁, List.find?_cons_of_pos ((hp a₁ b₁ hr).trans hc), hr⟩
    | false =>
      rw [List.find?_cons_of_neg (by simp [hc])] at ha
      obtain ⟨b, hb, hrb⟩ := ih ha
      exact ⟨b, by rw [List.find?_cons_of_neg (by simp [hp a₁ b₁ hr, hc])]; exact hb, hrb⟩

theorem any_of_forall₂ {α β : Type} {r : α → β → Prop} {p : α → Bool} {q : β → Bool}
    {as : List α} {bs : List β} (h : List.Forall₂ r as bs) (hp : ∀ a b, r a b → q b = p a) :
    bs.any q = as.any p := by
  induction h with
  | nil => rfl
  | cons hr _ ih => rw [List.any_cons, List.any_cons, ih, hp _ _ hr]

/-- Of what is related to it, an element is known to stand in the list. -/
theorem forall₂_and_mem {α β : Type} {r : α → β → Prop} {as : List α} {bs : List β}
    (h : List.Forall₂ r as bs) : List.Forall₂ (fun a b => a ∈ as ∧ r a b) as bs :=
  (List.forall₂_and_left as bs).mpr ⟨fun _ ha => ha, h⟩

namespace SchemaHistory

/-- Whether a history is extended to another, with additions whose labels are allowed. Further
tables have ids of their own. -/
structure Extends (allowed : Addition → String → Prop) (h h' : SchemaHistory) : Prop where
  tables : ∃ old further, h'.tables = old ++ further ∧
    List.Forall₂ (TableHistory.Continues (allowed .table)) h.tables old ∧
    ∀ t ∈ further, t.id ∉ h.tables.map (·.id) ∧ ∀ step ∈ t.steps, allowed .table step.version
  enums : ∃ old further, h'.enums = old ++ further ∧
    List.Forall₂ (EnumHistory.Continues (allowed .enumStep)) h.enums old ∧
    ∀ e ∈ further, ∀ step ∈ e.steps, allowed .enum step.version
  functions : ∃ old further, h'.functions = old ++ further ∧
    List.Forall₂ (FunctionHistory.Continues (allowed .function)) h.functions old ∧
    ∀ f ∈ further, ∀ step ∈ f.steps, allowed .function step.version

/-- Whether the labels that only the second history has come after all labels of the first. -/
def GrowsLater (h h' : SchemaHistory) : Prop :=
  ∀ version ∈ h'.timeline, version ∉ h.timeline → ∀ released ∈ h.timeline, released < version

/-- Whether a label comes after all labels of a history. -/
def IsLater (h : SchemaHistory) (version : String) : Prop :=
  ∀ released ∈ h.timeline, released < version

variable {allowed : Addition → String → Prop} {h h' : SchemaHistory}

theorem IsLater.not_mem {version : String} (hv : h.IsLater version) : version ∉ h.timeline :=
  fun hin => String.lt_irrefl version (hv version hin)

theorem mem_timeline {version : String} :
    version ∈ h.timeline ↔
      (∃ t ∈ h.tables, ∃ step ∈ t.steps, step.version = version) ∨
      (∃ e ∈ h.enums, ∃ step ∈ e.steps, step.version = version) ∨
      ∃ f ∈ h.functions, ∃ step ∈ f.steps, step.version = version := by
  rw [timeline, Timeline.mem_ofLabels]
  simp only [labels, List.mem_append, List.mem_flatMap, List.mem_map, or_assoc]

/-- No label is lost in an extension. -/
theorem Extends.timeline_subset (hx : h.Extends allowed h') {version : String}
    (hv : version ∈ h.timeline) : version ∈ h'.timeline := by
  obtain ⟨tables, furtherTables, ht, htables, -⟩ := hx.tables
  obtain ⟨enums, furtherEnums, he, henums, -⟩ := hx.enums
  obtain ⟨functions, furtherFunctions, hf, hfunctions, -⟩ := hx.functions
  rw [mem_timeline] at hv ⊢
  rcases hv with ⟨t, hm, step, hs, rfl⟩ | ⟨e, hm, step, hs, rfl⟩ | ⟨f, hm, step, hs, rfl⟩
  · obtain ⟨t', hm', steps, rfl, -⟩ := exists_of_forall₂ htables hm
    exact Or.inl ⟨_, ht ▸ List.mem_append_left _ hm', step, List.mem_append_left _ hs, rfl⟩
  · obtain ⟨e', hm', steps, rfl, -⟩ := exists_of_forall₂ henums hm
    exact Or.inr (Or.inl ⟨_, he ▸ List.mem_append_left _ hm', step, List.mem_append_left _ hs, rfl⟩)
  · obtain ⟨f', hm', steps, rfl, -⟩ := exists_of_forall₂ hfunctions hm
    exact Or.inr (Or.inr ⟨_, hf ▸ List.mem_append_left _ hm', step, List.mem_append_left _ hs, rfl⟩)

/-- A label of an extension is an old one, or one of an addition. -/
theorem Extends.mem_timeline (hx : h.Extends allowed h') {version : String}
    (hv : version ∈ h'.timeline) : version ∈ h.timeline ∨ ∃ a, allowed a version := by
  obtain ⟨tables, furtherTables, ht, htables, hfurtherTables⟩ := hx.tables
  obtain ⟨enums, furtherEnums, he, henums, hfurtherEnums⟩ := hx.enums
  obtain ⟨functions, furtherFunctions, hf, hfunctions, hfurtherFunctions⟩ := hx.functions
  rw [SchemaHistory.mem_timeline, ht, he, hf] at hv
  rw [SchemaHistory.mem_timeline]
  rcases hv with ⟨t, hm, step, hs, rfl⟩ | ⟨e, hm, step, hs, rfl⟩ | ⟨f, hm, step, hs, rfl⟩
  · rcases List.mem_append.mp hm with hm | hm
    · obtain ⟨t', hm', steps, rfl, hsteps⟩ := exists_of_forall₂ htables.flip hm
      rcases List.mem_append.mp hs with hs | hs
      · exact Or.inl (Or.inl ⟨t', hm', step, hs, rfl⟩)
      · exact Or.inr ⟨_, hsteps step hs⟩
    · exact Or.inr ⟨_, (hfurtherTables t hm).2 step hs⟩
  · rcases List.mem_append.mp hm with hm | hm
    · obtain ⟨e', hm', steps, rfl, hsteps⟩ := exists_of_forall₂ henums.flip hm
      rcases List.mem_append.mp hs with hs | hs
      · exact Or.inl (Or.inr (Or.inl ⟨e', hm', step, hs, rfl⟩))
      · exact Or.inr ⟨_, hsteps step hs⟩
    · exact Or.inr ⟨_, hfurtherEnums e hm step hs⟩
  · rcases List.mem_append.mp hm with hm | hm
    · obtain ⟨f', hm', steps, rfl, hsteps⟩ := exists_of_forall₂ hfunctions.flip hm
      rcases List.mem_append.mp hs with hs | hs
      · exact Or.inl (Or.inr (Or.inr ⟨f', hm', step, hs, rfl⟩))
      · exact Or.inr ⟨_, hsteps step hs⟩
    · exact Or.inr ⟨_, hfurtherFunctions f hm step hs⟩

/-- Additions that only carry labels after all old ones make a history grow later. -/
theorem Extends.growsLater (hx : h.Extends (fun _ => h.IsLater) h') : h.GrowsLater h' := by
  intro version hv hnew
  rcases hx.mem_timeline hv with hold | ⟨_, hlater⟩
  · exact absurd hold hnew
  · exact hlater

/-- An extension that grows later has the old timeline, and the new labels after it. -/
theorem Extends.timeline_eq (hx : h.Extends allowed h') (hl : h.GrowsLater h') :
    h'.timeline = h.timeline ++ h'.timeline.filter (· ∉ h.timeline) := by
  have : Std.Irrefl fun a b : String => a < b := ⟨String.lt_irrefl⟩
  have : Std.Antisymm fun a b : String => a < b :=
    ⟨fun a b hab hba => absurd (String.lt_trans hab hba) (String.lt_irrefl a)⟩
  refine List.Pairwise.eq_of_mem_iff (Timeline.pairwise_ofLabels _) ?_ fun version => ?_
  · refine List.pairwise_append.mpr ⟨Timeline.pairwise_ofLabels _,
      (Timeline.pairwise_ofLabels _).filter _, fun released hr version hv => ?_⟩
    rw [List.mem_filter, decide_eq_true_eq] at hv
    exact hl version hv.1 hv.2 released hr
  · rw [List.mem_append, List.mem_filter, decide_eq_true_eq]
    constructor
    · intro hv
      by_cases hold : version ∈ h.timeline
      · exact Or.inl hold
      · exact Or.inr ⟨hv, hold⟩
    · rintro (hv | hv)
      · exact hx.timeline_subset hv
      · exact hv.1

end SchemaHistory

end SchemaEvolution
