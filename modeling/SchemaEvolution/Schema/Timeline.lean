/-!
# Version labels in order

Versions are compared as plain strings, code point by code point; so `1.0.10` comes before `1.0.2`.
A timeline is a list of labels that ascends strictly.
-/

namespace SchemaEvolution.Timeline

/-- Inserts a label where it belongs, unless it is there. -/
def insert (label : String) : List String → List String
  | [] => [label]
  | l :: ls =>
    if label < l then label :: l :: ls
    else if label = l then l :: ls
    else l :: insert label ls

/-- The labels of a list in ascending order, each of them once. -/
def ofLabels (labels : List String) : List String := labels.foldr insert []

theorem mem_insert {a label : String} {ls : List String} :
    a ∈ insert label ls ↔ a = label ∨ a ∈ ls := by
  induction ls with
  | nil => simp [insert]
  | cons l ls ih =>
    rw [insert]
    split
    · simp
    · split
      · next h => subst h; simp
      · simp only [List.mem_cons, ih]
        grind

/-- A timeline holds exactly the labels that it was made from. -/
theorem mem_ofLabels {a : String} {labels : List String} : a ∈ ofLabels labels ↔ a ∈ labels := by
  induction labels with
  | nil => simp [ofLabels]
  | cons l ls ih =>
    rw [show ofLabels (l :: ls) = insert l (ofLabels ls) from rfl, mem_insert, ih]
    simp

theorem pairwise_insert {label : String} {ls : List String} (h : ls.Pairwise (· < ·)) :
    (insert label ls).Pairwise (· < ·) := by
  induction ls with
  | nil => simp [insert]
  | cons l ls ih =>
    rw [List.pairwise_cons] at h
    rw [insert]
    split
    · next hlt =>
      refine List.pairwise_cons.mpr ⟨fun b hb => ?_, List.pairwise_cons.mpr h⟩
      rcases List.mem_cons.mp hb with rfl | hb
      · exact hlt
      · exact String.lt_trans hlt (h.1 b hb)
    · split
      · exact List.pairwise_cons.mpr h
      · next hlt hne =>
        refine List.pairwise_cons.mpr ⟨fun b hb => ?_, ih h.2⟩
        rcases mem_insert.mp hb with rfl | hb
        · rcases Std.le_total (a := l) (b := b) with hle | hle
          · exact Std.lt_of_le_of_ne hle (Ne.symm hne)
          · exact absurd (Std.lt_of_le_of_ne hle hne) hlt
        · exact h.1 b hb

/-- A timeline ascends strictly. -/
theorem pairwise_ofLabels (labels : List String) : (ofLabels labels).Pairwise (· < ·) := by
  induction labels with
  | nil => simp [ofLabels]
  | cons l ls ih => exact pairwise_insert ih

end SchemaEvolution.Timeline
