import Mathlib.Data.List.TakeWhile

/-!
# Runs of characters

A reader takes characters of one kind off the front of a text. If a run of that kind is followed by
something else, the reader takes the run and stops there.
-/

namespace SchemaEvolution.Text

variable {p : Char → Bool} {cs run rest : List Char}

/-- What begins with something else adds nothing to the run. -/
theorem takeWhile_append (hrest : rest.head?.any p = false) :
    (cs ++ rest).takeWhile p = cs.takeWhile p := by
  have hnone : rest.takeWhile p = [] := by
    cases rest with
    | nil => rfl
    | cons c r =>
      have hc : p c = false := hrest
      simp [hc]
  rw [List.takeWhile_append, hnone, List.append_nil]
  split
  · next hall => exact ((List.takeWhile_prefix p).eq_of_length hall).symm
  · rfl

theorem takeWhile_run (hrun : ∀ c ∈ run, p c = true) (hrest : rest.head?.any p = false) :
    (run ++ rest).takeWhile p = run := by
  rw [takeWhile_append hrest, List.takeWhile_eq_self_iff.mpr hrun]

theorem dropWhile_run (hrun : ∀ c ∈ run, p c = true) (hrest : rest.head?.any p = false) :
    (run ++ rest).dropWhile p = rest := by
  rw [List.dropWhile_append_of_pos hrun]
  cases rest with
  | nil => rfl
  | cons c r =>
    have hc : p c = false := hrest
    simp [hc]

/-- A text is a run of one kind, perhaps empty, and what begins with something else. -/
theorem exists_run (p : Char → Bool) (cs : List Char) :
    ∃ run rest, cs = run ++ rest ∧ (∀ c ∈ run, p c = true) ∧ rest.head?.any p = false := by
  refine ⟨cs.takeWhile p, cs.dropWhile p, List.takeWhile_append_dropWhile.symm, ?_, ?_⟩
  · exact List.all_eq_true.mp List.all_takeWhile
  · have hnot := List.head?_dropWhile_not p cs
    cases hhead : (cs.dropWhile p).head? with
    | none => rfl
    | some c => simpa [hhead] using hnot

end SchemaEvolution.Text
