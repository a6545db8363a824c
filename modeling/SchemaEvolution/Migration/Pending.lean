import SchemaEvolution.Changelog.Basic

/-!
# What is still to be applied

A database remembers the last version that it went through as its marker. What comes after that
version is pending; for a database without a marker, or with one that the timeline does not know,
everything is.
-/

namespace SchemaEvolution

/-- The entries after the marker. -/
def pendingAfter (all : List VersionEntry) (marker : Option String) :
    List VersionEntry :=
  match marker with
  | none => all
  | some version =>
    match all.findIdx? (·.version == version) with
    | some position => all.drop (position + 1)
    | none => all

/-- What comes after the first entry of a version is pending. -/
theorem pendingAfter_append_cons {passed later : List VersionEntry} {last : VersionEntry}
    (h : ∀ e ∈ passed, e.version ≠ last.version) :
    pendingAfter (passed ++ last :: later) (some last.version) = later := by
  have hnone : passed.findIdx? (·.version == last.version) = none :=
    List.findIdx?_eq_none_iff.mpr fun e he => by simpa using h e he
  have hfound : (passed ++ last :: later).findIdx? (·.version == last.version)
      = some passed.length := by
    rw [List.findIdx?_append, hnone]
    simp [List.findIdx?_cons]
  rw [pendingAfter, hfound, List.append_cons]
  exact List.drop_left' (by simp)

/-- Everything is pending for a version that has no entry. -/
theorem pendingAfter_of_unknown {all : List VersionEntry} {version : String}
    (h : ∀ e ∈ all, e.version ≠ version) : pendingAfter all (some version) = all := by
  have hnone : all.findIdx? (·.version == version) = none :=
    List.findIdx?_eq_none_iff.mpr fun e he => by simpa using h e he
  rw [pendingAfter, hnone]

end SchemaEvolution
