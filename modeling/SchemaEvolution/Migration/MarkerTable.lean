/-!
# The table that holds the marker

Its name goes into statements as it is, so only plain identifiers are allowed: letters, digits and
underscores of ASCII, not beginning with a digit.
-/

namespace SchemaEvolution

/-- Whether a text is a plain identifier. -/
def isPlainIdentifier (s : String) : Bool :=
  match s.toList with
  | [] => false
  | c :: cs => (c.isAlpha || c == '_') && cs.all fun c => c.isAlphanum || c == '_'

/-- The table that holds the marker. -/
structure MarkerTable where
  name : String
  plain : isPlainIdentifier name = true

namespace MarkerTable

/-- The table that is used when none is named. -/
def standard : MarkerTable := ⟨"oxide_evolve_metadata", by decide⟩

/-- The table with a name, if that is a plain identifier. -/
def ofName? (name : String) : Option MarkerTable :=
  if h : isPlainIdentifier name = true then some ⟨name, h⟩ else none

/-- What is said of a name that is no plain identifier. -/
def invalidMessage (name : String) : String := "Invalid metadata table name: " ++ name

theorem ofName?_isSome_iff {name : String} :
    (ofName? name).isSome = true ↔ isPlainIdentifier name = true := by
  unfold ofName?
  split <;> simp_all

end MarkerTable

end SchemaEvolution
