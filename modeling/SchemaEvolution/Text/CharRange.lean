/-!
# Ranges of characters

Tables of character properties are lists of closed ranges of code points.
-/

namespace SchemaEvolution.Text

/-- The code points from `first` to `last`, both included. -/
structure CharRange where
  first : Nat
  last : Nat

namespace CharRange

/-- Whether a character lies in the range. -/
def contains (r : CharRange) (c : Char) : Bool := r.first ≤ c.toNat && c.toNat ≤ r.last

/-- Whether a character lies in one of the ranges. -/
def covers (rs : List CharRange) (c : Char) : Bool := rs.any (·.contains c)

theorem covers_eq_true_iff {rs : List CharRange} {c : Char} :
    covers rs c = true ↔ ∃ r ∈ rs, r.first ≤ c.toNat ∧ c.toNat ≤ r.last := by
  simp [covers, contains]

end CharRange

end SchemaEvolution.Text
