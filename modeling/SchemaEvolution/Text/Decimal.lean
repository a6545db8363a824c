/-!
# Decimal numerals

A natural number is written with the fewest decimal digits, most significant first. `value` reads
a run of digits back, and `value_digits` says that it finds the number that was written.
-/

namespace SchemaEvolution.Text.Decimal

/-- The digit character of a number below ten. -/
def digitChar (d : Nat) : Char := Char.ofNat (0x30 + d)

/-- The number that a digit character stands for. -/
def digitValue (c : Char) : Nat := c.toNat - 0x30

/-- The digits of a number. -/
def digits (n : Nat) : List Char :=
  if n < 10 then [digitChar n] else digits (n / 10) ++ [digitChar (n % 10)]
termination_by n
decreasing_by omega

/-- The digits of a number, with zeros in front up to a given width. -/
def padded (width n : Nat) : List Char :=
  List.replicate (width - (digits n).length) '0' ++ digits n

/-- The number that a run of digits denotes. -/
def value (cs : List Char) : Nat := cs.foldl (fun n c => 10 * n + digitValue c) 0

/-- The numeral of a number, as a string. -/
def string (n : Nat) : String := String.ofList (digits n)

/-- The numeral of an integer: a minus sign stands before the digits of a negative one. -/
def intDigits (n : Int) : List Char :=
  if n < 0 then '-' :: digits n.natAbs else digits n.natAbs

theorem digitValue_digitChar {d : Nat} (h : d < 10) : digitValue (digitChar d) = d := by
  have hall : ∀ e ∈ List.range 10, digitValue (digitChar e) = e := by decide
  exact hall d (List.mem_range.mpr h)

theorem isDigit_digitChar {d : Nat} (h : d < 10) : (digitChar d).isDigit = true := by
  have hall : ∀ e ∈ List.range 10, (digitChar e).isDigit = true := by decide
  exact hall d (List.mem_range.mpr h)

/-- A numeral reads back as the number that it was written for. -/
theorem value_digits (n : Nat) : value (digits n) = n := by
  rw [digits]
  split
  · next h => simp [value, digitValue_digitChar h]
  · have ih := value_digits (n / 10)
    simp only [value] at ih
    simp only [value, List.foldl_append, ih, List.foldl_cons, List.foldl_nil,
      digitValue_digitChar (Nat.mod_lt n (by omega))]
    omega
termination_by n
decreasing_by omega

/-- A numeral consists of digits. -/
theorem isDigit_of_mem_digits (n : Nat) : ∀ c ∈ digits n, c.isDigit = true := by
  rw [digits]
  split
  · next h => simpa using isDigit_digitChar h
  · intro c hc
    simp only [List.mem_append, List.mem_singleton] at hc
    rcases hc with hc | rfl
    · exact isDigit_of_mem_digits (n / 10) c hc
    · exact isDigit_digitChar (Nat.mod_lt n (by omega))
termination_by n
decreasing_by omega

theorem digits_ne_nil (n : Nat) : digits n ≠ [] := by
  rw [digits]
  split <;> simp

/-- Two numbers with one numeral are equal. -/
theorem digits_inj {m n : Nat} (h : digits m = digits n) : m = n := by
  rw [← value_digits m, h, value_digits]

theorem string_inj {m n : Nat} (h : string m = string n) : m = n := by
  have hdigits := congrArg String.toList h
  rw [string, string, String.toList_ofList, String.toList_ofList] at hdigits
  exact digits_inj hdigits

end SchemaEvolution.Text.Decimal
