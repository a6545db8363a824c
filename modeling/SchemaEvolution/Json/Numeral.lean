import SchemaEvolution.Json.Value
import SchemaEvolution.Text.Decimal

/-!
# JSON numbers

A number is read character by character. `push?` says which character may follow, `complete`
whether the number may end.

What a number denotes is held as a significand times a power of ten. The significand keeps the
leading digits as long as it stays below 2^64. Of the digits that it cannot take, those before the
point still count towards the power, those after it are dropped. A number can be held if the
product of significand and power, both rounded to binary64 first, is finite in binary64. So of two
numbers near the largest finite one the larger may be held and the smaller not.
-/

namespace SchemaEvolution.Json

/-! ## Rounding -/

/-- The natural number of at most 53 significant bits that is nearest to a natural number. A tie
goes to the even neighbour. -/
def roundToBinary64 (n : Nat) : Nat :=
  let unit := 1 <<< (n.log2 + 1 - 53)
  let below := n / unit
  let rest := 2 * (n % unit)
  if unit < rest || rest == unit && below % 2 == 1 then (below + 1) * unit else below * unit

/-- A number of few bits needs no rounding. -/
theorem roundToBinary64_of_lt {n : Nat} (h : n.log2 < 53) : roundToBinary64 n = n := by
  have hlog : n.log2 + 1 - 53 = 0 := by omega
  simp [roundToBinary64, hlog, Nat.mod_one]

/-- The least number that is rounded to infinity: it is as far from the largest finite number of
binary64 as from 2^1024. -/
def infinityBound : Nat := 1 <<< 1024 - 1 <<< 970

/-! ## Numerals -/

/-- How far a number has been read. -/
inductive NumeralPhase where
  | minus
  | zero
  | whole
  | point
  | fraction
  | exponent
  | exponentSign
  | exponentDigits
  deriving DecidableEq

/-- A number that is being read: its literal, last character first, and what the literal says so
far. -/
structure Numeral where
  phase : NumeralPhase
  literal : List Char
  negative : Bool
  /-- The leading digits, read as one number below 2^64. -/
  significand : Nat
  /-- The power of ten that the significand is multiplied by, the exponent aside. -/
  scale : Int
  /-- Whether a digit has come, on this side of the point, that the significand could not take. -/
  full : Bool
  exponentNegative : Bool
  exponent : Nat

namespace Numeral

/-- The number that begins with a minus sign. -/
def ofMinus : Numeral := ⟨.minus, ['-'], true, 0, 0, false, false, 0⟩

/-- The number that begins with a digit. -/
def ofDigit (c : Char) : Numeral :=
  ⟨if c = '0' then .zero else .whole, [c], false, Text.Decimal.digitValue c, 0, false, false, 0⟩

/-- Whether the number may end here. -/
def complete (n : Numeral) : Bool :=
  n.phase == .zero || n.phase == .whole || n.phase == .fraction || n.phase == .exponentDigits

/-- The significand with one more digit, if it can take it. -/
def extended? (n : Numeral) (d : Nat) : Option Nat :=
  let s := 10 * n.significand + d
  if !n.full && s < UInt64.size then some s else none

/-- Takes a digit before the point. -/
def pushWhole (n : Numeral) (d : Nat) : Numeral :=
  match n.extended? d with
  | some s => { n with significand := s }
  | none => { n with full := true, scale := n.scale + 1 }

/-- Takes a digit after the point. -/
def pushFraction (n : Numeral) (d : Nat) : Numeral :=
  match n.extended? d with
  | some s => { n with significand := s, scale := n.scale - 1 }
  | none => { n with full := true }

/-- The number with one more character, if that character can stand there. -/
def push? (n : Numeral) (c : Char) : Option Numeral :=
  let d := Text.Decimal.digitValue c
  let enter (p : NumeralPhase) (n : Numeral) : Option Numeral :=
    some { n with phase := p, literal := c :: n.literal }
  let point : Option Numeral := enter .point { n with full := false }
  let mark : Option Numeral := if c = 'e' || c = 'E' then enter .exponent n else none
  let exponent : Option Numeral := enter .exponentDigits { n with exponent := 10 * n.exponent + d }
  match n.phase with
  | .minus =>
    if c = '0' then enter .zero n else if c.isDigit then enter .whole (n.pushWhole d) else none
  | .zero => if c = '.' then point else mark
  | .whole =>
    if c.isDigit then enter .whole (n.pushWhole d) else if c = '.' then point else mark
  | .point => if c.isDigit then enter .fraction (n.pushFraction d) else none
  | .fraction => if c.isDigit then enter .fraction (n.pushFraction d) else mark
  | .exponent =>
    if c.isDigit then exponent
    else if c = '+' then enter .exponentSign n
    else if c = '-' then enter .exponentSign { n with exponentNegative := true }
    else none
  | .exponentSign => if c.isDigit then exponent else none
  | .exponentDigits => if c.isDigit then exponent else none

/-- The power of ten that the significand is multiplied by. -/
def power (n : Numeral) : Int :=
  n.scale + if n.exponentNegative then -(n.exponent : Int) else n.exponent

/-- Whether the number can be held. No power of ten beyond the range of binary64 is computed. -/
def inRange (n : Numeral) : Bool :=
  n.significand == 0 || n.power < 0 ||
    n.power ≤ 308 &&
      roundToBinary64 n.significand * roundToBinary64 (Nat.pow 10 n.power.toNat) < infinityBound

/-- Whether the number is an integer: it has neither point nor exponent, the significand took all
of its digits, and it is not minus zero. -/
def isInteger (n : Numeral) : Bool :=
  (n.phase == .zero || n.phase == .whole) && !n.full && !(n.negative && n.significand == 0)

/-- The value of a complete number. -/
def value (n : Numeral) : Json :=
  let real := Json.real (String.ofList n.literal.reverse)
  if !n.inRange then .unreadable real
  else if n.isInteger then .int (if n.negative then -(n.significand : Int) else n.significand)
  else real

end Numeral

end SchemaEvolution.Json
