import SchemaEvolution.Text.DecimalDigit

/-!
# Numerals as defaults

A numeral is a sign that may be missing, digits with at most one point among them, and an exponent
that may be missing. Digits of every script count.
-/

namespace SchemaEvolution.Default

open Text

/-- The text after a sign, if there is one. -/
def dropSign : List Char → List Char
  | '+' :: cs => cs
  | '-' :: cs => cs
  | cs => cs

/-- Whether a text is a run of digits, and not empty. -/
def isDigits (cs : List Char) : Bool := !cs.isEmpty && cs.all isDecimalDigit

/-- Whether a text is empty or an exponent. -/
def isExponent : List Char → Bool
  | [] => true
  | c :: cs => (c == 'e' || c == 'E') && isDigits (dropSign cs)

/-- Whether a text is a numeral without its sign. -/
def isUnsigned (cs : List Char) : Bool :=
  match cs.takeWhile isDecimalDigit, cs.dropWhile isDecimalDigit with
  | [], '.' :: r =>
    !(r.takeWhile isDecimalDigit).isEmpty && isExponent (r.dropWhile isDecimalDigit)
  | [], _ => false
  | _, '.' :: r => isExponent (r.dropWhile isDecimalDigit)
  | _, r => isExponent r

/-- Whether a text is a numeral. -/
def isNumeral (cs : List Char) : Bool := isUnsigned (dropSign cs)

end SchemaEvolution.Default
