/-!
# Binary floating point numbers

A binary64 number is kept as its 64 bits, so numbers that differ in sign of zero or in the payload
of a NaN are told apart. `ofBinary32` widens a binary32 number, which changes no value: a subnormal
one becomes normal.
-/

namespace SchemaEvolution

/-- A binary64 number. -/
structure Binary64 where
  bits : UInt64
  deriving DecidableEq, Inhabited, Repr

namespace Binary64

/-- Whether a number is no number: its exponent is all ones, and its fraction is not zero. -/
def isNaN (x : Binary64) : Bool :=
  x.bits.toNat >>> 52 % 2048 == 2047 && x.bits.toNat % (1 <<< 52) != 0

/-- The number with a sign, an exponent as it is stored, and a fraction. -/
def ofParts (sign exponent fraction : Nat) : Binary64 :=
  ⟨UInt64.ofNat (sign <<< 63 + exponent <<< 52 + fraction)⟩

/-- The binary64 number that a binary32 number is. -/
def ofBinary32 (bits : UInt32) : Binary64 :=
  let sign := bits.toNat >>> 31
  let exponent := bits.toNat >>> 23 % 256
  let fraction := bits.toNat % (1 <<< 23)
  if exponent = 255 then ofParts sign 2047 (fraction <<< 29)
  else if exponent = 0 then
    if fraction = 0 then ofParts sign 0 0
    else
      let top := fraction.log2
      ofParts sign (top + 1023 - 149) ((fraction - 1 <<< top) <<< (52 - top))
  else ofParts sign (exponent + 1023 - 127) (fraction <<< 29)

end Binary64

end SchemaEvolution
