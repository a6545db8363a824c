import SchemaEvolution.Text.Blank
import SchemaEvolution.Text.Decimal

/-!
# Dates and times

Dates of the proleptic Gregorian calendar and times of day, with a reader that is lenient and a
writer that is not: fields may be read with one digit or two and with blanks before them, and are
always written with two. A year has up to four digits; with a sign it may have more. The second 60
is a leap second.
-/

namespace SchemaEvolution.Default

open Text

/-! ## Dates -/

structure Date where
  year : Int
  month : Nat
  day : Nat
  deriving DecidableEq, Inhabited, Repr

namespace Date

/-- Whether a year has a 29th of February. -/
def isLeap (year : Int) : Bool := year % 4 == 0 && (year % 100 != 0 || year % 400 == 0)

def daysInMonth (year : Int) : Nat → Nat
  | 1 | 3 | 5 | 7 | 8 | 10 | 12 => 31
  | 4 | 6 | 9 | 11 => 30
  | 2 => if isLeap year then 29 else 28
  | _ => 0

/-- The first year that dates are kept for. -/
def minYear : Int := -262143

/-- The last year that dates are kept for. -/
def maxYear : Int := 262142

/-- Whether the calendar has the date. -/
def valid (d : Date) : Bool :=
  minYear ≤ d.year && d.year ≤ maxYear && 1 ≤ d.day && d.day ≤ daysInMonth d.year d.month

end Date

/-! ## Times of day -/

structure Clock where
  hour : Nat
  minute : Nat
  second : Nat
  deriving DecidableEq, Inhabited, Repr

/-- Whether there is such a time of day. The second 60 is allowed in every minute. -/
def Clock.valid (c : Clock) : Bool := c.hour < 24 && c.minute < 60 && c.second ≤ 60

/-! ## Reading -/

/-- A reader takes something off the front of a text. -/
abbrev Reader (α : Type) := List Char → Option (α × List Char)

/-- Reads the number that the digits at the front denote, `limit` of them at most. -/
def readNumber (limit : Nat) : Reader Nat := fun cs =>
  let ds := (cs.take limit).takeWhile Char.isDigit
  if ds.isEmpty then none else some (Decimal.value ds, cs.drop ds.length)

/-- Reads a field of one digit or two, after blanks. -/
def readField : Reader Nat := fun cs => readNumber 2 (trimStart cs)

/-- Reads a year, after blanks. Only a sign allows more than four digits. -/
def readYear : Reader Int := fun cs =>
  match trimStart cs with
  | '-' :: r => (readNumber r.length r).map fun p => (-(p.1 : Int), p.2)
  | '+' :: r => (readNumber r.length r).map fun p => ((p.1 : Int), p.2)
  | r => (readNumber 4 r).map fun p => ((p.1 : Int), p.2)

/-- Reads one character. -/
def readChar (c : Char) : Reader Unit
  | d :: r => if c = d then some ((), r) else none
  | [] => none

/-- Reads a date of the calendar. -/
def readDate : Reader Date := fun cs => do
  let (year, cs) ← readYear cs
  let (_, cs) ← readChar '-' cs
  let (month, cs) ← readField cs
  let (_, cs) ← readChar '-' cs
  let (day, cs) ← readField cs
  let date := Date.mk year month day
  if date.valid then some (date, cs) else none

/-- Reads a time of day. -/
def readClock : Reader Clock := fun cs => do
  let (hour, cs) ← readField cs
  let (_, cs) ← readChar ':' cs
  let (minute, cs) ← readField cs
  let (_, cs) ← readChar ':' cs
  let (second, cs) ← readField cs
  let clock := Clock.mk hour minute second
  if clock.valid then some (clock, cs) else none

/-- Reads a date and a time of day, with `gap` between them. -/
def readMoment (gap : List Char → Option (List Char)) : Reader (Date × Clock) := fun cs => do
  let (date, cs) ← readDate cs
  let cs ← gap cs
  let (clock, cs) ← readClock cs
  some ((date, clock), cs)

/-- What a reader makes of a whole text. -/
def Reader.all (f : Reader α) (cs : List Char) : Option α :=
  match f cs with
  | some (a, []) => some a
  | _ => none

/-- A date alone. -/
def date? (cs : List Char) : Option Date := Reader.all readDate cs

/-- A time of day alone. -/
def clock? (cs : List Char) : Option Clock := Reader.all readClock cs

/-- A date and a time of day, with blanks between them or a `T`. -/
def moment? (cs : List Char) : Option (Date × Clock) :=
  (Reader.all (readMoment fun r => some (trimStart r)) cs).orElse fun _ =>
    Reader.all (readMoment fun r => (readChar 'T' r).map (·.2)) cs

/-! ## Writing -/

/-- A year: four digits, with a sign before them unless they are enough to tell the year. -/
def writeYear (year : Int) : List Char :=
  if 0 ≤ year ∧ year ≤ 9999 then Decimal.padded 4 year.natAbs
  else (if year < 0 then '-' else '+') :: Decimal.padded 4 year.natAbs

def writeDate (d : Date) : List Char :=
  writeYear d.year ++ '-' :: Decimal.padded 2 d.month ++ '-' :: Decimal.padded 2 d.day

def writeClock (c : Clock) : List Char :=
  Decimal.padded 2 c.hour ++ ':' :: Decimal.padded 2 c.minute ++ ':' :: Decimal.padded 2 c.second

def writeMoment (m : Date × Clock) : List Char := writeDate m.1 ++ ' ' :: writeClock m.2

end SchemaEvolution.Default
