import SchemaEvolution.Query.Piece
import SchemaEvolution.Text.DecimalDigit
import SchemaEvolution.Text.WordChar

/-!
# Positional parameters

Databases want parameters by position, so each `:p1` is replaced by the mark of the dialect, and the
values are listed in the order of the marks. What stands in quotes is left alone, and so is a
parameter that nothing is bound to.

The text is cut into segments from left to right. A quoted segment goes up to the first quote
character that is not doubled. If there is none, it ends in the middle of the last doubled one; and
if there is none of those either, the opening quote character stands for itself. A placeholder is
`:p` and digits, as long as the word ends there.
-/

namespace SchemaEvolution.Positional

open Text

/-- A part of the text of a query. -/
inductive Segment where
  | copied (cs : List Char)
  | placeholder (name : List Char)
  deriving DecidableEq, Repr

def isQuote (c : Char) : Bool := c == '"' || c == '\x60' || c == '\''

/-- How many characters after an opening quote character belong to the quoted segment. `seen` of
them have been passed, and `fallback` is the answer if no closing one is found. -/
def quotedLength (q : Char) (seen : Nat) (fallback : Option Nat) : List Char → Option Nat
  | [] => fallback
  | [c] => if c = q then some (seen + 1) else fallback
  | c :: d :: r =>
    if c = q then
      if d = q then quotedLength q (seen + 2) (some (seen + 1)) r else some (seen + 1)
    else quotedLength q (seen + 1) fallback (d :: r)

/-- The name of the placeholder at the front, after its colon. -/
def placeholderName? : List Char → Option (List Char)
  | 'p' :: r =>
    let digits := r.takeWhile isDecimalDigit
    if digits.isEmpty || (r.dropWhile isDecimalDigit).head?.any isWordChar then none
    else some ('p' :: digits)
  | _ => none

/-- Cuts a text into segments. -/
def segments : List Char → List Segment
  | [] => []
  | c :: r =>
    if isQuote c then
      match quotedLength c 0 none r with
      | some n => .copied (c :: r.take n) :: segments (r.drop n)
      | none => .copied [c] :: segments r
    else if c = ':' then
      match placeholderName? r with
      | some name => .placeholder name :: segments (r.drop name.length)
      | none => .copied [c] :: segments r
    else .copied [c] :: segments r
termination_by cs => cs.length
decreasing_by all_goals simp only [List.length_drop, List.length_cons]; omega

/-- The text of segments with positional marks, and the values at the marks. `position` marks have
been set before. -/
def write (d : Dialect) (value? : String → Option BoundValue) :
    Nat → List Segment → List Char × List BoundValue
  | _, [] => ([], [])
  | position, .copied cs :: rest =>
    let (text, values) := write d value? position rest
    (cs ++ text, values)
  | position, .placeholder name :: rest =>
    match value? (String.ofList name) with
    | some v =>
      let (text, values) := write d value? (position + 1) rest
      ((d.parameterMark (position + 1)).toList ++ text, v :: values)
    | none =>
      let (text, values) := write d value? position rest
      (':' :: name ++ text, values)

end SchemaEvolution.Positional

namespace SchemaEvolution.BoundQuery

/-- The value that is bound to a parameter. -/
def value? (q : BoundQuery) (name : String) : Option BoundValue :=
  (q.bindings.find? (·.name == name)).map (·.value)

/-- The query with positional parameters, and their values in order. -/
def positional (q : BoundQuery) (d : Dialect) : String × List BoundValue :=
  let (text, values) := Positional.write d q.value? 0 (Positional.segments q.sql.toList)
  (String.ofList text, values)

end SchemaEvolution.BoundQuery
