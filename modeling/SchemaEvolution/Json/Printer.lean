import SchemaEvolution.Json.Value
import SchemaEvolution.Text.Decimal

/-!
# Writing JSON

One printer serves both layouts: `compact` puts nothing between the parts, `pretty` puts every
element and member on a line of its own, two blanks deeper than what holds it. Empty arrays and
objects stay on one line in both.

In a string only quotation marks, backslashes and control characters below the blank are escaped.
-/

namespace SchemaEvolution.Json

/-! ## Strings -/

/-- A hexadecimal digit, in lower case. -/
def hexDigit (d : Nat) : Char := if d < 10 then Char.ofNat (0x30 + d) else Char.ofNat (0x57 + d)

/-- How a character is written inside a string. -/
def escape (c : Char) : List Char :=
  match c with
  | '"' => ['\\', '"']
  | '\\' => ['\\', '\\']
  | '\n' => ['\\', 'n']
  | '\r' => ['\\', 'r']
  | '\t' => ['\\', 't']
  | '\x08' => ['\\', 'b']
  | '\x0c' => ['\\', 'f']
  | c =>
    if c.toNat < 0x20 then ['\\', 'u', '0', '0', hexDigit (c.toNat / 16), hexDigit (c.toNat % 16)]
    else [c]

/-- A string between quotation marks. -/
def quoted (s : String) : List Char := '"' :: s.toList.flatMap escape ++ ['"']

/-! ## Layouts -/

/-- What stands between the parts of a value. -/
structure Layout where
  /-- What begins the line of a part that is nested so deeply. -/
  line : Nat → List Char
  /-- What parts a key from its value. -/
  colon : List Char

/-- Nothing between the parts. -/
def Layout.compact : Layout := ⟨fun _ => [], [':']⟩

/-- A line for each part. -/
def Layout.pretty : Layout := ⟨fun d => '\n' :: List.replicate (2 * d) ' ', [':', ' ']⟩

/-! ## Values -/

mutual

/-- Writes a value that is nested `d` deep. -/
def write (l : Layout) (d : Nat) : Json → List Char
  | .null => "null".toList
  | .bool true => "true".toList
  | .bool false => "false".toList
  | .int n => Text.Decimal.intDigits n
  | .real literal => literal.toList
  | .string s => quoted s
  | .array [] => ['[', ']']
  | .array (v :: vs) =>
    '[' :: l.line (d + 1) ++ write l (d + 1) v ++ writeElements l (d + 1) vs ++ l.line d ++ [']']
  | .object [] => ['\x7b', '\x7d']
  | .object ((k, v) :: ms) =>
    '\x7b' :: l.line (d + 1) ++ quoted k ++ l.colon ++ write l (d + 1) v
      ++ writeMembers l (d + 1) ms ++ l.line d ++ ['\x7d']
  | .unreadable v => write l d v

/-- Writes the elements after the first. -/
def writeElements (l : Layout) (d : Nat) : List Json → List Char
  | [] => []
  | v :: vs => ',' :: l.line d ++ write l d v ++ writeElements l d vs

/-- Writes the members after the first. -/
def writeMembers (l : Layout) (d : Nat) : List (String × Json) → List Char
  | [] => []
  | (k, v) :: ms => ',' :: l.line d ++ quoted k ++ l.colon ++ write l d v ++ writeMembers l d ms

end

/-- The text of a value on one line. -/
def compact (v : Json) : String := String.ofList (write .compact 0 v)

/-- The text of a value on many lines. -/
def pretty (v : Json) : String := String.ofList (write .pretty 0 v)

end SchemaEvolution.Json
