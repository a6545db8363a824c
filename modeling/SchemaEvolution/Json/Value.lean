/-!
# JSON values

A value keeps the order of the members of its objects, and keys that occur twice. Numbers are split
into integers and others, because no decoder of this library takes anything but an integer.

Some texts obey the grammar and yet name nothing that could be held: a number beyond the range of
binary64, a string with half of a surrogate pair, an object with such a key, and whatever is nested
too deeply. They read as `unreadable`. A decoder refuses such a value when it comes to it, and
never notices it in a member that it ignores. Nor does it notice what is wrong inside an array or
object where it expects neither.
-/

namespace SchemaEvolution

/-- What a value begins as. -/
inductive Json.Kind where
  | scalar
  | array
  | object
  deriving DecidableEq, Inhabited, Repr

/-- A JSON value. -/
inductive Json where
  | null
  | bool (b : Bool)
  | int (n : Int)
  /-- A number with a fraction or an exponent, or minus zero, as it was written. -/
  | real (literal : String)
  | string (s : String)
  | array (elements : List Json)
  | object (members : List (String × Json))
  /-- A value that cannot be held, and what it begins as: an object with the members before the key
  that cannot be held, an array or object that is nested too deeply as an empty one. -/
  | unreadable (beginning : Json)
  deriving Inhabited

namespace Json

/-- The deepest nesting of arrays and objects that can be held. -/
def maxDepth : Nat := 127

mutual

/-- Whether a value can be held: no part of it is unreadable. -/
def readable : Json → Bool
  | .array xs => readableElements xs
  | .object ms => readableMembers ms
  | .unreadable _ => false
  | _ => true

def readableElements : List Json → Bool
  | [] => true
  | v :: vs => readable v && readableElements vs

def readableMembers : List (String × Json) → Bool
  | [] => true
  | (_, v) :: ms => readable v && readableMembers ms

end

mutual

/-- How deeply arrays and objects are nested in a value. -/
def depth : Json → Nat
  | .array xs => depthElements xs + 1
  | .object ms => depthMembers ms + 1
  | _ => 0

def depthElements : List Json → Nat
  | [] => 0
  | v :: vs => max (depth v) (depthElements vs)

def depthMembers : List (String × Json) → Nat
  | [] => 0
  | (_, v) :: ms => max (depth v) (depthMembers ms)

end

/-- What a value begins as. -/
def kind : Json → Kind
  | .array _ => .array
  | .object _ => .object
  | .unreadable v => v.kind
  | _ => .scalar

/-- The string values of a list. -/
def strings (ss : List String) : Json := .array (ss.map .string)

/-- The value, or `null` when there is none. -/
def ofOption (f : α → Json) : Option α → Json
  | none => .null
  | some a => f a

/-- Why a document is refused. -/
inductive ReadError where
  /-- The text is no JSON, or holds what cannot be held. -/
  | malformed
  /-- The text ends too early. -/
  | unfinished
  /-- The text is JSON, but not of the expected shape. -/
  | mismatch
  deriving DecidableEq, Repr

end Json

end SchemaEvolution
