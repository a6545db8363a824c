import SchemaEvolution.Json.Value

/-!
# From JSON values to records

A record is read from an object or from an array of its fields in order. In an object the fields
may stand in any order and strangers are ignored, but no field may occur twice; in an array fields
may be missing at the end.

A *tagged* object has a field that says which record the others make up. The tag is read as it
comes. Since it may come last, the other members are held before any of them is decoded; so nothing
in them may be unreadable, not even what is ignored afterwards. `Reading` tells a decoder how the
value came to it.
-/

namespace SchemaEvolution.Json

/-- How a value comes to its decoder. -/
inductive Reading where
  /-- Straight off the text. -/
  | streamed
  /-- As a part of an object that was held. -/
  | held
  deriving DecidableEq

/-- What it means when an array is longer than the record that it stands for, or when a variant is
neither a name nor an object with one member: straight off the text the reader was not prepared to
go on there, so the text counts as malformed. -/
def Reading.misfit : Reading → ReadError
  | .streamed => .malformed
  | .held => .mismatch

/-- How a complete value is refused, if it is. -/
abbrev Check := Json → Except ReadError Unit

/-- Refuses what a decoder refuses. -/
def accepted (decode : Json → Except ReadError α) : Check := fun v => (decode v).map fun _ => ()

/-! ## Scalars and lists -/

/-- What a value is when nothing of the expected kind can be made of it. An array or object of
another kind is refused as it opens, before anything unreadable in it shows. -/
def unexpected (expected : Kind) : Json → ReadError
  | .unreadable v => if v.kind = .scalar ∨ v.kind = expected then .malformed else .mismatch
  | _ => .mismatch

def asString : Json → Except ReadError String
  | .string s => .ok s
  | v => .error (v.unexpected .scalar)

def asBool : Json → Except ReadError Bool
  | .bool b => .ok b
  | v => .error (v.unexpected .scalar)

/-- An integer between two bounds, both included. -/
def asInt (low high : Int) : Json → Except ReadError Int
  | .int n => if low ≤ n ∧ n ≤ high then .ok n else .error .mismatch
  | v => .error (v.unexpected .scalar)

/-- A natural number below a bound. -/
def asNat (bound : Nat) : Json → Except ReadError Nat
  | .int n => if 0 ≤ n ∧ n < bound then .ok n.toNat else .error .mismatch
  | v => .error (v.unexpected .scalar)

/-- A list, each element of which is read by `f`. -/
def asList (f : Json → Except ReadError α) : Json → Except ReadError (List α)
  | .array vs => vs.mapM f
  | v => .error (v.unexpected .array)

/-- `null`, or what `f` reads. -/
def asOption (f : Json → Except ReadError α) : Json → Except ReadError (Option α)
  | .null => .ok none
  | v => (f v).map some

/-- The members of an object, each value read by `f`. -/
def asMembers (f : Json → Except ReadError α) : Json → Except ReadError (List (String × α))
  | .object ms => ms.mapM fun m => (f m.2).map (m.1, ·)
  | v => .error (v.unexpected .object)

/-! ## Records -/

/-- The fields of a record, with their names. -/
abbrev Record := List (String × Json)

/-- Reads a record with these field names. That an array is too long shows after its fields. -/
def asRecord (reading : Reading) (names : List String) (f : Record → Except ReadError α) :
    Json → Except ReadError α
  | .object ms => f ms
  | .array vs => do
    let a ← f (names.zip vs)
    if vs.length ≤ names.length then return a else throw reading.misfit
  | .unreadable _ => .error .malformed
  | _ => .error .mismatch

namespace Record

/-- The field with a name, if there is one. -/
def field? (r : Record) (name : String) : Except ReadError (Option Json) :=
  match r.filter (·.1 == name) with
  | [] => .ok none
  | [m] => .ok (some m.2)
  | _ => .error .mismatch

/-- A field that must be there. -/
def required (r : Record) (name : String) (f : Json → Except ReadError α) : Except ReadError α :=
  match r.field? name with
  | .ok (some v) => f v
  | .ok none => .error .mismatch
  | .error e => .error e

/-- A field that may be left out, and what it is then. -/
def withDefault (r : Record) (name : String) (default : α) (f : Json → Except ReadError α) :
    Except ReadError α :=
  match r.field? name with
  | .ok (some v) => f v
  | .ok none => .ok default
  | .error e => .error e

end Record

/-! ## Held objects -/

/-- Holds a value, which is possible if no part of it is unreadable. -/
def hold (v : Json) : Except ReadError Json :=
  if v.readable then .ok v else .error .malformed

/-- A field of an object, and the other members, held. -/
def takeField (name : String) (f : Json → Except ReadError α) (members : Record) :
    Except ReadError (α × Record) := do
  let rest := members.filter (·.1 != name)
  if readableMembers rest then return (← members.required name f, rest) else throw .malformed

/-- A string out of a list of strings. -/
def asOneOf (names : List String) (v : Json) : Except ReadError String := do
  let name ← v.asString
  if names.contains name then return name else throw .mismatch

/-- The tag of an object, which is one of `names`, and what remains of the object without it. An
array begins with the tag. -/
def asTagged (tag : String) (names : List String) : Json → Except ReadError (String × Json)
  | .object ms => do
    let (name, rest) ← takeField tag (asOneOf names) ms
    return (name, .object rest)
  | .array (t :: vs) => do
    let name ← t.asOneOf names
    return (name, ← hold (.array vs))
  | .unreadable _ => .error .malformed
  | _ => .error .mismatch

end SchemaEvolution.Json
