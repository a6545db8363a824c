import SchemaEvolution.Json.Decoder

/-!
# Forms of documents

A document that is refused is refused for the first fault in it, in the order of the text. Decoders
say whether a value is refused, but they look at the fields of a record in an order of their own;
and a text that breaks off, or goes on with a character that cannot stand there, has no value yet.

A form says what a document is read as, part by part. `Form.check` finds the first fault of a
complete value, and `Form.decode` reports it when a decoder fails. Where a text breaks, the arrays
and objects that are still open (`Frame`) lead from outside to that place: `Form.enter` takes one of
them, checks what is complete in it and says as what the rest is read, and `Form.reach` takes them
all.
-/

namespace SchemaEvolution.Json

/-- An array or object that is open, with what it holds so far, last one first. Once a key cannot be
held, nothing that follows in the object is kept. -/
inductive Frame where
  | array (elements : List Json)
  /-- An object that waits for a key; it is `cut` after a key that cannot be held. -/
  | object (members : List (String × Json)) (cut : Bool)
  /-- An object that waits for the value under a key; there is none from a key on that cannot be
  held. -/
  | member (members : List (String × Json)) (key : Option String)

/-! ## Forms -/

/-- What a document, or a part of it, is read as. -/
inductive Form where
  /-- A value that is neither array nor object. -/
  | scalar (check : Check)
  /-- A value that is held, whatever it is. -/
  | held
  | list (element : Form)
  /-- An object in which all keys are welcome. -/
  | members (value : Form)
  /-- An object with some of these fields, or an array of them in order. -/
  | record (check : Check) (fields : List (String × Form))
  /-- An array of these elements in order. -/
  | tuple (check : Check) (elements : List Form)
  /-- An object with a member that is read as it comes, while all others are held; if `ordered`,
  also an array that begins with that member's value. -/
  | tagged (check : Check) (tag : String) (value : Form) (ordered : Bool)
  /-- A name, or an object whose only key is one of these names. Under the name `nested` there is
  such a value again. -/
  | variant (check : Check) (contents : String → Option Form) (nested : String)

/-- As what the reader takes the place that it has come to. -/
inductive Target where
  | value (f : Form)
  /-- A key, or the end of an object. -/
  | key
  /-- A value that nobody asks for. -/
  | skipped

namespace Form

/-- A string. -/
def text : Form := .scalar (accepted asString)

/-- A string out of a list of strings. -/
def oneOf (names : List String) : Form := .scalar (accepted (asOneOf names))

/-- A string or `null`. -/
def optionalText : Form := .scalar (accepted (asOption asString))

/-- A natural number below a bound. -/
def number (bound : Nat) : Form := .scalar (accepted (asNat bound))

/-- What a decoder reads as a record with fields of these names and forms. -/
def ofFields (decode : Json → Except ReadError α) (names : List String) (forms : List Form) :
    Form :=
  .record (accepted decode) (names.zip forms)

/-- Whether anything but a string or an object is refused as it begins. -/
def isVariant : Form → Bool
  | .variant _ _ _ => true
  | _ => false

/-- As what the element after so many others is read. -/
def element : Form → Nat → Except ReadError Form
  | .list f, _ => .ok f
  | .record _ fields, n =>
    match fields[n]? with
    | some field => .ok field.2
    | none => .error .malformed
  | .tuple _ elements, n =>
    match elements[n]? with
    | some f => .ok f
    | none => .error .malformed
  | .tagged _ _ value true, n => .ok (if n = 0 then value else .held)
  | .held, _ => .ok .held
  | .variant _ _ _, _ => .error .malformed
  | _, _ => .error .mismatch

/-- As what the member with a key is read, if anybody asks for it, after members with other keys. -/
def member (seen : List String) : Form → Option String → Except ReadError (Option Form)
  | .scalar _, _ => .error .mismatch
  | .list _, _ => .error .mismatch
  | .tuple _ _, _ => .error .mismatch
  | _, none => .error .malformed
  | .held, some _ => .ok (some .held)
  | .members f, some _ => .ok (some f)
  | .record _ fields, some k =>
    match fields.lookup k with
    | some field => once k field
    | none => .ok none
  | .tagged _ tag value _, some k => if k = tag then once k value else .ok (some .held)
  | .variant check contents nested, some k =>
    if !seen.isEmpty then .error .malformed
    else if k = nested then .ok (some (.variant check contents nested))
    else
      match contents k with
      | some content => .ok (some content)
      | none => .error .mismatch
where
  once (k : String) (field : Form) : Except ReadError (Option Form) :=
    if seen.contains k then .error .mismatch else .ok (some field)

/-- Refuses an object in which a key or its end must follow, after members with other keys. -/
def key (seen : List String) : Form → Except ReadError Unit
  | .scalar _ => .error .mismatch
  | .list _ => .error .mismatch
  | .tuple _ _ => .error .mismatch
  | .variant _ _ _ => if seen.isEmpty then .ok () else .error .malformed
  | _ => .ok ()

/-- Refuses a value as a whole. -/
def verdict : Form → Check
  | .scalar check, v => check v
  | .held, v => accepted hold v
  | .list _, .array _ => .ok ()
  | .list _, v => .error (v.unexpected .array)
  | .members _, .object _ => .ok ()
  | .members _, v => .error (v.unexpected .object)
  | .record check _, v => check v
  | .tuple check _, v => check v
  | .tagged check _ _ _, v => check v
  | .variant check _ _, v => check v

/-! ## The first fault -/

mutual

/-- Refuses a complete value for the first fault in it: first its parts in order, then the whole. -/
def check (f : Form) : Check
  | .array vs => do
    checkElements f 0 vs
    f.verdict (.array vs)
  | .object ms => do
    checkMembers f [] ms
    f.verdict (.object ms)
  | .unreadable v => checkBeginning f v
  | v => f.verdict v

/-- Refuses a value that cannot be held, unless it is refused before. -/
def checkBeginning (f : Form) : Check
  | .array vs => do
    let _ ← f.element vs.length
    throw .malformed
  | .object ms => do
    checkMembers f [] ms
    let _ ← f.member (ms.map (·.1)) none
    throw .malformed
  | _ => .error .malformed

/-- Checks elements after so many others. -/
def checkElements (f : Form) (n : Nat) : List Json → Except ReadError Unit
  | [] => .ok ()
  | v :: vs => do
    (← f.element n).check v
    checkElements f (n + 1) vs

/-- Checks members after members with other keys. -/
def checkMembers (f : Form) (seen : List String) : List (String × Json) → Except ReadError Unit
  | [] => .ok ()
  | (k, v) :: ms => do
    match ← f.member seen (some k) with
    | some field => field.check v
    | none => pure ()
    checkMembers f (k :: seen) ms

end

/-- What a decoder makes of a value, or else the first fault in it. -/
def decode (f : Form) (decode : Json → Except ReadError α) (v : Json) : Except ReadError α :=
  match decode v with
  | .ok a => .ok a
  | .error e =>
    match f.check v with
    | .ok () => .error e
    | .error first => .error first

/-! ## The way to a place -/

/-- What comes next in an array or object that is open, unless it is refused before. -/
def enter (f : Form) : Frame → Except ReadError Target
  | .array es => do
    f.checkElements 0 es.reverse
    return .value (← f.element es.length)
  | .object ms cut => do
    f.checkMembers [] ms.reverse
    if cut then
      let _ ← f.member (ms.map (·.1)) none
    f.key (ms.map (·.1))
    return .key
  | .member ms k => do
    f.checkMembers [] ms.reverse
    match ← f.member (ms.map (·.1)) k with
    | some field => return .value field
    | none => return .skipped

/-- What comes next in the innermost of the arrays and objects that are open, the outermost first,
unless something is refused before. -/
def reach (f : Form) : List Frame → Except ReadError Target
  | [] => .ok (.value f)
  | frame :: rest => do
    match ← f.enter frame with
    | .value g => g.reach rest
    | target => return target

end Form

end SchemaEvolution.Json
