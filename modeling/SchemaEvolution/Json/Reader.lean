import SchemaEvolution.Json.Form
import SchemaEvolution.Json.Numeral

/-!
# Reading JSON

The reader goes through the text once, character by character. Its state holds the arrays and
objects that are still open (`Frame`) and what it is in the middle of (`Point`); `step` takes one
character, `run` takes them all, by recursion on the text, and `finish` says what the state means
when the text ends there. So no nesting is too deep to be read, and none runs out of anything.

A text that ends where something is missing is `unfinished`; one that holds a character that cannot
stand where it does is `malformed`. Only white space may follow the value. Either is said only if
nothing before is refused by the form that the text should have (`Form`). A number that breaks off
where nobody asks for it is always `malformed`: there the reader only looks for the digit that must
follow.
-/

namespace SchemaEvolution.Json

/-! ## Strings -/

/-- What the reader has seen of an escape. -/
inductive Escape where
  | none
  | backslash
  /-- After the `u`: the number of hexadecimal digits seen, and what they denote. -/
  | unit (seen value : Nat)

/-- A string that is being read. -/
structure StringPart where
  /-- The characters so far, last one first. -/
  text : List Char
  /-- Whether every surrogate so far is half of a pair. -/
  paired : Bool
  /-- A high surrogate that waits for its other half. -/
  high : Option Nat
  escape : Escape

namespace StringPart

/-- The string before its first character. -/
def empty : StringPart := ⟨[], true, none, .none⟩

/-- Adds a character. A surrogate that waited stays alone. -/
def push (p : StringPart) (c : Char) : StringPart :=
  ⟨c :: p.text, p.paired && p.high.isNone, none, .none⟩

/-- Adds an escaped UTF-16 unit. -/
def pushUnit (p : StringPart) (u : Nat) : StringPart :=
  if 0xDC00 ≤ u && u ≤ 0xDFFF then
    match p.high with
    | some h =>
      ⟨Char.ofNat (0x10000 + (h - 0xD800) * 0x400 + (u - 0xDC00)) :: p.text, p.paired, none, .none⟩
    | none => ⟨p.text, false, none, .none⟩
  else if 0xD800 ≤ u && u ≤ 0xDBFF then ⟨p.text, p.paired && p.high.isNone, some u, .none⟩
  else p.push (Char.ofNat u)

/-- The string, unless a surrogate stands alone in it. -/
def value? (p : StringPart) : Option String :=
  if p.paired && p.high.isNone then some (String.ofList p.text.reverse) else none

/-- The string as a value. -/
def value (p : StringPart) : Json :=
  match p.value? with
  | some s => .string s
  | none => .unreadable (.string (String.ofList p.text.reverse))

end StringPart

/-- The value of a hexadecimal digit. -/
def hexValue? (c : Char) : Option Nat :=
  if c.isDigit then some (c.toNat - 0x30)
  else if 'a' ≤ c && c ≤ 'f' then some (c.toNat - 0x57)
  else if 'A' ≤ c && c ≤ 'F' then some (c.toNat - 0x37)
  else none

/-- The character that a backslash and a letter stand for. -/
def unescape? : Char → Option Char
  | '"' => some '"'
  | '\\' => some '\\'
  | '/' => some '/'
  | 'b' => some '\x08'
  | 'f' => some '\x0c'
  | 'n' => some '\n'
  | 'r' => some '\r'
  | 't' => some '\t'
  | _ => none

/-! ## The state of the reader -/

/-- What the reader is in the middle of. -/
inductive Point where
  /-- A value must follow. -/
  | value
  /-- An array has just been opened: a value or its end must follow. -/
  | arrayStart
  /-- An object has just been opened: a key or its end must follow. -/
  | objectStart
  /-- A comma has been read in an object: a key must follow. -/
  | key
  /-- A key has been read: a colon must follow. -/
  | colon
  | string (isKey : Bool) (part : StringPart)
  | number (n : Numeral)
  /-- The rest of a word that stands for a value. -/
  | word (rest : List Char) (value : Json)
  /-- A value is complete. -/
  | done (v : Json)

/-- The state of the reader. -/
structure State where
  frames : List Frame
  point : Point

/-- Why a character cannot stand where it does. -/
inductive Fault where
  | malformed
  /-- It is no hexadecimal digit, after so many characters of an escape that needs four. -/
  | brokenEscape (seen : Nat)

/-- The white space of JSON. -/
def isSpace (c : Char) : Bool := c == ' ' || c == '\t' || c == '\n' || c == '\r'

/-- Whether so few arrays and objects are open that one more can be held. No more of them are
counted than are needed to tell. -/
def shallow (frames : List Frame) : Bool := (frames.take maxDepth).length < maxDepth

/-- The value of an array that ends inside others. -/
def closeArray (outer : List Frame) (elements : List Json) : Json :=
  if shallow outer then .array elements.reverse else .unreadable (.array [])

/-- The value of an object that ends inside others. -/
def closeObject (outer : List Frame) (members : List (String × Json)) (cut : Bool) : Json :=
  if !shallow outer then .unreadable (.object [])
  else if cut then .unreadable (.object members.reverse)
  else .object members.reverse

/-- The first character of a value. -/
def begin (frames : List Frame) (c : Char) : Except Fault State :=
  if c = '"' then .ok ⟨frames, .string false .empty⟩
  else if c = '[' then .ok ⟨.array [] :: frames, .arrayStart⟩
  else if c = '\x7b' then .ok ⟨.object [] false :: frames, .objectStart⟩
  else if c = '-' then .ok ⟨frames, .number .ofMinus⟩
  else if c.isDigit then .ok ⟨frames, .number (.ofDigit c)⟩
  else if c = 'n' then .ok ⟨frames, .word ['u', 'l', 'l'] .null⟩
  else if c = 't' then .ok ⟨frames, .word ['r', 'u', 'e'] (.bool true)⟩
  else if c = 'f' then .ok ⟨frames, .word ['a', 'l', 's', 'e'] (.bool false)⟩
  else .error .malformed

/-- The first character after a value. -/
def next (frames : List Frame) (v : Json) (c : Char) : Except Fault State :=
  if isSpace c then .ok ⟨frames, .done v⟩
  else
    match frames with
    | .array es :: rest =>
      if c = ',' then .ok ⟨.array (v :: es) :: rest, .value⟩
      else if c = ']' then .ok ⟨rest, .done (closeArray rest (v :: es))⟩
      else .error .malformed
    | .member ms (some k) :: rest =>
      if c = ',' then .ok ⟨.object ((k, v) :: ms) false :: rest, .key⟩
      else if c = '\x7d' then .ok ⟨rest, .done (closeObject rest ((k, v) :: ms) false)⟩
      else .error .malformed
    | .member ms none :: rest =>
      if c = ',' then .ok ⟨.object ms true :: rest, .key⟩
      else if c = '\x7d' then .ok ⟨rest, .done (closeObject rest ms true)⟩
      else .error .malformed
    | _ => .error .malformed

/-- A string that ends: a key waits for its colon, any other string is a value. -/
def endString (frames : List Frame) (isKey : Bool) (p : StringPart) : Except Fault State :=
  if isKey then
    match frames with
    | .object ms cut :: rest => .ok ⟨.member ms (if cut then none else p.value?) :: rest, .colon⟩
    | _ => .error .malformed
  else .ok ⟨frames, .done p.value⟩

/-- A character of a string. -/
def stringStep (frames : List Frame) (isKey : Bool) (p : StringPart) (c : Char) :
    Except Fault State :=
  match p.escape with
  | .none =>
    if c = '"' then endString frames isKey p
    else if c = '\\' then .ok ⟨frames, .string isKey { p with escape := .backslash }⟩
    else if c.toNat < 0x20 then .error .malformed
    else .ok ⟨frames, .string isKey (p.push c)⟩
  | .backslash =>
    if c = 'u' then .ok ⟨frames, .string isKey { p with escape := .unit 0 0 }⟩
    else
      match unescape? c with
      | some d => .ok ⟨frames, .string isKey (p.push d)⟩
      | none => .error .malformed
  | .unit seen u =>
    match hexValue? c with
    | none => .error (.brokenEscape seen)
    | some d =>
      let u := 16 * u + d
      if seen < 3 then .ok ⟨frames, .string isKey { p with escape := .unit (seen + 1) u }⟩
      else .ok ⟨frames, .string isKey (p.pushUnit u)⟩

/-- Takes one character. -/
def step (s : State) (c : Char) : Except Fault State :=
  match s.point with
  | .value => if isSpace c then .ok s else begin s.frames c
  | .arrayStart =>
    if isSpace c then .ok s
    else if c = ']' then
      match s.frames with
      | .array es :: rest => .ok ⟨rest, .done (closeArray rest es)⟩
      | _ => .error .malformed
    else begin s.frames c
  | .objectStart =>
    if isSpace c then .ok s
    else if c = '"' then .ok ⟨s.frames, .string true .empty⟩
    else if c = '\x7d' then
      match s.frames with
      | .object ms cut :: rest => .ok ⟨rest, .done (closeObject rest ms cut)⟩
      | _ => .error .malformed
    else .error .malformed
  | .key =>
    if isSpace c then .ok s
    else if c = '"' then .ok ⟨s.frames, .string true .empty⟩
    else .error .malformed
  | .colon =>
    if isSpace c then .ok s
    else if c = ':' then .ok ⟨s.frames, .value⟩
    else .error .malformed
  | .string isKey p => stringStep s.frames isKey p c
  | .number n =>
    match n.push? c with
    | some n' => .ok ⟨s.frames, .number n'⟩
    | none =>
      if n.complete then next s.frames n.value c else .error .malformed
  | .word [] v => next s.frames v c
  | .word (d :: rest) v =>
    if c = d then
      if rest.isEmpty then .ok ⟨s.frames, .done v⟩ else .ok ⟨s.frames, .word rest v⟩
    else .error .malformed
  | .done v => next s.frames v c

/-- How many bytes of UTF-8 a text takes, counted up to four. -/
def bytesUpToFour (cs : List Char) : Nat := min 4 ((cs.take 4).foldl (fun n c => n + c.utf8Size) 0)

/-- What a fault means when `rest` is the text from the faulty character on. An escape that the end
of the text cuts short counts as an end, whatever stands in it. -/
def Fault.error (rest : List Char) : Fault → ReadError
  | .malformed => .malformed
  | .brokenEscape seen => if seen + bytesUpToFour rest < 4 then .unfinished else .malformed

/-! ## Where a text breaks -/

namespace State

/-- The value that is complete where the rest of the text begins. A zero is not, before a digit. -/
def value? (s : State) (rest : List Char) : Option Json :=
  match s.point with
  | .done v => some v
  | .number n =>
    if n.complete && !(n.phase == .zero && rest.head?.any Char.isDigit) then some n.value else none
  | _ => none

/-- Whether the reader is in a number that may not end yet. -/
def isInNumber (s : State) : Bool :=
  match s.point with
  | .number n => !n.complete
  | _ => false

/-- Whether the reader is in a word, such as `null`. -/
def isInWord (s : State) : Bool :=
  match s.point with
  | .word _ _ => true
  | _ => false

/-- Whether what the reader is in can no longer be held, however it goes on: more arrays and objects
are open than can be held, or a surrogate in a string is already known to stand alone. -/
def isUnreadable (s : State) : Bool :=
  !(s.frames.drop maxDepth).isEmpty ||
    match s.point with
    | .string _ p => !p.paired
    | _ => false

/-- Why a text is refused that breaks before the given rest for the given cause. -/
def refusal (form : Form) (s : State) (rest : List Char) (cause : ReadError) : ReadError :=
  match form.reach s.frames.reverse with
  | .error e => e
  | .ok .skipped => if s.isInNumber then .malformed else cause
  | .ok .key => if s.isUnreadable then .malformed else cause
  | .ok (.value f) =>
    if s.isUnreadable || f.isVariant && (s.isInNumber || s.isInWord) then .malformed
    else
      match (s.value? rest).map f.check with
      | some (.error e) => e
      | _ => cause

end State

/-- What the state means at the end of the text. -/
def finish (form : Form) (s : State) : Except ReadError Json :=
  match s.frames, s.point with
  | [], .done v => .ok v
  | [], .number n => if n.complete then .ok n.value else .error (s.refusal form [] .unfinished)
  | _, _ => .error (s.refusal form [] .unfinished)

/-- Reads the rest of a text. -/
def run (form : Form) (s : State) : List Char → Except ReadError Json
  | [] => finish form s
  | c :: rest =>
    match step s c with
    | .ok s' => run form s' rest
    | .error f => .error (s.refusal form (c :: rest) (f.error (c :: rest)))

/-- Reads a text, to be decoded to something of the given form. -/
def read (form : Form) (text : String) : Except ReadError Json :=
  run form ⟨[], .value⟩ text.toList

end SchemaEvolution.Json
