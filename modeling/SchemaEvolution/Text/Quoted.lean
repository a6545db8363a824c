/-!
# Quoted text

A text is put between two quote characters and every quote character inside it is written twice.
The reader, `scan`, takes such a text off the front of a longer one: it stops at the first quote
character that is not doubled.

`scan_quote` says that nothing is lost and that the text that follows is left alone, as long as it
does not begin with a further quote character.
-/

namespace SchemaEvolution.Text.Quoted

/-- Writes every quote character twice. -/
def double (q : Char) : List Char → List Char
  | [] => []
  | c :: r => if c = q then q :: q :: double q r else c :: double q r

/-- Puts a text between quote characters. -/
def quote (q : Char) (cs : List Char) : List Char := q :: double q cs ++ [q]

/-- Reads up to the first quote character that is not doubled. The answer is the text before it,
with doubled quote characters halved, and what stands after it. -/
def body (q : Char) : List Char → Option (List Char × List Char)
  | [] => none
  | [c] => if c = q then some ([], []) else none
  | c :: d :: r =>
    if c = q then
      if d = q then (body q r).map (fun p => (q :: p.1, p.2)) else some ([], d :: r)
    else (body q (d :: r)).map (fun p => (c :: p.1, p.2))

/-- Reads a quoted text off the front. -/
def scan (q : Char) : List Char → Option (List Char × List Char)
  | [] => none
  | c :: r => if c = q then body q r else none

/-- Quotes a string. -/
def string (q : Char) (s : String) : String := String.ofList (quote q s.toList)

@[simp] theorem toList_string (q : Char) (s : String) :
    (string q s).toList = quote q s.toList := by
  simp [string]

theorem body_ne_quote {q c : Char} (h : c ≠ q) (r : List Char) :
    body q (c :: r) = (body q r).map (fun p => (c :: p.1, p.2)) := by
  cases r with
  | nil => simp [body, h]
  | cons d r => simp [body, h]

/-- The end of a quoted text is found, whatever follows, unless a further quote character does. -/
theorem body_double (q : Char) (s t : List Char) (h : t.head? ≠ some q) :
    body q (double q s ++ q :: t) = some (s, t) := by
  induction s with
  | nil =>
    cases t with
    | nil => simp [double, body]
    | cons d r =>
      have hd : d ≠ q := by simpa using h
      simp [double, body, hd]
  | cons c r ih =>
    by_cases hc : c = q
    · subst hc
      simp [double, body, ih]
    · simp only [double, if_neg hc, List.cons_append]
      rw [body_ne_quote hc, ih]
      rfl

/-- Scanning a quoted text gives it back and leaves what follows. -/
theorem scan_quote (q : Char) (s t : List Char) (h : t.head? ≠ some q) :
    scan q (quote q s ++ t) = some (s, t) := by
  simpa [scan, quote] using body_double q s t h

end SchemaEvolution.Text.Quoted
