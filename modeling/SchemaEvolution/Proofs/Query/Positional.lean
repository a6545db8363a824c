import SchemaEvolution.Proofs.Query.Marked
import SchemaEvolution.Proofs.Query.Separated
import SchemaEvolution.Proofs.Text.Runs

/-!
# Positional parameters are found exactly

The parameters of a query are replaced after it has been written, by cutting its text into segments.
For separated pieces the segments are the pieces: a name is one quoted segment, whatever characters
it holds, a value is one placeholder, and everything else is copied character by character. So
nothing is replaced but what stands for a value, and each value by its own mark.
-/

namespace SchemaEvolution

open Text (Quoted.double Quoted.quote)

namespace Positional

variable {q c : Char} {cs rest : List Char}

/-! ## One segment -/

theorem quotedLength_cons_of_ne {seen : Nat} {fallback : Option Nat} (h : c ≠ q) :
    quotedLength q seen fallback (c :: cs) = quotedLength q (seen + 1) fallback cs := by
  cases cs with
  | nil => simp [quotedLength, h]
  | cons d r => simp [quotedLength, h]

/-- The closing quote character is found behind any text in which quote characters are doubled. -/
theorem quotedLength_double {seen : Nat} {fallback : Option Nat} (h : rest.head? ≠ some q) :
    quotedLength q seen fallback (Quoted.double q cs ++ q :: rest)
      = some (seen + (Quoted.double q cs).length + 1) := by
  induction cs generalizing seen fallback with
  | nil =>
    cases rest with
    | nil => simp [Quoted.double, quotedLength]
    | cons d r =>
      have hd : d ≠ q := by simpa using h
      simp [Quoted.double, quotedLength, hd]
  | cons c cs ih =>
    by_cases hc : c = q
    · simp only [Quoted.double, hc, reduceIte, List.cons_append, quotedLength, ih, List.length_cons]
      rw [show seen + 2 + (Quoted.double q cs).length + 1
        = seen + ((Quoted.double q cs).length + 1 + 1) + 1 by omega]
    · simp only [Quoted.double, hc, reduceIte, List.cons_append, quotedLength_cons_of_ne hc, ih,
        List.length_cons]
      rw [show seen + 1 + (Quoted.double q cs).length + 1
        = seen + ((Quoted.double q cs).length + 1) + 1 by omega]

theorem segments_cons_plain (h : Piece.isPlainChar c = true) :
    segments (c :: cs) = .copied [c] :: segments cs := by
  simp only [Piece.isPlainChar, Bool.and_eq_true, Bool.not_eq_true', bne_iff_ne] at h
  rw [segments, if_neg (by simp [h.1]), if_neg h.2]

/-- A text without quote characters and colons is copied. -/
theorem segments_plain (h : ∀ c ∈ cs, Piece.isPlainChar c = true) :
    segments (cs ++ rest) = cs.map (fun c => .copied [c]) ++ segments rest := by
  induction cs with
  | nil => rfl
  | cons c cs ih =>
    obtain ⟨hc, hcs⟩ := List.forall_mem_cons.mp h
    rw [List.cons_append, segments_cons_plain hc, ih hcs]
    rfl

/-- A quoted text is one segment. -/
theorem segments_quote (hq : isQuote q = true) (h : rest.head? ≠ some q) :
    segments (Quoted.quote q cs ++ rest) = .copied (Quoted.quote q cs) :: segments rest := by
  have hlength : quotedLength q 0 none (Quoted.double q cs ++ q :: rest)
      = some (0 + (Quoted.double q cs).length + 1) := quotedLength_double h
  rw [Nat.zero_add] at hlength
  have hsplit : Quoted.double q cs ++ q :: rest = (Quoted.double q cs ++ [q]) ++ rest := by simp
  have hcount : (Quoted.double q cs ++ [q]).length = (Quoted.double q cs).length + 1 := by simp
  have htext : Quoted.quote q cs ++ rest = q :: (Quoted.double q cs ++ q :: rest) := by
    simp [Quoted.quote]
  rw [htext, segments, if_pos hq, hlength]
  simp only [hsplit, List.take_left' hcount, List.drop_left' hcount]
  rfl

/-- Where a parameter ends, there is neither a digit nor a letter. -/
theorem not_word_of_break (h : rest.head?.all Piece.isBreakChar = true) :
    rest.head?.any Text.isDecimalDigit = false ∧ rest.head?.any Text.isWordChar = false := by
  cases rest with
  | nil => exact ⟨rfl, rfl⟩
  | cons c r =>
    simp only [List.head?_cons, Option.all_some, Piece.isBreakChar, Bool.or_eq_true,
      beq_iff_eq] at h
    simp only [List.head?_cons, Option.any_some]
    rcases h with ((rfl | rfl) | rfl) | rfl <;> decide

theorem placeholderName?_parameter {n : Nat} (h : rest.head?.all Piece.isBreakChar = true) :
    placeholderName? ((parameter n).toList ++ rest) = some (parameter n).toList := by
  have hname : (parameter n).toList = 'p' :: Text.Decimal.digits n := by
    simp [parameter, Text.Decimal.string]
  have hdigits : ∀ c ∈ Text.Decimal.digits n, Text.isDecimalDigit c = true := fun c hc =>
    Text.isDecimalDigit_of_isDigit (Text.Decimal.isDigit_of_mem_digits n c hc)
  obtain ⟨hdigit, hword⟩ := not_word_of_break h
  rw [hname, List.cons_append, placeholderName?]
  simp only [Text.takeWhile_run hdigits hdigit, Text.dropWhile_run hdigits hdigit, hword,
    Bool.or_false, List.isEmpty_iff, Text.Decimal.digits_ne_nil, reduceIte]

/-- A parameter is one placeholder. -/
theorem segments_parameter {n : Nat} (h : rest.head?.all Piece.isBreakChar = true) :
    segments ((":" ++ parameter n).toList ++ rest)
      = .placeholder (parameter n).toList :: segments rest := by
  have htext : (":" ++ parameter n).toList ++ rest = ':' :: ((parameter n).toList ++ rest) := by
    simp
  rw [htext, segments, if_neg (by decide), if_pos rfl, placeholderName?_parameter h]
  simp only [List.drop_left]

/-! ## All segments -/

variable {d target : Dialect} {ps : List Piece} {issued : Nat}

/-- The segments of a query that counts parameters from a number on. -/
def ofPieces (d : Dialect) : Nat → List Piece → List Segment
  | _, [] => []
  | issued, .text s :: ps => s.toList.map (fun c => .copied [c]) ++ ofPieces d issued ps
  | issued, .name s :: ps => .copied (d.quote s).toList :: ofPieces d issued ps
  | issued, .value _ :: ps =>
    .placeholder (parameter (issued + 1)).toList :: ofPieces d (issued + 1) ps

theorem isQuote_quoteMark : isQuote d.quoteMark = true := by cases d <;> rfl

/-- What follows a name or a value in the text begins with a character that belongs to neither. -/
theorem head?_sql (h : ps.head?.all Piece.isBreak = true) :
    (Piece.sql d issued ps).toList.head?.all Piece.isBreakChar = true := by
  cases ps with
  | nil => rfl
  | cons p ps =>
    cases p with
    | text s =>
      have hs : s.toList.head?.any Piece.isBreakChar = true := h
      rw [Piece.sql, String.toList_append, List.head?_append]
      cases hc : s.toList.head? with
      | none => rw [hc] at hs; cases hs
      | some c => rw [hc] at hs; exact hs
    | name s => cases h
    | value v => cases h

theorem ne_quoteMark_of_isBreakChar (h : rest.head?.all Piece.isBreakChar = true) :
    rest.head? ≠ some d.quoteMark := by
  intro he
  rw [he] at h
  cases d <;> cases h

/-- The segments of a text are its pieces. -/
theorem segments_sql (h : Piece.Separated ps) :
    segments (Piece.sql d issued ps).toList = ofPieces d issued ps := by
  induction ps generalizing issued with
  | nil => rw [Piece.sql, String.toList_empty, segments, ofPieces]
  | cons p ps ih =>
    cases p with
    | text s =>
      rw [Piece.sql, String.toList_append, segments_plain (List.all_eq_true.mp h.1), ih h.2,
        ofPieces]
    | name s =>
      have hrest : (Piece.sql d issued ps).toList.head? ≠ some d.quoteMark :=
        ne_quoteMark_of_isBreakChar (head?_sql h.1)
      rw [Piece.sql, String.toList_append, ofPieces, ← ih h.2, Dialect.quote,
        Text.Quoted.toList_string, segments_quote isQuote_quoteMark hrest]
    | value v =>
      rw [Piece.sql, String.toList_append, segments_parameter (head?_sql h.1), ih h.2, ofPieces]

/-! ## Marks for placeholders -/

theorem write_copied {value? : String → Option BoundValue} {position : Nat} {rest : List Segment} :
    write target value? position (cs.map (fun c => .copied [c]) ++ rest)
      = (cs ++ (write target value? position rest).1, (write target value? position rest).2) := by
  induction cs with
  | nil => rfl
  | cons c cs ih => rw [List.map_cons, List.cons_append, write, ih]; rfl

/-- When every parameter is bound, each placeholder is replaced by its mark. -/
theorem write_ofPieces {value? : String → Option BoundValue}
    (h : ∀ b ∈ Piece.bindings issued ps, value? b.name = some b.value) :
    write target value? issued (ofPieces d issued ps)
      = ((Piece.marked d target.parameterMark issued ps).toList, Piece.values ps) := by
  induction ps generalizing issued with
  | nil => rfl
  | cons p ps ih =>
    cases p with
    | text s =>
      rw [ofPieces, write_copied, ih h, Piece.marked, String.toList_append]
      rfl
    | name s =>
      rw [ofPieces, write, ih h, Piece.marked, String.toList_append]
      rfl
    | value v =>
      obtain ⟨hv, hrest⟩ := List.forall_mem_cons.mp h
      rw [ofPieces, write, String.ofList_toList, hv]
      simp only [ih hrest, Piece.marked, String.toList_append]
      rfl

end Positional

namespace BoundQuery

variable {d : Dialect} {q : BoundQuery} {ps : List Piece}

/-- Every value of a query is found by its parameter. -/
theorem value?_of_mem (h : (q.bindings.map (·.name)).Nodup) {b : Binding} (hb : b ∈ q.bindings) :
    q.value? b.name = some b.value := by
  unfold value?
  cases hf : q.bindings.find? (·.name == b.name) with
  | none =>
    have := List.find?_eq_none.mp hf b hb
    simp at this
  | some b' =>
    have hname : b'.name = b.name := by simpa using List.find?_some hf
    rw [List.inj_on_of_nodup_map h (List.mem_of_find?_eq_some hf) hb hname]
    rfl

/-- The parameter of each piece that is a value finds the value. -/
theorem value?_toQuery {issued : Nat} {b : Binding} (hb : b ∈ Piece.bindings issued ps) :
    (Piece.toQuery d issued ps).value? b.name = some b.value := by
  refine value?_of_mem ?_ ?_
  · rw [Piece.bindings_toQuery]
    exact Piece.nodup_parameters
  · rwa [Piece.bindings_toQuery]

/-- Whatever names a statement has, its text with positional parameters is its text, with the mark
of the dialect in the place of each parameter and nothing else changed; and the values are those
that are bound, in the order in which they were. -/
theorem positional_exact (target : Dialect) (h : Built d q ps) :
    q.sql = Piece.marked d (fun n => ":" ++ parameter n) 0 ps ∧
      q.bindings.map (·.name) = (List.range' 1 q.bindings.length).map parameter ∧
      q.positional target
        = (Piece.marked d target.parameterMark 0 ps, q.bindings.map (·.value)) := by
  obtain rfl := h.toQuery_eq
  have hnames : (Piece.bindings 0 ps).length = (Piece.values ps).length := by
    have hvalues : (Piece.bindings 0 ps).map (·.value) = Piece.values ps :=
      Piece.map_value_bindings
    rw [← hvalues, List.length_map]
  refine ⟨Piece.sql_toQuery.trans Piece.sql_eq_marked, ?_, ?_⟩
  · rw [Piece.bindings_toQuery, Piece.map_name_bindings, hnames]
  · have hbound : ∀ b ∈ Piece.bindings 0 ps, (Piece.toQuery d 0 ps).value? b.name = some b.value :=
      fun b hb => value?_toQuery hb
    rw [positional, Piece.sql_toQuery, Positional.segments_sql h.separated]
    simp only [Positional.write_ofPieces hbound, String.ofList_toList, Piece.bindings_toQuery,
      Piece.map_value_bindings]

/-- An update whose names look like parameters and hold quote characters of every kind. -/
def hostileNames : Update where
  table := ":p1"
  assignments := [("a\":p2", .constant (.int 5)), ("it's", .constant .null)]
  filter := some (.compare (.column ⟨some "", "`:p3"⟩) .eq (.constant (.bool true)))

theorem positional_exact_hostileNames :
    (hostileNames.toQuery .sqlite).sql
        = "UPDATE \":p1\" SET \"a\"\":p2\" = :p1, \"it's\" = :p2 WHERE \"\".\"`:p3\" = :p3" ∧
      (hostileNames.toQuery .sqlite).positional .postgres
        = ("UPDATE \":p1\" SET \"a\"\":p2\" = $1, \"it's\" = $2 WHERE \"\".\"`:p3\" = $3",
          [.int 5, .null, .bool true]) := by
  obtain ⟨hsql, -, hpositional⟩ :=
    positional_exact .postgres (Built.update (d := .sqlite) hostileNames)
  rw [hsql, hpositional]
  -- The digits of a number are found by dividing, which only the kernel follows.
  decide +kernel

end BoundQuery

end SchemaEvolution
