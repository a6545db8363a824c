import SchemaEvolution.Proofs.Enums.Redefined
import SchemaEvolution.Proofs.Words.Delimited

/-!
# Literals where a backslash escapes

MySQL reads a literal with one rule more than the other dialects: a backslash takes the character
after it literally, a quote character too. Literals are written without regard to it, so where they
end for MySQL depends on the value. A value without backslashes is read back. With backslashes the
literal still ends in its place, unless a backslash that is not escaped itself stands before a quote
character or at the end: then the reader misses the end, whatever follows (`scanEscaped_literal`).
-/

namespace SchemaEvolution

namespace Text.Quoted

/-- Reads up to the first quote character that is neither doubled nor escaped by a backslash. The
answer is the text before it, as it is meant, and what stands after it. -/
def bodyEscaped : List Char → Option (List Char × List Char)
  | [] => none
  | ['\\'] => none
  | '\\' :: c :: r => (bodyEscaped r).map fun p => (c :: p.1, p.2)
  | ['\''] => some ([], [])
  | '\'' :: '\'' :: r => (bodyEscaped r).map fun p => ('\'' :: p.1, p.2)
  | '\'' :: c :: r => some ([], c :: r)
  | c :: r => (bodyEscaped r).map fun p => (c :: p.1, p.2)

/-- Reads a literal in which backslashes escape off the front. -/
def scanEscaped : List Char → Option (List Char × List Char)
  | '\'' :: r => bodyEscaped r
  | _ => none

/-- Whether no quote character, and not the end, comes right after a backslash that is not escaped
itself. -/
def escapesNoQuote : List Char → Bool
  | [] => true
  | ['\\'] => false
  | '\\' :: c :: r => c != '\'' && escapesNoQuote r
  | _ :: r => escapesNoQuote r

/-- A text without the backslashes that escape. -/
def unescaped : List Char → List Char
  | [] => []
  | ['\\'] => ['\\']
  | '\\' :: c :: r => c :: unescaped r
  | c :: r => c :: unescaped r

variable {cs s t v : List Char} {c : Char} {r : List Char}

theorem bodyEscaped_plain (hslash : c ≠ '\\') (hquote : c ≠ '\'') :
    bodyEscaped (c :: r) = (bodyEscaped r).map fun p => (c :: p.1, p.2) := by
  rw [bodyEscaped] <;> simp [hslash, hquote]

theorem bodyEscaped_end (ht : t.head? ≠ some '\'') : bodyEscaped ('\'' :: t) = some ([], t) := by
  cases t with
  | nil => rfl
  | cons c r => exact bodyEscaped.eq_6 _ _ fun hc => ht (congrArg some hc)

theorem length_of_bodyEscaped (h : bodyEscaped cs = some (s, t)) : t.length < cs.length := by
  fun_induction bodyEscaped cs generalizing s with
  | case1 => simp at h
  | case2 => simp at h
  | case3 c r ih =>
    obtain ⟨s', hbody, -⟩ := map_cons_eq_some.mp h
    exact Nat.lt_succ_of_lt (Nat.lt_succ_of_lt (ih hbody))
  | case4 => cases h; simp
  | case5 r ih =>
    obtain ⟨s', hbody, -⟩ := map_cons_eq_some.mp h
    exact Nat.lt_succ_of_lt (Nat.lt_succ_of_lt (ih hbody))
  | case6 c r => cases h; simp
  | case7 c r _ _ _ _ _ ih =>
    obtain ⟨s', hbody, -⟩ := map_cons_eq_some.mp h
    exact Nat.lt_succ_of_lt (ih hbody)

/-- A reader that has lost one of two quote characters pairs the others wrongly: it runs past the
end, or stops before it. -/
theorem bodyEscaped_half_double :
    bodyEscaped ('\'' :: (double '\'' v ++ '\'' :: t)) ≠ some (s, t) := by
  induction v generalizing s with
  | nil =>
    intro h
    obtain ⟨s', hbody, -⟩ := map_cons_eq_some.mp h
    exact Nat.lt_irrefl _ (length_of_bodyEscaped hbody)
  | cons c r ih =>
    intro h
    by_cases hc : c = '\''
    · subst hc
      simp only [double, if_pos, List.cons_append] at h
      obtain ⟨s', hbody, -⟩ := map_cons_eq_some.mp h
      exact ih hbody
    · simp only [double, if_neg hc, List.cons_append] at h
      rw [bodyEscaped_end (by simpa using hc)] at h
      have hlength := congrArg List.length (Prod.mk.inj (Option.some.inj h)).2
      simp at hlength
      omega

/-- The reader comes to the end of a text with doubled quote characters exactly if no backslash of
the text takes one of them. -/
theorem bodyEscaped_double (ht : t.head? ≠ some '\'') :
    bodyEscaped (double '\'' v ++ '\'' :: t) = some (s, t) ↔
      escapesNoQuote v = true ∧ s = unescaped v := by
  fun_induction escapesNoQuote v generalizing s with
  | case1 =>
    rw [double, List.nil_append, bodyEscaped_end ht]
    simp [unescaped, eq_comm]
  | case2 =>
    refine iff_of_false (fun h => ?_) (by simp)
    obtain ⟨s', hbody, -⟩ := map_cons_eq_some.mp h
    exact Nat.lt_irrefl _ (length_of_bodyEscaped hbody)
  | case3 c r ih =>
    have hslash : ('\\' : Char) ≠ '\'' := by decide
    by_cases hc : c = '\''
    · subst hc
      refine iff_of_false (fun h => ?_) (by simp)
      rw [double, if_neg hslash, double, if_pos rfl] at h
      obtain ⟨s', hbody, -⟩ := map_cons_eq_some.mp h
      exact bodyEscaped_half_double hbody
    · rw [double, if_neg hslash, double, if_neg hc, List.cons_append, List.cons_append,
        bodyEscaped, map_cons_eq_some, unescaped]
      simp [ih, hc]
  | case4 c r hlast hescape ih =>
    have hslash : c ≠ '\\' := fun hc => by
      cases r with
      | nil => exact hlast hc rfl
      | cons d r => exact hescape d r hc rfl
    have hunescaped : unescaped (c :: r) = c :: unescaped r := by
      rw [unescaped] <;> simp [hslash]
    by_cases hc : c = '\''
    · subst hc
      rw [double, if_pos rfl, List.cons_append, List.cons_append, bodyEscaped, map_cons_eq_some,
        hunescaped]
      simp [ih]
    · rw [double, if_neg hc, List.cons_append, bodyEscaped_plain hslash hc, map_cons_eq_some,
        hunescaped]
      simp [ih]

/-- A text without backslashes is meant as it stands, and no quote character of it is taken. -/
theorem unescaped_of_notMem (h : '\\' ∉ v) : escapesNoQuote v = true ∧ unescaped v = v := by
  induction v with
  | nil => simp [escapesNoQuote, unescaped]
  | cons c r ih =>
    obtain ⟨hc, hr⟩ := not_or.mp (mt List.mem_cons.mpr h)
    obtain ⟨hquotes, hunescaped⟩ := ih hr
    have hslash : c ≠ '\\' := fun heq => hc heq.symm
    constructor
    · rw [escapesNoQuote] <;> simp [hslash, hquotes]
    · rw [unescaped] <;> simp [hslash, hunescaped]

end Text.Quoted

open Text.Quoted (scanEscaped escapesNoQuote unescaped)

/-- Whether defaults of the type are texts, which are written as they are. -/
def ColumnType.isTextual : ColumnType → Bool
  | .char _ | .varchar _ | .text | .uuid | .json | .enum _ => true
  | _ => false

namespace Dialect

variable {d : Dialect} {p : Property} {enums : EnumScope} {value raw text : String}
  {values : List String} {rest read : List Char}

/-! ## Where literals stand -/

/-- The literal of a value stands in a text, and no quote character follows it. -/
def StandsIn (value text : String) : Prop :=
  ∃ before after : String, text = before ++ literal value ++ after ∧ after.toList.head? ≠ some '\''

theorem StandsIn.append_left (h : StandsIn value text) (front : String) :
    StandsIn value (front ++ text) := by
  obtain ⟨before, after, rfl, hafter⟩ := h
  exact ⟨front ++ before, after, by simp only [String.append_assoc], hafter⟩

theorem StandsIn.append_right (h : StandsIn value text) {back : String}
    (hback : back.toList.head? ≠ some '\'') : StandsIn value (text ++ back) := by
  obtain ⟨before, after, rfl, hafter⟩ := h
  refine ⟨before, after ++ back, by simp only [String.append_assoc], ?_⟩
  rw [String.toList_append, List.head?_append]
  cases hhead : after.toList.head? with
  | none => simpa using hback
  | some c => simpa [hhead] using hafter

theorem standsIn_literal : StandsIn value (literal value) :=
  ⟨"", "", by simp, by simp⟩

/-- Each literal of several stands among them, with a comma or nothing after it. -/
theorem standsIn_literals (h : value ∈ values) : StandsIn value (literals values) := by
  induction values with
  | nil => cases h
  | cons v rest ih =>
    cases rest with
    | nil =>
      obtain rfl := List.mem_singleton.mp h
      simpa [literals] using standsIn_literal
    | cons w rest =>
      have hsplit : literals (v :: w :: rest) = literal v ++ (", " ++ literals (w :: rest)) := by
        simp only [literals, List.map_cons, String.intercalate_cons_cons, String.append_assoc]
      rw [hsplit]
      rcases List.mem_cons.mp h with rfl | hrest
      · exact standsIn_literal.append_right (by simp)
      · exact ((ih hrest).append_left _).append_left _

/-- A default of a textual type is taken as it is, whatever it is. -/
theorem defaultText_textual {type : ColumnType} {property : String}
    (h : type.isTextual = true) : d.defaultText property type raw = .ok (literal raw) := by
  cases type with
  | char _ | varchar _ | text | uuid | json | enum _ => rfl
  | _ => cases h

/-- A default of a textual type stands at the end of the declaration of its column. -/
theorem standsIn_declaration (htype : p.shape.type.isTextual = true)
    (hraw : p.shape.default = some raw) (h : d.declaration p enums = .ok text) :
    StandsIn raw text := by
  obtain ⟨type, -, h⟩ := Except.bind_ok.mp h
  obtain ⟨default, hdefault, h⟩ := Except.bind_ok.mp h
  simp only [defaultClause, hraw, defaultText_textual htype, Except.map_ok] at hdefault
  obtain ⟨_, hliteral, rfl⟩ := hdefault
  obtain rfl := Except.ok.inj hliteral
  rw [← Except.pure_ok.mp h]
  exact (standsIn_literal.append_left _).append_left _

theorem head?_nullability : (nullability .mysql p.shape).toList.head? ≠ some '\'' := by
  unfold nullability
  split
  · decide
  · split <;> decide

theorem head?_defaultClause :
    ((defaultClause d p).toOption.getD "").toList.head? ≠ some '\'' := by
  unfold defaultClause
  cases p.shape.default with
  | none => simp [Except.toOption]
  | some raw =>
    cases hvalue : d.defaultText p.name p.shape.type raw <;>
      simp [hvalue, Except.map, Except.toOption]

/-- Every value of an enum stands in the definition of a column of its type. -/
theorem standsIn_enumDefinition (h : value ∈ values) : StandsIn value (enumDefinition p values) :=
  (((((standsIn_literals h).append_left "ENUM(").append_right (by decide)).append_left
    _).append_right head?_nullability).append_right head?_defaultClause

/-- The texts that MySQL is given with the literal of a value in them. -/
inductive WritesLiteral (value : String) : String → Prop
  /-- The value is the default of a column. -/
  | default {p : Property} {enums : EnumScope} {text : String} :
      p.shape.type.isTextual = true → p.shape.default = some value →
        declaration .mysql p enums = .ok text → WritesLiteral value text
  /-- The value is one of the enum that is the type of a column. -/
  | enumValue {p : Property} {enums : EnumScope} {reference text : String} {s : Enumeration} :
      p.shape.type = .enum reference → enums reference = .ok s → value ∈ s.values →
        declaration .mysql p enums = .ok text → WritesLiteral value text
  /-- The value is one of an enum that has grown, and a column of its type is defined anew. -/
  | growth {s : Enumeration} {added : List String} {uses : List EnumUse} {statements : List Ddl}
      {statement : Ddl} :
      enumGrowth .mysql s added uses = .ok statements → statement ∈ statements →
        (∀ u ∈ uses, ∃ reference, u.property.shape.type = .enum reference) → value ∈ s.values →
          WritesLiteral value (statement.text .mysql)

theorem WritesLiteral.standsIn (h : WritesLiteral value text) : StandsIn value text := by
  cases h with
  | default htype hraw htext => exact standsIn_declaration htype hraw htext
  | enumValue htype hs hvalue htext =>
    obtain ⟨state, hstate, rfl⟩ := declaration_enum htype htext
    obtain rfl := Except.ok.inj (hs.symm.trans hstate)
    exact standsIn_enumDefinition hvalue
  | growth hgrowth hstatement huses hvalue =>
    obtain ⟨u, hu, hmodified⟩ := (Except.mem_of_mapM_ok hgrowth).mp hstatement
    obtain ⟨definition, hdefinition, rfl⟩ := Except.map_ok.mp hmodified
    obtain ⟨reference, htype⟩ := huses u hu
    obtain ⟨state, hstate, rfl⟩ := declaration_enum htype hdefinition
    rw [Enumeration.of_scope hstate]
    exact (standsIn_enumDefinition hvalue).append_left _

/-! ## Where literals end -/

/-- What MySQL reads where the literal of a value is written. -/
theorem scanEscaped_literal (hrest : rest.head? ≠ some '\'') :
    scanEscaped ((literal value).toList ++ rest) = some (read, rest) ↔
      escapesNoQuote value.toList = true ∧ read = unescaped value.toList := by
  have hquote : (literal value).toList ++ rest
      = '\'' :: (Text.Quoted.double '\'' value.toList ++ '\'' :: rest) := by
    simp [literal, Text.Quoted.quote]
  rw [hquote, scanEscaped]
  exact Text.Quoted.bodyEscaped_double hrest

/-- Wherever MySQL is given the literal of a value, a reader for which backslashes escape comes to
its end exactly if no quote character, and not the end of the value, comes right after a backslash
that is not escaped itself. A value without backslashes is read back. -/
theorem literal_ends_iff (h : WritesLiteral value text) :
    ∃ before after : String, text = before ++ literal value ++ after ∧
      after.toList.head? ≠ some '\'' ∧
      ∀ rest : List Char, rest.head? ≠ some '\'' →
        ((∃ read, scanEscaped ((literal value).toList ++ rest) = some (read, rest)) ↔
          escapesNoQuote value.toList = true) ∧
        ('\\' ∉ value.toList →
          scanEscaped ((literal value).toList ++ rest) = some (value.toList, rest)) := by
  obtain ⟨before, after, htext, hafter⟩ := h.standsIn
  refine ⟨before, after, htext, hafter, fun rest hrest => ⟨?_, fun hslash => ?_⟩⟩
  · simp [scanEscaped_literal hrest]
  · obtain ⟨hquotes, hunescaped⟩ := Text.Quoted.unescaped_of_notMem hslash
    exact (scanEscaped_literal hrest).mpr ⟨hquotes, hunescaped.symm⟩

/-- A note whose default is one backslash. -/
def backslashNote : Property := ⟨"note", ⟨.text, false, some "\\"⟩⟩

/-- The backslash takes the quote character that is meant to end the literal. -/
theorem literal_ends_iff_backslashNote :
    declaration .mysql backslashNote EnumScope.empty
        = .ok "\x60note\x60 TEXT NOT NULL DEFAULT '\\'" ∧
      ¬ ∃ read, scanEscaped ((literal "\\").toList ++ "\n)".toList)
        = some (read, "\n)".toList) := by
  have htext : declaration .mysql backslashNote EnumScope.empty
      = .ok "\x60note\x60 TEXT NOT NULL DEFAULT '\\'" := by rfl
  obtain ⟨-, -, -, -, hends⟩ := literal_ends_iff (.default rfl rfl htext)
  refine ⟨htext, fun hread => ?_⟩
  have hquotes := (hends _ (by decide)).1.mp hread
  exact absurd hquotes (by decide)

end Dialect

end SchemaEvolution
