import SchemaEvolution.Json.Printer
import SchemaEvolution.Proofs.Json.Steps

/-!
# Strings are read back

Between its quotation marks a string is read as the characters that it was written for: each of
them, escaped or not, is taken for itself. No surrogate occurs, since only control characters are
written as UTF-16 units.
-/

namespace SchemaEvolution.Json

variable {frames : List Frame} {isKey : Bool}

/-! ## One character -/

/-- The part of a string that holds these characters, and maybe begins an escape. -/
def StringPart.holding (cs : List Char) (escape : Escape) : StringPart :=
  ⟨cs.reverse, true, none, escape⟩

theorem StringPart.value?_holding (s : String) : (holding s.toList .none).value? = some s := by
  simp [holding, value?]

theorem hexValue?_hexDigit {d : Nat} (hd : d < 16) : hexValue? (hexDigit d) = some d := by
  have hall : ∀ e ∈ List.range 16, hexValue? (hexDigit e) = some e := by decide
  exact hall d (List.mem_range.mpr hd)

/-- What follows a backslash stands for one character. -/
theorem steps_escaped (cs : List Char) {letter c : Char} (hletter : letter ≠ 'u')
    (hc : unescape? letter = some c) :
    steps ⟨frames, .string isKey (.holding cs .none)⟩ ['\\', letter]
      = .ok ⟨frames, .string isKey (.holding (cs ++ [c]) .none)⟩ := by
  have hbackslash : step ⟨frames, .string isKey (.holding cs .none)⟩ '\\'
      = .ok ⟨frames, .string isKey (.holding cs .backslash)⟩ := rfl
  rw [steps_cons hbackslash]
  refine steps_singleton ?_
  simp only [step, stringStep, StringPart.holding, if_neg hletter, hc]
  simp [StringPart.push]

/-- A control character is written as a UTF-16 unit, which denotes it. -/
theorem steps_unit (cs : List Char) {c : Char} (hc : c.toNat < 0x20) :
    steps ⟨frames, .string isKey (.holding cs .none)⟩
        ['\\', 'u', '0', '0', hexDigit (c.toNat / 16), hexDigit (c.toNat % 16)]
      = .ok ⟨frames, .string isKey (.holding (cs ++ [c]) .none)⟩ := by
  -- a control character has two hexadecimal digits, so the first two of the four are zeros
  have hu : steps ⟨frames, .string isKey (.holding cs .none)⟩ ['\\', 'u', '0', '0']
      = .ok ⟨frames, .string isKey (.holding cs (.unit 2 0))⟩ := rfl
  have hthird : step ⟨frames, .string isKey (.holding cs (.unit 2 0))⟩ (hexDigit (c.toNat / 16))
      = .ok ⟨frames, .string isKey (.holding cs (.unit 3 (c.toNat / 16)))⟩ := by
    simp [StringPart.holding, step, stringStep, hexValue?_hexDigit (d := c.toNat / 16) (by omega)]
  have hunit : 16 * (c.toNat / 16) + c.toNat % 16 = c.toNat := Nat.div_add_mod _ _
  have hlow : ¬ 0xDC00 ≤ c.toNat := by omega
  have hhigh : ¬ 0xD800 ≤ c.toNat := by omega
  have hfourth : step ⟨frames, .string isKey (.holding cs (.unit 3 (c.toNat / 16)))⟩
      (hexDigit (c.toNat % 16)) = .ok ⟨frames, .string isKey (.holding (cs ++ [c]) .none)⟩ := by
    simp [StringPart.holding, step, stringStep, hexValue?_hexDigit (d := c.toNat % 16) (by omega),
      hunit, StringPart.pushUnit, hlow, hhigh, StringPart.push]
  show steps _ (['\\', 'u', '0', '0'] ++ [_, _]) = _
  rw [steps_append hu, steps_cons hthird]
  exact steps_singleton hfourth

/-- A character of a string is read as it was written. -/
theorem steps_escape (cs : List Char) (c : Char) :
    steps ⟨frames, .string isKey (.holding cs .none)⟩ (escape c)
      = .ok ⟨frames, .string isKey (.holding (cs ++ [c]) .none)⟩ := by
  unfold escape
  split
  -- the characters that have a letter of their own
  any_goals exact steps_escaped cs (by decide) rfl
  next hquote hbackslash _ _ _ _ _ =>
    split
    · next hcontrol => exact steps_unit cs hcontrol
    · next hplain =>
      refine steps_singleton ?_
      have hq : c ≠ '"' := hquote
      have hb : c ≠ '\\' := hbackslash
      simp only [step, stringStep, StringPart.holding, if_neg hq, if_neg hb, if_neg hplain]
      simp [StringPart.push]

/-! ## A whole string -/

theorem steps_escapes (cs ds : List Char) :
    steps ⟨frames, .string isKey (.holding cs .none)⟩ (ds.flatMap escape)
      = .ok ⟨frames, .string isKey (.holding (cs ++ ds) .none)⟩ := by
  induction ds generalizing cs with
  | nil => simp
  | cons d ds ih =>
    rw [List.flatMap_cons, steps_append (steps_escape cs d), ih, List.append_assoc,
      List.singleton_append]

/-- Where a string may begin, it is read up to its end. -/
theorem steps_quoted {s t : State} (text : String)
    (hopen : step s '"' = .ok ⟨frames, .string isKey .empty⟩)
    (hend : endString frames isKey (.holding text.toList .none) = .ok t) :
    steps s (quoted text) = .ok t := by
  have hchars : steps ⟨frames, .string isKey .empty⟩ (text.toList.flatMap escape)
      = .ok ⟨frames, .string isKey (.holding text.toList .none)⟩ := steps_escapes [] text.toList
  rw [quoted, List.cons_append, steps_cons hopen, steps_append hchars]
  exact steps_singleton hend

/-- A string is read as it was written. -/
theorem steps_string (text : String) :
    steps ⟨frames, .value⟩ (quoted text) = .ok ⟨frames, .done (.string text)⟩ := by
  refine steps_quoted text rfl ?_
  simp only [endString, StringPart.value, StringPart.value?_holding, Bool.false_eq_true, if_false]

/-- A key is read as it was written, and waits for its colon. -/
theorem steps_key {members : List (String × Json)} {point : Point} (key : String)
    (hpoint : point = .objectStart ∨ point = .key) :
    steps ⟨.object members false :: frames, point⟩ (quoted key)
      = .ok ⟨.member members (some key) :: frames, .colon⟩ := by
  have hopen : step ⟨.object members false :: frames, point⟩ '"'
      = .ok ⟨.object members false :: frames, .string true .empty⟩ := by
    rcases hpoint with rfl | rfl <;> rfl
  refine steps_quoted key hopen ?_
  simp [endString, StringPart.value?_holding]

end SchemaEvolution.Json
