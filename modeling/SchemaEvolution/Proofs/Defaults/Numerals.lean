import SchemaEvolution.Default.Literal
import SchemaEvolution.Proofs.Text.Runs

/-!
# Numbers as defaults

A default of a numeric column stands in a statement without quote characters, so what is accepted is
what a statement may be made to contain. It is a plain decimal numeral, over the decimal digits of
every script. Those numerals that a reader of SQL knows are written with the digits of ASCII; they
are exactly the accepted ones that are ASCII texts.
-/

namespace SchemaEvolution

namespace Default

open Text

/-! ## The grammar of numerals -/

/-- A sign, or none. -/
inductive Sign : List Char → Prop
  | absent : Sign []
  | plus : Sign ['+']
  | minus : Sign ['-']

/-- Some digits, perhaps none, of a class of digits. -/
def Digits (digit : Char → Bool) (ds : List Char) : Prop := ∀ c ∈ ds, digit c = true

/-- Digits with at most one point among them, and at least one digit. A point at the end may have
nothing after it. -/
inductive Mantissa (digit : Char → Bool) : List Char → Prop
  | whole {ds : List Char} : ds ≠ [] → Digits digit ds → Mantissa digit ds
  | pointed {ds fs : List Char} : ds ≠ [] → Digits digit ds → Digits digit fs →
      Mantissa digit (ds ++ '.' :: fs)
  | fraction {fs : List Char} : fs ≠ [] → Digits digit fs → Mantissa digit ('.' :: fs)

/-- An exponent, or none. -/
inductive Exponent (digit : Char → Bool) : List Char → Prop
  | absent : Exponent digit []
  | present {mark : Char} {sign ds : List Char} : mark = 'e' ∨ mark = 'E' → Sign sign → ds ≠ [] →
      Digits digit ds → Exponent digit (mark :: (sign ++ ds))

/-- A plain decimal numeral over a class of digits. -/
inductive PlainDecimal (digit : Char → Bool) : List Char → Prop
  | mk {sign mantissa exponent : List Char} : Sign sign → Mantissa digit mantissa →
      Exponent digit exponent → PlainDecimal digit (sign ++ (mantissa ++ exponent))

variable {cs r sign ds mantissa exponent : List Char} {c : Char} {digit digit' : Char → Bool}

/-! ## What is accepted -/

theorem not_sign_of_digit (h : isDecimalDigit c = true) : c ≠ '+' ∧ c ≠ '-' := by
  constructor <;> rintro rfl <;> revert h <;> decide

theorem exists_sign (cs : List Char) : ∃ sign, Sign sign ∧ cs = sign ++ dropSign cs := by
  unfold dropSign
  split
  · exact ⟨_, .plus, rfl⟩
  · exact ⟨_, .minus, rfl⟩
  · exact ⟨_, .absent, rfl⟩

theorem dropSign_append (hsign : Sign sign) (hplus : r.head? ≠ some '+')
    (hminus : r.head? ≠ some '-') : dropSign (sign ++ r) = r := by
  cases hsign with
  | absent =>
    cases r with
    | nil => rfl
    | cons c r =>
      have hc : c ≠ '+' := fun hc => hplus (congrArg some hc)
      have hc' : c ≠ '-' := fun hc => hminus (congrArg some hc)
      rw [List.nil_append, dropSign] <;> simp [hc, hc']
  | plus => rfl
  | minus => rfl

theorem isDigits_iff : isDigits ds = true ↔ ds ≠ [] ∧ Digits isDecimalDigit ds := by
  simp [isDigits, Digits]

theorem dropSign_digits (hsign : Sign sign) (hne : ds ≠ []) (hds : Digits isDecimalDigit ds) :
    dropSign (sign ++ ds) = ds := by
  obtain ⟨d, rest, rfl⟩ := List.exists_cons_of_ne_nil hne
  obtain ⟨hplus, hminus⟩ := not_sign_of_digit (hds d List.mem_cons_self)
  exact dropSign_append hsign (by simpa using hplus) (by simpa using hminus)

theorem isExponent_iff : isExponent cs = true ↔ Exponent isDecimalDigit cs := by
  cases cs with
  | nil => exact iff_of_true rfl .absent
  | cons mark r =>
    simp only [isExponent, Bool.and_eq_true, Bool.or_eq_true, beq_iff_eq]
    constructor
    · rintro ⟨hmark, hdigits⟩
      obtain ⟨sign, hsign, hr⟩ := exists_sign r
      obtain ⟨hne, hds⟩ := isDigits_iff.mp hdigits
      rw [hr]
      exact .present hmark hsign hne hds
    · rintro (_ | ⟨hmark, hsign, hne, hds⟩)
      rw [dropSign_digits hsign hne hds]
      exact ⟨hmark, isDigits_iff.mpr ⟨hne, hds⟩⟩

/-- An exponent begins with its mark, which is neither a digit nor a point. -/
theorem Exponent.head? (h : Exponent isDecimalDigit exponent) :
    exponent.head?.any isDecimalDigit = false ∧ exponent.head? ≠ some '.' := by
  cases h with
  | absent => simp
  | present hmark =>
    have hdigit : isDecimalDigit 'e' = false ∧ isDecimalDigit 'E' = false := by decide
    rcases hmark with rfl | rfl <;> simp [hdigit]

/-! What is read of a text depends on its first digits and on what comes after them. -/

theorem isUnsigned_whole (hne : ds ≠ []) (hds : Digits isDecimalDigit ds)
    (hr : r.head?.any isDecimalDigit = false) (hpoint : r.head? ≠ some '.') :
    isUnsigned (ds ++ r) = isExponent r := by
  rw [isUnsigned, takeWhile_run hds hr, dropWhile_run hds hr]
  split
  · exact absurd rfl hne
  · exact absurd rfl hne
  · exact absurd rfl hpoint
  · rfl

theorem isUnsigned_pointed (hne : ds ≠ []) (hds : Digits isDecimalDigit ds) :
    isUnsigned (ds ++ '.' :: r) = isExponent (r.dropWhile isDecimalDigit) := by
  have hdigit : isDecimalDigit '.' = false := by decide
  have hpoint : ('.' :: r).head?.any isDecimalDigit = false := hdigit
  rw [isUnsigned, takeWhile_run hds hpoint, dropWhile_run hds hpoint]
  split
  · exact absurd rfl hne
  · exact absurd rfl hne
  · next heq =>
    cases heq
    rfl
  · next hother _ => exact (hother r rfl).elim

theorem isUnsigned_fraction :
    isUnsigned ('.' :: r)
      = (!(r.takeWhile isDecimalDigit).isEmpty && isExponent (r.dropWhile isDecimalDigit)) := by
  have hpoint : isDecimalDigit '.' = false := by decide
  simp [isUnsigned, hpoint]

theorem isUnsigned_none (hr : r.head?.any isDecimalDigit = false) (hpoint : r.head? ≠ some '.') :
    isUnsigned r = false := by
  have hnone : Digits isDecimalDigit [] := by simp [Digits]
  have htake := takeWhile_run hnone hr
  have hdrop := dropWhile_run hnone hr
  rw [List.nil_append] at htake hdrop
  rw [isUnsigned, htake, hdrop]
  split
  · exact absurd rfl hpoint
  · rfl
  · contradiction
  · contradiction

theorem exists_mantissa (h : isUnsigned cs = true) :
    ∃ mantissa exponent, cs = mantissa ++ exponent ∧ Mantissa isDecimalDigit mantissa ∧
      Exponent isDecimalDigit exponent := by
  obtain ⟨ds, rest, rfl, hds, hrest⟩ := exists_run isDecimalDigit cs
  by_cases hpoint : rest.head? = some '.'
  · obtain ⟨r, rfl⟩ := List.head?_eq_some_iff.mp hpoint
    obtain ⟨fs, exponent, rfl, hfs, hexponent⟩ := exists_run isDecimalDigit r
    by_cases hne : ds = []
    · subst hne
      rw [List.nil_append, isUnsigned_fraction, takeWhile_run hfs hexponent,
        dropWhile_run hfs hexponent, Bool.and_eq_true, Bool.not_eq_true',
        List.isEmpty_eq_false_iff] at h
      exact ⟨'.' :: fs, exponent, rfl, .fraction h.1 hfs, isExponent_iff.mp h.2⟩
    · rw [isUnsigned_pointed hne hds, dropWhile_run hfs hexponent] at h
      exact ⟨ds ++ '.' :: fs, exponent, by simp, .pointed hne hds hfs, isExponent_iff.mp h⟩
  · by_cases hne : ds = []
    · subst hne
      rw [List.nil_append, isUnsigned_none hrest hpoint] at h
      cases h
    · rw [isUnsigned_whole hne hds hrest hpoint] at h
      exact ⟨ds, rest, rfl, .whole hne hds, isExponent_iff.mp h⟩

theorem isUnsigned_append (hmantissa : Mantissa isDecimalDigit mantissa)
    (hexponent : Exponent isDecimalDigit exponent) : isUnsigned (mantissa ++ exponent) = true := by
  obtain ⟨hdigit, hpoint⟩ := hexponent.head?
  have hread := isExponent_iff.mpr hexponent
  cases hmantissa with
  | whole hne hds => rw [isUnsigned_whole hne hds hdigit hpoint, hread]
  | pointed hne hds hfs =>
    rw [List.append_assoc, List.cons_append, isUnsigned_pointed hne hds, dropWhile_run hfs hdigit,
      hread]
  | fraction hne hfs =>
    rw [List.cons_append, isUnsigned_fraction, takeWhile_run hfs hdigit, dropWhile_run hfs hdigit,
      hread, List.isEmpty_eq_false_iff.mpr hne]
    rfl

/-- A mantissa begins with a digit or a point, and so with no sign. -/
theorem Mantissa.head? (h : Mantissa isDecimalDigit mantissa) :
    (mantissa ++ exponent).head? ≠ some '+' ∧ (mantissa ++ exponent).head? ≠ some '-' := by
  have hdigits : ∀ {ds r : List Char}, ds ≠ [] → Digits isDecimalDigit ds →
      (ds ++ r).head? ≠ some '+' ∧ (ds ++ r).head? ≠ some '-' := by
    intro ds r hne hds
    obtain ⟨d, rest, rfl⟩ := List.exists_cons_of_ne_nil hne
    simpa using not_sign_of_digit (hds d List.mem_cons_self)
  cases h with
  | whole hne hds => exact hdigits hne hds
  | pointed hne hds _ =>
    rw [List.append_assoc]
    exact hdigits hne hds
  | fraction => exact ⟨by simp, by simp⟩

theorem isNumeral_iff : isNumeral cs = true ↔ PlainDecimal isDecimalDigit cs := by
  rw [isNumeral]
  constructor
  · intro h
    obtain ⟨sign, hsign, hcs⟩ := exists_sign cs
    obtain ⟨mantissa, exponent, hunsigned, hmantissa, hexponent⟩ := exists_mantissa h
    rw [hcs, hunsigned]
    exact .mk hsign hmantissa hexponent
  · rintro ⟨hsign, hmantissa, hexponent⟩
    rw [dropSign_append hsign hmantissa.head?.1 hmantissa.head?.2]
    exact isUnsigned_append hmantissa hexponent

/-! ## Which characters are accepted -/

/-- The characters of a numeral over a class of digits. -/
def isNumeralChar (digit : Char → Bool) (c : Char) : Bool :=
  digit c || c ∈ ['+', '-', '.', 'e', 'E']

theorem isNumeralChar_of_digits (h : Digits digit ds) : ∀ c ∈ ds, isNumeralChar digit c = true :=
  fun c hc => by simp [isNumeralChar, h c hc]

theorem isNumeralChar_sign (h : Sign sign) : ∀ c ∈ sign, isNumeralChar digit c = true := by
  cases h <;> simp [isNumeralChar]

theorem PlainDecimal.isNumeralChar (h : PlainDecimal digit cs) :
    ∀ c ∈ cs, isNumeralChar digit c = true := by
  obtain ⟨hsign, hmantissa, hexponent⟩ := h
  simp only [List.forall_mem_append]
  refine ⟨isNumeralChar_sign hsign, ?_, ?_⟩
  · cases hmantissa with
    | whole _ hds => exact isNumeralChar_of_digits hds
    | pointed _ hds hfs =>
      rw [List.forall_mem_append, List.forall_mem_cons]
      exact ⟨isNumeralChar_of_digits hds, by simp [Default.isNumeralChar],
        isNumeralChar_of_digits hfs⟩
    | fraction _ hfs =>
      rw [List.forall_mem_cons]
      exact ⟨by simp [Default.isNumeralChar], isNumeralChar_of_digits hfs⟩
  · cases hexponent with
    | absent => simp
    | present hmark hsign _ hds =>
      rw [List.forall_mem_cons, List.forall_mem_append]
      refine ⟨?_, isNumeralChar_sign hsign, isNumeralChar_of_digits hds⟩
      rcases hmark with rfl | rfl <;> simp [Default.isNumeralChar]

/-- Whether a text is a numeral over a class of digits depends on its own digits only. -/
theorem PlainDecimal.mono (h : PlainDecimal digit cs)
    (hdigit : ∀ c ∈ cs, digit c = true → digit' c = true) : PlainDecimal digit' cs := by
  obtain ⟨hsign, hmantissa, hexponent⟩ := h
  simp only [List.forall_mem_append] at hdigit
  obtain ⟨-, hmantissa', hexponent'⟩ := hdigit
  refine .mk hsign ?_ ?_
  · cases hmantissa with
    | whole hne hds => exact .whole hne fun c hc => hmantissa' c hc (hds c hc)
    | pointed hne hds hfs =>
      rw [List.forall_mem_append, List.forall_mem_cons] at hmantissa'
      exact .pointed hne (fun c hc => hmantissa'.1 c hc (hds c hc))
        fun c hc => hmantissa'.2.2 c hc (hfs c hc)
    | fraction hne hfs =>
      rw [List.forall_mem_cons] at hmantissa'
      exact .fraction hne fun c hc => hmantissa'.2 c hc (hfs c hc)
  · cases hexponent with
    | absent => exact .absent
    | present hmark hsign hne hds =>
      rw [List.forall_mem_cons, List.forall_mem_append] at hexponent'
      exact .present hmark hsign hne fun c hc => hexponent'.2.2 c hc (hds c hc)

/-- The decimal digits of ASCII are `0` to `9`. -/
theorem isDigit_of_isDecimalDigit (h : isDecimalDigit c = true) (hascii : c.toNat < 128) :
    c.isDigit = true := by
  have hranges : ∀ r ∈ decimalDigitRanges, (r.first = 0x30 ∧ r.last = 0x39) ∨ 128 ≤ r.first := by
    decide
  rcases Bool.or_eq_true_iff.mp h with hdigit | hcovers
  · exact hdigit
  · obtain ⟨r, hr, hfirst, hlast⟩ := CharRange.covers_eq_true_iff.mp hcovers
    rcases hranges r hr with ⟨h0, h9⟩ | hbeyond
    · rw [h0] at hfirst
      rw [h9] at hlast
      exact Char.isDigit_iff_toNat.mpr ⟨hfirst, hlast⟩
    · omega

theorem toNat_of_isNumeralChar (h : isNumeralChar Char.isDigit c = true) : c.toNat < 128 := by
  rcases Bool.or_eq_true_iff.mp h with hdigit | hother
  · have hrange := (Char.isDigit_iff_toNat.mp hdigit).2
    exact Nat.lt_of_le_of_lt hrange (by decide)
  · have hall : ∀ c ∈ ['+', '-', '.', 'e', 'E'], c.toNat < 128 := by simp
    exact hall c (of_decide_eq_true hother)

/-- The numerals over the digits of ASCII are the numerals that are ASCII texts. -/
theorem plainDecimal_ascii_iff :
    PlainDecimal Char.isDigit cs ↔
      PlainDecimal isDecimalDigit cs ∧ ∀ c ∈ cs, c.toNat < 128 := by
  constructor
  · intro h
    exact ⟨h.mono fun c _ => isDecimalDigit_of_isDigit,
      fun c hc => toNat_of_isNumeralChar (h.isNumeralChar c hc)⟩
  · rintro ⟨h, hascii⟩
    exact h.mono fun c hc hdigit => isDigit_of_isDecimalDigit hdigit (hascii c hc)

end Default

namespace Dialect

open Default (PlainDecimal isNumeral isNumeralChar trimmed)
open Text (isDecimalDigit trim)

variable {d : Dialect} {property raw : String} {type : ColumnType}

/-- How a default of a numeric column is written. -/
theorem defaultText_numeric (h : type.isNumeric = true) :
    d.defaultText property type raw
      = if isNumeral (trimmed raw).toList then .ok (trimmed raw)
        else .error (.invalidDefault property raw .notNumber) := by
  cases type <;> simp [ColumnType.isNumeric] at h <;> simp [defaultText, ColumnType.isNumeric]

/-- A default of a numeric column is accepted exactly if it is a plain decimal numeral over the
decimal digits of all scripts, and it is written as it is, without the blanks around it; any other
text is refused as no number. The numerals over the digits of ASCII are the accepted ones that are
ASCII texts. -/
theorem numeric_defaults (h : type.isNumeric = true) :
    (∀ text, d.defaultText property type raw = .ok text ↔
        PlainDecimal isDecimalDigit (trim raw.toList) ∧ text = String.ofList (trim raw.toList)) ∧
      (¬ PlainDecimal isDecimalDigit (trim raw.toList) →
        d.defaultText property type raw = .error (.invalidDefault property raw .notNumber)) ∧
      (PlainDecimal isDecimalDigit (trim raw.toList) →
        ∀ c ∈ trim raw.toList, isNumeralChar isDecimalDigit c = true) ∧
      (PlainDecimal Char.isDigit (trim raw.toList) ↔
        PlainDecimal isDecimalDigit (trim raw.toList) ∧ ∀ c ∈ trim raw.toList, c.toNat < 128) := by
  have hread : isNumeral (trimmed raw).toList = true ↔
      PlainDecimal isDecimalDigit (trim raw.toList) := by
    rw [trimmed, String.toList_ofList, Default.isNumeral_iff]
  refine ⟨fun text => ?_, fun hnot => ?_, PlainDecimal.isNumeralChar,
    Default.plainDecimal_ascii_iff⟩
  · rw [defaultText_numeric h]
    by_cases hplain : PlainDecimal isDecimalDigit (trim raw.toList)
    · rw [if_pos (hread.mpr hplain), Except.ok.injEq, eq_comm]
      exact (and_iff_right hplain).symm
    · rw [if_neg (mt hread.mp hplain)]
      exact iff_of_false (fun hok => nomatch hok) fun hok => hplain hok.1
  · rw [defaultText_numeric h, if_neg (mt hread.mp hnot)]

/-- The digit three of the Arabic script, between blanks, is accepted as a number, though it is no
numeral over the digits of ASCII. -/
theorem numeric_defaults_arabicDigit :
    defaultText .postgres "n" .integer " ٣ " = .ok "٣" ∧
      PlainDecimal isDecimalDigit (trim " ٣ ".toList) ∧
      ¬ PlainDecimal Char.isDigit (trim " ٣ ".toList) := by
  have htrim : trim " ٣ ".toList = ['٣'] := by decide +kernel
  have hplain : PlainDecimal isDecimalDigit (trim " ٣ ".toList) := by
    have hthree : Default.Digits isDecimalDigit ['٣'] := by simp [Default.Digits]; decide
    rw [htrim]
    exact .mk .absent (.whole (List.cons_ne_nil _ _) hthree) .absent
  obtain ⟨hok, -, -, hascii⟩ :=
    @numeric_defaults .postgres "n" " ٣ " .integer rfl
  refine ⟨(hok "٣").mpr ⟨hplain, by rw [htrim]⟩, hplain, fun h => ?_⟩
  have hthree := (hascii.mp h).2 '٣' (by rw [htrim]; exact List.mem_singleton_self _)
  exact absurd hthree (by decide)

end Dialect

end SchemaEvolution
