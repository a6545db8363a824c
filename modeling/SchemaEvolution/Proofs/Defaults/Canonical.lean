import Mathlib.Algebra.Group.Nat.Defs
import SchemaEvolution.Default.Literal
import SchemaEvolution.Proofs.Defaults.Moments

/-!
# The canonical form of dates and times

The writer pads every field to two digits, and a year to four. What it writes is a text that the
grammar knows, and it denotes the value that was written (`dateText_write`, `clockText_write`,
`momentText_write`); this holds for all years that dates are kept for, and for the second 60. So
each value has one canonical form among the texts that denote it, and bringing a text into this
form changes neither whether it is accepted nor what it denotes.
-/

namespace SchemaEvolution

namespace Text.Decimal

theorem value_append (cs ds : List Char) :
    value (cs ++ ds) = ds.foldl (fun n c => 10 * n + digitValue c) (value cs) :=
  List.foldl_append

/-- Zeros at the front do not count. -/
theorem value_padded (width n : Nat) : value (padded width n) = n := by
  have hzeros : ∀ k, value (List.replicate k '0') = 0 := by
    intro k
    induction k with
    | zero => rfl
    | succ k ih => rw [List.replicate_succ', value_append, ih]; rfl
  rw [padded, value_append, hzeros]
  exact value_digits n

theorem isDigit_of_mem_padded {width n : Nat} : ∀ c ∈ padded width n, c.isDigit = true :=
  List.forall_mem_append.mpr
    ⟨fun _ hc => List.eq_of_mem_replicate hc ▸ rfl, isDigit_of_mem_digits n⟩

/-- A number below `10 ^ width` has `width` digits at most. -/
theorem length_digits_le {width n : Nat} (hwidth : 0 < width) (h : n < 10 ^ width) :
    (digits n).length ≤ width := by
  induction width generalizing n with
  | zero => omega
  | succ w ih =>
    rw [digits]
    split
    · simp
    · have hw : 0 < w := by
        rcases w with _ | w
        · omega
        · exact Nat.succ_pos w
      have hdiv : n / 10 < 10 ^ w := by rw [Nat.pow_succ] at h; omega
      simpa using ih hw hdiv

theorem length_padded {width n : Nat} (hwidth : 0 < width) (h : n < 10 ^ width) :
    (padded width n).length = width := by
  have := length_digits_le hwidth h
  simp only [padded, List.length_append, List.length_replicate]
  omega

end Text.Decimal

namespace Default

open Text

/-! ## Values of temporal columns -/

/-- What a default of a temporal column can denote. -/
inductive Temporal
  | date (d : Date)
  | clock (t : Clock)
  | moment (m : Date × Clock)

/-- The value in writing. -/
def Temporal.text : Temporal → List Char
  | date d => writeDate d
  | clock t => writeClock t
  | moment m => writeMoment m

/-- What a text denotes in a column of a type. -/
def Denotes (type : ColumnType) (cs : List Char) : Temporal → Prop
  | .date d => type = .date ∧ DateText cs d
  | .clock t => type = .time ∧ ClockText cs t
  | .moment m => (type = .dateTime ∨ type = .timestamp) ∧ MomentText cs m

/-- What the reader for a type makes of a text. -/
def temporal? (cs : List Char) : ColumnType → Option Temporal
  | .date => (date? cs).map .date
  | .time => (clock? cs).map .clock
  | .dateTime | .timestamp => (moment? cs).map .moment
  | _ => none

variable {cs ds : List Char} {n : Nat} {d : Date} {t : Clock} {m : Date × Clock}
  {type : ColumnType} {raw c : String} {v w : Temporal}

/-! ## Written values -/

theorem numberText_padded (width n : Nat) : NumberText (Decimal.padded width n) n where
  nonempty := by simp [Decimal.padded, Decimal.digits_ne_nil]
  digits := Decimal.isDigit_of_mem_padded
  value := Decimal.value_padded width n

theorem fieldText_padded (h : n < 100) : FieldText (Decimal.padded 2 n) n :=
  @FieldText.mk [] _ _ (by simp [Blanks]) (numberText_padded 2 n)
    (Decimal.length_padded (by decide) h).le

/-- Every year is read back, whether it is written with a sign or without. -/
theorem yearText_write (y : Int) : YearText (writeYear y) y := by
  have hnone : Blanks [] := by simp [Blanks]
  have hnumber := numberText_padded 4 y.natAbs
  rw [writeYear]
  split
  · next h =>
    have hlength : (Decimal.padded 4 y.natAbs).length = 4 :=
      Decimal.length_padded (by decide) (by omega)
    have hyear := YearText.plain hnone hnumber hlength.le
    rwa [Int.natAbs_of_nonneg h.1] at hyear
  · split
    · next h =>
      have hyear := YearText.negative hnone hnumber
      rwa [Int.ofNat_natAbs_of_nonpos (by omega), Int.neg_neg] at hyear
    · next h =>
      have hyear := YearText.positive hnone hnumber
      rwa [Int.natAbs_of_nonneg (by omega)] at hyear

/-- A date of the calendar has a month and a day of two digits. -/
theorem Date.valid_bounds (h : d.valid = true) : d.month < 100 ∧ d.day < 100 := by
  simp only [Date.valid, Bool.and_eq_true, decide_eq_true_eq] at h
  obtain ⟨⟨-, hfirst⟩, hlast⟩ := h
  have hdays : Date.daysInMonth d.year d.month ≤ 31 ∧
      (0 < Date.daysInMonth d.year d.month → d.month ≤ 12) := by
    unfold Date.daysInMonth
    split <;> (try split) <;> omega
  omega

theorem dateText_write (h : d.valid = true) : DateText (writeDate d) d := by
  obtain ⟨hmonth, hday⟩ := Date.valid_bounds h
  have hdate := DateText.mk (yearText_write d.year) (fieldText_padded hmonth)
    (fieldText_padded hday) h
  rwa [writeDate, List.append_assoc, List.cons_append]

theorem clockText_write (h : t.valid = true) : ClockText (writeClock t) t := by
  have hbounds : t.hour < 24 ∧ t.minute < 60 ∧ t.second ≤ 60 := by
    simpa [Clock.valid, and_assoc] using h
  have hclock := ClockText.mk (fieldText_padded (n := t.hour) (by omega))
    (fieldText_padded (n := t.minute) (by omega)) (fieldText_padded (n := t.second) (by omega)) h
  rwa [writeClock, List.append_assoc, List.cons_append]

theorem momentText_write (hdate : m.1.valid = true) (hclock : m.2.valid = true) :
    MomentText (writeMoment m) m := by
  refine MomentText.spaced (dateText_write hdate) ?_ (fun h => nomatch h)
  have hblank : trimStart (' ' :: writeClock m.2) = trimStart (writeClock m.2) := rfl
  rw [← clockText_trimStart, hblank, clockText_trimStart]
  exact clockText_write hclock

/-! ## Trimming -/

theorem trim_self (hfirst : cs.head?.any isBlank = false)
    (hlast : cs.getLast?.any isBlank = false) : trim cs = cs := by
  have hreverse : cs.reverse.head?.any isBlank = false := by rwa [List.head?_reverse]
  rw [trim, trimEnd, trimStart_self hfirst, trimStart_self hreverse, List.reverse_reverse]

/-- Digits at the end are no blanks. -/
theorem NumberText.getLast? (h : NumberText ds n) (hend : ds <:+ cs) :
    cs.getLast?.any isBlank = false := by
  obtain ⟨front, rfl⟩ := hend
  rw [List.getLast?_append, List.getLast?_eq_some_getLast h.nonempty, Option.some_or]
  exact not_blank_of_isDigit (h.digits _ (List.getLast_mem h.nonempty))

theorem head?_writeYear (y : Int) : (writeYear y ++ cs).head?.any isBlank = false := by
  rw [writeYear]
  split
  · exact (numberText_padded 4 y.natAbs).head?
  · split <;> rfl

theorem trim_writeDate (d : Date) : trim (writeDate d) = writeDate d := by
  refine trim_self ?_ ?_
  · rw [writeDate, List.append_assoc]
    exact head?_writeYear d.year
  · exact (numberText_padded 2 d.day).getLast?
      ((List.suffix_cons _ _).trans (List.suffix_append _ _))

/-- The seconds stand at the end of a time of day. -/
theorem second_suffix_writeClock (t : Clock) : Decimal.padded 2 t.second <:+ writeClock t :=
  (List.suffix_cons _ _).trans (List.suffix_append _ _)

theorem trim_writeClock (t : Clock) : trim (writeClock t) = writeClock t := by
  refine trim_self ?_ ?_
  · rw [writeClock, List.append_assoc]
    exact (numberText_padded 2 t.hour).head?
  · exact (numberText_padded 2 t.second).getLast? (second_suffix_writeClock t)

theorem trim_writeMoment (m : Date × Clock) : trim (writeMoment m) = writeMoment m := by
  refine trim_self ?_ ?_
  · rw [writeMoment, writeDate, List.append_assoc, List.append_assoc]
    exact head?_writeYear m.1.year
  · exact (numberText_padded 2 m.2.second).getLast? ((second_suffix_writeClock m.2).trans
      ((List.suffix_cons _ _).trans (List.suffix_append _ _)))

/-! ## The canonical form -/

theorem temporal?_iff : temporal? cs type = some v ↔ Denotes type cs v := by
  cases type <;> cases v <;>
    simp [temporal?, Denotes, date?_iff, clock?_iff, moment?_iff]

/-- A text denotes one value at most. -/
theorem Denotes.unique (hv : Denotes type cs v) (hw : Denotes type cs w) : v = w :=
  Option.some.inj ((temporal?_iff.mpr hv).symm.trans (temporal?_iff.mpr hw))

theorem DateText.valid (h : DateText cs d) : d.valid = true := by
  obtain ⟨-, -, -, hvalid⟩ := h
  exact hvalid

theorem ClockText.valid (h : ClockText cs t) : t.valid = true := by
  obtain ⟨-, -, -, hvalid⟩ := h
  exact hvalid

theorem MomentText.write (h : MomentText cs m) : MomentText (writeMoment m) m := by
  obtain ⟨hdate, hclock⟩ | ⟨hdate, hclock, -⟩ := h <;>
    exact momentText_write hdate.valid hclock.valid

/-- A value that a text denotes is denoted by its own writing, which has no blanks at its ends. -/
theorem Denotes.text (h : Denotes type cs v) : Denotes type (trim v.text) v := by
  cases v with
  | date d => exact ⟨h.1, trim_writeDate d ▸ dateText_write h.2.valid⟩
  | clock t => exact ⟨h.1, trim_writeClock t ▸ clockText_write h.2.valid⟩
  | moment m => exact ⟨h.1, trim_writeMoment m ▸ h.2.write⟩

/-- The canonical form of a text is the writing of the value that it denotes. -/
theorem canonical_iff (htype : type.isTemporal = true) : canonical type raw = some c ↔
    ∃ v, Denotes type (trim raw.toList) v ∧ c = String.ofList v.text := by
  have hread : canonical type raw
      = (temporal? (trim raw.toList) type).map fun v => String.ofList v.text := by
    cases type with
    | date | time | dateTime | timestamp =>
      simp only [canonical, temporal?, Option.map_map, Function.comp_def, Temporal.text]
    | _ => cases htype
  rw [hread, Option.map_eq_some_iff]
  exact exists_congr fun v => and_congr temporal?_iff eq_comm

/-- A text is brought into canonical form exactly if it denotes a date or time, apart from blanks at
its ends. The canonical form is the writing of that value; it is its own canonical form, and it
denotes the value that the text denotes, and no other. -/
theorem canonical_denotes (htype : type.isTemporal = true) :
    (∀ v, Denotes type (trim raw.toList) v → canonical type raw = some (String.ofList v.text)) ∧
      ∀ c, canonical type raw = some c → canonical type c = some c ∧
        ∃ v, (∀ w, Denotes type (trim raw.toList) w ↔ w = v) ∧
          ∀ w, Denotes type (trim c.toList) w ↔ w = v := by
  refine ⟨fun v hv => (canonical_iff htype).mpr ⟨v, hv, rfl⟩, fun c hc => ?_⟩
  obtain ⟨v, hraw, rfl⟩ := (canonical_iff htype).mp hc
  have hform : Denotes type (trim (String.ofList v.text).toList) v := by
    rw [String.toList_ofList]
    exact hraw.text
  refine ⟨(canonical_iff htype).mpr ⟨v, hform, rfl⟩, v, fun w => ?_, fun w => ?_⟩
  · exact ⟨fun hw => hw.unique hraw, fun hw => hw ▸ hraw⟩
  · exact ⟨fun hw => hw.unique hform, fun hw => hw ▸ hform⟩

/-- A leap day in a year with a sign, fields of one digit, a `T` with a blank after it, and the
second 60. -/
theorem canonical_denotes_leapSecond :
    canonical .dateTime " +2016-2-29T 7:5:60 " = some "2016-02-29 07:05:60" ∧
      canonical .dateTime "2016-02-29 07:05:60" = some "2016-02-29 07:05:60" ∧
      ∃ v, (∀ w, Denotes .dateTime (trim " +2016-2-29T 7:5:60 ".toList) w ↔ w = v) ∧
        ∀ w, Denotes .dateTime (trim "2016-02-29 07:05:60".toList) w ↔ w = v := by
  have hform : canonical .dateTime " +2016-2-29T 7:5:60 " = some "2016-02-29 07:05:60" := by
    decide +kernel
  exact ⟨hform, (canonical_denotes rfl).2 _ hform⟩

end Default

end SchemaEvolution
