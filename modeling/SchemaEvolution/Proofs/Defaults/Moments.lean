import SchemaEvolution.Default.Calendar
import SchemaEvolution.Proofs.Text.Runs

/-!
# How dates and times may be written

A text denotes a date if it consists of a year, a month and a day with hyphens between them, and the
calendar has that day; a time of day is said alike, with colons. Blanks may stand before every
number, and numbers below a hundred may have one digit or two. Between a date and a time stands a
`T`, or blanks, or nothing, if it is clear where the date ends.

The readers know this grammar and no other (`date?_iff`, `clock?_iff`, `moment?_iff`). A reader
takes as many digits as it may; so it stops before a digit only where a field has two digits.
-/

namespace SchemaEvolution.Default

open Text

/-! ## The grammar -/

/-- Blanks, perhaps none. -/
def Blanks (bs : List Char) : Prop := ∀ c ∈ bs, isBlank c = true

/-- A run of digits, and the number that it denotes. -/
structure NumberText (ds : List Char) (n : Nat) : Prop where
  nonempty : ds ≠ []
  digits : ∀ c ∈ ds, c.isDigit = true
  value : Decimal.value ds = n

/-- A month, a day, an hour, a minute or a second. -/
inductive FieldText : List Char → Nat → Prop
  | mk {bs ds : List Char} {n : Nat} : Blanks bs → NumberText ds n → ds.length ≤ 2 →
      FieldText (bs ++ ds) n

/-- A year has up to four digits; with a sign it may have more. -/
inductive YearText : List Char → Int → Prop
  | plain {bs ds : List Char} {n : Nat} : Blanks bs → NumberText ds n → ds.length ≤ 4 →
      YearText (bs ++ ds) n
  | positive {bs ds : List Char} {n : Nat} : Blanks bs → NumberText ds n →
      YearText (bs ++ '+' :: ds) n
  | negative {bs ds : List Char} {n : Nat} : Blanks bs → NumberText ds n →
      YearText (bs ++ '-' :: ds) (-(n : Int))

/-- A date of the calendar. -/
inductive DateText : List Char → Date → Prop
  | mk {year month day : List Char} {d : Date} : YearText year d.year → FieldText month d.month →
      FieldText day d.day → d.valid = true → DateText (year ++ '-' :: (month ++ '-' :: day)) d

/-- A time of day. -/
inductive ClockText : List Char → Clock → Prop
  | mk {hour minute second : List Char} {c : Clock} : FieldText hour c.hour →
      FieldText minute c.minute → FieldText second c.second → c.valid = true →
        ClockText (hour ++ ':' :: (minute ++ ':' :: second)) c

/-- Whether at least two digits stand at the end of a text. -/
def EndsInTwoDigits (cs : List Char) : Prop := 2 ≤ (cs.reverse.takeWhile Char.isDigit).length

/-- Whether a digit stands at the front of a text. -/
def startsWithDigit (cs : List Char) : Bool := cs.head?.any Char.isDigit

/-- A date and a time of day. Where nothing stands between them, the day has two digits. -/
inductive MomentText : List Char → Date × Clock → Prop
  | marked {date clock : List Char} {d : Date} {c : Clock} : DateText date d → ClockText clock c →
      MomentText (date ++ 'T' :: clock) (d, c)
  | spaced {date clock : List Char} {d : Date} {c : Clock} : DateText date d → ClockText clock c →
      (startsWithDigit clock = true → EndsInTwoDigits date) → MomentText (date ++ clock) (d, c)

variable {cs bs ds fs ys rest : List Char} {n limit : Nat} {c : Char} {y : Int} {d : Date}
  {t : Clock} {m : Date × Clock}

/-! ## Numbers -/

theorem not_blank_of_isDigit (h : c.isDigit = true) : isBlank c = false := by
  have hranges : ∀ r ∈ blankRanges, r.last < 0x30 ∨ 0x39 < r.first := by decide
  obtain ⟨h0, h9⟩ := Char.isDigit_iff_toNat.mp h
  have hzero : '0'.toNat = 0x30 := rfl
  have hnine : '9'.toNat = 0x39 := rfl
  rw [isBlank, ← Bool.not_eq_true, CharRange.covers_eq_true_iff]
  rintro ⟨r, hr, hfirst, hlast⟩
  rcases hranges r hr with hbefore | hafter <;> omega

theorem not_digit_of_isBlank (h : isBlank c = true) : c.isDigit = false := by
  cases hdigit : c.isDigit with
  | false => rfl
  | true => exact absurd h (by simp [not_blank_of_isDigit hdigit])

/-- Digits at the front are no blanks. -/
theorem NumberText.head? (h : NumberText ds n) : (ds ++ rest).head?.any isBlank = false := by
  obtain ⟨c, ds, rfl⟩ := List.exists_cons_of_ne_nil h.nonempty
  exact not_blank_of_isDigit (h.digits c List.mem_cons_self)

/-- Trimming stops at what is no blank. -/
theorem trimStart_blanks (hbs : Blanks bs) (hrest : rest.head?.any isBlank = false) :
    trimStart (bs ++ rest) = rest := dropWhile_run hbs hrest

theorem trimStart_self (hrest : rest.head?.any isBlank = false) : trimStart rest = rest := by
  have hnone : Blanks [] := by simp [Blanks]
  exact trimStart_blanks hnone hrest

theorem exists_trimStart (cs : List Char) :
    ∃ bs, Blanks bs ∧ cs = bs ++ trimStart cs ∧ (trimStart cs).head?.any isBlank = false := by
  obtain ⟨bs, rest, rfl, hbs, hrest⟩ := exists_run isBlank cs
  rw [trimStart_blanks hbs hrest]
  exact ⟨bs, hbs, rfl, hrest⟩

/-- As many digits as there may be are taken. -/
theorem readNumber_append (h : NumberText ds n) (hlimit : ds.length ≤ limit)
    (hrest : startsWithDigit rest = true → ds.length = limit) :
    readNumber limit (ds ++ rest) = some (n, rest) := by
  have htail : (rest.take (limit - ds.length)).head?.any Char.isDigit = false := by
    rw [List.head?_take]
    split
    · rfl
    · next hroom => exact Bool.eq_false_iff.mpr fun hdigit => hroom (by rw [hrest hdigit]; omega)
  have htaken : ((ds ++ rest).take limit).takeWhile Char.isDigit = ds := by
    rw [List.take_append, List.take_of_length_le hlimit, takeWhile_run h.digits htail]
  rw [readNumber]
  simp [htaken, h.nonempty, h.value]

theorem readNumber_iff : readNumber limit cs = some (n, rest) ↔
    ∃ ds, cs = ds ++ rest ∧ NumberText ds n ∧ ds.length ≤ limit ∧
      (startsWithDigit rest = true → ds.length = limit) := by
  constructor
  · intro h
    obtain ⟨run, tail, hsplit, hrun, htail⟩ := exists_run Char.isDigit (cs.take limit)
    have hcs : cs = run ++ (tail ++ cs.drop limit) := by
      rw [← List.append_assoc, ← hsplit, List.take_append_drop]
    have hlength : run.length + tail.length = min limit cs.length := by
      rw [← List.length_append, ← hsplit, List.length_take]
    simp only [readNumber, hsplit, takeWhile_run hrun htail] at h
    split at h
    · cases h
    · next hne =>
      obtain ⟨hvalue, hdrop⟩ := Prod.mk.inj (Option.some.inj h)
      have hrest : rest = tail ++ cs.drop limit := by
        rw [hcs, List.drop_left] at hdrop
        exact hdrop.symm
      refine ⟨run, by rw [hrest, ← hcs], ⟨by simpa using hne, hrun, hvalue⟩, by omega, ?_⟩
      intro hdigit
      -- The digit that comes next is beyond the limit: within it, it would be in the run.
      cases tail with
      | cons c tail =>
        have hc : c.isDigit = false := htail
        simp [hrest, startsWithDigit, hc] at hdigit
      | nil =>
        have hmore : cs.drop limit ≠ [] := by
          rintro hnil
          simp [hrest, hnil, startsWithDigit] at hdigit
        have := List.length_drop ▸ List.length_pos_iff.mpr hmore
        simp only [List.length_nil] at hlength
        omega
  · rintro ⟨ds, rfl, hds, hlimit, hrest⟩
    exact readNumber_append hds hlimit hrest

theorem readChar_iff {u : Unit} : readChar c cs = some (u, rest) ↔ cs = c :: rest := by
  cases cs with
  | nil => simp [readChar]
  | cons d r =>
    simp only [readChar, Option.ite_none_right_eq_some, Option.some.injEq, Prod.mk.injEq, true_and,
      List.cons.injEq]
    exact and_congr_left fun _ => eq_comm

/-! ## Fields and years -/

/-- What ends in no digit is followed by all the digits at the end. -/
theorem endsInTwoDigits_append (hfront : fs.reverse.head?.any Char.isDigit = false) :
    EndsInTwoDigits (fs ++ cs) ↔ EndsInTwoDigits cs := by
  rw [EndsInTwoDigits, EndsInTwoDigits, List.reverse_append, takeWhile_append hfront]

theorem Blanks.reverse_head? (h : Blanks bs) : bs.reverse.head?.any Char.isDigit = false := by
  cases hlast : bs.reverse.head? with
  | none => rfl
  | some c => exact not_digit_of_isBlank (h c (List.mem_reverse.mp (List.mem_of_mem_head? hlast)))

theorem endsInTwoDigits_field (hbs : Blanks bs) (hds : NumberText ds n) :
    EndsInTwoDigits (bs ++ ds) ↔ 2 ≤ ds.length := by
  have hrun : ds.reverse.takeWhile Char.isDigit = ds.reverse :=
    List.takeWhile_eq_self_iff.mpr fun c hc => hds.digits c (List.mem_reverse.mp hc)
  rw [endsInTwoDigits_append hbs.reverse_head?, EndsInTwoDigits, hrun, List.length_reverse]

theorem endsInTwoDigits_mark (hc : c.isDigit = false) :
    EndsInTwoDigits (fs ++ c :: cs) ↔ EndsInTwoDigits cs := by
  rw [← List.singleton_append, ← List.append_assoc, endsInTwoDigits_append (by simp [hc])]

theorem readField_iff : readField cs = some (n, rest) ↔
    ∃ fs, cs = fs ++ rest ∧ FieldText fs n ∧
      (startsWithDigit rest = true → EndsInTwoDigits fs) := by
  rw [readField]
  constructor
  · intro h
    obtain ⟨bs, hbs, hcs, -⟩ := exists_trimStart cs
    obtain ⟨ds, hds, hnumber, hlength, hrest⟩ := readNumber_iff.mp h
    refine ⟨bs ++ ds, by rw [hcs, hds, List.append_assoc], .mk hbs hnumber hlength, ?_⟩
    exact fun hdigit => (endsInTwoDigits_field hbs hnumber).mpr (hrest hdigit).ge
  · rintro ⟨fs, rfl, ⟨hbs, hnumber, hlength⟩, hrest⟩
    rw [List.append_assoc, trimStart_blanks hbs hnumber.head?]
    refine readNumber_append hnumber hlength fun hdigit => ?_
    exact le_antisymm hlength ((endsInTwoDigits_field hbs hnumber).mp (hrest hdigit))

theorem readYear_append (h : YearText ys y) (hrest : startsWithDigit rest = false) :
    readYear (ys ++ rest) = some (y, rest) := by
  have hstop : ∀ {k l : Nat}, startsWithDigit rest = true → k = l := by simp [hrest]
  cases h with
  | @plain bs ds n hbs hds hlength =>
    have hread : readNumber 4 (ds ++ rest) = some (n, rest) := readNumber_append hds hlength hstop
    rw [List.append_assoc, readYear, trimStart_blanks hbs hds.head?]
    obtain ⟨c, tail, rfl⟩ := List.exists_cons_of_ne_nil hds.nonempty
    have hc := hds.digits c List.mem_cons_self
    split
    · next heq =>
      obtain ⟨rfl, -⟩ := List.cons.inj heq
      exact absurd hc (by decide)
    · next heq =>
      obtain ⟨rfl, -⟩ := List.cons.inj heq
      exact absurd hc (by decide)
    · rw [hread, Option.map_some]
  | @positive bs ds n hbs hds =>
    have hread : readNumber (ds ++ rest).length (ds ++ rest) = some (n, rest) :=
      readNumber_append hds (by simp) hstop
    rw [List.append_assoc, List.cons_append, readYear, trimStart_blanks hbs rfl]
    simp only [hread, Option.map_some]
  | @negative bs ds n hbs hds =>
    have hread : readNumber (ds ++ rest).length (ds ++ rest) = some (n, rest) :=
      readNumber_append hds (by simp) hstop
    rw [List.append_assoc, List.cons_append, readYear, trimStart_blanks hbs rfl]
    simp only [hread, Option.map_some]

theorem YearText.of_readYear (h : readYear cs = some (y, rest)) :
    ∃ ys, cs = ys ++ rest ∧ YearText ys y := by
  obtain ⟨bs, hbs, hcs, -⟩ := exists_trimStart cs
  rw [readYear] at h
  split at h <;> rename_i hsplit
  all_goals
    simp only [Option.map_eq_some_iff, Prod.exists, Prod.mk.injEq] at h
    obtain ⟨n, rest', hread, rfl, rfl⟩ := h
    obtain ⟨ds, hds, hnumber, hlength, -⟩ := readNumber_iff.mp hread
  · exact ⟨bs ++ '-' :: ds, by rw [hcs, hsplit, hds]; simp, .negative hbs hnumber⟩
  · exact ⟨bs ++ '+' :: ds, by rw [hcs, hsplit, hds]; simp, .positive hbs hnumber⟩
  · exact ⟨bs ++ ds, by rw [hcs, hds, List.append_assoc], .plain hbs hnumber hlength⟩

/-! ## Dates and times of day -/

theorem readDate_iff : readDate cs = some (d, rest) ↔
    ∃ ds, cs = ds ++ rest ∧ DateText ds d ∧ (startsWithDigit rest = true → EndsInTwoDigits ds) := by
  constructor
  · intro h
    simp only [readDate, Option.bind_eq_bind, Option.bind_eq_some_iff, Prod.exists,
      readChar_iff, readField_iff] at h
    obtain ⟨_, _, hread, _, _, rfl, _, _, ⟨month, rfl, hmonth, -⟩, _, _, rfl, _, _,
      ⟨day, rfl, hday, hrest⟩, h⟩ := h
    obtain ⟨year, rfl, hyear⟩ := YearText.of_readYear hread
    split at h
    · next hvalid =>
      obtain ⟨rfl, rfl⟩ := Prod.mk.inj (Option.some.inj h)
      refine ⟨_, by simp, .mk hyear hmonth hday hvalid, fun hdigit => ?_⟩
      rw [endsInTwoDigits_mark (by decide), endsInTwoDigits_mark (by decide)]
      exact hrest hdigit
    · cases h
  · rintro ⟨_, rfl, @⟨year, month, day, _, hyear, hmonth, hday, hvalid⟩, hrest⟩
    rw [endsInTwoDigits_mark (by decide), endsInTwoDigits_mark (by decide)] at hrest
    have hreadYear : readYear (year ++ '-' :: (month ++ '-' :: (day ++ rest)))
        = some (d.year, '-' :: (month ++ '-' :: (day ++ rest))) := readYear_append hyear rfl
    have hreadMonth : readField (month ++ '-' :: (day ++ rest))
        = some (d.month, '-' :: (day ++ rest)) :=
      readField_iff.mpr ⟨month, rfl, hmonth, by simp [startsWithDigit]⟩
    have hreadDay : readField (day ++ rest) = some (d.day, rest) :=
      readField_iff.mpr ⟨day, rfl, hday, hrest⟩
    simp [readDate, hreadYear, hreadMonth, hreadDay, readChar, hvalid]

theorem readClock_iff : readClock cs = some (t, rest) ↔
    ∃ ts, cs = ts ++ rest ∧ ClockText ts t ∧
      (startsWithDigit rest = true → EndsInTwoDigits ts) := by
  constructor
  · intro h
    simp only [readClock, Option.bind_eq_bind, Option.bind_eq_some_iff, Prod.exists,
      readChar_iff, readField_iff] at h
    obtain ⟨_, _, ⟨hour, rfl, hhour, -⟩, _, _, rfl, _, _, ⟨minute, rfl, hminute, -⟩, _, _, rfl,
      _, _, ⟨second, rfl, hsecond, hrest⟩, h⟩ := h
    split at h
    · next hvalid =>
      obtain ⟨rfl, rfl⟩ := Prod.mk.inj (Option.some.inj h)
      refine ⟨_, by simp, .mk hhour hminute hsecond hvalid, fun hdigit => ?_⟩
      rw [endsInTwoDigits_mark (by decide), endsInTwoDigits_mark (by decide)]
      exact hrest hdigit
    · cases h
  · rintro ⟨_, rfl, @⟨hour, minute, second, _, hhour, hminute, hsecond, hvalid⟩, hrest⟩
    rw [endsInTwoDigits_mark (by decide), endsInTwoDigits_mark (by decide)] at hrest
    have hreadHour : readField (hour ++ ':' :: (minute ++ ':' :: (second ++ rest)))
        = some (t.hour, ':' :: (minute ++ ':' :: (second ++ rest))) :=
      readField_iff.mpr ⟨hour, rfl, hhour, by simp [startsWithDigit]⟩
    have hreadMinute : readField (minute ++ ':' :: (second ++ rest))
        = some (t.minute, ':' :: (second ++ rest)) :=
      readField_iff.mpr ⟨minute, rfl, hminute, by simp [startsWithDigit]⟩
    have hreadSecond : readField (second ++ rest) = some (t.second, rest) :=
      readField_iff.mpr ⟨second, rfl, hsecond, hrest⟩
    simp [readClock, hreadHour, hreadMinute, hreadSecond, readChar, hvalid]

/-- Blanks before a time of day do not matter to its reader. -/
theorem readClock_trimStart (cs : List Char) : readClock (trimStart cs) = readClock cs := by
  obtain ⟨-, -, -, hhead⟩ := exists_trimStart cs
  have hfield : readField (trimStart cs) = readField cs := by
    rw [readField, readField, trimStart_self hhead]
  rw [readClock, readClock, hfield]

/-! ## Whole texts -/

theorem all_eq_some_iff {α : Type} {f : Reader α} {a : α} :
    Reader.all f cs = some a ↔ f cs = some (a, []) := by
  rw [Reader.all]
  split
  · next heq => simp [heq]
  · next hne => simpa using hne a

theorem date?_iff : date? cs = some d ↔ DateText cs d := by
  rw [date?, all_eq_some_iff, readDate_iff]
  simp [startsWithDigit]

theorem readClock_all_iff : readClock cs = some (t, []) ↔ ClockText cs t := by
  rw [readClock_iff]
  simp [startsWithDigit]

theorem clockText_trimStart : ClockText (trimStart cs) t ↔ ClockText cs t := by
  rw [← readClock_all_iff, readClock_trimStart, readClock_all_iff]

theorem clock?_iff : clock? cs = some t ↔ ClockText cs t := by
  rw [clock?, all_eq_some_iff, readClock_all_iff]

theorem readMoment_iff {gap : List Char → Option (List Char)} : readMoment gap cs = some (m, rest) ↔
    ∃ r, readDate cs = some (m.1, r) ∧ ∃ r', gap r = some r' ∧ readClock r' = some (m.2, rest) := by
  obtain ⟨d, t⟩ := m
  simp only [readMoment, Option.bind_eq_bind, Option.bind_eq_some_iff, Prod.exists,
    Option.some.injEq, Prod.mk.injEq]
  constructor
  · rintro ⟨_, r, hdate, r', hgap, _, _, hclock, ⟨rfl, rfl⟩, rfl⟩
    exact ⟨r, hdate, r', hgap, hclock⟩
  · rintro ⟨r, hdate, r', hgap, hclock⟩
    exact ⟨d, r, hdate, r', hgap, t, rest, hclock, ⟨rfl, rfl⟩, rfl⟩

/-- With blanks between the date and the time, or nothing. -/
theorem readMoment_spaced_iff : readMoment (fun r => some (trimStart r)) cs = some (m, []) ↔
    ∃ date clock, cs = date ++ clock ∧ DateText date m.1 ∧ ClockText clock m.2 ∧
      (startsWithDigit clock = true → EndsInTwoDigits date) := by
  simp only [readMoment_iff, Option.some.injEq, exists_eq_left', readClock_all_iff,
    clockText_trimStart, readDate_iff]
  constructor
  · rintro ⟨clock, ⟨date, rfl, hdate, hend⟩, htime⟩
    exact ⟨date, clock, rfl, hdate, htime, hend⟩
  · rintro ⟨date, clock, rfl, hdate, htime, hend⟩
    exact ⟨clock, ⟨date, rfl, hdate, hend⟩, htime⟩

theorem readDate_marked (hdate : DateText ds d) :
    readDate (ds ++ 'T' :: rest) = some (d, 'T' :: rest) :=
  readDate_iff.mpr ⟨ds, rfl, hdate, by simp [startsWithDigit]⟩

/-- With a `T` between the date and the time. -/
theorem readMoment_marked_iff :
    readMoment (fun r => (readChar 'T' r).map (·.2)) cs = some (m, []) ↔
      ∃ date clock, cs = date ++ 'T' :: clock ∧ DateText date m.1 ∧ ClockText clock m.2 := by
  simp only [readMoment_iff, Option.map_eq_some_iff, Prod.exists, readChar_iff, readClock_all_iff]
  constructor
  · rintro ⟨_, hdate, _, ⟨_, clock, rfl, rfl⟩, htime⟩
    obtain ⟨date, rfl, hdate, -⟩ := readDate_iff.mp hdate
    exact ⟨date, clock, rfl, hdate, htime⟩
  · rintro ⟨date, clock, rfl, hdate, htime⟩
    exact ⟨'T' :: clock, readDate_marked hdate, clock, ⟨(), clock, rfl, rfl⟩, htime⟩

/-- No time of day begins with a `T`, so a date with a `T` after it is not read without one. -/
theorem readMoment_spaced_marked (hdate : DateText ds d) :
    readMoment (fun r => some (trimStart r)) (ds ++ 'T' :: rest) = none := by
  have hclock : readClock (trimStart ('T' :: rest)) = none := rfl
  simp [readMoment, readDate_marked hdate, hclock]

theorem moment?_iff : moment? cs = some m ↔ MomentText cs m := by
  rw [moment?]
  constructor
  · intro h
    cases hspaced : Reader.all (readMoment fun r => some (trimStart r)) cs with
    | some m' =>
      rw [hspaced] at h
      obtain rfl := Option.some.inj h
      obtain ⟨date, clock, rfl, hdate, hclock, hend⟩ :=
        readMoment_spaced_iff.mp (all_eq_some_iff.mp hspaced)
      exact .spaced hdate hclock hend
    | none =>
      rw [hspaced] at h
      obtain ⟨date, clock, rfl, hdate, hclock⟩ := readMoment_marked_iff.mp (all_eq_some_iff.mp h)
      exact .marked hdate hclock
  · rintro (@⟨date, clock, d, t, hdate, hclock⟩ | @⟨date, clock, d, t, hdate, hclock, hend⟩)
    · rw [Reader.all, readMoment_spaced_marked hdate]
      exact all_eq_some_iff.mpr (readMoment_marked_iff.mpr ⟨date, clock, rfl, hdate, hclock⟩)
    · have hread : readMoment (fun r => some (trimStart r)) (date ++ clock) = some ((d, t), []) :=
        readMoment_spaced_iff.mpr ⟨date, clock, rfl, hdate, hclock, hend⟩
      rw [all_eq_some_iff.mpr hread]
      rfl

end SchemaEvolution.Default
