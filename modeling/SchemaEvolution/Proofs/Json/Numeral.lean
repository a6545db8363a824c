import SchemaEvolution.Proofs.Json.Steps

/-!
# Integers are read back

The numeral of an integer below 2^64 is read as that integer. While its digits are taken, the
number that is being read denotes what the digits so far denote (`Numeral.Denotes`): a numeral has
no zero in front, and every digit still fits into the significand. Such a number can be held, since
rounding at most doubles it.
-/

namespace SchemaEvolution.Json

open Text.Decimal (digitChar digitValue digits intDigits)

/-! ## Range -/

theorem roundToBinary64_le {n : Nat} (hn : n ≠ 0) : roundToBinary64 n ≤ 2 * n := by
  have hunit : 1 <<< (n.log2 + 1 - 53) ≤ n := by
    rw [Nat.one_shiftLeft]
    calc 2 ^ (n.log2 + 1 - 53) ≤ 2 ^ n.log2 := Nat.pow_le_pow_right (by omega) (by omega)
      _ ≤ n := Nat.log2_self_le hn
  have hbelow : n / 1 <<< (n.log2 + 1 - 53) * 1 <<< (n.log2 + 1 - 53) ≤ n := Nat.div_mul_le_self _ _
  simp only [roundToBinary64]
  split
  · rw [Nat.add_one_mul]
    omega
  · omega

/-- Every number below 2^64 can be held. -/
theorem roundToBinary64_lt_infinityBound {m : Nat} (hm : m < UInt64.size) (h0 : m ≠ 0) :
    roundToBinary64 m * roundToBinary64 1 < infinityBound := by
  have hone : roundToBinary64 1 = 1 := roundToBinary64_of_lt (by decide)
  have hbound : 2 * UInt64.size < infinityBound := by decide +kernel
  have hround := roundToBinary64_le h0
  rw [hone, Nat.mul_one]
  omega

/-! ## Numbers without point and exponent -/

namespace Numeral

/-- The number is an integer, of which the digits so far denote the absolute value. -/
structure Denotes (n : Numeral) (negative : Bool) (m : Nat) : Prop where
  phase : n.phase = if m = 0 then .zero else .whole
  negative : n.negative = negative
  significand : n.significand = m
  scale : n.scale = 0
  full : n.full = false
  exponentNegative : n.exponentNegative = false
  exponent : n.exponent = 0

variable {n : Numeral} {negative : Bool} {m d : Nat}

theorem digitChar_eq_zero (hd : d < 10) : digitChar d = '0' ↔ d = 0 := by
  have hall : ∀ e ∈ List.range 10, (digitChar e = '0' ↔ e = 0) := by decide
  exact hall d (List.mem_range.mpr hd)

theorem denotes_ofDigit (hd : d < 10) : (ofDigit (digitChar d)).Denotes false d where
  phase := by simp only [ofDigit, digitChar_eq_zero hd]
  negative := rfl
  significand := Text.Decimal.digitValue_digitChar hd
  scale := rfl
  full := rfl
  exponentNegative := rfl
  exponent := rfl

/-- After a minus sign any digit but zero may stand. -/
theorem push_ofMinus (hd : d < 10) (h0 : d ≠ 0) :
    ∃ n, ofMinus.push? (digitChar d) = some n ∧ n.Denotes true d := by
  have hne : digitChar d ≠ '0' := fun h => h0 ((digitChar_eq_zero hd).mp h)
  have hdigit := Text.Decimal.isDigit_digitChar hd
  have hsize : d < UInt64.size := Nat.lt_trans hd (by decide)
  refine ⟨{ ofMinus with
    phase := .whole
    literal := digitChar d :: ofMinus.literal
    significand := d }, ?_, ?_⟩
  · simp [push?, ofMinus, hne, hdigit, pushWhole, Text.Decimal.digitValue_digitChar hd,
      Numeral.extended?, hsize]
  · exact {
      phase := by rw [if_neg h0]
      negative := rfl
      significand := rfl
      scale := rfl
      full := rfl
      exponentNegative := rfl
      exponent := rfl }

namespace Denotes

theorem complete (h : n.Denotes negative m) : n.complete = true := by
  rw [Numeral.complete, h.phase]
  split <;> rfl

theorem extended? (h : n.Denotes negative m) (hm : 10 * m + d < UInt64.size) :
    n.extended? d = some (10 * m + d) := by
  simp [Numeral.extended?, h.full, h.significand, hm]

/-- A number other than zero takes one more digit. -/
theorem push (h : n.Denotes negative m) (h0 : m ≠ 0) (hd : d < 10)
    (hm : 10 * m + d < UInt64.size) :
    ∃ n', n.push? (digitChar d) = some n' ∧ n'.Denotes negative (10 * m + d) := by
  have hphase : n.phase = .whole := by rw [h.phase, if_neg h0]
  have hdigit := Text.Decimal.isDigit_digitChar hd
  refine ⟨{ n with
    phase := .whole
    literal := digitChar d :: n.literal
    significand := 10 * m + d }, ?_, ?_⟩
  · simp [push?, hphase, hdigit, pushWhole, Text.Decimal.digitValue_digitChar hd, h.extended? hm]
  · exact { h with
      phase := by rw [if_neg (by omega)]
      significand := rfl }

theorem push_delimiter (h : n.Denotes negative m) {c : Char} (hc : isDelimiter c = true) :
    n.push? c = none := by
  have hcases := isDelimiter_iff.mp hc
  have hphase := h.phase
  unfold push?
  -- a zero or a run of digits goes on with a digit, a point or the mark of an exponent, if at all
  split at hphase <;> rw [hphase] <;>
    rcases hcases with rfl | rfl | rfl | rfl | rfl | rfl | rfl <;> rfl

theorem inRange (h : n.Denotes negative m) (hm : m < UInt64.size) : n.inRange = true := by
  have hpower : n.power = 0 := by simp [power, h.scale, h.exponentNegative, h.exponent]
  by_cases h0 : m = 0
  · simp [Numeral.inRange, h.significand, h0]
  · have hlt := roundToBinary64_lt_infinityBound hm h0
    simp [Numeral.inRange, h.significand, hpower, hlt]

/-- The number is the integer that its sign and its digits denote. -/
theorem value (h : n.Denotes negative m) (hm : m < UInt64.size) (h0 : negative = true → m ≠ 0) :
    n.value = .int (if negative then -(m : Int) else m) := by
  have hinteger : n.isInteger = true := by
    have hphase := h.phase
    cases negative with
    | false => split at hphase <;> simp [isInteger, hphase, h.full, h.negative]
    | true => simp [isInteger, hphase, h.full, h.significand, h0 rfl]
  simp [Numeral.value, h.inRange hm, hinteger, h.negative, h.significand]

/-- The integer is complete; only what follows will say so. -/
theorem completes (h : n.Denotes negative m) (hm : m < UInt64.size)
    (h0 : negative = true → m ≠ 0) {i : Int} (hi : i = if negative then -(m : Int) else m)
    (frames : List Frame) : State.Completes frames (.int i) ⟨frames, .number n⟩ :=
  .number h.complete (hi ▸ h.value hm h0) fun _ => h.push_delimiter

end Denotes

end Numeral

/-! ## From the text -/

variable {frames : List Frame}

/-- The digits of a number are taken one by one, after a first one. -/
theorem steps_digits {s : State} {negative : Bool} (m : Nat) (hm : m < UInt64.size)
    (h0 : negative = true → m ≠ 0)
    (hfirst : ∀ d < 10, (negative = true → d ≠ 0) →
      ∃ n, step s (digitChar d) = .ok ⟨frames, .number n⟩ ∧ n.Denotes negative d) :
    ∃ n, steps s (digits m) = .ok ⟨frames, .number n⟩ ∧ n.Denotes negative m := by
  rw [digits]
  split
  · next hlt =>
    obtain ⟨n, hstep, hn⟩ := hfirst m hlt h0
    exact ⟨n, steps_singleton hstep, hn⟩
  · next hge =>
    obtain ⟨n, hsteps, hn⟩ := steps_digits (m / 10) (by omega) (by omega) hfirst
    obtain ⟨n', hpush, hn'⟩ := hn.push (d := m % 10) (by omega) (by omega) (by omega)
    refine ⟨n', ?_, ?_⟩
    · rw [steps_append hsteps]
      refine steps_singleton ?_
      rw [step]
      simp only [hpush]
    · rwa [Nat.div_add_mod] at hn'
termination_by m
decreasing_by omega

theorem begin_of_isDigit {c : Char} (hc : c.isDigit = true) :
    begin frames c = .ok ⟨frames, .number (.ofDigit c)⟩ := by
  have hne : c ≠ '"' ∧ c ≠ '[' ∧ c ≠ '\x7b' ∧ c ≠ '-' := by
    refine ⟨?_, ?_, ?_, ?_⟩ <;> (rintro rfl; revert hc; decide)
  obtain ⟨hquote, hbracket, hbrace, hminus⟩ := hne
  rw [begin, if_neg hquote, if_neg hbracket, if_neg hbrace, if_neg hminus, if_pos hc]

theorem isSpace_of_isDigit {c : Char} (hc : c.isDigit = true) : isSpace c = false := by
  refine Bool.eq_false_iff.mpr fun hspace => ?_
  rcases isSpace_iff.mp hspace with rfl | rfl | rfl | rfl <;> revert hc <;> decide

/-- An integer is read as it was written. -/
theorem steps_intDigits {n : Int} (hn : n.natAbs < UInt64.size) :
    ∃ s, steps ⟨frames, .value⟩ (intDigits n) = .ok s ∧ s.Completes frames (.int n) := by
  rw [intDigits]
  split
  · next hneg =>
    have hminus : step ⟨frames, .value⟩ '-' = .ok ⟨frames, .number .ofMinus⟩ := rfl
    have h0 : true = true → n.natAbs ≠ 0 := fun _ => by omega
    have hfirst : ∀ d < 10, (true = true → d ≠ 0) →
        ∃ k, step ⟨frames, .number .ofMinus⟩ (digitChar d) = .ok ⟨frames, .number k⟩ ∧
          k.Denotes true d := by
      intro d hd hne
      obtain ⟨k, hpush, hk⟩ := Numeral.push_ofMinus hd (hne rfl)
      exact ⟨k, by simp only [step, hpush], hk⟩
    obtain ⟨k, hsteps, hk⟩ := steps_digits n.natAbs hn h0 hfirst
    refine ⟨_, (steps_cons hminus).trans hsteps, hk.completes hn h0 ?_ frames⟩
    rw [if_pos rfl]
    omega
  · next hneg =>
    have h0 : false = true → n.natAbs ≠ 0 := fun h => absurd h Bool.false_ne_true
    have hfirst : ∀ d < 10, (false = true → d ≠ 0) →
        ∃ k, step ⟨frames, .value⟩ (digitChar d) = .ok ⟨frames, .number k⟩ ∧
          k.Denotes false d := by
      intro d hd _
      have hdigit := Text.Decimal.isDigit_digitChar hd
      refine ⟨_, ?_, Numeral.denotes_ofDigit hd⟩
      simp only [step, isSpace_of_isDigit hdigit, begin_of_isDigit hdigit, Bool.false_eq_true,
        if_false]
    obtain ⟨k, hsteps, hk⟩ := steps_digits n.natAbs hn h0 hfirst
    refine ⟨_, hsteps, hk.completes hn h0 ?_ frames⟩
    rw [if_neg Bool.false_ne_true]
    omega

end SchemaEvolution.Json
