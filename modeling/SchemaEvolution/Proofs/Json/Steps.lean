import SchemaEvolution.Json.Reader

/-!
# The reader over a part of a text

The reader takes a text piece by piece: what it makes of a text begins with what it makes of the
first piece. White space between the parts of a value leaves the reader where it is.

A value that has been read stands complete in the arrays and objects around it (`State.Completes`).
Of a number the reader learns only from what follows that it has ended; whatever may stand after a
value ends it.
-/

namespace SchemaEvolution.Json

variable {s s' : State} {c : Char} {cs : List Char} {frames : List Frame} {v : Json}

/-- Takes the characters of a part of a text. -/
def steps (s : State) : List Char → Except Fault State
  | [] => .ok s
  | c :: cs => do steps (← step s c) cs

@[simp] theorem steps_nil : steps s [] = .ok s := rfl

theorem steps_cons (h : step s c = .ok s') : steps s (c :: cs) = steps s' cs := by
  rw [steps, h]
  rfl

theorem steps_singleton (h : step s c = .ok s') : steps s [c] = .ok s' := by
  rw [steps_cons h, steps_nil]

/-- Two pieces are read one after the other. -/
theorem steps_append {ds : List Char} (h : steps s cs = .ok s') :
    steps s (cs ++ ds) = steps s' ds := by
  induction cs generalizing s with
  | nil =>
    obtain rfl : s = s' := Except.ok.inj h
    rfl
  | cons c cs ih =>
    cases hc : step s c with
    | error e =>
      rw [steps, hc] at h
      cases h
    | ok u =>
      rw [steps_cons hc] at h
      rw [List.cons_append, steps_cons hc, ih h]

/-- What a text is read as goes on from the state that its first piece leads to. -/
theorem run_of_steps {form : Form} {rest : List Char} (h : steps s cs = .ok s') :
    run form s (cs ++ rest) = run form s' rest := by
  induction cs generalizing s with
  | nil =>
    obtain rfl : s = s' := Except.ok.inj h
    rfl
  | cons c cs ih =>
    cases hc : step s c with
    | error e =>
      rw [steps, hc] at h
      cases h
    | ok u =>
      rw [steps_cons hc] at h
      rw [List.cons_append, run, hc]
      exact ih h

/-- What a text is read as does not depend on the form that it should have. -/
theorem run_ok {f g : Form} (h : run f s cs = .ok v) : run g s cs = .ok v := by
  induction cs generalizing s with
  | nil =>
    rw [run, finish] at h ⊢
    split at h
    · exact h
    · split at h
      · rwa [if_pos ‹_›]
      · cases h
    · cases h
  | cons c cs ih =>
    rw [run] at h ⊢
    cases hc : step s c with
    | error e =>
      rw [hc] at h
      cases h
    | ok u =>
      rw [hc] at h
      exact ih h

theorem read_ok_congr {f g : Form} {text : String} :
    read f text = .ok v ↔ read g text = .ok v := ⟨run_ok, run_ok⟩

/-! ## White space -/

theorem isSpace_iff : isSpace c = true ↔ c = ' ' ∨ c = '\t' ∨ c = '\n' ∨ c = '\r' := by
  simp [isSpace, or_assoc]

/-- Whether the reader stands between the parts of a value. -/
def Point.isBetween : Point → Bool
  | .value | .arrayStart | .objectStart | .key | .colon | .done _ => true
  | .string _ _ | .number _ | .word _ _ => false

theorem step_of_isSpace (hs : s.point.isBetween = true) (hc : isSpace c = true) :
    step s c = .ok s := by
  obtain ⟨frames, point⟩ := s
  cases point <;> simp_all [Point.isBetween, step, next]

theorem steps_of_isSpace (hs : s.point.isBetween = true) (hcs : ∀ c ∈ cs, isSpace c = true) :
    steps s cs = .ok s := by
  induction cs with
  | nil => rfl
  | cons c cs ih =>
    rw [steps_cons (step_of_isSpace hs (hcs c List.mem_cons_self))]
    exact ih fun d hd => hcs d (List.mem_cons_of_mem _ hd)

/-! ## Complete values -/

/-- Whether a character may stand after a value. -/
def isDelimiter (c : Char) : Bool := isSpace c || c == ',' || c == ']' || c == '\x7d'

theorem isDelimiter_iff :
    isDelimiter c = true ↔
      c = ' ' ∨ c = '\t' ∨ c = '\n' ∨ c = '\r' ∨ c = ',' ∨ c = ']' ∨ c = '\x7d' := by
  simp [isDelimiter, isSpace, or_assoc]

/-- The reader has come to the end of a value inside these arrays and objects. -/
inductive State.Completes (frames : List Frame) (v : Json) : State → Prop where
  | done : Completes frames v ⟨frames, .done v⟩
  /-- A number ends where no character follows that belongs to it. -/
  | number {n : Numeral} (hcomplete : n.complete = true) (hvalue : n.value = v)
      (hends : ∀ c, isDelimiter c = true → n.push? c = none) :
      Completes frames v ⟨frames, .number n⟩

theorem next_of_isSpace (hc : isSpace c = true) : next frames v c = .ok ⟨frames, .done v⟩ := by
  unfold next
  rw [if_pos hc]

namespace State.Completes

theorem step_eq (h : s.Completes frames v) (hc : isDelimiter c = true) :
    step s c = next frames v c := by
  cases h with
  | done => rfl
  | number hcomplete hvalue hends =>
    rw [step]
    simp only [hends c hc, hcomplete, hvalue, if_true]

/-- A value stays complete over the white space after it. -/
theorem steps_blank (h : s.Completes frames v) (hcs : ∀ c ∈ cs, isSpace c = true) :
    ∃ s', steps s cs = .ok s' ∧ s'.Completes frames v := by
  cases cs with
  | nil => exact ⟨s, rfl, h⟩
  | cons c cs =>
    have hc : isSpace c = true := hcs c List.mem_cons_self
    have hstep : step s c = .ok ⟨frames, .done v⟩ := by
      rw [h.step_eq (by rw [isDelimiter, hc]; rfl), next_of_isSpace hc]
    refine ⟨_, ?_, .done⟩
    rw [steps_cons hstep]
    exact steps_of_isSpace rfl fun d hd => hcs d (List.mem_cons_of_mem _ hd)

/-- At the end of the text the value is what has been read. -/
theorem finish_eq {form : Form} (h : s.Completes [] v) : finish form s = .ok v := by
  cases h with
  | done => rfl
  | number hcomplete hvalue _ => simp only [finish, hcomplete, hvalue, if_true]

end State.Completes

end SchemaEvolution.Json
