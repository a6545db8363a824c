import SchemaEvolution.Proofs.Json.Numeral
import SchemaEvolution.Proofs.Json.Strings

/-!
# Written values are read back

What is written for a value, in a layout that puts nothing but white space between the parts, is
read as that value. This is so of plain values (`Plain`): those that hold integers of 64 bits, no
other numbers, and nothing unreadable; and only if no more arrays and objects are nested than can be
held.

The reader is followed through the text of a value with any arrays and objects open around it
(`ReadsBack`). The elements after the first are followed from one comma to the next, each of them
with the elements before it in the innermost frame; the members of an object likewise.
-/

namespace SchemaEvolution.Json

/-! ## Layouts -/

/-- A layout that puts nothing but white space between the parts. -/
structure Layout.IsBlank (l : Layout) : Prop where
  line : ∀ d, ∀ c ∈ l.line d, isSpace c = true
  colon : ∃ blanks, l.colon = ':' :: blanks ∧ ∀ c ∈ blanks, isSpace c = true

theorem Layout.isBlank_compact : Layout.compact.IsBlank where
  line _ _ hc := nomatch hc
  colon := ⟨[], rfl, fun _ hc => nomatch hc⟩

theorem Layout.isBlank_pretty : Layout.pretty.IsBlank where
  line d c hc := by
    rcases List.mem_cons.mp hc with rfl | hc
    · rfl
    · rw [List.eq_of_mem_replicate hc]
      rfl
  colon := ⟨[' '], rfl, fun c hc => by rw [List.mem_singleton.mp hc]; rfl⟩

/-! ## Plain values -/

/-- A value that holds integers of at most 64 bits, no other numbers, and nothing unreadable. -/
inductive Plain : Json → Prop where
  | null : Plain .null
  | bool (b : Bool) : Plain (.bool b)
  | int {n : Int} (hn : n.natAbs < UInt64.size) : Plain (.int n)
  | string (s : String) : Plain (.string s)
  | array {vs : List Json} (hvs : ∀ v ∈ vs, Plain v) : Plain (.array vs)
  | object {ms : List (String × Json)} (hms : ∀ m ∈ ms, Plain m.2) : Plain (.object ms)

theorem shallow_of_lt {frames : List Frame} (h : frames.length < maxDepth) :
    shallow frames = true := by
  rw [shallow, List.length_take]
  exact decide_eq_true (Nat.lt_of_le_of_lt (Nat.min_le_right _ _) h)

/-! ## The first character -/

theorem isDigit_digits_head {m : Nat} {c : Char} {cs : List Char}
    (h : Text.Decimal.digits m = c :: cs) : c.isDigit = true :=
  Text.Decimal.isDigit_of_mem_digits m c (h ▸ List.mem_cons_self)

/-- The text of a value begins neither with white space nor with the end of an array. -/
theorem exists_write_eq_cons {l : Layout} {d : Nat} {v : Json} (hv : Plain v) :
    ∃ c cs, write l d v = c :: cs ∧ isSpace c = false ∧ c ≠ ']' := by
  cases hv with
  | null => exact ⟨_, _, rfl, rfl, by decide⟩
  | bool b => cases b <;> exact ⟨_, _, rfl, rfl, by decide⟩
  | @int n hn =>
    rw [write, Text.Decimal.intDigits]
    split
    · exact ⟨_, _, rfl, rfl, by decide⟩
    · obtain ⟨c, cs, hcs⟩ := List.exists_cons_of_ne_nil (Text.Decimal.digits_ne_nil n.natAbs)
      have hdigit := isDigit_digits_head hcs
      refine ⟨c, cs, hcs, isSpace_of_isDigit hdigit, ?_⟩
      rintro rfl
      exact absurd hdigit (by decide)
  | string s => exact ⟨_, _, rfl, rfl, by decide⟩
  | @array vs hvs => cases vs <;> exact ⟨_, _, rfl, rfl, by decide⟩
  | @object ms hms => cases ms <;> exact ⟨_, _, rfl, rfl, by decide⟩

/-- The first value of an array is read like any other. -/
theorem steps_write_arrayStart {l : Layout} {d : Nat} {v : Json} {frames : List Frame}
    (hv : Plain v) :
    steps ⟨frames, .arrayStart⟩ (write l d v) = steps ⟨frames, .value⟩ (write l d v) := by
  obtain ⟨c, cs, hcs, hspace, hne⟩ := exists_write_eq_cons (l := l) (d := d) hv
  rw [hcs, steps, steps]
  simp only [step, hspace, if_neg hne, Bool.false_eq_true, if_false]

/-! ## Reading back -/

/-- A value is read back wherever there is room for it. -/
def ReadsBack (l : Layout) (v : Json) : Prop :=
  ∀ (d : Nat) (frames : List Frame), frames.length + v.depth ≤ maxDepth →
    ∃ s, steps ⟨frames, .value⟩ (write l d v) = .ok s ∧ s.Completes frames v

variable {l : Layout} {frames : List Frame} {s : State} {d e : Nat}

/-- The elements after one that is complete, up to the end of their array. -/
theorem steps_writeElements (hl : l.IsBlank) {vs es : List Json} {v : Json}
    (hs : s.Completes (.array es :: frames) v) (hvs : ∀ u ∈ vs, ReadsBack l u)
    (hdepth : frames.length + 1 + depthElements vs ≤ maxDepth) :
    steps s (writeElements l d vs ++ l.line e ++ [']'])
      = .ok ⟨frames, .done (closeArray frames (vs.reverse ++ v :: es))⟩ := by
  induction vs generalizing s v es with
  | nil =>
    obtain ⟨t, hline, ht⟩ := hs.steps_blank (hl.line e)
    rw [writeElements, List.nil_append, steps_append hline]
    exact steps_singleton (ht.step_eq rfl)
  | cons u us ih =>
    -- the comma puts the complete element into the frame, and the next one is read inside it
    have hcomma : step s ',' = .ok ⟨.array (v :: es) :: frames, .value⟩ := hs.step_eq rfl
    have hline : steps ⟨.array (v :: es) :: frames, .value⟩ (l.line d)
        = .ok ⟨.array (v :: es) :: frames, .value⟩ := steps_of_isSpace rfl (hl.line d)
    rw [depthElements] at hdepth
    obtain ⟨t, hwrite, ht⟩ := hvs u List.mem_cons_self d (.array (v :: es) :: frames)
      (by rw [List.length_cons]; omega)
    have hrest := ih ht (fun w hw => hvs w (List.mem_cons_of_mem _ hw)) (by omega)
    simp only [writeElements, List.cons_append, List.append_assoc] at hrest ⊢
    rw [steps_cons hcomma, steps_append hline, steps_append hwrite, hrest]
    simp

/-- A member is read back where a key may stand. -/
theorem exists_steps_writeMember (hl : l.IsBlank) (d : Nat) (frames : List Frame)
    (done : List (String × Json)) (k : String) {v : Json} {point : Point}
    (hpoint : point = .objectStart ∨ point = .key) (hv : ReadsBack l v)
    (hdepth : frames.length + 1 + v.depth ≤ maxDepth) :
    ∃ t, steps ⟨.object done false :: frames, point⟩ (quoted k ++ l.colon ++ write l d v) = .ok t
      ∧ t.Completes (.member done (some k) :: frames) v := by
  obtain ⟨blanks, hcolon, hblanks⟩ := hl.colon
  have hpart : step ⟨.member done (some k) :: frames, .colon⟩ ':'
      = .ok ⟨.member done (some k) :: frames, .value⟩ := rfl
  have hspace : steps ⟨.member done (some k) :: frames, .value⟩ blanks
      = .ok ⟨.member done (some k) :: frames, .value⟩ := steps_of_isSpace rfl hblanks
  obtain ⟨t, hwrite, ht⟩ := hv d (.member done (some k) :: frames)
    (by rw [List.length_cons]; omega)
  refine ⟨t, ?_, ht⟩
  rw [List.append_assoc, steps_append (steps_key k hpoint), hcolon, List.cons_append,
    steps_cons hpart, steps_append hspace, hwrite]

/-- The members after one that is complete, up to the end of their object. -/
theorem steps_writeMembers (hl : l.IsBlank) {ms done : List (String × Json)} {k : String} {v : Json}
    (hs : s.Completes (.member done (some k) :: frames) v) (hms : ∀ m ∈ ms, ReadsBack l m.2)
    (hdepth : frames.length + 1 + depthMembers ms ≤ maxDepth) :
    steps s (writeMembers l d ms ++ l.line e ++ ['\x7d'])
      = .ok ⟨frames, .done (closeObject frames (ms.reverse ++ (k, v) :: done) false)⟩ := by
  induction ms generalizing s k v done with
  | nil =>
    obtain ⟨t, hline, ht⟩ := hs.steps_blank (hl.line e)
    rw [writeMembers, List.nil_append, steps_append hline]
    exact steps_singleton (ht.step_eq rfl)
  | cons m ms ih =>
    obtain ⟨key, u⟩ := m
    have hcomma : step s ',' = .ok ⟨.object ((k, v) :: done) false :: frames, .key⟩ :=
      hs.step_eq rfl
    have hline : steps ⟨.object ((k, v) :: done) false :: frames, .key⟩ (l.line d)
        = .ok ⟨.object ((k, v) :: done) false :: frames, .key⟩ := steps_of_isSpace rfl (hl.line d)
    rw [depthMembers] at hdepth
    have hu : ReadsBack l u := hms (key, u) List.mem_cons_self
    obtain ⟨t, hmember, ht⟩ := exists_steps_writeMember hl d frames ((k, v) :: done) key
      (Or.inr rfl) hu (by omega)
    have hrest := ih ht (fun m hm => hms m (List.mem_cons_of_mem _ hm)) (by omega)
    simp only [writeMembers, List.cons_append, List.append_assoc] at hmember hrest ⊢
    rw [steps_cons hcomma, steps_append hline, ← List.append_assoc l.colon,
      ← List.append_assoc (quoted key), steps_append hmember, hrest]
    simp

theorem ReadsBack.array (hl : l.IsBlank) {vs : List Json} (hplain : ∀ v ∈ vs, Plain v)
    (hvs : ∀ v ∈ vs, ReadsBack l v) : ReadsBack l (.array vs) := by
  intro d frames hdepth
  rw [depth] at hdepth
  have hroom : shallow frames = true := shallow_of_lt (by omega)
  have hopen : step ⟨frames, .value⟩ '[' = .ok ⟨.array [] :: frames, .arrayStart⟩ := rfl
  refine ⟨⟨frames, .done (.array vs)⟩, ?_, .done⟩
  cases vs with
  | nil =>
    have hclose : step ⟨.array [] :: frames, .arrayStart⟩ ']'
        = .ok ⟨frames, .done (.array [])⟩ := by
      simp [step, isSpace, closeArray, hroom]
    rw [write, steps_cons hopen]
    exact steps_singleton hclose
  | cons v vs =>
    rw [depthElements] at hdepth
    have hline : steps ⟨.array [] :: frames, .arrayStart⟩ (l.line (d + 1))
        = .ok ⟨.array [] :: frames, .arrayStart⟩ := steps_of_isSpace rfl (hl.line (d + 1))
    obtain ⟨s, hwrite, hs⟩ := hvs v List.mem_cons_self (d + 1) (.array [] :: frames)
      (by rw [List.length_cons]; omega)
    -- right after the bracket the array might also end, but no value begins like that
    rw [← steps_write_arrayStart (hplain v List.mem_cons_self)] at hwrite
    have hrest := steps_writeElements hl (d := d + 1) (e := d) hs
      (fun u hu => hvs u (List.mem_cons_of_mem _ hu)) (by omega)
    simp only [write, List.cons_append, List.append_assoc] at hrest ⊢
    rw [steps_cons hopen, steps_append hline, steps_append hwrite, hrest, closeArray, hroom]
    simp

theorem ReadsBack.object (hl : l.IsBlank) {ms : List (String × Json)}
    (hms : ∀ m ∈ ms, ReadsBack l m.2) : ReadsBack l (.object ms) := by
  intro d frames hdepth
  rw [depth] at hdepth
  have hroom : shallow frames = true := shallow_of_lt (by omega)
  have hopen : step ⟨frames, .value⟩ '\x7b' = .ok ⟨.object [] false :: frames, .objectStart⟩ := rfl
  refine ⟨⟨frames, .done (.object ms)⟩, ?_, .done⟩
  cases ms with
  | nil =>
    have hclose : step ⟨.object [] false :: frames, .objectStart⟩ '\x7d'
        = .ok ⟨frames, .done (.object [])⟩ := by
      simp [step, isSpace, closeObject, hroom]
    rw [write, steps_cons hopen]
    exact steps_singleton hclose
  | cons m ms =>
    obtain ⟨k, v⟩ := m
    rw [depthMembers] at hdepth
    have hline : steps ⟨.object [] false :: frames, .objectStart⟩ (l.line (d + 1))
        = .ok ⟨.object [] false :: frames, .objectStart⟩ := steps_of_isSpace rfl (hl.line (d + 1))
    have hv : ReadsBack l v := hms (k, v) List.mem_cons_self
    obtain ⟨s, hmember, hs⟩ := exists_steps_writeMember hl (d + 1) frames [] k (Or.inl rfl) hv
      (by omega)
    have hrest := steps_writeMembers hl (d := d + 1) (e := d) hs
      (fun m hm => hms m (List.mem_cons_of_mem _ hm)) (by omega)
    simp only [write, List.cons_append, List.append_assoc] at hmember hrest ⊢
    rw [steps_cons hopen, steps_append hline, ← List.append_assoc l.colon,
      ← List.append_assoc (quoted k), steps_append hmember, hrest, closeObject, hroom]
    simp

/-- A plain value is read back wherever there is room for it. -/
theorem readsBack (hl : l.IsBlank) {v : Json} (hv : Plain v) : ReadsBack l v := by
  induction hv with
  | null => exact fun d frames _ => ⟨_, rfl, .done⟩
  | bool b => cases b <;> exact fun d frames _ => ⟨_, rfl, .done⟩
  | int hn => exact fun d frames _ => steps_intDigits hn
  | string s => exact fun d frames _ => ⟨_, steps_string s, .done⟩
  | array hvs ih => exact .array hl hvs ih
  | object _ ih => exact .object hl ih

/-- What is written for a plain value is read as that value, whatever form it should have. -/
theorem read_write (hl : l.IsBlank) {v : Json} (hv : Plain v) (hdepth : v.depth ≤ maxDepth)
    (form : Form) : read form (String.ofList (write l 0 v)) = .ok v := by
  obtain ⟨s, hwrite, hs⟩ := readsBack hl hv 0 [] (by simpa using hdepth)
  have hrun : run form ⟨[], .value⟩ (write l 0 v ++ []) = run form s [] := run_of_steps hwrite
  rw [List.append_nil] at hrun
  rw [read, String.toList_ofList, hrun]
  exact hs.finish_eq

theorem read_compact {v : Json} (hv : Plain v) (hdepth : v.depth ≤ maxDepth) (form : Form) :
    read form v.compact = .ok v := read_write Layout.isBlank_compact hv hdepth form

theorem read_pretty {v : Json} (hv : Plain v) (hdepth : v.depth ≤ maxDepth) (form : Form) :
    read form v.pretty = .ok v := read_write Layout.isBlank_pretty hv hdepth form

end SchemaEvolution.Json
