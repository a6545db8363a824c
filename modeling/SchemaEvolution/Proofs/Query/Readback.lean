import SchemaEvolution.Proofs.Query.Reader
import SchemaEvolution.Proofs.Text.Runs

/-!
# Expressions can be read back

The reader finds in the text of an expression the expression itself, up to what is written alike:
`Expr.normal` replaces each of these by what the reader takes it for. Each kind of expression is
read back if its parts are, so all of them are; and two expressions with one text and one list of
bindings are the same up to `normal`.
-/

namespace SchemaEvolution

namespace Expr

mutual

/-- An expression with everything that is written alike replaced by one form of it: a test against
the empty set is decided, one against a single element is a comparison, and a disjunction of one
part is a conjunction. -/
def normal : Expr → Expr
  | .column c => .column c
  | .constant v => .constant v
  | .aggregate f c => .aggregate f c
  | .math l op r => .math l.normal op r.normal
  | .compare l op r => .compare l.normal op r.normal
  | .between v low high => .between v.normal low.normal high.normal
  | .inSet _ [] negated => if negated then .all [] else .any []
  | .inSet v [e] negated => .compare v.normal (if negated then .notEq else .eq) e.normal
  | .inSet v (e :: f :: rest) negated =>
    .inSet v.normal (e.normal :: f.normal :: normalAll rest) negated
  | .all parts => .all (normalAll parts)
  | .any [e] => .all [e.normal]
  | .any parts => .any (normalAll parts)
  | .not e => .not e.normal

def normalAll : List Expr → List Expr
  | [] => []
  | e :: rest => e.normal :: normalAll rest

end

end Expr

open Piece

namespace Piece

variable {d : Dialect} {issued : Nat} {ps qs : List Piece} {s : String} {v : BoundValue}

/-! ## Texts character by character -/

/-- The characters of a query. -/
def chars (d : Dialect) (issued : Nat) (ps : List Piece) : List Char := (sql d issued ps).toList

@[simp] theorem chars_nil : chars d issued [] = [] := by simp [chars, sql]

@[simp] theorem chars_text :
    chars d issued (.text s :: ps) = s.toList ++ chars d issued ps := by
  simp [chars, sql]

@[simp] theorem chars_name :
    chars d issued (.name s :: ps)
      = Text.Quoted.quote d.quoteMark s.toList ++ chars d issued ps := by
  simp [chars, sql, Dialect.quote]

@[simp] theorem chars_value :
    chars d issued (.value v :: ps)
      = ':' :: ((parameter (issued + 1)).toList ++ chars d (issued + 1) ps) := by
  simp [chars, sql]

@[simp] theorem chars_append :
    chars d issued (ps ++ qs) = chars d issued ps ++ chars d (issued + (values ps).length) qs := by
  simp [chars, sql_eq_marked, marked_append]

theorem chars_parenthesized :
    chars d issued (parenthesized ps) = '(' :: (chars d issued ps ++ [')']) := by
  simp [parenthesized]

/-! ## What parameters stand for -/

/-- Whether every parameter of a query is looked up as what it is bound to. -/
def Bound (value? : String → Option BoundValue) (issued : Nat) (ps : List Piece) : Prop :=
  ∀ b ∈ bindings issued ps, value? b.name = some b.value

variable {value? : String → Option BoundValue}

theorem bound_append : Bound value? issued (ps ++ qs) ↔
    Bound value? issued ps ∧ Bound value? (issued + (values ps).length) qs := by
  simp only [Bound, bindings_append, List.forall_mem_append]

theorem bound_text : Bound value? issued (.text s :: ps) ↔ Bound value? issued ps := Iff.rfl

theorem bound_parenthesized (h : Bound value? issued (parenthesized ps)) :
    Bound value? issued ps :=
  (bound_append.mp (bound_text.mp h)).1

end Piece

namespace Reader

variable {d : Dialect} {value? : String → Option BoundValue} {issued n : Nat} {t : List Char}
  {e l r : Expr} {es : List Expr} {ps : List Piece} {c : ColumnPath}

/-- Whether a text may follow an expression. -/
def Ends (t : List Char) : Prop := t.head?.all (· == ')') = true

/-- Whether a character may follow an operand. -/
def isEnd (c : Char) : Bool := c == ' ' || c == ',' || c == ')'

/-- Whether a text may follow an operand. -/
def Follows (t : List Char) : Prop := t.head?.all isEnd = true

theorem Ends.cases (h : Ends t) : t = [] ∨ ∃ r, t = ')' :: r := by
  cases t with
  | nil => exact Or.inl rfl
  | cons c r => exact Or.inr ⟨r, by rw [show c = ')' by simpa [Ends] using h]⟩

theorem Ends.follows (h : Ends t) : Follows t := by
  rcases h.cases with rfl | ⟨r, rfl⟩ <;> rfl

theorem follows_append {word cs : List Char} (h : word.head?.any isEnd = true) :
    Follows (word ++ cs) := by
  cases word with
  | nil => cases h
  | cons c word => exact h

/-- A text that begins with a space does not begin like what may follow an expression. -/
theorem Ends.after?_eq_none {word : String} (h : Ends t) (hword : word.toList.head? = some ' ') :
    after? word.toList t = none := by
  cases hw : word.toList with
  | nil => rw [hw] at hword; cases hword
  | cons c cs =>
    obtain rfl : c = ' ' := by simpa [hw] using hword
    rcases h.cases with rfl | ⟨r, rfl⟩ <;> rfl

theorem Ends.connective (h : Ends t) : word? connectives t = none := by
  rcases h.cases with rfl | ⟨r, rfl⟩ <;> rfl

theorem after?_append (word cs : List Char) : after? word (word ++ cs) = some cs := by
  induction word with
  | nil => rfl
  | cons c word ih => simp [after?, ih]

/-! ## Atoms -/

theorem quoteMark_not_mem (h : Follows t) : t.head? ≠ some d.quoteMark := by
  intro he
  rw [Follows, he] at h
  cases d <;> cases h

theorem readColumn_pieces (issued : Nat) (c : ColumnPath) (h : Follows t) :
    readColumn d (chars d issued c.pieces ++ t) = some (c, t) := by
  obtain ⟨table, name⟩ := c
  have hname := Text.Quoted.scan_quote d.quoteMark name.toList t (quoteMark_not_mem h)
  cases table with
  | none =>
    simp only [ColumnPath.pieces, chars_name, chars_nil, List.append_nil, readColumn, hname]
    cases t with
    | nil => simp
    | cons c r =>
      have hc : c ≠ '.' := by
        rintro rfl
        cases h
      simp [hc]
  | some table =>
    have htable := Text.Quoted.scan_quote d.quoteMark table.toList
      ('.' :: (Text.Quoted.quote d.quoteMark name.toList ++ t))
      (by cases d <;> simp [Dialect.quoteMark])
    simp [ColumnPath.pieces, readColumn, htable, hname]

/-- A column begins with a quote character. -/
theorem chars_path (d : Dialect) (issued : Nat) (c : ColumnPath) :
    ∃ cs, chars d issued c.pieces = d.quoteMark :: cs := by
  obtain ⟨table, name⟩ := c
  cases table <;> simp [ColumnPath.pieces, Text.Quoted.quote]

theorem readAtom_path (h : Follows t) :
    readAtom d value? (chars d issued c.pieces ++ t) = some (.column c, t) := by
  have hcolumn := readColumn_pieces (d := d) issued c h
  obtain ⟨cs, hcs⟩ := chars_path d issued c
  rw [hcs, List.cons_append] at hcolumn ⊢
  have hword : word? aggregates (d.quoteMark :: (cs ++ t)) = none := by cases d <;> rfl
  unfold readAtom
  simp only [hword]
  split
  · next he => cases d <;> cases he
  · rw [hcolumn]
    rfl

theorem readAtom_aggregate {f : Aggregate} {a : Option ColumnPath} :
    readAtom d value? (chars d issued (Expr.aggregate f a).pieces ++ t)
      = some (.aggregate f a, t) := by
  have hword : ∀ cs, word? aggregates (f.text.toList ++ '(' :: cs) = some (f, cs) := by
    intro cs
    cases f <;> rfl
  cases a with
  | none =>
    have htext : chars d issued (Expr.aggregate f none).pieces ++ t
        = f.text.toList ++ '(' :: '*' :: ')' :: t := by
      simp [Expr.pieces]
    unfold readAtom
    simp only [htext, hword]
    rfl
  | some c =>
    have htext : chars d issued (Expr.aggregate f (some c)).pieces ++ t
        = f.text.toList ++ '(' :: (chars d issued c.pieces ++ ')' :: t) := by
      simp [Expr.pieces, chars_parenthesized]
    have hcolumn := readColumn_pieces (d := d) (t := ')' :: t) issued c rfl
    have hstar : after? "*)".toList (chars d issued c.pieces ++ ')' :: t) = none := by
      obtain ⟨cs, hcs⟩ := chars_path d issued c
      rw [hcs]
      cases d <;> rfl
    unfold readAtom
    simp only [htext, hword, hstar, hcolumn]
    rfl

theorem readAtom_value {v : BoundValue} (hb : value? (parameter (issued + 1)) = some v)
    (h : Follows t) :
    readAtom d value? (chars d issued (Expr.constant v).pieces ++ t) = some (.constant v, t) := by
  have htext : chars d issued (Expr.constant v).pieces ++ t
      = ':' :: ((parameter (issued + 1)).toList ++ t) := by
    simp [Expr.pieces]
  have hletters : ∀ c ∈ (parameter (issued + 1)).toList, c.isAlphanum = true := by
    intro c hc
    simp only [parameter, Text.Decimal.string, String.toList_append, String.toList_ofList,
      List.mem_append] at hc
    rcases hc with hc | hc
    · obtain rfl : c = 'p' := by simpa using hc
      rfl
    · simp [Char.isAlphanum, Text.Decimal.isDigit_of_mem_digits _ c hc]
  have hend : t.head?.any Char.isAlphanum = false := by
    cases t with
    | nil => rfl
    | cons c r =>
      simp only [Follows, isEnd, List.head?_cons, Option.all_some, Bool.or_eq_true,
        beq_iff_eq] at h
      rcases h with (rfl | rfl) | rfl <;> rfl
  rw [htext, readAtom, show word? aggregates (':' :: _) = none from rfl]
  simp only [Text.takeWhile_run hletters hend, Text.dropWhile_run hletters hend,
    String.ofList_toList, hb]
  rfl

/-- What an expression without operators may begin with. -/
def atomStarts : List Char := ['"', '\x60', ':', 'C', 'S', 'A', 'M']

theorem begins_of_isAtomic (d : Dialect) (issued : Nat) (h : e.isAtomic = true) :
    ∃ c ∈ atomStarts, ∃ cs, chars d issued e.pieces = c :: cs := by
  cases e with
  | column c =>
    refine ⟨d.quoteMark, by cases d <;> decide, ?_⟩
    rw [Expr.pieces]
    exact chars_path d issued c
  | constant v => exact ⟨':', by decide, _, by rw [Expr.pieces, chars_value]⟩
  | aggregate f a =>
    have htext : ∃ c ∈ atomStarts, ∃ cs, f.text.toList = c :: cs := by
      cases f <;> exact ⟨_, by decide, _, rfl⟩
    obtain ⟨c, hc, cs, hcs⟩ := htext
    refine ⟨c, hc, ?_⟩
    cases a with
    | none => exact ⟨_, by rw [Expr.pieces, chars_text, hcs, List.cons_append]⟩
    | some c => exact ⟨_, by rw [Expr.pieces, chars_text, hcs, List.cons_append]⟩
  | _ => cases h

/-! ## Operands -/

/-- Whether an expression is found in its text, whatever may follow there. -/
def ReadsBack (d : Dialect) (value? : String → Option BoundValue) (e : Expr) : Prop :=
  ∀ issued n t, Bound value? issued e.pieces → (chars d issued e.pieces).length < n → Ends t →
    readExpr d value? n (chars d issued e.pieces ++ t) = some (e.normal, t)

/-- Whether an expression is found in a text that stands for it as an operand. -/
structure OperandBack (d : Dialect) (value? : String → Option BoundValue) (e : Expr) (bare : Bool)
    (ps : List Piece) : Prop where
  read : ∀ issued n t, Bound value? issued ps → (chars d issued ps).length ≤ n → Follows t →
    readOperand d value? n (chars d issued ps ++ t) = some (⟨e.normal, bare⟩, t)
  opening : ∀ issued t, word? openings (chars d issued ps ++ t) = none
  nonempty : ∀ issued, 0 < (chars d issued ps).length

theorem ReadsBack.parenthesized (h : ReadsBack d value? e) :
    OperandBack d value? e false (parenthesized e.pieces) where
  read := by
    intro issued n t hb hn _
    rw [chars_parenthesized] at hn ⊢
    simp only [List.length_cons, List.length_append, List.length_nil] at hn
    obtain ⟨m, rfl⟩ : ∃ m, n = m + 1 := ⟨n - 1, by omega⟩
    have hread := h issued m (')' :: t) (bound_parenthesized hb) (by omega) rfl
    rw [List.cons_append, List.append_assoc, List.cons_append, List.nil_append, readOperand, hread]
    rfl
  opening := by
    intro issued t
    rw [chars_parenthesized]
    rfl
  nonempty := by
    intro issued
    rw [chars_parenthesized]
    exact Nat.succ_pos _

/-- What begins without a parenthesis is read as an atom. -/
theorem readOperand_of_ne {cs : List Char} (h : cs.head? ≠ some '(') :
    readOperand d value? n cs = (readAtom d value? cs).map fun e => (⟨e.1, true⟩, e.2) := by
  cases n with
  | zero => rw [readOperand]; simp
  | succ n =>
    cases cs with
    | nil => rw [readOperand]; simp
    | cons c cs => rw [readOperand]; simpa using h

theorem operandBack_of_isAtomic (h : e.isAtomic = true) :
    OperandBack d value? e true e.pieces where
  read := by
    intro issued n t hb _ ht
    have hread : readAtom d value? (chars d issued e.pieces ++ t) = some (e.normal, t) := by
      cases e with
      | column c => rw [Expr.pieces, readAtom_path ht]; rfl
      | constant v => exact readAtom_value (hb _ (List.mem_singleton_self _)) ht
      | aggregate f a => exact readAtom_aggregate
      | _ => cases h
    obtain ⟨c, hc, cs, hcs⟩ := begins_of_isAtomic d issued h
    have hne : (chars d issued e.pieces ++ t).head? ≠ some '(' := by
      rw [hcs]
      rintro he
      obtain rfl := Option.some.inj he
      exact absurd hc (by decide)
    rw [readOperand_of_ne hne, hread]
    rfl
  opening := by
    intro issued t
    obtain ⟨c, hc, cs, hcs⟩ := begins_of_isAtomic d issued h
    rw [hcs]
    simp only [atomStarts, List.mem_cons, List.not_mem_nil, or_false] at hc
    rcases hc with rfl | rfl | rfl | rfl | rfl | rfl | rfl <;> rfl
  nonempty := by
    intro issued
    obtain ⟨c, -, cs, hcs⟩ := begins_of_isAtomic d issued h
    rw [hcs]
    exact Nat.succ_pos _

theorem ReadsBack.operand (h : ReadsBack d value? e) :
    OperandBack d value? e e.isAtomic (e.asOperand e.pieces) := by
  cases ha : e.isAtomic with
  | true =>
    rw [Expr.asOperand, if_pos ha]
    exact operandBack_of_isAtomic ha
  | false =>
    rw [Expr.asOperand, ha]
    exact h.parenthesized

/-! ## After the first operand -/

variable {bare : Bool} {cs : List Char} {first : Operand}

/-- An expression that begins with an operand is read by what comes after it. -/
theorem readExpr_operand (h : OperandBack d value? e bare ps) (hb : Bound value? issued ps)
    (hn : (chars d issued ps).length ≤ n) (ht : Follows t) :
    readExpr d value? (n + 1) (chars d issued ps ++ t)
      = readAfter d value? n ⟨e.normal, bare⟩ t := by
  rw [readExpr, h.opening issued t, h.read issued n t hb hn ht]
  rfl

/-- An operand with nothing after it is the whole expression, or a conjunction of one part. -/
theorem readExpr_alone (h : OperandBack d value? e bare ps) (hb : Bound value? issued ps)
    (hn : (chars d issued ps).length < n) (ht : Ends t) :
    readExpr d value? n (chars d issued ps ++ t)
      = some (if bare then e.normal else .all [e.normal], t) := by
  have hlength := h.nonempty issued
  obtain ⟨m, rfl⟩ : ∃ m, n = m + 1 + 1 := ⟨n - 2, by omega⟩
  rw [readExpr_operand h hb (by omega) ht.follows, readAfter, ht.connective]

theorem readAfter_math {op : ArithmeticOp} :
    readAfter d value? (n + 1) first ((" " ++ op.text ++ " ").toList ++ cs)
      = (readOperand d value? n cs).map fun s => (.math first.expr op s.1.expr, s.2) := by
  have hword : word? connectives ((" " ++ op.text ++ " ").toList ++ cs) = some (.math op, cs) := by
    cases op <;> rfl
  rw [readAfter, hword]
  dsimp only
  cases readOperand d value? n cs <;> rfl

theorem readAfter_compare {op : ComparisonOp} :
    readAfter d value? (n + 1) first ((" " ++ op.text ++ " ").toList ++ cs)
      = (readOperand d value? n cs).map fun s => (.compare first.expr op s.1.expr, s.2) := by
  have hword : word? connectives ((" " ++ op.text ++ " ").toList ++ cs)
      = some (.compare op, cs) := by
    cases op <;> rfl
  rw [readAfter, hword]
  dsimp only
  cases readOperand d value? n cs <;> rfl

/-- Two operands with a word between them, if what comes after the word is read as an operand. -/
theorem readsBack_infix {word : String} (build : Expr → Expr → Expr)
    (hword : ∀ n first cs, readAfter d value? (n + 1) first (word.toList ++ cs)
      = (readOperand d value? n cs).map fun s => (build first.expr s.1.expr, s.2))
    (hends : word.toList.head?.any isEnd = true)
    (hpieces : e.pieces = l.asOperand l.pieces ++ .text word :: r.asOperand r.pieces)
    (hnormal : e.normal = build l.normal r.normal)
    (hl : ReadsBack d value? l) (hr : ReadsBack d value? r) : ReadsBack d value? e := by
  intro issued n t hb hn ht
  rw [hpieces] at hb hn ⊢
  obtain ⟨hbl, hbr⟩ := bound_append.mp hb
  have hlength := hl.operand.nonempty issued
  simp only [chars_append, chars_text, List.length_append] at hn
  obtain ⟨m, rfl⟩ : ∃ m, n = m + 1 + 1 := ⟨n - 2, by omega⟩
  simp only [chars_append, chars_text, List.append_assoc]
  rw [readExpr_operand hl.operand hbl (by omega) (follows_append hends), hword,
    hr.operand.read _ _ _ hbr (by omega) ht.follows, hnormal]
  rfl

/-! ## Any number of parts -/

/-- Operands are read as long as the separator comes before them. -/
theorem readFurther_flatMap {separator : String} {operand : Expr → List Piece}
    (hends : separator.toList.head?.any isEnd = true) (ht : Follows t)
    (hlast : after? separator.toList t = none)
    (h : ∀ e ∈ es, ∃ bare, OperandBack d value? e bare (operand e))
    (hb : Bound value? issued (es.flatMap fun e => .text separator :: operand e))
    (hn : (chars d issued (es.flatMap fun e => .text separator :: operand e)).length ≤ n) :
    readFurther d value? separator n
        (chars d issued (es.flatMap fun e => .text separator :: operand e) ++ t)
      = some (es.map Expr.normal, t) := by
  have hseparator : 0 < separator.toList.length := by
    refine List.length_pos_iff.mpr fun hnil => ?_
    rw [hnil] at hends
    cases hends
  induction es generalizing issued n with
  | nil => cases n <;> simp [readFurther, hlast]
  | cons e es ih =>
    obtain ⟨⟨bare, he⟩, hes⟩ := List.forall_mem_cons.mp h
    rw [List.flatMap_cons] at hb hn ⊢
    obtain ⟨hbe, hbes⟩ := bound_append.mp hb
    simp only [chars_append, chars_text, List.length_append] at hn
    obtain ⟨m, rfl⟩ : ∃ m, n = m + 1 := ⟨n - 1, by omega⟩
    have hfollows : Follows (chars d (issued + (values (.text separator :: operand e)).length)
        (es.flatMap fun e => .text separator :: operand e) ++ t) := by
      cases es with
      | nil => exact ht
      | cons f es =>
        simp only [List.flatMap_cons, List.cons_append, chars_text, List.append_assoc]
        exact follows_append hends
    have hread := he.read issued m _ hbe (by omega) hfollows
    have hrest := ih (n := m) hes hbes (by omega)
    simp only [chars_append, chars_text, List.append_assoc]
    rw [readFurther, after?_append]
    simp only [hread, hrest, Option.bind_eq_bind, Option.bind_some]
    rfl

theorem furtherOperands_eq :
    Expr.furtherOperands es = es.flatMap fun e => .text ", " :: e.asOperand e.pieces := by
  induction es with
  | nil => rfl
  | cons e es ih => rw [Expr.furtherOperands, ih]; rfl

theorem furtherParts_eq {separator : String} : Expr.furtherParts separator es
    = es.flatMap fun e => .text separator :: parenthesized e.pieces := by
  induction es with
  | nil => rfl
  | cons e es ih => rw [Expr.furtherParts, ih]; rfl

theorem normalAll_eq : Expr.normalAll es = es.map Expr.normal := by
  induction es with
  | nil => rfl
  | cons e es ih => rw [Expr.normalAll, ih]; rfl

/-- Reads operands with a separator between them. -/
def readSeveral (d : Dialect) (value? : String → Option BoundValue) (separator : String) (n : Nat)
    (cs : List Char) : Option (List Expr × List Char) :=
  (readOperand d value? n cs).bind fun first =>
    (readFurther d value? separator n first.2).map fun es => (first.1.expr :: es.1, es.2)

theorem readAfter_and : readAfter d value? (n + 1) first (" AND ".toList ++ cs)
    = (readSeveral d value? " AND " n cs).map fun s => (.all (first.expr :: s.1), s.2) := by
  rw [readAfter, show word? connectives (" AND ".toList ++ cs) = some (.and, cs) from rfl,
    readSeveral]
  dsimp only
  cases readOperand d value? n cs with
  | none => rfl
  | some s => cases hfurther : readFurther d value? " AND " n s.2 <;> simp [hfurther]

theorem readAfter_or : readAfter d value? (n + 1) first (" OR ".toList ++ cs)
    = (readSeveral d value? " OR " n cs).map fun s => (.any (first.expr :: s.1), s.2) := by
  rw [readAfter, show word? connectives (" OR ".toList ++ cs) = some (.or, cs) from rfl,
    readSeveral]
  dsimp only
  cases readOperand d value? n cs with
  | none => rfl
  | some s => cases hfurther : readFurther d value? " OR " n s.2 <;> simp [hfurther]

theorem readSeveral_flatMap {separator : String} {operand : Expr → List Piece}
    (hends : separator.toList.head?.any isEnd = true) (ht : Follows t)
    (hlast : after? separator.toList t = none)
    (h : ∀ f ∈ e :: es, ∃ bare, OperandBack d value? f bare (operand f))
    (hb : Bound value? issued (operand e ++ es.flatMap fun e => .text separator :: operand e))
    (hn : (chars d issued
      (operand e ++ es.flatMap fun e => .text separator :: operand e)).length ≤ n) :
    readSeveral d value? separator n
        (chars d issued (operand e ++ es.flatMap fun e => .text separator :: operand e) ++ t)
      = some ((e :: es).map Expr.normal, t) := by
  obtain ⟨⟨bare, he⟩, hes⟩ := List.forall_mem_cons.mp h
  obtain ⟨hbe, hbes⟩ := bound_append.mp hb
  simp only [chars_append, List.length_append] at hn
  have hfollows : Follows (chars d (issued + (values (operand e)).length)
      (es.flatMap fun e => .text separator :: operand e) ++ t) := by
    cases es with
    | nil => exact ht
    | cons f es =>
      simp only [List.flatMap_cons, List.cons_append, chars_text, List.append_assoc]
      exact follows_append hends
  have hread := he.read issued n _ hbe (by omega) hfollows
  have hrest := readFurther_flatMap (n := n) hends ht hlast hes hbes (by omega)
  simp only [chars_append, List.append_assoc]
  rw [readSeveral, hread, Option.bind_some, hrest]
  rfl

/-- Two or more parts in parentheses with one word between them, if it is read so. -/
theorem readsBack_junction {word : String} (build : List Expr → Expr)
    (hword : ∀ n first cs, readAfter d value? (n + 1) first (word.toList ++ cs)
      = (readSeveral d value? word n cs).map fun s => (build (first.expr :: s.1), s.2))
    (hspace : word.toList.head? = some ' ')
    (hpieces : e.pieces = parenthesized l.pieces ++ Expr.furtherParts word (r :: es))
    (hnormal : e.normal = build ((l :: r :: es).map Expr.normal))
    (h : ∀ f ∈ l :: r :: es, ReadsBack d value? f) : ReadsBack d value? e := by
  obtain ⟨hl, hrest⟩ := List.forall_mem_cons.mp h
  intro issued n t hb hn ht
  rw [hpieces, furtherParts_eq, List.flatMap_cons, List.cons_append] at hb hn ⊢
  obtain ⟨hbl, hbrest⟩ := bound_append.mp hb
  have hlength := hl.parenthesized.nonempty issued
  have hends : word.toList.head?.any isEnd = true := by rw [hspace]; rfl
  rw [chars_append, chars_text] at hn ⊢
  simp only [List.length_append] at hn
  obtain ⟨m, rfl⟩ : ∃ m, n = m + 1 + 1 := ⟨n - 2, by omega⟩
  have hseveral := readSeveral_flatMap (n := m) hends ht.follows (ht.after?_eq_none hspace)
    (fun f hf => ⟨_, (hrest f hf).parenthesized⟩) hbrest (by omega)
  rw [List.append_assoc, List.append_assoc,
    readExpr_operand hl.parenthesized hbl (by omega) (follows_append hends), hword, hseveral,
    hnormal]
  rfl

/-- A test against a set of two or more elements. -/
theorem readsBack_inSet {negated : Bool} (hl : ReadsBack d value? l)
    (h : ∀ f ∈ e :: r :: es, ReadsBack d value? f) :
    ReadsBack d value? (.inSet l (e :: r :: es) negated) := by
  intro issued n t hb hn ht
  have hpieces : (Expr.inSet l (e :: r :: es) negated).pieces
      = l.asOperand l.pieces ++ .text (if negated then " NOT IN (" else " IN (")
        :: ((e.asOperand e.pieces
          ++ (r :: es).flatMap fun e => .text ", " :: e.asOperand e.pieces) ++ [.text ")"]) := by
    simp only [Expr.pieces, furtherOperands_eq, List.append_assoc, List.cons_append]
  rw [hpieces] at hb hn ⊢
  obtain ⟨hbl, hbrest⟩ := bound_append.mp hb
  obtain ⟨hbset, -⟩ := bound_append.mp (bound_text.mp hbrest)
  have hlength := hl.operand.nonempty issued
  rw [chars_append, chars_text, chars_append] at hn ⊢
  simp only [List.length_append] at hn
  obtain ⟨m, rfl⟩ : ∃ m, n = m + 1 + 1 := ⟨n - 2, by omega⟩
  have hseveral := readSeveral_flatMap (d := d) (n := m) (t := ')' :: t)
    (show (", " : String).toList.head?.any isEnd = true from rfl) rfl rfl
    (fun f hf => ⟨_, (h f hf).operand⟩) hbset (by omega)
  have hfollows : Follows ((if negated then " NOT IN (" else " IN (" : String).toList
      ++ (chars d (issued + (values (l.asOperand l.pieces)).length) (e.asOperand e.pieces
        ++ (r :: es).flatMap fun e => .text ", " :: e.asOperand e.pieces) ++ ')' :: t)) := by
    cases negated <;> rfl
  have hword : ∀ n first cs, readAfter d value? (n + 1) first
      ((if negated then " NOT IN (" else " IN (" : String).toList ++ cs)
        = (readSeveral d value? ", " n cs).bind fun s =>
          (after? [')'] s.2).map fun r => (.inSet first.expr s.1 negated, r) := by
    intro n first cs
    have hconnective : word? connectives
        ((if negated then " NOT IN (" else " IN (" : String).toList ++ cs)
          = some (.inSet negated, cs) := by
      cases negated <;> rfl
    rw [readAfter, hconnective, readSeveral]
    dsimp only
    cases readOperand d value? n cs with
    | none => rfl
    | some s =>
      dsimp only [Option.bind_eq_bind, Option.bind_some]
      cases readFurther d value? ", " n s.2 with
      | none => rfl
      | some es => cases hclose : after? [')'] es.2 <;> simp [hclose]
  rw [chars_text, chars_nil, List.append_assoc, List.append_assoc, List.append_assoc]
  refine (readExpr_operand hl.operand hbl (by omega) hfollows).trans ?_
  rw [hword, hseveral]
  simp [after?, Expr.normal, normalAll_eq]

theorem readsBack_between (hl : ReadsBack d value? l) (he : ReadsBack d value? e)
    (hr : ReadsBack d value? r) : ReadsBack d value? (.between l e r) := by
  intro issued n t hb hn ht
  have hpieces : (Expr.between l e r).pieces = l.asOperand l.pieces ++ .text " BETWEEN "
      :: (e.asOperand e.pieces ++ .text " AND " :: r.asOperand r.pieces) := by
    simp only [Expr.pieces, List.append_assoc, List.cons_append]
  rw [hpieces] at hb hn ⊢
  obtain ⟨hbl, hbrest⟩ := bound_append.mp hb
  obtain ⟨hbe, hbr⟩ := bound_append.mp (bound_text.mp hbrest)
  have hlength := hl.operand.nonempty issued
  simp only [chars_append, chars_text, List.length_append] at hn
  obtain ⟨m, rfl⟩ : ∃ m, n = m + 1 + 1 := ⟨n - 2, by omega⟩
  have hhigh := hr.operand.read _ m t hbr (by omega) ht.follows
  have hlow := fun cs => he.operand.read _ m (" AND ".toList ++ cs) hbe (by omega)
    (follows_append rfl)
  simp only [chars_append, chars_text, List.append_assoc]
  rw [readExpr_operand hl.operand hbl (by omega) (follows_append rfl), readAfter,
    show ∀ cs, word? connectives (" BETWEEN ".toList ++ cs) = some (.between, cs) from fun _ => rfl]
  simp only [hlow, hhigh, after?_append, Option.bind_eq_bind, Option.bind_some]
  rfl

theorem readsBack_not (h : ReadsBack d value? e) : ReadsBack d value? (.not e) := by
  intro issued n t hb hn ht
  have hpieces : (Expr.not e).pieces = .text "NOT (" :: (e.pieces ++ [.text ")"]) := rfl
  rw [hpieces] at hb hn ⊢
  obtain ⟨hbe, -⟩ := bound_append.mp (bound_text.mp hb)
  have hlength : 0 < "NOT (".toList.length := by decide
  simp only [chars_append, chars_text, chars_nil, List.append_nil, List.length_append] at hn
  obtain ⟨m, rfl⟩ : ∃ m, n = m + 1 := ⟨n - 1, by omega⟩
  have hread := h issued m (')' :: t) hbe (by omega) rfl
  simp only [chars_append, chars_text, chars_nil, List.append_nil, List.append_assoc]
  rw [readExpr, show ∀ cs, word? openings ("NOT (".toList ++ cs) = some (.negation, cs) from
    fun _ => rfl]
  show (readExpr d value? m (chars d issued e.pieces ++ ')' :: t)).bind _ = _
  rw [hread]
  rfl

/-! ## All expressions -/

theorem readsBack_verdict {word : String} {verdict : Expr}
    (hword : ∀ cs, word? openings (word.toList ++ cs) = some (.verdict verdict, cs))
    (hpieces : e.pieces = [.text word]) (hnormal : e.normal = verdict) : ReadsBack d value? e := by
  intro issued n t hb hn ht
  rw [hpieces] at hn ⊢
  obtain ⟨m, rfl⟩ : ∃ m, n = m + 1 := ⟨n - 1, by omega⟩
  rw [chars_text, chars_nil, List.append_nil, readExpr, hword, hnormal]

theorem readsBack_atom (h : e.isAtomic = true) : ReadsBack d value? e := by
  intro issued n t hb hn ht
  exact readExpr_alone (operandBack_of_isAtomic h) hb hn ht

/-- A conjunction or disjunction of one part. -/
theorem readsBack_single (hpieces : e.pieces = parenthesized l.pieces)
    (hnormal : e.normal = .all [l.normal]) (h : ReadsBack d value? l) : ReadsBack d value? e := by
  intro issued n t hb hn ht
  rw [hpieces] at hb hn ⊢
  rw [hnormal]
  exact readExpr_alone h.parenthesized hb hn ht

mutual

theorem readsBack : (e : Expr) → ReadsBack d value? e
  | .column _ => readsBack_atom rfl
  | .constant _ => readsBack_atom rfl
  | .aggregate _ _ => readsBack_atom rfl
  | .math l op r =>
    readsBack_infix (.math · op ·) (fun _ _ _ => readAfter_math) (by cases op <;> rfl) rfl rfl
      (readsBack l) (readsBack r)
  | .compare l op r =>
    readsBack_infix (.compare · op ·) (fun _ _ _ => readAfter_compare) (by cases op <;> rfl)
      rfl rfl (readsBack l) (readsBack r)
  | .between v low high => readsBack_between (readsBack v) (readsBack low) (readsBack high)
  | .inSet _ [] true => readsBack_verdict (fun _ => rfl) rfl rfl
  | .inSet _ [] false => readsBack_verdict (fun _ => rfl) rfl rfl
  | .inSet v [e] negated =>
    readsBack_infix (.compare · (if negated then .notEq else .eq) ·)
      (fun _ _ _ => readAfter_compare) (by cases negated <;> rfl) rfl rfl
      (readsBack v) (readsBack e)
  | .inSet v (e :: f :: rest) _ => readsBack_inSet (readsBack v) (readsBackAll (e :: f :: rest))
  | .all [] => readsBack_verdict (fun _ => rfl) rfl rfl
  | .all [e] => readsBack_single (by simp [Expr.pieces, Expr.furtherParts]) rfl (readsBack e)
  | .all (e :: f :: rest) =>
    readsBack_junction .all (fun _ _ _ => readAfter_and) rfl rfl
      (by simp [Expr.normal, normalAll_eq]) (readsBackAll (e :: f :: rest))
  | .any [] => readsBack_verdict (fun _ => rfl) rfl rfl
  | .any [e] => readsBack_single (by simp [Expr.pieces, Expr.furtherParts]) rfl (readsBack e)
  | .any (e :: f :: rest) =>
    readsBack_junction .any (fun _ _ _ => readAfter_or) rfl rfl
      (by simp [Expr.normal, normalAll_eq]) (readsBackAll (e :: f :: rest))
  | .not e => readsBack_not (readsBack e)

theorem readsBackAll : (es : List Expr) → ∀ e ∈ es, ReadsBack d value? e
  | [] => nofun
  | e :: es => List.forall_mem_cons.mpr ⟨readsBack e, readsBackAll es⟩

end

end Reader

end SchemaEvolution
