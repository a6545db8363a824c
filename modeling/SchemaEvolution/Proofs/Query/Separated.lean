import SchemaEvolution.Query.Positional
import SchemaEvolution.Query.Select
import SchemaEvolution.Query.Upsert

/-!
# Pieces that stand apart

The pieces of a query can be told apart in its text. Text of SQL holds neither quote characters nor
colons, so that it is never taken for a name or a parameter; and after a name or a value comes text
that is not taken for more of it. All statements are made of such pieces, and so are expressions.
-/

namespace SchemaEvolution

namespace Piece

variable {ps qs : List Piece} {s : String}

/-- Whether a character of SQL begins neither a name nor a parameter. -/
def isPlainChar (c : Char) : Bool := !Positional.isQuote c && c != ':'

/-- Whether a text of SQL holds neither names nor parameters. -/
def isPlain (s : String) : Bool := s.toList.all isPlainChar

/-- Whether a character belongs neither to a name nor to a parameter that stands before it. -/
def isBreakChar (c : Char) : Bool := c == ' ' || c == ',' || c == ')' || c == '.'

/-- Whether a name or a value may stand before a piece. -/
def isBreak : Piece → Bool
  | .text s => s.toList.head?.any isBreakChar
  | _ => false

/-- Whether pieces can be told apart in their text. -/
def Separated : List Piece → Prop
  | [] => True
  | .text s :: ps => isPlain s = true ∧ Separated ps
  | .name _ :: ps => ps.head?.all isBreak = true ∧ Separated ps
  | .value _ :: ps => ps.head?.all isBreak = true ∧ Separated ps

/-- Whether pieces can be told apart from each other and from whatever stands before them. -/
structure Trailing (ps : List Piece) : Prop where
  separated : Separated ps
  start : ps.head?.all isBreak = true

theorem trailing_nil : Trailing [] := ⟨trivial, rfl⟩

theorem trailing_text (hp : isPlain s = true) (hb : isBreak (.text s) = true)
    (h : Separated ps) : Trailing (.text s :: ps) :=
  ⟨⟨hp, h⟩, hb⟩

theorem separated_append (hp : Separated ps) (hq : Trailing qs) : Separated (ps ++ qs) := by
  have hstart : ∀ rs : List Piece, rs.head?.all isBreak = true →
      (rs ++ qs).head?.all isBreak = true := by
    intro rs hr
    cases rs with
    | nil => exact hq.start
    | cons r rs => exact hr
  induction ps with
  | nil => exact hq.separated
  | cons p ps ih =>
    cases p with
    | text s => exact ⟨hp.1, ih hp.2⟩
    | name s => exact ⟨hstart ps hp.1, ih hp.2⟩
    | value v => exact ⟨hstart ps hp.1, ih hp.2⟩

theorem trailing_append (hp : Trailing ps) (hq : Trailing qs) : Trailing (ps ++ qs) := by
  refine ⟨separated_append hp.separated hq, ?_⟩
  cases ps with
  | nil => exact hq.start
  | cons p ps => exact hp.start

theorem trailing_flatMap {α : Type} {f : α → List Piece} {as : List α}
    (h : ∀ a ∈ as, Trailing (f a)) : Trailing (as.flatMap f) := by
  induction as with
  | nil => exact trailing_nil
  | cons a as ih =>
    obtain ⟨ha, has⟩ := List.forall_mem_cons.mp h
    rw [List.flatMap_cons]
    exact trailing_append ha (ih has)

/-- A number may stand after a text. -/
theorem isPlain_numbered {n : Nat} (h : isPlain s = true) :
    isPlain (s ++ Text.Decimal.string n) = true := by
  have hdigits : ∀ c ∈ Text.Decimal.digits n, isPlainChar c = true := by
    intro c hc
    have hd := Text.Decimal.isDigit_of_mem_digits n c hc
    have hne : ∀ a : Char, a.isDigit = false → (c == a) = false := by
      intro a ha
      refine beq_eq_false_iff_ne.mpr fun he => ?_
      rw [he, ha] at hd
      cases hd
    simp [isPlainChar, Positional.isQuote, bne, hne '"' rfl, hne '\x60' rfl, hne '\'' rfl,
      hne ':' rfl]
  rw [isPlain, String.toList_append, List.all_append, Bool.and_eq_true]
  exact ⟨h, by simpa [Text.Decimal.string] using hdigits⟩

theorem isBreak_numbered {n : Nat} (h : isBreak (.text s) = true) :
    isBreak (.text (s ++ Text.Decimal.string n)) = true := by
  show (s ++ Text.Decimal.string n).toList.head?.any isBreakChar = true
  change s.toList.head?.any isBreakChar = true at h
  rw [String.toList_append, List.head?_append]
  cases hs : s.toList.head? with
  | none => rw [hs] at h; cases h
  | some c => rw [hs] at h; exact h

/-- A text that ends what is in parentheses. -/
theorem trailing_close : Trailing [.text ")"] := trailing_text (by decide) (by decide) trivial

theorem separated_parenthesized (h : Separated ps) : Separated (parenthesized ps) :=
  ⟨by decide, separated_append h trailing_close⟩

theorem separated_commas {pss : List (List Piece)} (h : ∀ ps ∈ pss, Separated ps) :
    Separated (commas pss) := by
  induction pss with
  | nil => trivial
  | cons ps pss ih =>
    obtain ⟨hps, hrest⟩ := List.forall_mem_cons.mp h
    cases pss with
    | nil => exact hps
    | cons qs rest =>
      exact separated_append hps (trailing_text (by decide) (by decide) (ih hrest))

theorem separated_commas_map {α : Type} {f : α → List Piece} {as : List α}
    (h : ∀ a ∈ as, Separated (f a)) : Separated (commas (as.map f)) := by
  refine separated_commas fun ps hps => ?_
  obtain ⟨a, ha, rfl⟩ := List.mem_map.mp hps
  exact h a ha

theorem separated_names (ns : List String) : Separated (names ns) :=
  separated_commas_map fun _ _ => ⟨rfl, trivial⟩

end Piece

open Piece

/-! ## Expressions -/

theorem ColumnPath.separated (c : ColumnPath) : Separated c.pieces := by
  unfold ColumnPath.pieces
  split
  · exact ⟨rfl, by decide, rfl, trivial⟩
  · exact ⟨rfl, trivial⟩

namespace Expr

theorem separated_asOperand {e : Expr} {ps : List Piece} (h : Separated ps) :
    Separated (asOperand e ps) := by
  unfold asOperand
  split
  · exact h
  · exact separated_parenthesized h

mutual

theorem separated_pieces : (e : Expr) → Separated e.pieces
  | .column c => c.separated
  | .constant _ => ⟨rfl, trivial⟩
  | .aggregate f none => ⟨by cases f <;> decide, by decide, by decide, by decide, trivial⟩
  | .aggregate f (some c) => ⟨by cases f <;> decide, separated_parenthesized c.separated⟩
  | .math l op r =>
    separated_append (separated_asOperand (separated_pieces l))
      (trailing_text (by cases op <;> decide) (by cases op <;> decide)
        (separated_asOperand (separated_pieces r)))
  | .compare l op r =>
    separated_append (separated_asOperand (separated_pieces l))
      (trailing_text (by cases op <;> decide) (by cases op <;> decide)
        (separated_asOperand (separated_pieces r)))
  | .between v low high => by
    rw [pieces, List.append_assoc]
    exact separated_append (separated_asOperand (separated_pieces v))
      (trailing_text (by decide) (by decide)
        (separated_append (separated_asOperand (separated_pieces low))
          (trailing_text (by decide) (by decide) (separated_asOperand (separated_pieces high)))))
  | .inSet _ [] negated => ⟨by cases negated <;> decide, trivial⟩
  | .inSet v [e] negated =>
    separated_append (separated_asOperand (separated_pieces v))
      (trailing_text (by cases negated <;> decide) (by cases negated <;> decide)
        (separated_asOperand (separated_pieces e)))
  | .inSet v (e :: f :: rest) negated => by
    rw [pieces, List.append_assoc, List.append_assoc]
    exact separated_append (separated_asOperand (separated_pieces v))
      (trailing_text (by cases negated <;> decide) (by cases negated <;> decide)
        (separated_append (separated_asOperand (separated_pieces e))
          (trailing_append (trailing_furtherOperands (f :: rest)) trailing_close)))
  | .all [] => ⟨by decide, trivial⟩
  | .all (e :: rest) =>
    separated_append (separated_parenthesized (separated_pieces e))
      (trailing_furtherParts (by decide) (by decide) rest)
  | .any [] => ⟨by decide, trivial⟩
  | .any (e :: rest) =>
    separated_append (separated_parenthesized (separated_pieces e))
      (trailing_furtherParts (by decide) (by decide) rest)
  | .not e => ⟨by decide, separated_append (separated_pieces e) trailing_close⟩

theorem trailing_furtherOperands : (es : List Expr) → Trailing (furtherOperands es)
  | [] => trailing_nil
  | e :: rest =>
    trailing_text (by decide) (by decide)
      (separated_append (separated_asOperand (separated_pieces e)) (trailing_furtherOperands rest))

theorem trailing_furtherParts {separator : String} (hp : isPlain separator = true)
    (hb : isBreak (.text separator) = true) :
    (es : List Expr) → Trailing (furtherParts separator es)
  | [] => trailing_nil
  | e :: rest =>
    trailing_text hp hb (separated_append (separated_parenthesized (separated_pieces e))
      (trailing_furtherParts hp hb rest))

end

end Expr

/-! ## Clauses -/

theorem Piece.trailing_clause {keyword : String} {e : Option Expr} (hp : isPlain keyword = true)
    (hb : isBreak (.text keyword) = true) : Trailing (clause keyword e) := by
  cases e with
  | none => exact trailing_nil
  | some e => exact trailing_text hp hb e.separated_pieces

namespace Select

theorem trailing_joinPieces (j : Join) : Trailing (joinPieces j) := by
  have hkeyword : ∀ kind : JoinKind, isPlain (" " ++ kind.text ++ " ") = true ∧
      isBreak (.text (" " ++ kind.text ++ " ")) = true := by
    intro kind
    cases kind <;> decide
  have hon : Separated (j.left.pieces ++ .text " = " :: j.right.pieces) :=
    separated_append j.left.separated (trailing_text (by decide) (by decide) j.right.separated)
  exact trailing_text (hkeyword j.kind).1 (hkeyword j.kind).2 ⟨rfl, by decide, hon⟩

theorem separated_orderPieces (o : Expr × SortOrder) : Separated (orderPieces o) := by
  have hkeyword : ∀ order : SortOrder, isPlain (" " ++ order.text) = true ∧
      isBreak (.text (" " ++ order.text)) = true := by
    intro order
    cases order <;> decide
  exact separated_append o.1.separated_pieces
    (trailing_text (hkeyword o.2).1 (hkeyword o.2).2 trivial)

theorem trailing_listPieces {keyword : String} {pss : List (List Piece)}
    (hp : isPlain keyword = true) (hb : isBreak (.text keyword) = true)
    (h : Separated (commas pss)) : Trailing (listPieces keyword pss) := by
  unfold listPieces
  split
  · exact trailing_nil
  · exact trailing_text hp hb h

theorem trailing_countPieces {keyword : String} {n : Option Nat} (hp : isPlain keyword = true)
    (hb : isBreak (.text keyword) = true) : Trailing (countPieces keyword n) := by
  cases n with
  | none => exact trailing_nil
  | some n => exact trailing_text (isPlain_numbered hp) (isBreak_numbered hb) trivial

theorem separated_pieces (s : Select) : Separated s.pieces := by
  have hcolumns : Separated
      (if s.columns.isEmpty then [.text "*"] else commas (s.columns.map Expr.pieces)) := by
    split
    · exact ⟨by decide, trivial⟩
    · exact separated_commas_map fun e _ => e.separated_pieces
  have hrest : Trailing ([.text " FROM ", .name s.table] ++ s.joins.flatMap joinPieces
      ++ clause " WHERE " s.filter
      ++ listPieces " GROUP BY " (s.groupBy.map ColumnPath.pieces)
      ++ clause " HAVING " s.having
      ++ listPieces " ORDER BY " (s.orderBy.map orderPieces)
      ++ countPieces " LIMIT " s.limit ++ countPieces " OFFSET " s.offset) := by
    refine trailing_append (trailing_append (trailing_append (trailing_append (trailing_append
      (trailing_append (trailing_append ?_ ?_) ?_) ?_) ?_) ?_) ?_) ?_
    · exact trailing_text (by decide) (by decide) ⟨rfl, trivial⟩
    · exact trailing_flatMap fun j _ => trailing_joinPieces j
    · exact trailing_clause (by decide) (by decide)
    · exact trailing_listPieces (by decide) (by decide)
        (separated_commas_map fun c _ => c.separated)
    · exact trailing_clause (by decide) (by decide)
    · exact trailing_listPieces (by decide) (by decide)
        (separated_commas_map fun o _ => separated_orderPieces o)
    · exact trailing_countPieces (by decide) (by decide)
    · exact trailing_countPieces (by decide) (by decide)
  have hall := separated_append hcolumns hrest
  unfold pieces
  simp only [List.append_assoc, List.cons_append] at hall ⊢
  refine ⟨by decide, ?_⟩
  split
  · exact ⟨by decide, hall⟩
  · exact hall

end Select

namespace Insert

theorem separated_rowPieces (table : String) (values : List (String × BoundValue)) :
    Separated (rowPieces table values) := by
  have hvalues : Separated (commas (values.map fun v => [.value v.2])) :=
    separated_commas_map fun _ _ => ⟨rfl, trivial⟩
  have hrest : Trailing (.text ") VALUES (" :: commas (values.map fun v => [.value v.2])
      ++ [.text ")"]) :=
    trailing_text (by decide) (by decide) (separated_append hvalues trailing_close)
  have hall := separated_append (separated_names (values.map (·.1))) hrest
  rw [rowPieces, List.append_assoc, List.append_assoc]
  exact ⟨by decide, rfl, by decide, hall⟩

theorem trailing_returningPieces (d : Dialect) (column : Option String) :
    Trailing (returningPieces d column) := by
  unfold returningPieces
  split
  · exact trailing_nil
  · next clause h =>
    obtain ⟨name, -, hclause⟩ := Option.bind_eq_some_iff.mp h
    unfold generatedKeyClause? at hclause
    split at hclause
    · obtain rfl := Option.some.inj hclause
      exact trailing_text (by decide) (by decide) ⟨by decide, rfl, trivial⟩
    · cases hclause

theorem separated_pieces (i : Insert) (d : Dialect) : Separated (i.pieces d) :=
  separated_append (separated_rowPieces i.table i.values) (trailing_returningPieces d i.returning)

end Insert

theorem Update.separated_pieces (u : Update) : Separated u.pieces := by
  have hassignments : Separated (commas (u.assignments.map assignmentPieces)) :=
    separated_commas_map fun a _ => ⟨rfl, by decide, a.2.separated_pieces⟩
  have hfilter : Trailing (clause " WHERE " u.filter) := trailing_clause (by decide) (by decide)
  exact ⟨by decide, rfl, by decide, separated_append hassignments hfilter⟩

theorem Delete.separated_pieces (q : Delete) : Separated q.pieces := by
  have hfilter : Trailing (clause " WHERE " q.filter) := trailing_clause (by decide) (by decide)
  have htable : Separated [.name q.table] := ⟨rfl, trivial⟩
  exact ⟨by decide, separated_append htable hfilter⟩

namespace Upsert

theorem trailing_conflictPieces (updates : List (String × BoundValue)) :
    Trailing (conflictPieces updates) := by
  unfold conflictPieces
  split
  · exact trailing_text (by decide) (by decide) trivial
  · exact trailing_text (by decide) (by decide)
      (separated_commas_map fun _ _ => ⟨rfl, by decide, rfl, trivial⟩)

theorem separated_pieces (u : Upsert) : Separated u.pieces := by
  have htarget : Trailing (.text " ON CONFLICT (" :: names u.target ++ [.text ")"]) :=
    trailing_text (by decide) (by decide)
      (separated_append (separated_names u.target) trailing_close)
  have hall := separated_append (Insert.separated_rowPieces u.table (u.keys ++ u.values))
    (trailing_append htarget (trailing_conflictPieces u.updates))
  simpa only [pieces, List.append_assoc] using hall

end Upsert

/-! ## Everything that is sent -/

/-- A query that a dialect makes of a statement, or of an expression by itself, and its pieces. -/
inductive Built (d : Dialect) : BoundQuery → List Piece → Prop
  | select (s : Select) : Built d (s.toQuery d) s.pieces
  | insert (i : Insert) : Built d (i.toQuery d) (i.pieces d)
  | update (u : Update) : Built d (u.toQuery d) u.pieces
  | delete (q : Delete) : Built d (q.toQuery d) q.pieces
  | upsert {u : Upsert} {q : BoundQuery} (h : u.toQuery d = .ok q) : Built d q u.pieces
  | expression (e : Expr) : Built d (e.toQuery d 0) e.pieces

namespace Built

variable {d : Dialect} {q : BoundQuery} {ps : List Piece}

theorem toQuery_eq (h : Built d q ps) : Piece.toQuery d 0 ps = q := by
  cases h with
  | upsert h =>
    unfold Upsert.toQuery at h
    split at h
    · cases h
    · split at h
      · cases h
      · exact Except.ok.inj h
  | _ => rfl

theorem separated (h : Built d q ps) : Separated ps := by
  cases h with
  | select s => exact s.separated_pieces
  | insert i => exact i.separated_pieces d
  | update u => exact u.separated_pieces
  | delete q => exact q.separated_pieces
  | @upsert u => exact u.separated_pieces
  | expression e => exact e.separated_pieces

end Built

end SchemaEvolution
