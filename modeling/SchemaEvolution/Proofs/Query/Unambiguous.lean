import SchemaEvolution.Proofs.Query.Positional
import SchemaEvolution.Proofs.Query.Readback

/-!
# What the text of an expression determines

Two expressions are written alike only if they are the same up to `Expr.normal`. What their
constants are is not in the text but in the bindings: if only the texts are compared, then the
expressions are the same up to `Expr.normal` once their constants have been blanked out, so that at
least all operators and all parentheses are where they were.
-/

namespace SchemaEvolution

namespace Expr

/-! ## The normal form -/

theorem isAtomic_normal : (e : Expr) → e.normal.isAtomic = e.isAtomic
  | .column _ | .constant _ | .aggregate _ _ => rfl
  | .math _ _ _ | .compare _ _ _ | .between _ _ _ => rfl
  | .inSet _ [] true | .inSet _ [] false => rfl
  | .inSet _ [_] _ | .inSet _ (_ :: _ :: _) _ => rfl
  | .all _ | .any [] | .any [_] | .any (_ :: _ :: _) => rfl
  | .not _ => rfl

mutual

theorem pieces_normal : (e : Expr) → e.normal.pieces = e.pieces
  | .column _ | .constant _ | .aggregate _ _ => rfl
  | .math l op r => by
    simp only [normal, pieces, asOperand, isAtomic_normal, pieces_normal l, pieces_normal r]
  | .compare l op r => by
    simp only [normal, pieces, asOperand, isAtomic_normal, pieces_normal l, pieces_normal r]
  | .between v low high => by
    simp only [normal, pieces, asOperand, isAtomic_normal, pieces_normal v, pieces_normal low,
      pieces_normal high]
  | .inSet _ [] true | .inSet _ [] false => rfl
  | .inSet v [e] negated => by
    simp only [normal, pieces, asOperand, isAtomic_normal, pieces_normal v, pieces_normal e]
  | .inSet v (e :: f :: rest) negated => by
    have hrest := furtherOperands_normal (f :: rest)
    simp only [normalAll] at hrest
    simp only [normal, pieces, hrest, asOperand, isAtomic_normal, pieces_normal v, pieces_normal e]
  | .all [] => rfl
  | .all (e :: rest) => by
    simp only [normal, normalAll, pieces, pieces_normal e, furtherParts_normal]
  | .any [] => rfl
  | .any [e] => by
    simp only [normal, pieces, furtherParts, pieces_normal e]
  | .any (e :: f :: rest) => by
    have hrest := furtherParts_normal " OR " (f :: rest)
    simp only [normalAll] at hrest
    simp only [normal, normalAll, pieces, pieces_normal e, hrest]
  | .not e => by
    simp only [normal, pieces, pieces_normal e]

theorem furtherOperands_normal : (es : List Expr) →
    furtherOperands (normalAll es) = furtherOperands es
  | [] => rfl
  | e :: rest => by
    simp only [normalAll, furtherOperands, asOperand, isAtomic_normal, pieces_normal e,
      furtherOperands_normal rest]

theorem furtherParts_normal (separator : String) : (es : List Expr) →
    furtherParts separator (normalAll es) = furtherParts separator es
  | [] => rfl
  | e :: rest => by
    simp only [normalAll, furtherParts, pieces_normal e, furtherParts_normal separator rest]

end

/-! ## Without the constants -/

mutual

/-- An expression with `NULL` for each of its constants. -/
def blank : Expr → Expr
  | .column c => .column c
  | .constant _ => .constant .null
  | .aggregate f c => .aggregate f c
  | .math l op r => .math l.blank op r.blank
  | .compare l op r => .compare l.blank op r.blank
  | .between v low high => .between v.blank low.blank high.blank
  | .inSet v set negated => .inSet v.blank (blankAll set) negated
  | .all parts => .all (blankAll parts)
  | .any parts => .any (blankAll parts)
  | .not e => .not e.blank

def blankAll : List Expr → List Expr
  | [] => []
  | e :: rest => e.blank :: blankAll rest

end

end Expr

namespace Piece

/-- A piece without the value that it may be. -/
def blank : Piece → Piece
  | .value _ => .value .null
  | p => p

variable {d : Dialect} {issued : Nat} {ps : List Piece}

theorem sql_map_blank : sql d issued (ps.map blank) = sql d issued ps := by
  induction ps generalizing issued with
  | nil => rfl
  | cons p ps ih => cases p <;> simp only [List.map_cons, blank, sql, ih]

theorem bound_map_blank : Bound (fun _ => some .null) issued (ps.map blank) := by
  induction ps generalizing issued with
  | nil => nofun
  | cons p ps ih =>
    cases p with
    | text s => exact ih
    | name s => exact ih
    | value v => exact List.forall_mem_cons.mpr ⟨rfl, ih⟩

theorem map_blank_parenthesized : (parenthesized ps).map blank = parenthesized (ps.map blank) := by
  simp [parenthesized, blank]

end Piece

namespace Expr

open Piece (map_blank_parenthesized)

theorem isAtomic_blank (e : Expr) : e.blank.isAtomic = e.isAtomic := by
  cases e <;> rfl

theorem map_blank_asOperand (e : Expr) :
    (e.asOperand e.pieces).map Piece.blank = e.blank.asOperand (e.pieces.map Piece.blank) := by
  rw [asOperand, asOperand, isAtomic_blank]
  split
  · rfl
  · exact map_blank_parenthesized

theorem map_blank_path (c : ColumnPath) : c.pieces.map Piece.blank = c.pieces := by
  unfold ColumnPath.pieces
  split <;> rfl

mutual

theorem pieces_blank : (e : Expr) → e.blank.pieces = e.pieces.map Piece.blank
  | .column c => by
    simp only [blank, pieces, map_blank_path]
  | .constant _ => rfl
  | .aggregate f none => rfl
  | .aggregate f (some c) => by
    simp only [blank, pieces, List.map_cons, map_blank_parenthesized, map_blank_path, Piece.blank]
  | .math l op r => by
    simp only [blank, pieces, List.map_append, List.map_cons, map_blank_asOperand, pieces_blank l,
      pieces_blank r, Piece.blank]
  | .compare l op r => by
    simp only [blank, pieces, List.map_append, List.map_cons, map_blank_asOperand, pieces_blank l,
      pieces_blank r, Piece.blank]
  | .between v low high => by
    simp only [blank, pieces, List.map_append, List.map_cons, map_blank_asOperand, pieces_blank v,
      pieces_blank low, pieces_blank high, Piece.blank]
  | .inSet _ [] _ => rfl
  | .inSet v [e] negated => by
    simp only [blank, blankAll, pieces, List.map_append, List.map_cons, map_blank_asOperand,
      pieces_blank v, pieces_blank e, Piece.blank]
  | .inSet v (e :: f :: rest) negated => by
    have hrest := furtherOperands_blank (f :: rest)
    simp only [blankAll] at hrest
    simp only [blank, blankAll, pieces, hrest, List.map_append, List.map_cons, List.map_nil,
      map_blank_asOperand, pieces_blank v, pieces_blank e, Piece.blank]
  | .all [] => rfl
  | .all (e :: rest) => by
    simp only [blank, blankAll, pieces, List.map_append, map_blank_parenthesized, pieces_blank e,
      furtherParts_blank]
  | .any [] => rfl
  | .any (e :: rest) => by
    simp only [blank, blankAll, pieces, List.map_append, map_blank_parenthesized, pieces_blank e,
      furtherParts_blank]
  | .not e => by
    simp only [blank, pieces, List.map_append, List.map_cons, List.map_nil, pieces_blank e,
      Piece.blank]

theorem furtherOperands_blank : (es : List Expr) →
    furtherOperands (blankAll es) = (furtherOperands es).map Piece.blank
  | [] => rfl
  | e :: rest => by
    simp only [blankAll, furtherOperands, List.map_append, List.map_cons, map_blank_asOperand,
      pieces_blank e, furtherOperands_blank rest, Piece.blank]

theorem furtherParts_blank (separator : String) : (es : List Expr) →
    furtherParts separator (blankAll es) = (furtherParts separator es).map Piece.blank
  | [] => rfl
  | e :: rest => by
    simp only [blankAll, furtherParts, List.map_append, List.map_cons, map_blank_parenthesized,
      pieces_blank e, furtherParts_blank separator rest, Piece.blank]

end

/-! ## Texts and expressions -/

variable {d : Dialect} {issued : Nat} {value? : String → Option BoundValue} {a b : Expr}

theorem sql_blank (e : Expr) : Piece.sql d issued e.blank.pieces = Piece.sql d issued e.pieces := by
  rw [pieces_blank, Piece.sql_map_blank]

/-- Expressions with one text are alike if the parameters stand for what both are bound to. -/
theorem normal_eq_of_sql_eq (ha : Piece.Bound value? issued a.pieces)
    (hb : Piece.Bound value? issued b.pieces)
    (h : Piece.sql d issued a.pieces = Piece.sql d issued b.pieces) : a.normal = b.normal := by
  have hchars : Piece.chars d issued a.pieces = Piece.chars d issued b.pieces := by
    rw [Piece.chars, Piece.chars, h]
  have hreada := Reader.readsBack (d := d) a issued _ [] ha (Nat.lt_succ_self _) rfl
  have hreadb := Reader.readsBack (d := d) b issued _ [] hb (Nat.lt_succ_self _) rfl
  rw [hchars, hreadb] at hreada
  exact (Prod.mk.inj (Option.some.inj hreada)).1.symm

/-- No two expressions are written alike, in any dialect and after any number of parameters, but
those that are the same up to `normal`; and if only their texts are alike, they are the same up to
`normal` but for their constants. -/
theorem toQuery_unambiguous (d : Dialect) (issued : Nat) (a b : Expr) :
    (a.toQuery d issued = b.toQuery d issued ↔ a.normal = b.normal) ∧
    ((a.toQuery d issued).sql = (b.toQuery d issued).sql ↔ a.blank.normal = b.blank.normal) := by
  refine ⟨⟨fun h => ?_, fun h => ?_⟩, fun h => ?_, fun h => ?_⟩
  · have hbound : Piece.Bound (a.toQuery d issued).value? issued a.pieces :=
      fun _ hm => BoundQuery.value?_toQuery hm
    rw [toQuery_eq, toQuery_eq] at h
    have hbindings := congrArg BoundQuery.bindings h
    have hsql := congrArg BoundQuery.sql h
    rw [Piece.bindings_toQuery, Piece.bindings_toQuery] at hbindings
    rw [Piece.sql_toQuery, Piece.sql_toQuery] at hsql
    exact normal_eq_of_sql_eq hbound (by rwa [Piece.Bound, ← hbindings]) hsql
  · rw [toQuery_eq, toQuery_eq, ← pieces_normal a, ← pieces_normal b, h]
  · have hbound : ∀ e : Expr, Piece.Bound (fun _ => some .null) issued e.blank.pieces := by
      intro e
      rw [pieces_blank]
      exact Piece.bound_map_blank
    refine normal_eq_of_sql_eq (d := d) (hbound a) (hbound b) ?_
    rwa [sql_blank, sql_blank, ← Piece.sql_toQuery, ← Piece.sql_toQuery]
  · have hpieces : a.blank.pieces = b.blank.pieces := by
      rw [← pieces_normal a.blank, ← pieces_normal b.blank, h]
    rw [toQuery_eq, toQuery_eq, Piece.sql_toQuery, Piece.sql_toQuery, ← sql_blank a,
      ← sql_blank b, hpieces]

/-- A difference is grouped by parentheses, on either side. -/
example : ((Expr.math (.math (.column ⟨none, "a"⟩) .sub (.column ⟨none, "b"⟩)) .sub
    (.column ⟨none, "c"⟩)).toQuery .sqlite 0).sql = "(\"a\" - \"b\") - \"c\"" := by
  decide

end Expr

end SchemaEvolution
